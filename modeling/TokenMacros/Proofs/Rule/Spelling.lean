import TokenMacros.Proofs.Rule.Forms

/-!
# What tokens spell

`Spelled ts p` is the grammar of patterns: the tokens `ts` write the pattern `p`, which
stands at no particular place. The reader of patterns accepts exactly this grammar and
builds the pattern that is written:

    (∃ q, Pattern.ofTokens ts = .ok q ∧ q.bare = p.bare) ↔ Spelled ts p.bare
                                                           (Pattern.ofTokens_iff_spelled)

and every other stream is malformed. The forms are tried in a fixed order without a way
back, which loses nothing: the token behind a dollar sign tells which form it has to be.

Soundness is by induction on the fuel, completeness by induction on the spelling; both
take one form behind a dollar sign at a time (`spelled_of_patternForm`,
`Pattern.parse_dollar`).
-/

namespace TokenMacros

variable {ts body rest group : List Token} {dollar : Token} {position : Position}

/-! ## Patterns at no particular place -/

mutual

/-- The node without its positions. -/
def PatternNode.bare : PatternNode → PatternNode
  | .literal t => .literal t.bare
  | .capture name fragment _ => .capture name fragment {}
  | .repetition inner separator q => .repetition (Pattern.bare inner) (separator.map Token.bare) q
  | .choice variants _ => .choice (Pattern.bareEach variants) {}
  | .lookahead inner => .lookahead (Pattern.bare inner)
  | .escape e => .escape e

/-- The pattern without its positions. -/
def Pattern.bare : Pattern → Pattern
  | [] => []
  | node :: rest => node.bare :: Pattern.bare rest

/-- The patterns without their positions. -/
def Pattern.bareEach : List Pattern → List Pattern
  | [] => []
  | p :: rest => Pattern.bare p :: Pattern.bareEach rest

end

/-! ## The grammar -/

/-- The tokens spell the pattern. -/
inductive Spelled : List Token → Pattern → Prop
  | nil : Spelled [] []
  | literal {t : Token} {rest : List Token} {p : Pattern} : t.kind ≠ .dollar → Spelled rest p →
      Spelled (t :: rest) (.literal t.bare :: p)
  /-- `$ name : word` -/
  | capture {dollar name colon word : Token} {fragment : Fragment} {rest : List Token}
      {p : Pattern} : dollar.kind = .dollar → name.kind = .name → colon.isOperator ":" = true →
      word.kind = .name → word.text ∈ fragment.words → Spelled rest p →
      Spelled (dollar :: name :: colon :: word :: rest) (.capture name.text fragment {} :: p)
  /-- `$ ( body ) separator quantifier` -/
  | repetition {dollar mode : Token} {body group written rest : List Token}
      {inner p : Pattern} {separator : Option Token} {q : Quantifier} : dollar.kind = .dollar →
      Enclosed "(" ")" body group → Spelled body inner → WrittenSeparator written separator →
      mode.isOperator q.symbol = true → Spelled rest p →
      Spelled (dollar :: (group ++ (written ++ mode :: rest))) (.repetition inner separator q :: p)
  /-- `$ [ ( body ) | ( body ) ]` -/
  | choice {dollar : Token} {row group rest : List Token}
      {variants : List (List Token × Pattern)} {p : Pattern} : dollar.kind = .dollar →
      Enclosed "[" "]" row group → VariantRow (variants.map Prod.fst) row →
      (∀ v ∈ variants, Spelled v.1 v.2) → Spelled rest p →
      Spelled (dollar :: (group ++ rest)) (.choice (variants.map Prod.snd) {} :: p)
  /-- `$ [ ! body ]` -/
  | lookahead {dollar bang : Token} {body group rest : List Token} {inner p : Pattern} :
      dollar.kind = .dollar → bang.isOperator "!" = true →
      Enclosed "[" "]" (bang :: body) group → Spelled body inner → Spelled rest p →
      Spelled (dollar :: (group ++ rest)) (.lookahead inner :: p)
  /-- `$ $`, `$ >`, `$ <` and `$ ^` -/
  | escape {dollar symbol : Token} {e : Escape} {rest : List Token} {p : Pattern} :
      dollar.kind = .dollar → e.IsSymbol symbol → Spelled rest p →
      Spelled (dollar :: symbol :: rest) (.escape e :: p)

/-! ## Soundness -/

section soundness

variable {parse : List Token → Except Fault Pattern}
  (hparse : ∀ ts q, parse ts = .ok q → Spelled ts q.bare)

include hparse

theorem exists_variants_of_parseEach {parts : List (List Token)} {ps : List Pattern}
    (h : parseEach parse parts = .ok ps) :
    ∃ variants : List (List Token × Pattern), variants.map Prod.fst = parts ∧
      variants.map Prod.snd = Pattern.bareEach ps ∧ ∀ v ∈ variants, Spelled v.1 v.2 := by
  induction parts generalizing ps with
  | nil =>
    cases h
    exact ⟨[], rfl, rfl, by simp⟩
  | cons ts parts ih =>
    rw [parseEach] at h
    split at h
    · cases h
    · next p hp =>
      obtain ⟨ps, hps, rfl⟩ := map_eq_ok_iff.1 h
      obtain ⟨variants, hfst, hsnd, hspelled⟩ := ih hps
      exact ⟨(ts, p.bare) :: variants, by rw [List.map_cons, hfst],
        by rw [List.map_cons, hsnd, Pattern.bareEach],
        List.forall_mem_cons.2 ⟨hparse ts p hp, hspelled⟩⟩

theorem spelled_of_groupNode {node : PatternNode} {p : Pattern} (hdollar : dollar.kind = .dollar)
    (hgroup : Enclosed "[" "]" body group) (h : groupNode parse position body = .ok node)
    (hrest : Spelled rest p) : Spelled (dollar :: (group ++ rest)) (node.bare :: p) := by
  unfold groupNode at h
  split at h
  · next hbang =>
    obtain ⟨inner, hinner, rfl⟩ := map_eq_ok_iff.1 h
    cases body with
    | nil => simp at hbang
    | cons bang body =>
      exact .lookahead hdollar (by simpa using hbang) hgroup (hparse _ _ hinner) hrest
  · split at h
    · cases h
    · next parts hparts =>
      obtain ⟨ps, hps, rfl⟩ := map_eq_ok_iff.1 h
      obtain ⟨variants, rfl, hsnd, hspelled⟩ := exists_variants_of_parseEach hparse hps
      rw [PatternNode.bare, ← hsnd]
      exact .choice hdollar hgroup (variantsFrom_eq_some_iff.1 hparts) hspelled hrest

/-- The form that is read behind a dollar sign is written there. -/
theorem spelled_of_patternForm {node : PatternNode} {p : Pattern}
    (hdollar : dollar.kind = .dollar) (h : patternForm parse dollar ts = .ok (node, rest))
    (hrest : Spelled rest p) : Spelled (dollar :: ts) (node.bare :: p) := by
  unfold patternForm at h
  split at h
  · next name word behind hform =>
    obtain ⟨colon, hname, hcolon, hword, rfl⟩ := captureForm?_eq_some_iff.1 hform
    split at h
    · next fragment hfragment =>
      cases h
      exact .capture hdollar hname hcolon hword (Fragment.ofWord?_eq_some_iff.1 hfragment) hrest
    · cases h
  · split at h
    · next body tail behind hform =>
      obtain ⟨group, behind', hgroup, htail, rfl⟩ := repetitionForm?_eq_some_iff.1 hform
      simp only at h
      split at h
      · cases h
      · next separator q hresolve =>
        obtain ⟨inner, hinner, heq⟩ := map_eq_ok_iff.1 h
        cases heq
        obtain ⟨written, mode, hwritten, hmode, rfl⟩ :=
          exists_written_of_repetitionTail? htail hresolve
        exact .repetition hdollar hgroup (hparse _ _ hinner) hwritten hmode hrest
    · split at h
      · next body behind hsplit =>
        obtain ⟨group, hgroup, rfl⟩ := splitGroup_bracket_iff.1 hsplit
        obtain ⟨node, hnode, heq⟩ := map_eq_ok_iff.1 h
        cases heq
        exact spelled_of_groupNode hparse hdollar hgroup hnode hrest
      · split at h
        · next e behind hescape =>
          cases h
          obtain ⟨symbol, hsymbol, rfl⟩ := escapeForm?_eq_some_iff.1 hescape
          exact .escape hdollar hsymbol hrest
        · cases h

end soundness

/-- What is read is what the tokens spell. -/
theorem spelled_of_parse {fuel : Nat} {q : Pattern} (h : Pattern.parse fuel ts = .ok q) :
    Spelled ts q.bare := by
  induction fuel generalizing ts q with
  | zero =>
    cases ts with
    | nil =>
      cases h
      exact .nil
    | cons t ts => cases h
  | succ fuel ih =>
    cases ts with
    | nil =>
      cases h
      exact .nil
    | cons t ts =>
      rw [Pattern.parse] at h
      split at h
      · next hdollar =>
        split at h
        · cases h
        · next node rest hform =>
          obtain ⟨q, hq, rfl⟩ := map_eq_ok_iff.1 h
          exact spelled_of_patternForm (fun _ _ => ih) hdollar hform (ih hq)
      · next hne =>
        obtain ⟨q, hq, rfl⟩ := map_eq_ok_iff.1 h
        exact .literal hne (ih hq)

/-! ## Completeness -/

namespace Pattern

theorem parse_literal {t : Token} {q : Pattern} {fuel : Nat} (ht : t.kind ≠ .dollar)
    (h : parse fuel ts = .ok q) : parse (fuel + 1) (t :: ts) = .ok (.literal t :: q) := by
  rw [parse, if_neg ht, h]
  rfl

/-- One form, and then the tokens behind it. -/
theorem parse_dollar {node : PatternNode} {q : Pattern} {fuel : Nat}
    (hdollar : dollar.kind = .dollar)
    (hform : patternForm (parse fuel) dollar ts = .ok (node, rest))
    (h : parse fuel rest = .ok q) : parse (fuel + 1) (dollar :: ts) = .ok (node :: q) := by
  rw [parse, if_pos hdollar, hform]
  simp only [h]
  rfl

theorem exists_parseEach_of_forall {parse : List Token → Except Fault Pattern}
    {variants : List (List Token × Pattern)}
    (h : ∀ v ∈ variants, ∃ q, parse v.1 = .ok q ∧ q.bare = v.2) :
    ∃ ps, parseEach parse (variants.map Prod.fst) = .ok ps ∧
      bareEach ps = variants.map Prod.snd := by
  induction variants with
  | nil => exact ⟨[], rfl, rfl⟩
  | cons v variants ih =>
    rw [List.forall_mem_cons] at h
    obtain ⟨⟨q, hq, hbare⟩, h⟩ := h
    obtain ⟨ps, hps, hbares⟩ := ih h
    refine ⟨q :: ps, ?_, ?_⟩
    · rw [List.map_cons, parseEach, hq]
      simp only [hps]
      rfl
    · rw [bareEach, hbare, hbares, List.map_cons]

theorem patternForm_capture {fuel : Nat} {name colon word : Token} {fragment : Fragment}
    (hname : name.kind = .name) (hcolon : colon.isOperator ":" = true)
    (hword : word.kind = .name) (hfragment : word.text ∈ fragment.words) (dollar : Token)
    (rest : List Token) :
    patternForm (parse fuel) dollar (name :: colon :: word :: rest) =
      .ok (.capture name.text fragment dollar.position, rest) := by
  rw [patternForm, captureForm?_eq_some_iff.2 ⟨colon, hname, hcolon, hword, rfl⟩]
  simp only [Fragment.ofWord?_eq_some_iff.2 hfragment]

theorem exists_patternForm_of_repetition {fuel : Nat} {written : List Token} {mode : Token}
    {separator : Option Token} {q : Quantifier} {inner : Pattern}
    (hgroup : Enclosed "(" ")" body group) (hwritten : WrittenSeparator written separator)
    (hmode : mode.isOperator q.symbol = true) (hinner : parse fuel body = .ok inner)
    (dollar : Token) (rest : List Token) :
    ∃ node, patternForm (parse fuel) dollar (group ++ (written ++ mode :: rest)) =
      .ok (node, rest) ∧ node.bare = .repetition inner.bare separator q := by
  obtain ⟨tail, found, htail, hresolve, rfl⟩ :=
    exists_repetitionTail?_of_written hwritten hmode rest dollar.position
  have hform := repetitionForm?_eq_some_iff.2 ⟨group, _, hgroup, htail, rfl⟩
  obtain ⟨opener, behind, rfl, hopener⟩ := hgroup.starts
  have hname : opener.kind ≠ .name := by simp [(Token.isOpener_iff.1 hopener).1]
  refine ⟨.repetition inner found q, ?_, by rw [PatternNode.bare]⟩
  rw [patternForm, List.cons_append, captureForm?_of_ne hname, ← List.cons_append, hform]
  simp only [hresolve, hinner]
  rfl

/-- A bracket behind the dollar sign leads to the node for its group. -/
theorem patternForm_bracket {fuel : Nat} {node : PatternNode}
    (hgroup : Enclosed "[" "]" body group)
    (hnode : groupNode (parse fuel) dollar.position body = .ok node) (rest : List Token) :
    patternForm (parse fuel) dollar (group ++ rest) = .ok (node, rest) := by
  have hsplit := hgroup.splitGroup_bracket rest
  obtain ⟨opener, behind, rfl, hopener⟩ := hgroup.starts
  obtain ⟨hkind, htext⟩ := Token.isOpener_iff.1 hopener
  have hname : opener.kind ≠ .name := by simp [hkind]
  have hparen : opener.isOpener "(" = false := by simp [Token.isOpener, htext]
  rw [List.cons_append] at hsplit ⊢
  rw [patternForm, captureForm?_of_ne hname, repetitionForm?_of_ne hparen, hsplit]
  simp only [hnode]
  rfl

theorem groupNode_lookahead {fuel : Nat} {bang : Token} {inner : Pattern}
    (hbang : bang.isOperator "!" = true) (hinner : parse fuel body = .ok inner)
    (position : Position) :
    groupNode (parse fuel) position (bang :: body) = .ok (.lookahead inner) := by
  simp [groupNode, hbang, hinner, Except.map]

theorem groupNode_choice {fuel : Nat} {row : List Token} {parts : List (List Token)}
    {ps : List Pattern} (hrow : VariantRow parts row)
    (hps : parseEach (parse fuel) parts = .ok ps) (position : Position) :
    groupNode (parse fuel) position row = .ok (.choice ps position) := by
  have hvariants := variantsFrom_eq_some_iff.2 hrow
  obtain ⟨opener, behind, rfl, hopener⟩ := hrow.starts
  have hbang : opener.isOperator "!" = false := by
    simp [Token.isOperator, (Token.isOpener_iff.1 hopener).1]
  simp only [groupNode, List.head?_cons, Option.any_some, hbang, Bool.false_eq_true, if_false,
    hvariants, hps]
  rfl

theorem patternForm_escape {fuel : Nat} {symbol : Token} {e : Escape}
    (hsymbol : e.IsSymbol symbol) (dollar : Token) (rest : List Token) :
    patternForm (parse fuel) dollar (symbol :: rest) = .ok (.escape e, rest) := by
  have hopener := hsymbol.isOpener_eq_false
  rw [patternForm, captureForm?_of_ne hsymbol.plain.1, repetitionForm?_of_ne (hopener _),
    splitGroup_of_ne (hopener _), escapeForm?_eq_some_iff.2 ⟨symbol, hsymbol, rfl⟩]

/-- What tokens spell is read, with fuel for every token. -/
theorem exists_parse_of_spelled {p : Pattern} (h : Spelled ts p) {fuel : Nat}
    (hfuel : ts.length ≤ fuel) : ∃ q, parse fuel ts = .ok q ∧ q.bare = p := by
  induction h generalizing fuel with
  | nil =>
    cases fuel <;> exact ⟨[], rfl, rfl⟩
  | @literal t rest p ht _ ih =>
    cases fuel with
    | zero => simp at hfuel
    | succ fuel =>
      obtain ⟨q, hq, rfl⟩ := ih (Nat.le_of_succ_le_succ hfuel)
      exact ⟨_, parse_literal ht hq, rfl⟩
  | @capture dollar name colon word fragment rest p hdollar hname hcolon hword hfragment _ ih =>
    cases fuel with
    | zero => simp at hfuel
    | succ fuel =>
      simp only [List.length_cons] at hfuel
      have hlen : rest.length ≤ fuel := by omega
      obtain ⟨q, hq, rfl⟩ := ih hlen
      exact ⟨_, parse_dollar hdollar (patternForm_capture hname hcolon hword hfragment dollar rest)
        hq, rfl⟩
  | @repetition dollar mode body group written rest inner p separator quantifier hdollar hgroup _
      hwritten hmode _ ihInner ih =>
    cases fuel with
    | zero => simp at hfuel
    | succ fuel =>
      have hgroupLen := hgroup.length_eq
      simp only [List.length_cons, List.length_append] at hfuel
      have hbodyLen : body.length ≤ fuel := by omega
      have hrestLen : rest.length ≤ fuel := by omega
      obtain ⟨inner, hinner, rfl⟩ := ihInner hbodyLen
      obtain ⟨q, hq, rfl⟩ := ih hrestLen
      obtain ⟨node, hnode, hbare⟩ :=
        exists_patternForm_of_repetition hgroup hwritten hmode hinner dollar rest
      exact ⟨node :: q, parse_dollar hdollar hnode hq, by rw [bare, hbare]⟩
  | @choice dollar row group rest variants p hdollar hgroup hrow _ _ ihVariants ih =>
    cases fuel with
    | zero => simp at hfuel
    | succ fuel =>
      have hgroupLen := hgroup.length_eq
      simp only [List.length_cons, List.length_append] at hfuel
      have hrestLen : rest.length ≤ fuel := by omega
      have hparts : ∀ v ∈ variants, ∃ q, parse fuel v.1 = .ok q ∧ q.bare = v.2 := by
        intro v hv
        have hpartLen := hrow.length_lt v.1 (List.mem_map_of_mem hv)
        exact ihVariants v hv (by omega)
      obtain ⟨ps, hps, hbares⟩ := exists_parseEach_of_forall hparts
      obtain ⟨q, hq, rfl⟩ := ih hrestLen
      have hnode := patternForm_bracket hgroup (groupNode_choice hrow hps dollar.position) rest
      exact ⟨_, parse_dollar hdollar hnode hq, by rw [bare, PatternNode.bare, hbares]⟩
  | @lookahead dollar bang body group rest inner p hdollar hbang hgroup _ _ ihInner ih =>
    cases fuel with
    | zero => simp at hfuel
    | succ fuel =>
      have hgroupLen := hgroup.length_eq
      simp only [List.length_cons, List.length_append] at hfuel hgroupLen
      have hbodyLen : body.length ≤ fuel := by omega
      have hrestLen : rest.length ≤ fuel := by omega
      obtain ⟨inner, hinner, rfl⟩ := ihInner hbodyLen
      obtain ⟨q, hq, rfl⟩ := ih hrestLen
      have hnode :=
        patternForm_bracket hgroup (groupNode_lookahead hbang hinner dollar.position) rest
      exact ⟨_, parse_dollar hdollar hnode hq, by rw [bare, PatternNode.bare]⟩
  | @escape dollar symbol e rest p hdollar hsymbol _ ih =>
    cases fuel with
    | zero => simp at hfuel
    | succ fuel =>
      simp only [List.length_cons] at hfuel
      have hlen : rest.length ≤ fuel := by omega
      obtain ⟨q, hq, rfl⟩ := ih hlen
      exact ⟨_, parse_dollar hdollar (patternForm_escape hsymbol dollar rest) hq, rfl⟩

end Pattern

/-! ## Refusals -/

/-- Does the fault say that something is not spelled right? -/
def Fault.IsMalformed (e : Fault) : Prop := ∃ fault position, e = ⟨.malformed fault, position⟩

theorem isMalformed_badDollar (dollar : Token) (ts : List Token) :
    (badDollar dollar ts).IsMalformed := by
  cases ts <;> exact ⟨_, _, rfl⟩

theorem map_eq_error_iff {α β : Type} {f : α → β} {x : Except Fault α} {e : Fault} :
    x.map f = .error e ↔ x = .error e := by
  cases x <;> simp [Except.map]

theorem RepetitionTail.isMalformed_of_resolve {tail : RepetitionTail} {e : Fault}
    (h : tail.resolve position = .error e) : e.IsMalformed := by
  unfold resolve separatorToken at h
  split at h
  · next f hseparator =>
    cases h
    split at hseparator
    · cases hseparator
    · cases hseparator
    · split at hseparator
      · cases hseparator
      · cases hseparator
        exact ⟨_, _, rfl⟩
  · split at h
    · cases h
    · cases h
      exact ⟨_, _, rfl⟩

section refusals

variable {parse : List Token → Except Fault Pattern} {e : Fault}
  (hparse : ∀ ts e, parse ts = .error e → e.IsMalformed)

include hparse

theorem isMalformed_of_parseEach {parts : List (List Token)}
    (h : parseEach parse parts = .error e) : e.IsMalformed := by
  induction parts with
  | nil => cases h
  | cons ts parts ih =>
    rw [parseEach] at h
    split at h
    · next f hf =>
      cases h
      exact hparse ts e hf
    · exact ih (map_eq_error_iff.1 h)

theorem isMalformed_of_groupNode (h : groupNode parse position body = .error e) :
    e.IsMalformed := by
  unfold groupNode at h
  split at h
  · exact hparse _ e (map_eq_error_iff.1 h)
  · split at h
    · cases h
      exact ⟨_, _, rfl⟩
    · exact isMalformed_of_parseEach hparse (map_eq_error_iff.1 h)

theorem isMalformed_of_patternForm (h : patternForm parse dollar ts = .error e) :
    e.IsMalformed := by
  unfold patternForm at h
  split at h
  · split at h
    · cases h
    · cases h
      exact ⟨_, _, rfl⟩
  · split at h
    · simp only at h
      split at h
      · next f hresolve =>
        cases h
        exact RepetitionTail.isMalformed_of_resolve hresolve
      · exact hparse _ e (map_eq_error_iff.1 h)
    · split at h
      · exact isMalformed_of_groupNode hparse (map_eq_error_iff.1 h)
      · split at h
        · cases h
        · cases h
          exact isMalformed_badDollar dollar ts

end refusals

theorem Pattern.isMalformed_of_parse {fuel : Nat} {e : Fault}
    (h : Pattern.parse fuel ts = .error e) : e.IsMalformed := by
  induction fuel generalizing ts e with
  | zero =>
    cases ts with
    | nil => cases h
    | cons t ts =>
      cases h
      exact isMalformed_badDollar t ts
  | succ fuel ih =>
    cases ts with
    | nil => cases h
    | cons t ts =>
      rw [parse] at h
      split at h
      · split at h
        · next f hform =>
          cases h
          exact isMalformed_of_patternForm (fun _ _ => ih) hform
        · exact ih (map_eq_error_iff.1 h)
      · exact ih (map_eq_error_iff.1 h)

/-! ## The grammar is what is read -/

/-- Reading gives exactly the pattern that the tokens spell, and tokens that spell none are
malformed. -/
theorem Pattern.ofTokens_iff_spelled (ts : List Token) :
    (∀ p : Pattern, (∃ q, Pattern.ofTokens ts = .ok q ∧ q.bare = p.bare) ↔ Spelled ts p.bare) ∧
      ((¬ ∃ p, Spelled ts p) ↔
        ∃ fault position, Pattern.ofTokens ts = .error ⟨.malformed fault, position⟩) := by
  constructor
  · intro p
    constructor
    · rintro ⟨q, hq, hbare⟩
      rw [← hbare]
      exact spelled_of_parse hq
    · exact fun h => exists_parse_of_spelled h (Nat.le_refl _)
  · constructor
    · intro hnone
      cases h : Pattern.ofTokens ts with
      | ok q => exact absurd ⟨q.bare, spelled_of_parse h⟩ hnone
      | error e =>
        obtain ⟨fault, position, rfl⟩ := isMalformed_of_parse h
        exact ⟨fault, position, rfl⟩
    · rintro ⟨fault, position, he⟩ ⟨p, hp⟩
      obtain ⟨q, hq, -⟩ := exists_parse_of_spelled hp (Nat.le_refl _)
      rw [Pattern.ofTokens, hq] at he
      cases he

end TokenMacros

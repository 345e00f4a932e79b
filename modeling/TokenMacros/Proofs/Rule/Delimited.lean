import TokenMacros.Proofs.Rule.Binding
import TokenMacros.Proofs.Rule.Derivation
import TokenMacros.Proofs.Rule.Forms
import TokenMacros.Rule.Filling

/-!
# What rules write is balanced

Whatever the pattern, the tokens in its captures are balanced
(`Pattern.read_delimited`). A template that is spelled with balanced tokens stays
balanced in each of its repetitions, as long as no escape names an indent or a dedent
(`Template.nest_of_parse`), and filling it with balanced tokens keeps it so:

    rule.Delimited → rule.pattern.read ts = some r →
      rule.template.fill r.captures = .ok out → Balanced out   (Rule.Delimited.balanced_fill)
-/

namespace TokenMacros

/-! ## Captures -/

/-- The tokens of all rounds are balanced. -/
inductive Captured.Delimited : Captured → Prop
  | once {tokens : List Token} : Balanced tokens → Delimited (.once tokens)
  | each {rounds : List Captured} : (∀ c ∈ rounds, Delimited c) → Delimited (.each rounds)

/-- All tokens that were captured are balanced, each capture for itself. -/
def Captures.Delimited (captures : Captures) : Prop := ∀ e ∈ captures.entries, e.2.Delimited

variable {captures captures' : Captures} {name : String} {c : Captured}

theorem Captured.delimited_unreached : ∀ depth, (unreached depth).Delimited
  | 0 => .once .nil
  | _ + 1 => .each (by simp)

theorem Captured.Delimited.balanced_along (h : c.Delimited) {path : List Nat}
    {tokens : List Token} (halong : c.along path = some (.once tokens)) : Balanced tokens := by
  induction h generalizing path with
  | once hbalanced =>
    rw [along_once] at halong
    cases halong
    exact hbalanced
  | each hrounds ih =>
    cases path with
    | nil => cases halong
    | cons i path =>
      rw [along] at halong
      split at halong
      · cases halong
      · next c hc => exact ih c (List.mem_of_getElem? hc) halong

namespace Captures

theorem delimited_empty : Delimited ∅ := fun _ he => nomatch he

theorem Delimited.find? (h : captures.Delimited) (hfind : captures.find? name = some c) :
    c.Delimited :=
  h (name, c) (Table.mem_of_lookup hfind)

theorem Delimited.insert (h : captures.Delimited) (hc : c.Delimited) :
    Delimited (Table.insert captures name c) := by
  intro e he
  rcases Table.mem_put he with rfl | he
  · exact hc
  · exact h e he

theorem Delimited.erase (h : captures.Delimited) : Delimited (Table.erase captures name) :=
  fun e he => h e (List.mem_of_mem_filter he)

theorem Delimited.merge (h : captures.Delimited) (h' : captures'.Delimited) :
    Delimited (Table.merge captures captures') := by
  have hfoldl : ∀ entries : List (String × Captured), (∀ e ∈ entries, e.2.Delimited) →
      ∀ t : Captures, t.Delimited → Delimited (entries.foldl (fun t e => t.insert e.1 e.2) t) := by
    intro entries
    induction entries with
    | nil => exact fun _ t ht => ht
    | cons e entries ih =>
      rw [List.forall_mem_cons]
      exact fun hentries t ht => ih hentries.2 _ (ht.insert hentries.1)
  exact hfoldl captures'.entries h' captures h

theorem delimited_gather {slots : List Slot} {items : List Captures} {out : Captures}
    (hitems : ∀ c ∈ items, c.Delimited) (hout : out.Delimited) :
    (gather slots items out).Delimited := by
  induction slots generalizing items out with
  | nil => exact hout
  | cons s slots ih =>
    rw [gather]
    refine ih (fun c hc => ?_) (hout.insert (.each fun x hx => ?_))
    · obtain ⟨item, hitem, rfl⟩ := List.mem_map.1 hc
      exact (hitems item hitem).erase
    · obtain ⟨item, hitem, rfl⟩ := List.mem_map.1 hx
      cases hfind : item.find? s.name with
      | none => exact Captured.delimited_unreached s.depth
      | some value => exact (hitems item hitem).find? hfind

end Captures

/-! ## Reading -/

mutual

theorem PatternNode.read_delimited : ∀ (node : PatternNode) {ts : List Token} {r : Reading},
    node.read ts = some r → r.captures.Delimited
  | .literal _, ts, r, h => by
    obtain ⟨t, rest, -, -, rfl⟩ := read_literal_eq_some.1 h
    exact Captures.delimited_empty
  | .escape _, ts, r, h => by
    obtain ⟨t, rest, -, -, rfl⟩ := read_escape_eq_some.1 h
    exact Captures.delimited_empty
  | .capture name fragment _, ts, r, h => by
    obtain ⟨taken, rest, htake, rfl⟩ := read_capture_eq_some.1 h
    exact Captures.delimited_empty.insert (.once (Fragment.admits_of_take htake).balanced)
  | .repetition inner separator q, ts, r, h => by
    rw [PatternNode.read] at h
    obtain ⟨-, rfl⟩ := readRepetition_eq_some.1 h
    refine Captures.delimited_gather (fun c hc => ?_) Captures.delimited_empty
    obtain ⟨us, found, hfound, rfl⟩ := mem_items_readRounds hc
    exact Pattern.read_delimited inner hfound
  | .choice variants _, ts, r, h => by
    rw [PatternNode.read] at h
    exact Pattern.readFirst_delimited variants h
  | .lookahead inner, ts, r, h => by
    obtain ⟨-, rfl⟩ := read_lookahead_eq_some.1 h
    exact Captures.delimited_empty

/-- What a pattern captures is balanced. -/
theorem Pattern.read_delimited : ∀ (p : Pattern) {ts : List Token} {r : Reading},
    Pattern.read p ts = some r → r.captures.Delimited
  | [], ts, r, h => by
    cases h
    exact Captures.delimited_empty
  | node :: nodes, ts, r, h => by
    obtain ⟨first, second, hfirst, hsecond, rfl⟩ := Pattern.read_cons_eq_some.1 h
    exact (PatternNode.read_delimited node hfirst).merge (Pattern.read_delimited nodes hsecond)

theorem Pattern.readFirst_delimited : ∀ (variants : List Pattern) {ts : List Token}
    {r : Reading}, Pattern.readFirst variants ts = some r → r.captures.Delimited
  | [], _, _, h => by cases h
  | variant :: variants, _, _, h => by
    rcases Pattern.readFirst_cons_eq_some.1 h with hfound | ⟨-, hrest⟩
    · exact Pattern.read_delimited variant hfound
    · exact Pattern.readFirst_delimited variants hrest

end

/-! ## Templates -/

mutual

/-- The delimiters that a node leaves open when its holes are filled with balanced tokens; `none`
if it closes another one than the innermost, or if a repetition is not balanced in itself. -/
def TemplateNode.nest : TemplateNode → List Delimiter → Option (List Delimiter)
  | .literal t, stack => t.nest stack
  | .escape e, stack => (e.token {}).nest stack
  | .hole _ _, stack => some stack
  | .repetition inner separator, stack =>
    if Template.nest inner [] = some [] ∧ Balanced separator.toList then some stack else none

/-- The delimiters that are open behind a template that starts within those of `stack`. -/
def Template.nest : Template → List Delimiter → Option (List Delimiter)
  | [], stack => some stack
  | node :: nodes, stack => (node.nest stack).bind fun next => Template.nest nodes next

end

mutual

/-- Is there no escape in the node that names an indent or a dedent? -/
def TemplateNode.layoutFree : TemplateNode → Bool
  | .literal _ | .hole _ _ => true
  | .escape e => e != .indent && e != .dedent
  | .repetition inner separator =>
    Template.layoutFree inner && separator.all fun t => t.kind != .indent && t.kind != .dedent

/-- Is there no escape in the template that names an indent or a dedent? -/
def Template.layoutFree : Template → Bool
  | [] => true
  | node :: nodes => node.layoutFree && Template.layoutFree nodes

end

section parsing

variable {ts rest body : List Token} {stack : List Delimiter}

theorem LeftOf.openAfter_eq (h : LeftOf ts rest) (stack : List Delimiter) :
    openAfter stack ts = openAfter stack rest := by
  obtain ⟨taken, hbalanced, rfl⟩ := h
  rw [openAfter_append, hbalanced.openAfter_eq, Option.bind_some]

theorem WrittenSeparator.balanced {written : List Token} {separator : Option Token}
    (h : WrittenSeparator written separator) : Balanced written := by
  cases h with
  | none => exact .nil
  | plain ht _ _ => exact .plain (Token.isDelimiter_eq_false_iff.1 ht) .nil
  | @escaped dollar symbol _ hdollar hsymbol =>
    have hplain : dollar.role = .plain := by simp [Token.role, hdollar]
    exact .plain hplain (.plain (Token.isDelimiter_eq_false_iff.1 hsymbol.plain.2.1) .nil)

/-- A separator that is written is balanced, unless it is an indent or a dedent. -/
theorem WrittenSeparator.balanced_toList {written : List Token} {separator : Option Token}
    (h : WrittenSeparator written (separator.map Token.bare))
    (hfree : separator.all (fun t => t.kind != .indent && t.kind != .dedent) = true) :
    Balanced separator.toList := by
  cases separator with
  | none => exact .nil
  | some t =>
    refine .plain ?_ .nil
    rw [Option.map_some] at h
    generalize hbare : t.bare = bare at h
    rw [← Token.role_bare, hbare]
    cases h with
    | plain hplain _ _ => exact Token.isDelimiter_eq_false_iff.1 hplain
    | @escaped _ _ e _ _ =>
      have hkind : t.kind = e.kind := by
        rw [← Escape.kind_token e {}, ← hbare]
        rfl
      cases e with
      | dollar | newline => rfl
      | indent | dedent => simp [hkind, Escape.kind] at hfree

/-- A repetition takes balanced tokens, and so are those of its body. -/
theorem leftOf_of_repetitionForm {tail : RepetitionTail} {position : Position}
    {separator : Option Token} {q : Quantifier}
    (h : repetitionForm? ts = some ((body, tail), rest))
    (hr : tail.resolve position = .ok (separator, q)) : Balanced body ∧ LeftOf ts rest := by
  obtain ⟨group, behind, ⟨ho, hbody, hc⟩, htail, rfl⟩ := repetitionForm?_eq_some_iff.1 h
  obtain ⟨written, mode, hwritten, hmode, rfl⟩ := exists_written_of_repetitionTail? htail hr
  have hgroup := Balanced.tree (role_of_isOpener_paren ho) (closes_paren_iff.2 hc) hbody .nil
  have hmode := Balanced.plain (role_of_isOperator hmode) .nil
  exact ⟨hbody, _, hgroup.append (hwritten.balanced.append hmode), by simp⟩

theorem nameForm?_eq_some {name : Token} (h : nameForm? ts = some (name, rest)) :
    name.kind = .name ∧ ts = name :: rest := by
  unfold nameForm? at h
  split at h
  · cases h
  · split at h
    · next hname =>
      cases h
      exact ⟨hname, rfl⟩
    · cases h

/-- What a form of a template is made of. -/
theorem templateForm_eq_ok {parse : List Token → Except Fault Template} {dollar : Token}
    {node : TemplateNode} (h : templateForm parse dollar ts = .ok (node, rest)) :
    (∃ body tail separator q inner, repetitionForm? ts = some ((body, tail), rest) ∧
      tail.resolve dollar.position = .ok (separator, q) ∧ parse body = .ok inner ∧
        node = .repetition inner separator) ∨
    (∃ name, nameForm? ts = some (name, rest) ∧ node = .hole name.text dollar.position) ∨
    ∃ e, escapeForm? ts = some (e, rest) ∧ node = .escape e := by
  unfold templateForm at h
  split at h
  · next body tail rest' hform =>
    dsimp only at h
    split at h
    · cases h
    · next separator q hresolve =>
      obtain ⟨inner, hinner, heq⟩ := map_eq_ok_iff.1 h
      cases heq
      exact .inl ⟨body, tail, separator, q, inner, hform, hresolve, hinner, rfl⟩
  · split at h
    · next name rest' hname =>
      cases h
      exact .inr (.inl ⟨name, hname, rfl⟩)
    · split at h
      · next e rest' he =>
        cases h
        exact .inr (.inr ⟨e, he, rfl⟩)
      · split at h <;> cases h

/-- The node of a form is balanced in itself, as the tokens of the form are. -/
theorem nest_of_templateForm {parse : List Token → Except Fault Template} {dollar : Token}
    {node : TemplateNode}
    (hparse : ∀ {body inner}, parse body = .ok inner → inner.layoutFree = true → Balanced body →
      inner.nest [] = some [])
    (h : templateForm parse dollar ts = .ok (node, rest)) (hfree : node.layoutFree = true) :
    LeftOf ts rest ∧ ∀ stack, node.nest stack = some stack := by
  rcases templateForm_eq_ok h with ⟨body, tail, separator, q, inner, hform, hresolve, hinner, rfl⟩ |
    ⟨name, hname, rfl⟩ | ⟨e, he, rfl⟩
  · obtain ⟨hbody, hleft⟩ := leftOf_of_repetitionForm hform hresolve
    obtain ⟨-, behind, -, htail, -⟩ := repetitionForm?_eq_some_iff.1 hform
    obtain ⟨written, -, hwritten, -⟩ := exists_written_of_repetitionTail? htail hresolve
    rw [TemplateNode.layoutFree, Bool.and_eq_true] at hfree
    refine ⟨hleft, fun stack => ?_⟩
    rw [TemplateNode.nest, if_pos ⟨hparse hinner hfree.1 hbody, hwritten.balanced_toList hfree.2⟩]
  · obtain ⟨hkind, rfl⟩ := nameForm?_eq_some hname
    exact ⟨.plain (Token.role_of_name hkind) (.refl rest), fun _ => rfl⟩
  · obtain ⟨symbol, hsymbol, rfl⟩ := escapeForm?_eq_some_iff.1 he
    refine ⟨.plain (Token.isDelimiter_eq_false_iff.1 hsymbol.plain.2.1) (.refl rest), fun _ => ?_⟩
    cases e with
    | dollar | newline => rfl
    | indent | dedent => cases hfree

/-- A template is nested as the tokens that spell it. -/
theorem Template.nest_of_parse {fuel : Nat} {t : Template} (h : Template.parse fuel ts = .ok t)
    (hfree : t.layoutFree = true) {next : List Delimiter} (hopen : openAfter stack ts = some next) :
    t.nest stack = some next := by
  induction fuel generalizing ts t stack next with
  | zero =>
    cases ts with
    | nil =>
      cases h
      exact hopen
    | cons token ts => cases h
  | succ fuel ih =>
    cases ts with
    | nil =>
      cases h
      exact hopen
    | cons token ts =>
      rw [Template.parse] at h
      split at h
      · next hdollar =>
        split at h
        · cases h
        · next node rest hform =>
          obtain ⟨nodes, hnodes, rfl⟩ := map_eq_ok_iff.1 h
          rw [layoutFree, Bool.and_eq_true] at hfree
          obtain ⟨hleft, hnode⟩ := nest_of_templateForm
            (fun hinner hfree hbody => ih hinner hfree (hbody.openAfter_eq [])) hform hfree.1
          have hplain : token.role = .plain := by simp [Token.role, hdollar]
          rw [openAfter, nest_of_plain hplain, Option.bind_some, hleft.openAfter_eq] at hopen
          rw [nest, hnode, Option.bind_some]
          exact ih hnodes hfree.2 hopen
      · obtain ⟨nodes, hnodes, rfl⟩ := map_eq_ok_iff.1 h
        rw [layoutFree] at hfree
        rw [openAfter] at hopen
        obtain ⟨here, hhere, hopen⟩ := Option.bind_eq_some_iff.1 hopen
        rw [nest, TemplateNode.nest, hhere, Option.bind_some]
        exact ih hnodes hfree hopen

end parsing

/-! ## Filling -/

theorem balanced_of_writeRounds {body : Nat → Except Fault (List Token)} {separator : Option Token}
    (hseparator : Balanced separator.toList)
    (hbody : ∀ {index here}, body index = .ok here → Balanced here) {index left : Nat}
    {out : List Token} (h : writeRounds body separator index left = .ok out) : Balanced out := by
  induction left generalizing index out with
  | zero =>
    cases h
    exact .nil
  | succ left ih =>
    rw [writeRounds] at h
    split at h
    · cases h
    · next here hhere =>
      obtain ⟨rest, hrest, rfl⟩ := map_eq_ok_iff.1 h
      refine (Balanced.append ?_ (hbody hhere)).append (ih hrest)
      split
      · exact .nil
      · exact hseparator

theorem balanced_of_writeHole (hcaptures : captures.Delimited) {path : List Nat}
    {position : Position} {out : List Token}
    (h : writeHole captures path name position = .ok out) : Balanced out := by
  unfold writeHole at h
  split at h
  · cases h
  · next c hvalue =>
    split at h
    · next tokens halong =>
      cases h
      unfold valueOf at hvalue
      split at hvalue
      · cases hvalue
      · next hfind =>
        cases hvalue
        exact (hcaptures.find? hfind).balanced_along halong
    · cases h
    · cases h

mutual

theorem TemplateNode.nest_of_write (hcaptures : captures.Delimited) : ∀ (node : TemplateNode)
    {path : List Nat} {stack next : List Delimiter} {out : List Token},
    node.nest stack = some next → node.write captures path = .ok out →
      openAfter stack out = some next
  | .literal t, path, stack, next, out, hnest, h => by
    cases h
    rw [TemplateNode.nest] at hnest
    rw [openAfter, hnest]
    rfl
  | .escape e, path, stack, next, out, hnest, h => by
    cases h
    rw [TemplateNode.nest] at hnest
    rw [openAfter, hnest]
    rfl
  | .hole name position, path, stack, next, out, hnest, h => by
    rw [TemplateNode.write] at h
    cases hnest
    exact (balanced_of_writeHole hcaptures h).openAfter_eq stack
  | .repetition inner separator, path, stack, next, out, hnest, h => by
    rw [TemplateNode.nest] at hnest
    rw [TemplateNode.write] at h
    split at hnest
    · next hinner =>
      cases hnest
      split at h
      · cases h
      · next count hcount =>
        refine (balanced_of_writeRounds hinner.2 (fun hhere => ?_) h).openAfter_eq stack
        exact balanced_iff_openAfter.2 (Template.nest_of_write hcaptures inner hinner.1 hhere)
    · cases hnest

/-- Where its holes are filled with balanced tokens, a template is nested as it is itself. -/
theorem Template.nest_of_write (hcaptures : captures.Delimited) : ∀ (t : Template)
    {path : List Nat} {stack next : List Delimiter} {out : List Token},
    t.nest stack = some next → t.write captures path = .ok out → openAfter stack out = some next
  | [], path, stack, next, out, hnest, h => by
    cases h
    exact hnest
  | node :: nodes, path, stack, next, out, hnest, h => by
    rw [Template.nest] at hnest
    obtain ⟨behind, hnode, hnodes⟩ := Option.bind_eq_some_iff.1 hnest
    rw [Template.write] at h
    split at h
    · cases h
    · next here hhere =>
      obtain ⟨rest, hrest, rfl⟩ := map_eq_ok_iff.1 h
      rw [openAfter_append, TemplateNode.nest_of_write hcaptures node hnode hhere, Option.bind_some]
      exact Template.nest_of_write hcaptures nodes hnodes hrest

end

/-! ## Rules -/

/-- The rule is spelled with a balanced template, no escape of which names an indent or a dedent. -/
def Rule.Delimited (rule : Rule) : Prop :=
  ∃ pattern template, Rule.ofTokens pattern template = .ok rule ∧ Balanced template ∧
    rule.template.layoutFree = true

theorem Rule.ofTokens_eq_ok {pattern template : List Token} {rule : Rule}
    (h : Rule.ofTokens pattern template = .ok rule) :
    Pattern.ofTokens pattern = .ok rule.pattern ∧ Template.ofTokens template = .ok rule.template := by
  unfold Rule.ofTokens at h
  split at h
  · cases h
  · next p hp =>
    split at h
    · cases h
    · next t ht =>
      obtain ⟨rfl, rfl⟩ := Rule.make_eq_ok_iff.1 h
      exact ⟨hp, ht⟩

/-- What such a rule writes from a stream that it has read is balanced. -/
theorem Rule.Delimited.balanced_fill {rule : Rule} (h : rule.Delimited) {ts out : List Token}
    {r : Reading} (hread : rule.pattern.read ts = some r)
    (hfill : rule.template.fill r.captures = .ok out) : Balanced out := by
  obtain ⟨pattern, template, hrule, hbalanced, hfree⟩ := h
  have hnest : rule.template.nest [] = some [] :=
    Template.nest_of_parse (Rule.ofTokens_eq_ok hrule).2 hfree (hbalanced.openAfter_eq [])
  exact balanced_iff_openAfter.2
    (Template.nest_of_write (Pattern.read_delimited _ hread) _ hnest hfill)

end TokenMacros

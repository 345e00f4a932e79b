import TokenMacros.Proofs.Position.Spelling
import TokenMacros.Proofs.Rule.Delimited

/-!
# What tokens spell in a template

`SpelledTemplate ts t` is the grammar of templates: the tokens `ts` write the template
`t`, which stands at no particular place. Of the quantifier behind a repetition nothing
is left in `t`, but it has to be written. The reader of templates accepts exactly this
grammar and builds the template that is written:

    (∃ q, Template.ofTokens ts = .ok q ∧ q.bare = t.bare) ↔ SpelledTemplate ts t.bare
                                                 (Template.ofTokens_iff_spelledTemplate)

and every other stream is malformed, whatever stands behind the first dollar sign that
starts no form.

Soundness is by induction on the fuel. Completeness is by induction on the spelling, in
front of any other tokens: what is spelled is read, and the reader goes on behind it with
fuel enough (`Template.exists_parse_append`).
-/

namespace TokenMacros

variable {ts before body group rest : List Token} {dollar bracket : Token}

/-! ## The grammar -/

/-- The tokens spell the template. -/
inductive SpelledTemplate : List Token → Template → Prop
  | nil : SpelledTemplate [] []
  | literal {t : Token} {rest : List Token} {nodes : Template} : t.kind ≠ .dollar →
      SpelledTemplate rest nodes → SpelledTemplate (t :: rest) (.literal t.bare :: nodes)
  /-- `$ name` -/
  | hole {dollar name : Token} {rest : List Token} {nodes : Template} : dollar.kind = .dollar →
      name.kind = .name → SpelledTemplate rest nodes →
      SpelledTemplate (dollar :: name :: rest) (.hole name.text {} :: nodes)
  /-- `$ ( body ) separator quantifier` -/
  | repetition {dollar mode : Token} {body group written rest : List Token}
      {inner nodes : Template} {separator : Option Token} {q : Quantifier} :
      dollar.kind = .dollar → Enclosed "(" ")" body group → SpelledTemplate body inner →
      WrittenSeparator written separator → mode.isOperator q.symbol = true →
      SpelledTemplate rest nodes →
      SpelledTemplate (dollar :: (group ++ (written ++ mode :: rest)))
        (.repetition inner separator :: nodes)
  /-- `$ $`, `$ >`, `$ <` and `$ ^` -/
  | escape {dollar symbol : Token} {e : Escape} {rest : List Token} {nodes : Template} :
      dollar.kind = .dollar → e.IsSymbol symbol → SpelledTemplate rest nodes →
      SpelledTemplate (dollar :: symbol :: rest) (.escape e :: nodes)

/-! ## Soundness -/

/-- The form that is read behind a dollar sign is written there. -/
theorem spelledTemplate_of_templateForm {parse : List Token → Except Fault Template}
    (hparse : ∀ ts q, parse ts = .ok q → SpelledTemplate ts (Template.bare q))
    {node : TemplateNode} {nodes : Template} (hdollar : dollar.kind = .dollar)
    (h : templateForm parse dollar ts = .ok (node, rest)) (hrest : SpelledTemplate rest nodes) :
    SpelledTemplate (dollar :: ts) (node.bare :: nodes) := by
  rcases templateForm_eq_ok h with ⟨body, tail, separator, q, inner, hform, hresolve, hinner, rfl⟩ |
    ⟨name, hname, rfl⟩ | ⟨e, he, rfl⟩
  · obtain ⟨group, behind, hgroup, htail, rfl⟩ := repetitionForm?_eq_some_iff.1 hform
    obtain ⟨written, mode, hwritten, hmode, rfl⟩ := exists_written_of_repetitionTail? htail hresolve
    exact .repetition hdollar hgroup (hparse _ _ hinner) hwritten hmode hrest
  · obtain ⟨hkind, rfl⟩ := nameForm?_eq_some hname
    exact .hole hdollar hkind hrest
  · obtain ⟨symbol, hsymbol, rfl⟩ := escapeForm?_eq_some_iff.1 he
    exact .escape hdollar hsymbol hrest

/-- What is read is what the tokens spell. -/
theorem spelledTemplate_of_parse {fuel : Nat} {q : Template} (h : Template.parse fuel ts = .ok q) :
    SpelledTemplate ts (Template.bare q) := by
  induction fuel generalizing ts q with
  | zero =>
    cases ts with
    | nil =>
      cases h
      exact .nil
    | cons t ts => cases h
  | succ fuel ih =>
    cases ts with
    | nil =>
      cases h
      exact .nil
    | cons t ts =>
      rw [Template.parse] at h
      split at h
      · next hdollar =>
        split at h
        · cases h
        · next node rest hform =>
          obtain ⟨q, hq, rfl⟩ := map_eq_ok_iff.1 h
          exact spelledTemplate_of_templateForm (fun _ _ => ih) hdollar hform (ih hq)
      · next hne =>
        obtain ⟨q, hq, rfl⟩ := map_eq_ok_iff.1 h
        exact .literal hne (ih hq)

/-! ## Completeness -/

theorem nameForm?_of_ne {t : Token} (h : t.kind ≠ .name) : nameForm? (t :: ts) = none := by
  rw [nameForm?, if_neg h]

theorem isOpener_of_name {name : Token} (h : name.kind = .name) (text : String) :
    name.isOpener text = false := by
  simp [Token.isOpener, h]

section forms

variable {parse : List Token → Except Fault Template}

theorem templateForm_hole {name : Token} (hname : name.kind = .name) (dollar : Token)
    (rest : List Token) :
    templateForm parse dollar (name :: rest) = .ok (.hole name.text dollar.position, rest) := by
  rw [templateForm, repetitionForm?_of_ne (isOpener_of_name hname _), nameForm?, if_pos hname]

theorem templateForm_escape {symbol : Token} {e : Escape} (hsymbol : e.IsSymbol symbol)
    (dollar : Token) (rest : List Token) :
    templateForm parse dollar (symbol :: rest) = .ok (.escape e, rest) := by
  rw [templateForm, repetitionForm?_of_ne (hsymbol.isOpener_eq_false _),
    nameForm?_of_ne hsymbol.plain.1, escapeForm?_eq_some_iff.2 ⟨symbol, hsymbol, rfl⟩]

theorem exists_templateForm_of_repetition {written : List Token} {mode : Token}
    {separator : Option Token} {q : Quantifier} {inner : Template}
    (hgroup : Enclosed "(" ")" body group) (hwritten : WrittenSeparator written separator)
    (hmode : mode.isOperator q.symbol = true) (hinner : parse body = .ok inner)
    (dollar : Token) (rest : List Token) :
    ∃ node, templateForm parse dollar (group ++ (written ++ mode :: rest)) = .ok (node, rest) ∧
      node.bare = .repetition (Template.bare inner) separator := by
  obtain ⟨tail, found, htail, hresolve, rfl⟩ :=
    exists_repetitionTail?_of_written hwritten hmode rest dollar.position
  have hform := repetitionForm?_eq_some_iff.2 ⟨group, _, hgroup, htail, rfl⟩
  refine ⟨.repetition inner found, ?_, rfl⟩
  rw [templateForm, hform]
  simp only [hresolve, hinner]
  rfl

end forms

namespace Template

theorem parse_nil (fuel : Nat) : Template.parse fuel [] = .ok [] := by cases fuel <;> rfl

/-- One form, and then the tokens behind it. -/
theorem parse_dollar {node : TemplateNode} {fuel : Nat} (hdollar : dollar.kind = .dollar)
    (hform : templateForm (Template.parse fuel) dollar ts = .ok (node, rest)) :
    Template.parse (fuel + 1) (dollar :: ts) = (Template.parse fuel rest).map (node :: ·) := by
  rw [Template.parse, if_pos hdollar, hform]

/-- What tokens spell is read in front of any others, which are read next, with fuel for every
token. -/
theorem exists_parse_append {t : Template} (h : SpelledTemplate before t) {fuel : Nat}
    (hfuel : (before ++ rest).length ≤ fuel) : ∃ q left, Template.bare q = t ∧
      rest.length ≤ left ∧
      Template.parse fuel (before ++ rest) = (Template.parse left rest).map (q ++ ·) := by
  induction h generalizing fuel rest with
  | nil =>
    refine ⟨[], fuel, rfl, hfuel, ?_⟩
    rw [List.nil_append]
    cases Template.parse fuel rest <;> rfl
  | @literal t before nodes ht _ ih =>
    obtain ⟨fuel, rfl⟩ := Nat.exists_eq_add_of_le' (Nat.one_le_of_lt hfuel)
    obtain ⟨q, left, rfl, hleft, hparse⟩ := ih (Nat.le_of_succ_le_succ hfuel)
    refine ⟨.literal t :: q, left, rfl, hleft, ?_⟩
    rw [List.cons_append, Template.parse, if_neg ht, hparse, except_map_map]
    rfl
  | @hole dollar name before nodes hdollar hname _ ih =>
    obtain ⟨fuel, rfl⟩ := Nat.exists_eq_add_of_le' (Nat.one_le_of_lt hfuel)
    have hlen : (before ++ rest).length ≤ fuel := by
      simp only [List.length_append, List.length_cons] at hfuel ⊢
      omega
    obtain ⟨q, left, rfl, hleft, hparse⟩ := ih hlen
    refine ⟨.hole name.text dollar.position :: q, left, rfl, hleft, ?_⟩
    rw [List.cons_append, List.cons_append, parse_dollar hdollar (templateForm_hole hname _ _),
      hparse, except_map_map]
    rfl
  | @repetition dollar mode body group written before inner nodes separator quantifier hdollar
      hgroup _ hwritten hmode _ ihInner ih =>
    obtain ⟨fuel, rfl⟩ := Nat.exists_eq_add_of_le' (Nat.one_le_of_lt hfuel)
    -- the body is shorter than its group, so the fuel behind the dollar sign will do for both parts
    have hgroupLen := hgroup.length_eq
    simp only [List.length_cons, List.length_append] at hfuel
    have hbodyLen : (body ++ []).length ≤ fuel := by
      rw [List.append_nil]
      omega
    have hrestLen : (before ++ rest).length ≤ fuel := by
      rw [List.length_append]
      omega
    obtain ⟨inner, _, rfl, -, hinner⟩ := ihInner hbodyLen
    obtain ⟨q, left, rfl, hleft, hparse⟩ := ih hrestLen
    have hbody : Template.parse fuel body = .ok inner := by
      simpa [parse_nil, Except.map] using hinner
    obtain ⟨node, hnode, hbare⟩ := exists_templateForm_of_repetition hgroup hwritten hmode hbody
      dollar (before ++ rest)
    refine ⟨node :: q, left, by rw [Template.bare, hbare], hleft, ?_⟩
    simp only [List.cons_append, List.append_assoc]
    rw [parse_dollar hdollar hnode, hparse, except_map_map]
  | @escape dollar symbol e before nodes hdollar hsymbol _ ih =>
    obtain ⟨fuel, rfl⟩ := Nat.exists_eq_add_of_le' (Nat.one_le_of_lt hfuel)
    have hlen : (before ++ rest).length ≤ fuel := by
      simp only [List.length_append, List.length_cons] at hfuel ⊢
      omega
    obtain ⟨q, left, rfl, hleft, hparse⟩ := ih hlen
    refine ⟨.escape e :: q, left, rfl, hleft, ?_⟩
    rw [List.cons_append, List.cons_append, parse_dollar hdollar (templateForm_escape hsymbol _ _),
      hparse, except_map_map]
    rfl

/-- What tokens spell is read. -/
theorem exists_ofTokens_of_spelled {t : Template} (h : SpelledTemplate ts t) :
    ∃ q, Template.ofTokens ts = .ok q ∧ Template.bare q = t := by
  obtain ⟨q, left, rfl, -, hparse⟩ := exists_parse_append h (Nat.le_refl (ts ++ []).length)
  rw [parse_nil, List.append_nil] at hparse
  exact ⟨q ++ [], hparse, by rw [List.append_nil]⟩

end Template

/-! ## Refusals -/

theorem isMalformed_of_templateForm {parse : List Token → Except Fault Template} {e : Fault}
    (hparse : ∀ ts e, parse ts = .error e → e.IsMalformed)
    (h : templateForm parse dollar ts = .error e) : e.IsMalformed := by
  unfold templateForm at h
  split at h
  · dsimp only at h
    split at h
    · next f hresolve =>
      cases h
      exact RepetitionTail.isMalformed_of_resolve hresolve
    · exact hparse _ e (map_eq_error_iff.1 h)
  · split at h
    · cases h
    · split at h
      · cases h
      · split at h
        · cases h
          exact ⟨_, _, rfl⟩
        · cases h
          exact isMalformed_badDollar dollar ts

theorem Template.isMalformed_of_parse {fuel : Nat} {e : Fault}
    (h : Template.parse fuel ts = .error e) : e.IsMalformed := by
  induction fuel generalizing ts e with
  | zero =>
    cases ts with
    | nil => cases h
    | cons t ts =>
      cases h
      exact isMalformed_badDollar t ts
  | succ fuel ih =>
    cases ts with
    | nil => cases h
    | cons t ts =>
      rw [Template.parse] at h
      split at h
      · split at h
        · next f hform =>
          cases h
          exact isMalformed_of_templateForm (fun _ _ => ih) hform
        · exact ih (map_eq_error_iff.1 h)
      · exact ih (map_eq_error_iff.1 h)

/-- No form of a template starts with a bracket. -/
theorem not_spelledTemplate_bracket {t : Template} (hdollar : dollar.kind = .dollar)
    (hbracket : bracket.isOpener "[" = true) :
    ¬ SpelledTemplate (dollar :: bracket :: rest) t := by
  intro h
  obtain ⟨hkind, htext⟩ := Token.isOpener_iff.1 hbracket
  generalize hbehind : bracket :: rest = behind at h
  cases h with
  | literal hne _ => exact hne hdollar
  | hole _ hname _ =>
    cases hbehind
    rw [hkind] at hname
    cases hname
  | repetition _ hgroup _ _ _ _ =>
    obtain ⟨opener, tail, rfl, hopener⟩ := hgroup.starts
    cases hbehind
    simp [Token.isOpener, htext] at hopener
  | escape _ hsymbol _ =>
    cases hbehind
    have hplain := Token.isDelimiter_eq_false_iff.1 hsymbol.plain.2.1
    rw [role_of_isOpener_bracket hbracket] at hplain
    cases hplain

/-- Behind what is spelled, a bracket behind a dollar sign is refused. -/
theorem not_spelledTemplate_append_bracket {t t' : Template} (hbefore : SpelledTemplate before t)
    (hdollar : dollar.kind = .dollar) (hbracket : bracket.isOpener "[" = true) :
    ¬ SpelledTemplate (before ++ dollar :: bracket :: rest) t' := by
  intro h
  obtain ⟨q', hq', -⟩ := Template.exists_ofTokens_of_spelled h
  obtain ⟨q, left, -, -, hparse⟩ := Template.exists_parse_append hbefore (Nat.le_refl _)
  rw [Template.ofTokens, hparse] at hq'
  obtain ⟨behind, hbehind, -⟩ := map_eq_ok_iff.1 hq'
  exact not_spelledTemplate_bracket hdollar hbracket (spelledTemplate_of_parse hbehind)

/-! ## The grammar is what is read -/

/-- What is not spelled is malformed. -/
theorem not_exists_spelledTemplate_iff : (¬ ∃ t, SpelledTemplate ts t) ↔
    ∃ fault position, Template.ofTokens ts = .error ⟨.malformed fault, position⟩ := by
  constructor
  · intro hnone
    cases h : Template.ofTokens ts with
    | ok q => exact absurd ⟨Template.bare q, spelledTemplate_of_parse h⟩ hnone
    | error e =>
      obtain ⟨fault, position, rfl⟩ := Template.isMalformed_of_parse h
      exact ⟨fault, position, rfl⟩
  · rintro ⟨fault, position, he⟩ ⟨t, ht⟩
    obtain ⟨q, hq, -⟩ := Template.exists_ofTokens_of_spelled ht
    rw [hq] at he
    cases he

/-- Reading gives exactly the template that the tokens spell, and tokens that spell none are
malformed, such as those with a bracket behind the dollar sign of a form. -/
theorem Template.ofTokens_iff_spelledTemplate (ts : List Token) :
    (∀ t : Template, (∃ q, Template.ofTokens ts = .ok q ∧ Template.bare q = Template.bare t) ↔
      SpelledTemplate ts (Template.bare t)) ∧
    ((¬ ∃ t, SpelledTemplate ts t) ↔
      ∃ fault position, Template.ofTokens ts = .error ⟨.malformed fault, position⟩) ∧
    ∀ before dollar bracket rest t, ts = before ++ dollar :: bracket :: rest →
      SpelledTemplate before t → dollar.kind = .dollar → bracket.isOpener "[" = true →
      ∃ fault position, Template.ofTokens ts = .error ⟨.malformed fault, position⟩ := by
  refine ⟨fun t => ⟨?_, Template.exists_ofTokens_of_spelled⟩, not_exists_spelledTemplate_iff, ?_⟩
  · rintro ⟨q, hq, hbare⟩
    rw [← hbare]
    exact spelledTemplate_of_parse hq
  · rintro before dollar bracket rest t rfl hbefore hdollar hbracket
    refine not_exists_spelledTemplate_iff.1 ?_
    rintro ⟨t', ht'⟩
    exact not_spelledTemplate_append_bracket hbefore hdollar hbracket ht'

/-- `$($x),*` -/
def listTemplate : Template := [.repetition [.hole "x" {}] (some ⟨.operator, ",", {}⟩)]

/-- The tokens `$ ( $ x ) , *` -/
def listSpelling : List Token :=
  [.dollar {}, ⟨.opener, "(", {}⟩, .dollar {}, ⟨.name, "x", {}⟩, ⟨.closer, ")", {}⟩,
    ⟨.operator, ",", {}⟩, ⟨.operator, "*", {}⟩]

theorem spelledTemplate_listSpelling :
    SpelledTemplate listSpelling (Template.bare listTemplate) := by
  have hbody : Balanced [.dollar {}, ⟨.name, "x", {}⟩] := .plain rfl (.plain rfl .nil)
  have hgroup : Enclosed "(" ")" _ ((listSpelling.drop 1).take 4) := .mk rfl hbody rfl
  have hcomma : WrittenSeparator [⟨.operator, ",", {}⟩] (some ⟨.operator, ",", {}⟩) :=
    .plain rfl (by decide) fun q => by cases q <;> rfl
  exact .repetition (q := .any) rfl hgroup (.hole rfl rfl .nil) hcomma rfl .nil

theorem ofTokens_listSpelling :
    (∃ q, Template.ofTokens listSpelling = .ok q ∧ Template.bare q = Template.bare listTemplate) ∧
    ∃ fault position, Template.ofTokens (listSpelling ++ [.dollar {}, ⟨.opener, "[", {}⟩]) =
      .error ⟨.malformed fault, position⟩ :=
  ⟨((Template.ofTokens_iff_spelledTemplate listSpelling).1 listTemplate).2
      spelledTemplate_listSpelling,
    (Template.ofTokens_iff_spelledTemplate _).2.2 listSpelling _ _ [] _ rfl
      spelledTemplate_listSpelling rfl rfl⟩

end TokenMacros

import TokenMacros.Proofs.Cursor.Finds
import TokenMacros.Proofs.Rule.Forms

/-!
# The forms of rules as patterns

The forms that rules are written with can be told by patterns themselves:

    $$ $name:name : $kind:name                                          capturePattern
    $$ ( $($body:tt)* ) $($($$ $escape:null)? $[!*] $[!+] $[!?]
      $sep:token)? $mode:token                                          repetitionPattern
    $$ [ $($body:tt)* ]                                                 groupPattern
    $$ $symbol:token                                                    symbolPattern
    $$ $name:name                                                       holePattern
    $( ( $($variant:tt)* ) )|+                                          variantsPattern

Each pattern matches exactly where the reader of its form finds the form, leaves the same
tokens, and has captured what the reader gives (`Pattern.Spells`).
-/

namespace TokenMacros

/-! ## Forms behind a dollar sign -/

/-- `$$ $name:name : $kind:name` -/
def capturePattern : Pattern :=
  [.escape .dollar, .capture "name" .name {}, .literal ⟨.operator, ":", {}⟩,
    .capture "kind" .name {}]

/-- `$$ $name:name` -/
def holePattern : Pattern := [.escape .dollar, .capture "name" .name {}]

/-- `$$ $symbol:token` -/
def symbolPattern : Pattern := [.escape .dollar, .capture "symbol" .token {}]

/-- `$$ [ $($body:tt)* ]` -/
def groupPattern : Pattern :=
  [.escape .dollar, .literal ⟨.opener, "[", {}⟩, treesNode "body", .literal ⟨.closer, "]", {}⟩]

/-- `$[!*] $[!+] $[!?] $sep:token` -/
def bareSeparatorPattern : Pattern :=
  [.lookahead [.literal ⟨.operator, "*", {}⟩], .lookahead [.literal ⟨.operator, "+", {}⟩],
    .lookahead [.literal ⟨.operator, "?", {}⟩], .capture "sep" .token {}]

/-- `$($$ $escape:null)? $[!*] $[!+] $[!?] $sep:token` -/
def separatorPattern : Pattern :=
  .repetition [.escape .dollar, .capture "escape" .null {}] none .optional :: bareSeparatorPattern

/-- `$$ ( $($body:tt)* ) $($($$ $escape:null)? $[!*] $[!+] $[!?] $sep:token)? $mode:token` -/
def repetitionPattern : Pattern :=
  [.escape .dollar, .literal ⟨.opener, "(", {}⟩, treesNode "body", .literal ⟨.closer, ")", {}⟩,
    .repetition separatorPattern none .optional, .capture "mode" .token {}]

/-- A token that is no delimiter. -/
def symbolForm? : List Token → Option (Token × List Token)
  | [] => none
  | t :: rest => if t.isDelimiter then none else some (t, rest)

/-- The name and the kind of a capture. -/
def captureIn (captures : Captures) : Walk (Token × Token) := do
  let name ← captures.token "name"
  let kind ← captures.token "kind"
  return (name, kind)

/-- The body of a repetition and what stands behind it. -/
def repetitionIn (captures : Captures) : Walk (List Token × RepetitionTail) := do
  let mode ← captures.token "mode"
  let separator := (captures.tokens "sep").head?.map fun t => (captures.reached "escape", t)
  return (captures.tokens "body", ⟨separator, mode⟩)

/-- The pattern starts with a dollar sign, and matches where the form is found behind it; it leaves
the same tokens, and what is extracted from its captures is what the form holds. -/
structure Pattern.Spells {α : Type} (p : Pattern) (extract : Captures → Walk α)
    (form : List Token → Option (α × List Token)) : Prop where
  starts : ∃ nodes, p = .escape .dollar :: nodes
  finds_eq : ∀ {dollar : Token}, dollar.kind = .dollar → ∀ ts,
    (p.finds (dollar :: ts)).map (fun f => (extract f.1, f.2)) =
      (form ts).map fun f => (.ok f.1, f.2)

theorem Pattern.finds_dollar {dollar : Token} (h : dollar.kind = .dollar) (nodes : Pattern)
    (ts : List Token) : Pattern.finds (.escape .dollar :: nodes) (dollar :: ts) =
      joinFinds ∅ (Pattern.finds nodes ts) := by
  rw [finds_escape]
  exact if_pos h

theorem Pattern.finds_noDollar {t : Token} (h : t.kind ≠ .dollar) (nodes : Pattern)
    (ts : List Token) : Pattern.finds (.escape .dollar :: nodes) (t :: ts) = none := by
  rw [finds_escape]
  exact if_neg h

theorem finds_name (name : String) (nodes : Pattern) (ts : List Token) :
    Pattern.finds (.capture name .name {} :: nodes) ts =
      match ts with
      | [] => none
      | t :: rest =>
        if t.kind = .name then
          joinFinds ((∅ : Captures).insert name (.once [t])) (Pattern.finds nodes rest)
        else none := by
  rw [Pattern.finds_capture (by decide)]
  cases ts with
  | nil => rfl
  | cons t rest => simp only [Fragment.accepts, beq_iff_eq]

theorem finds_token (name : String) (nodes : Pattern) (ts : List Token) :
    Pattern.finds (.capture name .token {} :: nodes) ts =
      match ts with
      | [] => none
      | t :: rest =>
        if t.isDelimiter then none
        else joinFinds ((∅ : Captures).insert name (.once [t])) (Pattern.finds nodes rest) := by
  rw [Pattern.finds_capture (by decide)]
  cases ts with
  | nil => rfl
  | cons t rest => cases h : t.isDelimiter <;> simp [Fragment.accepts, h]

theorem capturePattern_spells : capturePattern.Spells captureIn captureForm? := by
  refine ⟨⟨_, rfl⟩, fun hdollar ts => ?_⟩
  rw [capturePattern, Pattern.finds_dollar hdollar, finds_name]
  match ts with
  | [] => rfl
  | [name] =>
    simp only
    split <;> rfl
  | [name, colon] =>
    simp only [Pattern.finds_literal]
    split
    · split <;> rfl
    · rfl
  | name :: colon :: word :: rest =>
    have hcolon : colon.same ⟨.operator, ":", {}⟩ = colon.isOperator ":" := rfl
    simp only [Pattern.finds_literal, finds_name, captureForm?, hcolon]
    by_cases hname : name.kind = .name
    · by_cases hop : colon.isOperator ":" = true
      · by_cases hword : word.kind = .name
        · simp only [hname, hop, hword, if_true, and_self]
          rfl
        · simp [hname, hop, hword]
      · simp [hname, hop]
    · simp [hname]

theorem holePattern_spells : holePattern.Spells (·.token "name") nameForm? := by
  refine ⟨⟨_, rfl⟩, fun hdollar ts => ?_⟩
  rw [holePattern, Pattern.finds_dollar hdollar, finds_name]
  cases ts with
  | nil => rfl
  | cons t rest =>
    simp only [nameForm?]
    split <;> rfl

theorem symbolPattern_spells : symbolPattern.Spells (·.token "symbol") symbolForm? := by
  refine ⟨⟨_, rfl⟩, fun hdollar ts => ?_⟩
  rw [symbolPattern, Pattern.finds_dollar hdollar, finds_token]
  cases ts with
  | nil => rfl
  | cons t rest =>
    simp only [symbolForm?]
    split <;> rfl

/-- The symbol of an escape is no delimiter. -/
theorem escapeForm?_eq (ts : List Token) : escapeForm? ts =
    (symbolForm? ts).bind fun p => (Escape.ofSymbol? p.1).map (·, p.2) := by
  cases ts with
  | nil => rfl
  | cons t rest =>
    rw [escapeForm?, symbolForm?]
    split
    · next h =>
      cases he : Escape.ofSymbol? t with
      | none => rfl
      | some e =>
        have hplain := (Escape.ofSymbol?_eq_some_iff.1 he).plain.2.1
        rw [h] at hplain
        cases hplain
    · rfl

/-- A group is a tree that the opener starts. -/
theorem splitGroup_eq (text : String) (ts : List Token) :
    splitGroup text ts = splitEnclosed (·.isOpener text) ts := by
  cases ts <;> rfl

theorem finds_parenGroup (name : String) (nodes : Pattern) (ts : List Token) :
    Pattern.finds (.literal ⟨.opener, "(", {}⟩ :: treesNode name ::
      .literal ⟨.closer, ")", {}⟩ :: nodes) ts = (splitGroup "(" ts).bind fun group =>
        joinFinds ∅ (joinFinds ((∅ : Captures).insert name (capturedTrees group.1))
          (joinFinds ∅ (Pattern.finds nodes group.2))) := by
  rw [splitGroup_eq]
  exact Pattern.finds_group (takesOne_opener _) (takesOne_closer _) role_of_isOpener_paren
    closes_paren_iff name nodes ts

theorem finds_bracketGroup (name : String) (nodes : Pattern) (ts : List Token) :
    Pattern.finds (.literal ⟨.opener, "[", {}⟩ :: treesNode name ::
      .literal ⟨.closer, "]", {}⟩ :: nodes) ts = (splitGroup "[" ts).bind fun group =>
        joinFinds ∅ (joinFinds ((∅ : Captures).insert name (capturedTrees group.1))
          (joinFinds ∅ (Pattern.finds nodes group.2))) := by
  rw [splitGroup_eq]
  exact Pattern.finds_group (takesOne_opener _) (takesOne_closer _) role_of_isOpener_bracket
    closes_bracket_iff name nodes ts

theorem balanced_of_splitParen {ts body rest : List Token}
    (h : splitGroup "(" ts = some (body, rest)) : Balanced body := by
  obtain ⟨_, ⟨-, hbody, -⟩, -⟩ := splitGroup_paren_iff.1 h
  exact hbody

theorem balanced_of_splitBracket {ts body rest : List Token}
    (h : splitGroup "[" ts = some (body, rest)) : Balanced body := by
  obtain ⟨_, ⟨-, hbody, -⟩, -⟩ := splitGroup_bracket_iff.1 h
  exact hbody

theorem groupPattern_spells :
    groupPattern.Spells (fun captures => .ok (captures.tokens "body")) (splitGroup "[") := by
  refine ⟨⟨_, rfl⟩, fun hdollar ts => ?_⟩
  rw [groupPattern, Pattern.finds_dollar hdollar, finds_bracketGroup]
  cases h : splitGroup "[" ts with
  | none => rfl
  | some group =>
    have hbody := flatten_capturedTrees (balanced_of_splitBracket h)
    show some ((Except.ok (capturedTrees group.1).flatten : Walk (List Token)), group.2) =
      some (.ok group.1, group.2)
    rw [hbody]

/-- A token that has to be another one. -/
theorem finds_not (l : Token) (nodes : Pattern) (t : Token) (rest : List Token) :
    Pattern.finds (.lookahead [.literal l] :: nodes) (t :: rest) =
      if t.same l then none else joinFinds ∅ (Pattern.finds nodes (t :: rest)) := by
  rw [Pattern.finds_lookahead, Pattern.finds_literal]
  cases t.same l <;> rfl

/-- What a separator pattern finds where no dollar sign stands. -/
theorem finds_bareSeparator (ts : List Token) : bareSeparatorPattern.finds ts =
    match ts with
    | [] => none
    | t :: rest =>
      if canSeparate t then some ((∅ : Captures).insert "sep" (.once [t]), rest) else none := by
  cases ts with
  | nil => rfl
  | cons t rest =>
    have hstar : t.same ⟨.operator, "*", {}⟩ = t.isOperator "*" := rfl
    have hplus : t.same ⟨.operator, "+", {}⟩ = t.isOperator "+" := rfl
    have hmark : t.same ⟨.operator, "?", {}⟩ = t.isOperator "?" := rfl
    simp only [bareSeparatorPattern, finds_not, finds_token, hstar, hplus, hmark, canSeparate,
      Quantifier.ofToken?]
    split_ifs <;> simp_all
    rfl

theorem finds_null (name : String) (nodes : Pattern) (ts : List Token) :
    Pattern.finds (.capture name .null {} :: nodes) ts =
      joinFinds ((∅ : Captures).insert name (.once [])) (Pattern.finds nodes ts) :=
  Pattern.finds_cons_of_some (r := ⟨_, [], ts⟩) (read_capture_eq_some.2 ⟨[], ts, rfl, rfl⟩)

/-- What a separator pattern finds: whether a dollar sign stands there, and the separator. -/
theorem finds_separator (ts : List Token) : separatorPattern.finds ts =
    (separator? ts).map fun f =>
      (((∅ : Captures).insert "escape" (.each (if f.1.1 then [.once []] else []))).merge
        ((∅ : Captures).insert "sep" (.once [f.1.2])), f.2) := by
  rw [separatorPattern]
  cases ts with
  | nil =>
    rw [Pattern.finds_optional_of_none rfl]
    rfl
  | cons t rest =>
    rw [separator?.eq_def]
    simp only
    by_cases hdollar : t.kind = .dollar
    · have hescape : Pattern.finds [.escape .dollar, .capture "escape" .null {}] (t :: rest) =
          some ((∅ : Captures).insert "escape" (.once []), rest) := by
        rw [Pattern.finds_dollar hdollar, finds_null]
        rfl
      rw [Pattern.finds_optional_of_some hescape, if_pos hdollar, finds_bareSeparator]
      cases rest with
      | nil => rfl
      | cons symbol behind =>
        simp only
        split <;> rfl
    · rw [Pattern.finds_optional_of_none (Pattern.finds_noDollar hdollar _ _), if_neg hdollar,
        finds_bareSeparator]
      simp only
      split <;> rfl

theorem repetitionPattern_spells : repetitionPattern.Spells repetitionIn repetitionForm? := by
  refine ⟨⟨_, rfl⟩, fun hdollar ts => ?_⟩
  rw [repetitionPattern, Pattern.finds_dollar hdollar, finds_parenGroup, repetitionForm?]
  cases hgroup : splitGroup "(" ts with
  | none => rfl
  | some group =>
    obtain ⟨body, behind⟩ := group
    have hbody := flatten_capturedTrees (balanced_of_splitParen hgroup)
    have hfinds := finds_separator behind
    simp only [Option.bind_some, repetitionTail?]
    cases hsep : separator? behind with
    | none =>
      rw [hsep, Option.map_none] at hfinds
      rw [Pattern.finds_optional_of_none hfinds, finds_token]
      cases behind with
      | nil => rfl
      | cons mode rest =>
        simp only
        split
        · rfl
        · conv_rhs => rw [← hbody]
          rfl
    | some found =>
      obtain ⟨⟨dollared, separator⟩, behind'⟩ := found
      rw [hsep, Option.map_some] at hfinds
      rw [Pattern.finds_optional_of_some hfinds, finds_token]
      cases behind' with
      | nil => rfl
      | cons mode rest =>
        simp only
        cases mode.isDelimiter with
        | true => rfl
        | false =>
          conv_rhs => rw [← hbody]
          cases dollared <;> rfl

/-! ## Choices -/

/-- `( $($variant:tt)* )` -/
def variantPattern : Pattern :=
  [.literal ⟨.opener, "(", {}⟩, treesNode "variant", .literal ⟨.closer, ")", {}⟩]

/-- `$( ( $($variant:tt)* ) )|+` -/
def variantsPattern : Pattern :=
  [.repetition variantPattern (some ⟨.operator, "|", {}⟩) .atLeastOne]

theorem variantPattern_cuts : variantPattern.Cuts (·.tokens "variant") (splitGroup "(") where
  finds_eq ts := by
    rw [variantPattern, finds_parenGroup]
    cases h : splitGroup "(" ts with
    | none => rfl
    | some group =>
      have hbody := flatten_capturedTrees (balanced_of_splitParen h)
      show some ((capturedTrees group.1).flatten, group.2) = _
      rw [hbody]
  starts := ⟨_, _, rfl⟩

/-- The variants of a choice are rows of groups. -/
theorem variantsFrom_eq_cutRows (fuel : Nat) (ts : List Token) : variantsFrom fuel ts =
    cutRows (splitGroup "(") (some ⟨.operator, "|", {}⟩) fuel ts := by
  induction fuel generalizing ts with
  | zero => rfl
  | succ fuel ih =>
    rw [variantsFrom, cutRows]
    cases splitGroup "(" ts with
    | none => rfl
    | some group =>
      obtain ⟨variant, behind⟩ := group
      cases behind with
      | nil => rfl
      | cons bar rest =>
        have hbar : bar.same ⟨.operator, "|", {}⟩ = bar.isOperator "|" := rfl
        simp only [splitSeparator, hbar, ih]
        split <;> rfl

/-- The variants that the pattern captures are those of the choice. -/
theorem readWhole_variantsPattern (body : List Token) :
    (variantsPattern.readWhole body).map
        (fun captures => (captures.rounds "variant").map Captured.flatten) =
      variantsFrom body.length body := by
  rw [variantsFrom_eq_cutRows, variantsPattern]
  rcases readWhole_rows variantPattern_cuts (some ⟨.operator, "|", {}⟩) body with
    ⟨hread, hcut⟩ | ⟨items, hread, hcut⟩
  · rw [hread, hcut]
    rfl
  · rw [hread, hcut]
    show some ((items.map fun captures =>
      (captures.find? "variant").getD (.unreached 1)).map Captured.flatten) = _
    simp only [List.map_map, Function.comp_def, flatten_getD_unreached]

end TokenMacros

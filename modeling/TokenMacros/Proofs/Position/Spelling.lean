import TokenMacros.Proofs.Position.Bare
import TokenMacros.Proofs.Rule.Spelling
import TokenMacros.Rule.Declaration

/-!
# Positions in spelled rules

Tokens that agree up to positions spell patterns, templates, rules and declarations that
agree, or are malformed in the same way.

    Pattern.ofTokens (bare ts) = bare (Pattern.ofTokens ts)
    Rule.ofTokens (bare pattern) (bare template) = bare (Rule.ofTokens pattern template)
    Declaration.read operator (bare ts) = bare (Declaration.read operator ts)
                                                           (declaration_read_bare)
-/

namespace TokenMacros

/-! ## Patterns and templates -/

instance : Placed Fragment := ⟨id⟩
instance : Placed Quantifier := ⟨id⟩
instance : Placed Escape := ⟨id⟩

instance : Placed PatternNode := ⟨PatternNode.bare⟩

mutual

/-- The node without positions. -/
def TemplateNode.bare : TemplateNode → TemplateNode
  | .literal token => .literal (Placed.bare token)
  | .hole name _ => .hole name {}
  | .repetition inner separator => .repetition (Template.bare inner) (Placed.bare separator)
  | .escape escape => .escape escape

/-- The nodes without positions. -/
def Template.bare : List TemplateNode → List TemplateNode
  | [] => []
  | node :: nodes => node.bare :: Template.bare nodes

end

instance : Placed TemplateNode := ⟨TemplateNode.bare⟩

theorem pattern_bare_eq (p : Pattern) : Pattern.bare p = bare p := by
  induction p with
  | nil => rfl
  | cons node nodes ih => rw [Pattern.bare, ih]; rfl

theorem bareEach_eq (variants : List Pattern) : Pattern.bareEach variants = bare variants := by
  induction variants with
  | nil => rfl
  | cons variant variants ih => rw [Pattern.bareEach, ih, pattern_bare_eq]; rfl

theorem template_bare_eq (t : Template) : Template.bare t = bare t := by
  induction t with
  | nil => rfl
  | cons node nodes ih => rw [Template.bare, ih]; rfl

section nodes

variable (name : String) (fragment : Fragment) (position : Position) (token : Token)
  (separator : Option Token) (q : Quantifier) (escape : Escape)

@[simp] theorem bare_literal : bare (PatternNode.literal token) = .literal (bare token) := rfl

@[simp] theorem bare_capture :
    bare (PatternNode.capture name fragment position) = .capture name fragment {} := rfl

@[simp] theorem bare_repetition (inner : Pattern) :
    bare (PatternNode.repetition inner separator q) =
      .repetition (bare inner) (bare separator) q := by
  rw [← pattern_bare_eq inner]
  rfl

@[simp] theorem bare_choice (variants : List Pattern) :
    bare (PatternNode.choice variants position) = .choice (bare variants) {} := by
  rw [← bareEach_eq variants]
  rfl

@[simp] theorem bare_lookahead (inner : Pattern) :
    bare (PatternNode.lookahead inner) = .lookahead (bare inner) := by
  rw [← pattern_bare_eq inner]
  rfl

@[simp] theorem bare_escape : bare (PatternNode.escape escape) = .escape escape := rfl

@[simp] theorem bare_hole : bare (TemplateNode.hole name position) = .hole name {} := rfl

@[simp] theorem bare_templateRepetition (inner : Template) :
    bare (TemplateNode.repetition inner separator) = .repetition (bare inner) (bare separator) := by
  rw [← template_bare_eq inner]
  rfl

end nodes

/-! ## Forms -/

instance : Placed RepetitionTail := ⟨fun tail => ⟨bare tail.separator, bare tail.mode⟩⟩

theorem separator_bare (tail : RepetitionTail) : (bare tail).separator = bare tail.separator := rfl

theorem mode_bare (tail : RepetitionTail) : (bare tail).mode = bare tail.mode := rfl

theorem badDollar_bare (dollar : Token) (ts : List Token) :
    badDollar (bare dollar) (bare ts) = bare (badDollar dollar ts) := by
  cases ts <;> rfl

theorem captureForm?_bare (ts : List Token) : captureForm? (bare ts) = bare (captureForm? ts) := by
  match ts with
  | [] | [_] | [_, _] => rfl
  | name :: colon :: word :: rest =>
    simp only [bare_cons, captureForm?, kind_bare, isOperator_bare, bare_ite]
    rfl

theorem canSeparate_bare (t : Token) : canSeparate (bare t) = canSeparate t := rfl

theorem separator?_bare (ts : List Token) : separator? (bare ts) = bare (separator? ts) := by
  match ts with
  | [] => rfl
  | [t] =>
    simp only [bare_cons, bare_nil, separator?, kind_bare, canSeparate_bare, bare_ite]
    rfl
  | t :: symbol :: rest =>
    simp only [bare_cons, separator?, kind_bare, canSeparate_bare, bare_ite]
    rfl

theorem repetitionTail?_bare (ts : List Token) :
    repetitionTail? (bare ts) = bare (repetitionTail? ts) := by
  rw [repetitionTail?, repetitionTail?, separator?_bare]
  cases separator? ts with
  | none =>
    cases ts with
    | nil => rfl
    | cons mode rest =>
      simp only [bare_none, bare_cons, isDelimiter_bare, bare_ite]
      rfl
  | some found =>
    obtain ⟨s, behind⟩ := found
    cases behind with
    | nil => rfl
    | cons mode rest =>
      simp only [bare_some, bare_mk, bare_cons, isDelimiter_bare, bare_ite]
      rfl

theorem repetitionForm?_bare (ts : List Token) :
    repetitionForm? (bare ts) = bare (repetitionForm? ts) := by
  rw [repetitionForm?, repetitionForm?, splitGroup_bare]
  cases splitGroup "(" ts with
  | none => rfl
  | some found =>
    obtain ⟨body, behind⟩ := found
    simp only [bare_some, bare_mk, repetitionTail?_bare]
    cases repetitionTail? behind <;> rfl

theorem escapeForm?_bare (ts : List Token) : escapeForm? (bare ts) = bare (escapeForm? ts) := by
  cases ts with
  | nil => rfl
  | cons symbol rest =>
    show (Escape.ofSymbol? symbol).map (·, bare rest) =
      bare ((Escape.ofSymbol? symbol).map (·, rest))
    cases Escape.ofSymbol? symbol <;> rfl

theorem variantsFrom_bare (fuel : Nat) (ts : List Token) :
    variantsFrom fuel (bare ts) = bare (variantsFrom fuel ts) := by
  induction fuel generalizing ts with
  | zero => rfl
  | succ fuel ih =>
    rw [variantsFrom, variantsFrom, splitGroup_bare]
    cases splitGroup "(" ts with
    | none => rfl
    | some found =>
      obtain ⟨variant, behind⟩ := found
      cases behind with
      | nil => rfl
      | cons bar rest =>
        simp only [bare_some, bare_mk, bare_cons, isOperator_bare, ih, bare_ite]
        cases variantsFrom fuel rest <;> rfl

theorem ofSymbol?_bare (t : Token) : Escape.ofSymbol? (bare t) = Escape.ofSymbol? t := rfl

theorem ofToken?_bare (t : Token) : Quantifier.ofToken? (bare t) = Quantifier.ofToken? t := rfl

theorem separatorToken_bare (tail : RepetitionTail) :
    (bare tail).separatorToken = bare tail.separatorToken := by
  rw [RepetitionTail.separatorToken, RepetitionTail.separatorToken, separator_bare]
  cases tail.separator with
  | none => rfl
  | some found =>
    obtain ⟨escaped, symbol⟩ := found
    cases escaped with
    | false => rfl
    | true =>
      simp only [bare_some, bare_mk, bare_bool, ofSymbol?_bare]
      cases Escape.ofSymbol? symbol with
      | none => rfl
      | some escape => cases escape <;> rfl

theorem resolve_bare (tail : RepetitionTail) (position : Position) :
    (bare tail).resolve {} = bare (tail.resolve position) := by
  rw [RepetitionTail.resolve, RepetitionTail.resolve, separatorToken_bare, mode_bare,
    ofToken?_bare]
  cases tail.separatorToken with
  | error e => rfl
  | ok separator => cases Quantifier.ofToken? tail.mode <;> rfl

/-! ## Reading patterns and templates -/

theorem parseEach_bare {α : Type} [Placed α] {parse : List Token → Except Fault α}
    (hparse : ∀ ts, parse (bare ts) = bare (parse ts)) (rows : List (List Token)) :
    parseEach parse (bare rows) = bare (parseEach parse rows) := by
  induction rows with
  | nil => rfl
  | cons ts rows ih =>
    rw [bare_cons, parseEach, parseEach, hparse, ih]
    cases parse ts with
    | error e => rfl
    | ok a => cases parseEach parse rows <;> rfl

section patterns

variable {parse : List Token → Except Fault Pattern}
  (hparse : ∀ ts, parse (bare ts) = bare (parse ts))

include hparse

theorem groupNode_bare (position : Position) (body : List Token) :
    groupNode parse {} (bare body) = bare (groupNode parse position body) := by
  have hhead : (bare body).head?.any (·.isOperator "!") = body.head?.any (·.isOperator "!") := by
    cases body <;> rfl
  have htail : (bare body).tail = bare body.tail := List.map_tail.symm
  rw [groupNode, groupNode, hhead, htail, hparse, variantsFrom_bare, length_bare, bare_ite]
  congr 1
  · exact map_bare (fun p => (bare_lookahead p).symm) _
  · cases variantsFrom body.length body with
    | none => rfl
    | some variants =>
      simp only [bare_some, parseEach_bare hparse]
      exact map_bare (fun vs => (bare_choice position vs).symm) _

theorem patternForm_bare (dollar : Token) (ts : List Token) :
    patternForm parse (bare dollar) (bare ts) = bare (patternForm parse dollar ts) := by
  simp only [patternForm, captureForm?_bare, repetitionForm?_bare, splitGroup_bare,
    escapeForm?_bare, badDollar_bare]
  cases captureForm? ts with
  | some found =>
    obtain ⟨⟨name, word⟩, rest⟩ := found
    simp only [bare_some, bare_mk, text_bare]
    cases Fragment.ofWord? word.text <;> rfl
  | none =>
    cases repetitionForm? ts with
    | some found =>
      obtain ⟨⟨body, tail⟩, rest⟩ := found
      simp only [bare_some, bare_mk, bare_none, position_bare, resolve_bare tail dollar.position]
      cases tail.resolve dollar.position with
      | error e => rfl
      | ok found =>
        simp only [bare_ok, fst_bare, snd_bare, hparse]
        exact map_bare (fun inner => congrArg (·, bare rest) (bare_repetition ..).symm) _
    | none =>
      cases splitGroup "[" ts with
      | some found =>
        obtain ⟨body, rest⟩ := found
        simp only [bare_some, bare_mk, bare_none, position_bare,
          groupNode_bare hparse dollar.position]
        cases groupNode parse dollar.position body <;> rfl
      | none =>
        cases escapeForm? ts <;> rfl

end patterns

theorem pattern_parse_bare (fuel : Nat) (ts : List Token) :
    Pattern.parse fuel (bare ts) = bare (Pattern.parse fuel ts) := by
  induction fuel generalizing ts with
  | zero =>
    cases ts with
    | nil => rfl
    | cons t ts =>
      rw [bare_cons, Pattern.parse, Pattern.parse, badDollar_bare]
      rfl
  | succ fuel ih =>
    cases ts with
    | nil => rfl
    | cons t ts =>
      rw [bare_cons, Pattern.parse, Pattern.parse, kind_bare, patternForm_bare ih, ih, bare_ite]
      congr 1
      · cases patternForm (Pattern.parse fuel) t ts with
        | error e => rfl
        | ok found =>
          obtain ⟨node, rest⟩ := found
          simp only [bare_ok, bare_mk, ih]
          cases Pattern.parse fuel rest <;> rfl
      · cases Pattern.parse fuel ts <;> rfl

theorem pattern_ofTokens_bare (ts : List Token) :
    Pattern.ofTokens (bare ts) = bare (Pattern.ofTokens ts) := by
  rw [Pattern.ofTokens, length_bare, pattern_parse_bare]
  rfl

theorem nameForm?_bare (ts : List Token) : nameForm? (bare ts) = bare (nameForm? ts) := by
  cases ts with
  | nil => rfl
  | cons name rest =>
    simp only [bare_cons, nameForm?, kind_bare, bare_ite]
    rfl

theorem templateForm_bare {parse : List Token → Except Fault Template}
    (hparse : ∀ ts, parse (bare ts) = bare (parse ts)) (dollar : Token) (ts : List Token) :
    templateForm parse (bare dollar) (bare ts) = bare (templateForm parse dollar ts) := by
  simp only [templateForm, repetitionForm?_bare, nameForm?_bare, splitGroup_bare,
    escapeForm?_bare, badDollar_bare]
  cases repetitionForm? ts with
  | some found =>
    obtain ⟨⟨body, tail⟩, rest⟩ := found
    simp only [bare_some, bare_mk, position_bare, resolve_bare tail dollar.position]
    cases tail.resolve dollar.position with
    | error e => rfl
    | ok found =>
      simp only [bare_ok, fst_bare, hparse]
      exact map_bare (fun inner => congrArg (·, bare rest) (bare_templateRepetition ..).symm) _
  | none =>
    cases nameForm? ts with
    | some found => rfl
    | none =>
      cases escapeForm? ts with
      | some found => rfl
      | none => cases splitGroup "[" ts <;> rfl

theorem template_parse_bare (fuel : Nat) (ts : List Token) :
    Template.parse fuel (bare ts) = bare (Template.parse fuel ts) := by
  induction fuel generalizing ts with
  | zero =>
    cases ts with
    | nil => rfl
    | cons t ts =>
      rw [bare_cons, Template.parse, Template.parse, badDollar_bare]
      rfl
  | succ fuel ih =>
    cases ts with
    | nil => rfl
    | cons t ts =>
      rw [bare_cons, Template.parse, Template.parse, kind_bare, templateForm_bare ih, ih, bare_ite]
      congr 1
      · cases templateForm (Template.parse fuel) t ts with
        | error e => rfl
        | ok found =>
          obtain ⟨node, rest⟩ := found
          simp only [bare_ok, bare_mk, ih]
          cases Template.parse fuel rest <;> rfl
      · cases Template.parse fuel ts <;> rfl

theorem template_ofTokens_bare (ts : List Token) :
    Template.ofTokens (bare ts) = bare (Template.ofTokens ts) := by
  rw [Template.ofTokens, length_bare, template_parse_bare]
  rfl

/-! ## Rules -/

@[simp] theorem bare_depths (seen : Depths) : bare seen = seen := by
  obtain ⟨entries⟩ := seen
  exact congrArg Table.mk (List.map_id _)

theorem bare_depths? (seen : Option Depths) : bare seen = seen := by
  cases seen with
  | none => rfl
  | some seen => exact congrArg some (bare_depths seen)

theorem add_bare (name : String) (depth : Nat) (position : Position) (seen : Depths) :
    seen.add name depth {} = bare (seen.add name depth position) := by
  rw [Depths.add, Depths.add, bare_ite, bare_ok, bare_depths]
  rfl

theorem addAll_bare (position : Position) (entries : List (String × Nat)) (seen : Depths) :
    seen.addAll {} entries = bare (seen.addAll position entries) := by
  induction entries generalizing seen with
  | nil => exact congrArg Except.ok (bare_depths seen).symm
  | cons e entries ih =>
    rw [Depths.addAll, Depths.addAll, add_bare e.1 e.2 position]
    cases seen.add e.1 e.2 position with
    | error e => rfl
    | ok seen => simp only [bare_ok, bare_depths, ih]

mutual

theorem PatternNode.addDepths_bare : ∀ (depth : Nat) (node : PatternNode) (seen : Depths),
    (bare node).addDepths depth seen = bare (node.addDepths depth seen)
  | depth, .literal token, seen => congrArg Except.ok (bare_depths seen).symm
  | depth, .escape escape, seen => congrArg Except.ok (bare_depths seen).symm
  | depth, .capture name fragment position, seen => add_bare name depth position seen
  | depth, .repetition inner separator q, seen => by
    rw [bare_repetition, PatternNode.addDepths, PatternNode.addDepths, Pattern.addDepths_bare]
  | depth, .choice variants position, seen => by
    rw [bare_choice, PatternNode.addDepths, PatternNode.addDepths,
      Pattern.choiceDepths_bare depth position]
    cases Pattern.choiceDepths depth position variants none with
    | error e => rfl
    | ok bound => simp only [bare_ok, bare_depths?, addAll_bare position]
  | depth, .lookahead inner, seen => by
    rw [bare_lookahead, PatternNode.addDepths, PatternNode.addDepths, Pattern.addDepths_bare]
    cases Pattern.addDepths depth inner ∅ with
    | error e => rfl
    | ok bound => exact congrArg Except.ok (bare_depths seen).symm

theorem Pattern.addDepths_bare : ∀ (depth : Nat) (p : Pattern) (seen : Depths),
    Pattern.addDepths depth (bare p) seen = bare (Pattern.addDepths depth p seen)
  | depth, [], seen => congrArg Except.ok (bare_depths seen).symm
  | depth, node :: nodes, seen => by
    rw [bare_cons, Pattern.addDepths, Pattern.addDepths, PatternNode.addDepths_bare]
    cases node.addDepths depth seen with
    | error e => rfl
    | ok seen => simp only [bare_ok, bare_depths, Pattern.addDepths_bare]

theorem Pattern.choiceDepths_bare : ∀ (depth : Nat) (position : Position)
    (variants : List Pattern) (expected : Option Depths),
    Pattern.choiceDepths depth {} (bare variants) expected =
      bare (Pattern.choiceDepths depth position variants expected)
  | depth, position, [], expected => congrArg Except.ok (bare_depths? expected).symm
  | depth, position, variant :: variants, expected => by
    rw [bare_cons, Pattern.choiceDepths, Pattern.choiceDepths, Pattern.addDepths_bare]
    cases Pattern.addDepths depth variant ∅ with
    | error e => rfl
    | ok bound =>
      cases expected with
      | none => simp only [bare_ok, bare_depths, Pattern.choiceDepths_bare depth position]
      | some first =>
        simp only [bare_ok, bare_depths, Pattern.choiceDepths_bare depth position, bare_ite]
        rfl

end

mutual

theorem TemplateNode.fit_bare (declared : Depths) : ∀ (depth : Nat) (node : TemplateNode),
    (bare node).fit declared depth = bare (node.fit declared depth)
  | depth, .literal token => rfl
  | depth, .escape escape => rfl
  | depth, .hole name position => by
    rw [bare_hole, TemplateNode.fit, TemplateNode.fit]
    cases declared.find? name with
    | none => rfl
    | some d =>
      simp only [bare_ite]
      rfl
  | depth, .repetition inner separator => by
    rw [bare_templateRepetition, TemplateNode.fit, TemplateNode.fit, Template.fit_bare]

theorem Template.fit_bare (declared : Depths) : ∀ (depth : Nat) (t : Template),
    Template.fit declared depth (bare t) = bare (Template.fit declared depth t)
  | depth, [] => rfl
  | depth, node :: nodes => by
    rw [bare_cons, Template.fit, Template.fit, TemplateNode.fit_bare]
    cases node.fit declared depth with
    | error e => rfl
    | ok _ => exact Template.fit_bare declared depth nodes

end

theorem rule_fit_bare (p : Pattern) (t : Template) :
    Rule.fit (bare p) (bare t) = bare (Rule.fit p t) := by
  rw [Rule.fit, Rule.fit, Pattern.depths, Pattern.depths, Pattern.addDepths_bare]
  cases Pattern.addDepths 0 p ∅ with
  | error e => rfl
  | ok declared => simp only [bare_ok, bare_depths, Template.fit_bare]

/-- The rule fits without positions too. -/
def Rule.bare (r : Rule) : Rule where
  pattern := Placed.bare r.pattern
  template := Placed.bare r.template
  fits := by
    rw [rule_fit_bare, r.fits]
    rfl

instance : Placed Rule := ⟨Rule.bare⟩

theorem rule_make_bare (p : Pattern) (t : Template) :
    Rule.make (bare p) (bare t) = bare (Rule.make p t) := by
  cases h : Rule.make p t with
  | ok r =>
    obtain ⟨rfl, rfl⟩ := Rule.make_eq_ok_iff.1 h
    exact Rule.make_eq_ok_iff.2 ⟨rfl, rfl⟩
  | error e =>
    rw [Rule.make_eq_error_iff] at h
    exact Rule.make_eq_error_iff.2 (by rw [rule_fit_bare, h]; rfl)

theorem rule_ofTokens_bare (pattern template : List Token) :
    Rule.ofTokens (bare pattern) (bare template) = bare (Rule.ofTokens pattern template) := by
  rw [Rule.ofTokens, Rule.ofTokens, pattern_ofTokens_bare, template_ofTokens_bare]
  cases Pattern.ofTokens pattern with
  | error e => rfl
  | ok p =>
    cases Template.ofTokens template with
    | error e => rfl
    | ok t => exact rule_make_bare p t

/-! ## Declarations -/

instance : Placed Declaration := ⟨fun d => ⟨d.name, bare d.rules⟩⟩

theorem skipNewline_bare (ts : List Token) : skipNewline (bare ts) = bare (skipNewline ts) := by
  cases ts with
  | nil => rfl
  | cons t ts =>
    simp only [bare_cons, skipNewline, kind_bare, bare_ite]
    rfl

theorem splitBlock_bare (ts : List Token) : splitBlock (bare ts) = bare (splitBlock ts) := by
  cases ts with
  | nil => rfl
  | cons t ts =>
    rw [bare_cons, splitBlock, splitBlock, kind_bare, ← bare_cons, splitTree_bare, bare_ite]
    congr 1
    cases splitTree (t :: ts) with
    | error e => rfl
    | ok found =>
      simp only [bare_ok, fst_bare, snd_bare, interior_bare, bare_some, bare_mk]

theorem splitTemplate_bare (ts : List Token) :
    splitTemplate (bare ts) = bare (splitTemplate ts) := by
  rw [splitTemplate, splitTemplate, skipNewline_bare, splitBlock_bare]
  cases splitBlock (skipNewline ts) with
  | some found => rfl
  | none =>
    simp only [bare_none]
    rw [splitTreesWhile_bare fun _ => rfl]
    simp only [fst_bare, snd_bare, skipNewline_bare, bare_mk]

theorem splitRule_bare (ts : List Token) : splitRule (bare ts) = bare (splitRule ts) := by
  rw [splitRule, splitRule, splitGroup_bare]
  match splitGroup "[" ts with
  | none | some (_, []) => rfl
  | some (pattern, colon :: behind) =>
    simp only [bare_some, bare_mk, bare_cons, isOperator_bare, splitTemplate_bare, bare_ite]
    rfl

theorem splitRules_bare (fuel : Nat) (ts : List Token) :
    splitRules fuel (bare ts) = bare (splitRules fuel ts) := by
  induction fuel generalizing ts with
  | zero => rfl
  | succ fuel ih =>
    rw [splitRules, splitRules, splitRule_bare]
    match splitRule ts with
    | none | some (_, []) => rfl
    | some (rule, t :: rest) =>
      simp only [bare_some, bare_mk, bare_cons]
      rw [← bare_cons, ih]
      cases splitRules fuel (t :: rest) <;> rfl

theorem rulesOfTokens_bare (rows : List (List Token × List Token)) :
    rulesOfTokens (bare rows) = bare (rulesOfTokens rows) := by
  induction rows with
  | nil => rfl
  | cons row rows ih =>
    obtain ⟨pattern, template⟩ := row
    simp only [bare_cons, bare_mk, rulesOfTokens, rule_ofTokens_bare, ih]
    cases Rule.ofTokens pattern template with
    | error e => rfl
    | ok rule => cases rulesOfTokens rows <;> rfl

theorem declaration_split?_bare (ts : List Token) :
    Declaration.split? (bare ts) = bare (Declaration.split? ts) := by
  match ts with
  | [] | [_] => rfl
  | name :: colon :: behind =>
    simp only [bare_cons, Declaration.split?, kind_bare, isOperator_bare, skipNewline_bare,
      splitBlock_bare, bare_ite]
    cases splitBlock (skipNewline behind) <;> rfl

/-- Declarations are read off tokens that agree up to positions alike. -/
theorem declaration_read_bare (operator : String) (ts : List Token) :
    Declaration.read operator (bare ts) = bare (Declaration.read operator ts) := by
  match ts with
  | [] | [_] => rfl
  | keyword :: op :: ts =>
    simp only [bare_cons, Declaration.read, isWord_bare, isOperator_bare, declaration_split?_bare,
      bare_ite]
    congr 1
    cases Declaration.split? ts with
    | none => rfl
    | some found =>
      obtain ⟨⟨name, body⟩, rest⟩ := found
      simp only [bare_some, bare_mk, length_bare, splitRules_bare]
      cases splitRules body.length body with
      | none => cases body <;> rfl
      | some rules =>
        simp only [bare_some, rulesOfTokens_bare]
        cases rulesOfTokens rules <;> rfl

end TokenMacros

import TokenMacros.Rule.Spelling

/-!
# Declarations

A declaration names a macro and lists its rules in an indented block:

    macro_rules ! name :
        [ pattern ] : template
        [ pattern ] :
            template

A template on the line of its pattern reaches to the next newline outside
delimiters; one in a block is all that the block holds.
-/

namespace TokenMacros

/-- A macro with its rules. -/
structure Declaration where
  name : String
  rules : List Rule

/-- Drops one newline, if it comes first. -/
def skipNewline : List Token → List Token
  | [] => []
  | t :: ts => if t.kind = .newline then ts else t :: ts

/-- The interior of the block that comes first, and the tokens after it. -/
def splitBlock : List Token → Option (List Token × List Token)
  | [] => none
  | t :: ts =>
    if t.kind = .indent then
      match splitTree (t :: ts) with
      | .ok (tree, rest) => some (interior tree, rest)
      | .error _ => none
    else none

/-- The tokens of a template, in block form if there is a block, else to the end of the line. -/
def splitTemplate (ts : List Token) : List Token × List Token :=
  match splitBlock (skipNewline ts) with
  | some found => found
  | none =>
    let (line, rest) := splitTreesWhile (fun t => t.kind != .newline) ts
    (line, skipNewline rest)

/-- The tokens of pattern and template of a rule, and the tokens after the rule. -/
def splitRule (ts : List Token) : Option ((List Token × List Token) × List Token) :=
  match splitGroup "[" ts with
  | some (pattern, colon :: behind) =>
    if colon.isOperator ":" then
      let (template, rest) := splitTemplate behind
      some ((pattern, template), rest)
    else none
  | _ => none

/-- The tokens of one or more rules that make up the whole stream, `fuel` rules at most. -/
def splitRules : Nat → List Token → Option (List (List Token × List Token))
  | 0, _ => none
  | fuel + 1, ts =>
    match splitRule ts with
    | none => none
    | some (rule, []) => some [rule]
    | some (rule, rest) => (splitRules fuel rest).map (rule :: ·)

/-- Reads the rules in turn. -/
def rulesOfTokens : List (List Token × List Token) → Except Fault (List Rule)
  | [] => .ok []
  | (pattern, template) :: rest =>
    match Rule.ofTokens pattern template with
    | .error e => .error e
    | .ok rule => (rulesOfTokens rest).map (rule :: ·)

namespace Declaration

/-- Name and body of a declaration behind its keyword and operator, and the tokens after it. -/
def split? : List Token → Option ((Token × List Token) × List Token)
  | name :: colon :: behind =>
    if name.kind = .name ∧ colon.isOperator ":" then
      (splitBlock (skipNewline behind)).map fun p => ((name, p.1), p.2)
    else none
  | _ => none

/-- The declaration at the head of a stream, and the tokens after it; `none` if the stream does
not start with the keyword and the operator. -/
def read (operator : String) : List Token → Except Fault (Option (Declaration × List Token))
  | keyword :: op :: ts =>
    if keyword.isWord "macro_rules" ∧ op.isOperator operator then
      match split? ts with
      | none => .error ⟨.malformed (.badDeclaration operator), keyword.position⟩
      | some ((name, body), rest) =>
        match splitRules body.length body with
        | none =>
          .error ⟨.malformed (.badRules operator name.text),
            (body.head?.map Token.position).getD keyword.position⟩
        | some rules => (rulesOfTokens rules).map fun rules => some (⟨name.text, rules⟩, rest)
    else .ok none
  | _ => .ok none

/-- The declaration at an index, and the index behind its last token. -/
def readAt (operator : String) (ts : List Token) (start : Nat) :
    Except Fault (Option (Declaration × Nat)) :=
  let here := ts.drop start
  (read operator here).map fun found =>
    found.map fun p => (p.1, start + (here.length - p.2.length))

end Declaration

end TokenMacros

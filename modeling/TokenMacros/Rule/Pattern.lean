import TokenMacros.Token.Basic

/-!
# Patterns and templates

The pattern of a rule tells which streams the rule accepts, and what is captured
of them. The template tells what the rule writes from the captures. Both are
lists of nodes.
-/

namespace TokenMacros

/-! ## Parts of nodes -/

/-- What a capture accepts. -/
inductive Fragment
  /-- Any one token that is no delimiter. -/
  | token
  | name
  | operator
  | number
  | string
  /-- One token tree. -/
  | tree
  /-- Nothing; it only records that it was reached. -/
  | null
deriving DecidableEq

/-- The fragment that a word behind the colon of a capture stands for. -/
def Fragment.ofWord? (word : String) : Option Fragment :=
  if word = "token" then some .token
  else if word = "name" then some .name
  else if word = "op" then some .operator
  else if word = "number" then some .number
  else if word = "string" then some .string
  else if word = "tt" then some .tree
  else if word = "null" ∨ word = "empty" then some .null
  else none

/-- How many rounds a repetition may take. -/
inductive Quantifier
  | optional
  | any
  | atLeastOne
deriving DecidableEq

/-- The quantifier that a token stands for. -/
def Quantifier.ofToken? (t : Token) : Option Quantifier :=
  if t.isOperator "?" then some .optional
  else if t.isOperator "*" then some .any
  else if t.isOperator "+" then some .atLeastOne
  else none

/-- Tokens that a rule can only name by an escape: `$$`, `$>`, `$<` and `$^`. -/
inductive Escape
  | dollar
  | indent
  | dedent
  | newline
deriving DecidableEq

namespace Escape

/-- The escape that a symbol behind a dollar sign makes. -/
def ofSymbol? (t : Token) : Option Escape :=
  if t.kind = .dollar then some .dollar
  else if t.isOperator ">" then some .indent
  else if t.isOperator "<" then some .dedent
  else if t.isOperator "^" then some .newline
  else none

/-- The kind of the token that is named. -/
def kind : Escape → Token.Kind
  | .dollar => .dollar
  | .indent => .indent
  | .dedent => .dedent
  | .newline => .newline

/-- The token that is named, at a place. -/
def token (e : Escape) (position : Position) : Token :=
  match e with
  | .dollar => .dollar position
  | .indent => .indent position
  | .dedent => .dedent position
  | .newline => .newline position

@[simp] theorem kind_token (e : Escape) (p : Position) : (e.token p).kind = e.kind := by
  cases e <;> rfl

end Escape

/-! ## Nodes -/

/-- A node of a pattern. -/
inductive PatternNode
  /-- One token that is the same as this one. -/
  | literal (token : Token)
  /-- `$name:fragment` -/
  | capture (name : String) (fragment : Fragment) (position : Position)
  /-- `$( ... ) separator quantifier` -/
  | repetition (inner : List PatternNode) (separator : Option Token) (quantifier : Quantifier)
  /-- `$[ (...) | (...) ]`: the first variant that matches. -/
  | choice (variants : List (List PatternNode)) (position : Position)
  /-- `$[! ... ]`: holds where the inner nodes do not match, and takes no token. -/
  | lookahead (inner : List PatternNode)
  /-- One token of the kind that is named. -/
  | escape (escape : Escape)

instance : Inhabited PatternNode := ⟨.escape .dollar⟩

/-- What a stream is read with. -/
abbrev Pattern := List PatternNode

/-- A node of a template. -/
inductive TemplateNode
  | literal (token : Token)
  /-- `$name`: the tokens of a capture. -/
  | hole (name : String) (position : Position)
  /-- `$( ... ) separator quantifier`: one round for every round of the captures inside. -/
  | repetition (inner : List TemplateNode) (separator : Option Token)
  /-- The token that is named. -/
  | escape (escape : Escape)

instance : Inhabited TemplateNode := ⟨.escape .dollar⟩

/-- What a stream is written with. -/
abbrev Template := List TemplateNode

end TokenMacros

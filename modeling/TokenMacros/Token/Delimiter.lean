import TokenMacros.Token.Basic

/-!
# Delimiters

Five categories of delimiter must stay balanced. `Token.role` tells for every
token whether it opens one, closes one, or is plain.
-/

namespace TokenMacros

/-- The categories of delimiter. -/
inductive Delimiter
  | paren
  | bracket
  | brace
  | indent
  /-- A string with embedded expressions. -/
  | fstring
deriving DecidableEq, Inhabited

/-- What a token does to the delimiters around it. -/
inductive Role
  | opens (delimiter : Delimiter)
  | closes (delimiter : Delimiter)
  | plain
deriving DecidableEq

namespace Token

/-- The role of a token. An opener or closer that is no bracket belongs to a string. -/
def role (t : Token) : Role :=
  match t.kind with
  | .opener =>
    .opens (if t.text = "(" then .paren else if t.text = "[" then .bracket
      else if t.text = "\x7b" then .brace else .fstring)
  | .closer =>
    .closes (if t.text = ")" then .paren else if t.text = "]" then .bracket
      else if t.text = "\x7d" then .brace else .fstring)
  | .indent => .opens .indent
  | .dedent => .closes .indent
  | _ => .plain

/-- The delimiter that a token opens. -/
def opens? (t : Token) : Option Delimiter :=
  match t.role with
  | .opens d => some d
  | _ => none

/-- The delimiter that a token closes. -/
def closes? (t : Token) : Option Delimiter :=
  match t.role with
  | .closes d => some d
  | _ => none

/-- Does the token open or close a delimiter? -/
def isDelimiter (t : Token) : Bool :=
  match t.role with
  | .plain => false
  | _ => true

@[simp] theorem role_bare (t : Token) : t.bare.role = t.role := rfl

theorem role_of_name {t : Token} (h : t.kind = .name) : t.role = .plain := by
  simp [role, h]

theorem role_of_operator {t : Token} (h : t.kind = .operator) : t.role = .plain := by
  simp [role, h]

theorem role_of_newline {t : Token} (h : t.kind = .newline) : t.role = .plain := by
  simp [role, h]

theorem isDelimiter_eq_false_iff {t : Token} : t.isDelimiter = false ↔ t.role = .plain := by
  unfold isDelimiter
  cases t.role <;> simp

end Token

end TokenMacros

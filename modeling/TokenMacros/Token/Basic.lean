/-!
# Tokens

A token has a kind, a text and a position. The position serves error messages
only: two tokens are the same when kind and text agree.

    t.same u = true ↔ t.bare = u.bare                      (same_iff)
-/

namespace TokenMacros

/-- Line and column in a source text, counted from 1, as far as 32 bits hold them. Tokens that
come from no source sit at 0:0. -/
structure Position where
  line : UInt32 := 0
  column : UInt32 := 0
deriving DecidableEq, Inhabited

instance : ToString Position := ⟨fun p => s!"{p.line}:{p.column}"⟩

/-- What a token is. -/
inductive Token.Kind
  | name
  | number
  | string
  | operator
  /-- An opening bracket, or the start of a string with embedded expressions. -/
  | opener
  /-- A closing bracket, or the end of a string with embedded expressions. -/
  | closer
  | indent
  | dedent
  | newline
  /-- The dollar sign, reserved for patterns. -/
  | dollar
deriving DecidableEq, Inhabited

/-- A lexical token. -/
structure Token where
  kind : Token.Kind
  text : String
  position : Position := {}
deriving DecidableEq, Inhabited

namespace Token

/-! ## Comparing and showing -/

/-- The token at no particular place. -/
def bare (t : Token) : Token := { t with position := {} }

/-- Are the two tokens the same, wherever they stand? -/
def same (t u : Token) : Bool := t.kind == u.kind && t.text == u.text

/-- Is it the operator of that text? -/
def isOperator (t : Token) (text : String) : Bool := t.kind == .operator && t.text == text

/-- Is it that name? -/
def isWord (t : Token) (text : String) : Bool := t.kind == .name && t.text == text

/-- Is it the opening token of that text? -/
def isOpener (t : Token) (text : String) : Bool := t.kind == .opener && t.text == text

/-- Is it the closing token of that text? -/
def isCloser (t : Token) (text : String) : Bool := t.kind == .closer && t.text == text

/-- The form of a token in messages: layout tokens by name, others by their text. -/
def shown (t : Token) : String :=
  match t.kind with
  | .indent => "<indent>"
  | .dedent => "<dedent>"
  | .newline => "<newline>"
  | _ => t.text

/-! ## Tokens of layout -/

/-- The token that opens a block. -/
def indent (position : Position) : Token := ⟨.indent, "", position⟩

/-- The token that closes a block. -/
def dedent (position : Position) : Token := ⟨.dedent, "", position⟩

/-- The token that ends a logical line. -/
def newline (position : Position) : Token := ⟨.newline, "\n", position⟩

/-- The dollar token. -/
def dollar (position : Position) : Token := ⟨.dollar, "$", position⟩

/-! ## Lemmas -/

theorem same_iff {t u : Token} : t.same u = true ↔ t.bare = u.bare := by
  cases t; cases u; simp [same, bare]

@[simp] theorem same_self (t : Token) : t.same t = true := same_iff.2 rfl

variable {t : Token} {text : String}

theorem isOperator_iff : t.isOperator text = true ↔ t.kind = .operator ∧ t.text = text := by
  simp [isOperator]

theorem isWord_iff : t.isWord text = true ↔ t.kind = .name ∧ t.text = text := by
  simp [isWord]

theorem isOpener_iff : t.isOpener text = true ↔ t.kind = .opener ∧ t.text = text := by
  simp [isOpener]

theorem isCloser_iff : t.isCloser text = true ↔ t.kind = .closer ∧ t.text = text := by
  simp [isCloser]

end Token

/-- Are the two streams the same token for token? -/
def sameTokens : List Token → List Token → Bool
  | [], [] => true
  | t :: ts, u :: us => t.same u && sameTokens ts us
  | _, _ => false

theorem sameTokens_iff {ts us : List Token} :
    sameTokens ts us = true ↔ ts.map Token.bare = us.map Token.bare := by
  induction ts generalizing us with
  | nil => cases us <;> simp [sameTokens]
  | cons t ts ih => cases us <;> simp [sameTokens, ih, Token.same_iff]

/-- The place of the first token, 0:0 for an empty stream. -/
def firstPosition : List Token → Position
  | [] => {}
  | t :: _ => t.position

end TokenMacros

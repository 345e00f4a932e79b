import TokenMacros.Token.Basic

/-!
# Faults

A fault is a cause at a position; `Fault.message` is the only place where causes
are put into words. A rule that does not match is no fault.
-/

namespace TokenMacros

/-! ## Causes -/

/-- Why a stream is not balanced. -/
inductive Imbalance
  /-- `closer` meets `opener` of another category. -/
  | mismatched (closer opener : Token)
  /-- A closer stands where nothing, or something else, is open. -/
  | stray (closer : Token)
  | unclosed (opener : Token)
  /-- The stream ends where a token tree has to start. -/
  | noTree
deriving DecidableEq

/-- Why a pattern, a template or a declaration cannot be read. -/
inductive Malformed
  /-- A dollar sign that starts no form, and the token after it. -/
  | afterDollar (next : Token)
  | loneDollar
  /-- An escaped separator that makes no escape. -/
  | badSeparator (symbol : Token)
  /-- A repetition that does not end in a quantifier. -/
  | badQuantifier (found : Token)
  | unknownFragment (word : Token)
  | badGroup
  /-- A choice or a lookahead in a template. -/
  | patternOnly
  | badDeclaration (operator : String)
  | badRules (operator name : String)
  | noItem (name operator : String)
deriving DecidableEq

/-- Why a source text has no tokens. -/
inductive SourceFault
  /-- Nothing can be read at the very start. -/
  | atStart
  /-- A backslash without a line break behind it. -/
  | afterBackslash
  /-- Nothing can be read further on. -/
  | noLexeme
  | badDedent
deriving DecidableEq

/-- Why a repetition of a template has no count. -/
inductive CountFault
  | noValue (name : String)
  | differ (first : String) (expected : Nat) (name : String) (found : Nat)
  | nothingRepeats
deriving DecidableEq

/-- Why a file cannot be read. -/
inductive FileFault
  | notFound
  | isDirectory
  | notDirectory
deriving DecidableEq

/-- Why a module cannot be imported. -/
inductive ImportFault
  | noModule (name : String)
  | file (fault : FileFault)
  | badPath
  | cycle
deriving DecidableEq

/-- What went wrong. -/
inductive Cause
  | duplicateCapture (name : String)
  | choiceMismatch
  | stillRepeating (name : String) (declared used : Nat)
  | unknownCapture (name : String)
  | malformed (fault : Malformed)
  | unreadable (fault : SourceFault)
  | imbalanced (fault : Imbalance)
  | count (fault : CountFault)
  | undefinedMacro (name : String)
  | unmatched (name argument : String)
  | tooManySplices (limit : Nat)
  | notImported (module : String) (fault : ImportFault)
  /-- More macros run inside each other than the nesting limit allows. -/
  | tooDeep
deriving DecidableEq

/-- A cause at a place. -/
structure Fault where
  cause : Cause
  position : Position := {}
deriving DecidableEq

/-! ## Messages -/

/-- The words for a fault of balance. -/
def Imbalance.message : Imbalance → String
  | .mismatched closer opener =>
    s!"`{closer.shown}` does not close `{opener.shown}` opened at {opener.position}"
  | .stray closer => s!"unexpected `{closer.shown}`"
  | .unclosed opener => s!"`{opener.shown}` is never closed"
  | .noTree => "expected a token tree, found end of input"

/-- The words for a malformed pattern, template or declaration. -/
def Malformed.message : Malformed → String
  | .afterDollar next => s!"unexpected `{next.shown}` after `$`"
  | .loneDollar => "stray `$` at end of pattern"
  | .badSeparator symbol => s!"`${symbol.shown}` is not a valid separator"
  | .badQuantifier found => s!"expected repetition mode `*`, `+` or `?`, found `{found.shown}`"
  | .unknownFragment word => s!"unknown capture kind `{word.shown}`"
  | .badGroup => "expected `$[!...]` or `$[(...) | (...)]`"
  | .patternOnly => "unions and lookaheads are only allowed in matchers"
  | .badDeclaration operator =>
    s!"expected `macro_rules{operator} name:` followed by an indented block of rules"
  | .badRules operator name =>
    s!"malformed rules in `macro_rules{operator} {name}`; expected `[matcher]: transcriber`"
  | .noItem name operator => s!"decorator `@{name}{operator}` is not followed by an item"

/-- The words for an unreadable source text. -/
def SourceFault.message : SourceFault → String
  | .atStart => "expected file"
  | .afterBackslash => "expected line_break"
  | .noLexeme =>
    "expected EOI, line_break, blank, comment, continuation, string, number, name, open, close, "
      ++ "dollar, or operator"
  | .badDedent => "unindent does not match any outer indentation level"

/-- The words for a repetition without a count. -/
def CountFault.message : CountFault → String
  | .noValue name => s!"`${name}` has no value for this repetition"
  | .differ first expected name found =>
    s!"`${first}` repeats {expected} times but `${name}` repeats {found} times"
  | .nothingRepeats => "no capture variable repeats at this depth"

/-- The words of the file system. -/
def FileFault.message : FileFault → String
  | .notFound => "No such file or directory (os error 2)"
  | .isDirectory => "Is a directory (os error 21)"
  | .notDirectory => "Not a directory (os error 20)"

/-- The words for a failed import. -/
def ImportFault.message : ImportFault → String
  | .noModule name => s!"no module named `{name}`"
  | .file fault => fault.message
  | .badPath => "expected a dotted module path"
  | .cycle => "import cycle"

/-- The words for a cause. -/
def Cause.message : Cause → String
  | .duplicateCapture name => s!"duplicate capture variable `${name}`"
  | .choiceMismatch => "all union variants must bind the same captures at the same depth"
  | .stillRepeating name declared used =>
    s!"capture `${name}` repeats at depth {declared} but is used at depth {used}"
  | .unknownCapture name => s!"no capture variable named `${name}`"
  | .malformed fault => fault.message
  | .unreadable fault => s!"lex error: {fault.message}"
  | .imbalanced fault => s!"imbalanced delimiter: {fault.message}"
  | .count fault => fault.message
  | .undefinedMacro name => s!"cannot find macro `{name}`"
  | .unmatched name argument => s!"no rule of macro `{name}` matched `{argument}`"
  | .tooManySplices limit => s!"macro expansion exceeded the limit of {limit} splices"
  | .notImported module fault => s!"importing `{module}`: {fault.message}"
  | .tooDeep => "macros are nested too deeply"

namespace Fault

/-- The text of a fault: its place, then its cause. -/
def message (e : Fault) : String := s!"{e.position}: {e.cause.message}"

/-- Is it found in a declaration, before any of its rules is tried? -/
def isStatic (e : Fault) : Bool :=
  match e.cause with
  | .duplicateCapture _ | .choiceMismatch | .stillRepeating .. | .unknownCapture _
  | .malformed _ => true
  | _ => false

end Fault

theorem map_eq_ok_iff {α β : Type} {f : α → β} {x : Except Fault α} {b : β} :
    x.map f = .ok b ↔ ∃ a, x = .ok a ∧ f a = b := by
  cases x <;> simp [Except.map]

end TokenMacros

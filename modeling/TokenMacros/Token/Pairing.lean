import TokenMacros.Fault
import TokenMacros.Token.Delimiter

/-!
# Pairs of delimiters

`Pairing.ofTokens` pairs every opener of a stream with its closer, in one pass
with the stack of the openers still open. A stream is balanced if it succeeds.
-/

namespace TokenMacros

namespace Fault

/-- A closer that meets the opener of another category. -/
def mismatched (closer opener : Token) : Fault :=
  ⟨.imbalanced (.mismatched closer opener), closer.position⟩

/-- A closer that closes nothing. -/
def stray (closer : Token) : Fault := ⟨.imbalanced (.stray closer), closer.position⟩

/-- An opener without a closer. -/
def unclosed (opener : Token) : Fault := ⟨.imbalanced (.unclosed opener), opener.position⟩

end Fault

/-- An opener that waits for its closer. -/
structure Pending where
  delimiter : Delimiter
  index : Nat
  token : Token

/-- The pairs of a balanced stream: index of the opener, index of its closer. -/
structure Pairing where
  pairs : List (Nat × Nat)
deriving DecidableEq

namespace Pairing

/-- The pairs whose closers are in the stream, which starts at `index`; `stack` holds the openers
before it that are still open, the innermost first. -/
def pairsFrom (index : Nat) (stack : List Pending) :
    List Token → Except Fault (List (Nat × Nat))
  | [] =>
    match stack with
    | [] => .ok []
    | p :: _ => .error (.unclosed p.token)
  | t :: ts =>
    match t.role with
    | .plain => pairsFrom (index + 1) stack ts
    | .opens d => pairsFrom (index + 1) (⟨d, index, t⟩ :: stack) ts
    | .closes d =>
      match stack with
      | [] => .error (.stray t)
      | p :: below =>
        if p.delimiter = d then
          (pairsFrom (index + 1) below ts).map ((p.index, index) :: ·)
        else .error (.mismatched t p.token)

/-- The pairs of a stream, or the first fault of its balance. -/
def ofTokens (ts : List Token) : Except Fault Pairing :=
  (pairsFrom 0 [] ts).map Pairing.mk

/-- The index paired with `i`. -/
def mate? (p : Pairing) (i : Nat) : Option Nat :=
  p.pairs.findSome? fun e => if e.1 = i then some e.2 else if e.2 = i then some e.1 else none

end Pairing

/-- Refuses a stream that is not balanced. -/
def requireBalanced (ts : List Token) : Except Fault Unit :=
  (Pairing.ofTokens ts).map fun _ => ()

end TokenMacros

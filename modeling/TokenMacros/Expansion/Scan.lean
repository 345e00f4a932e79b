import TokenMacros.Expansion.Basic
import TokenMacros.Token.Pairing

/-!
# Scanning

A scan goes through a stream from left to right. Where the head of what is left
changes, the new tokens are spliced in, and the scan goes on one token before the
splice, since the splice may complete an invocation that starts there. Every
splice counts, and the tokens that are spliced in have to be balanced.

## Algorithm

`findSplice` looks for the next splice, `resume` makes it and goes on; the
splices that are left bound the loop.
-/

namespace TokenMacros

/-- Tries to change the head of a stream; the flag tells that a logical line starts there. -/
abbrev Attempt := Bool → List Token → Expansion (Option HeadChange)

/-- A change of the head of what is left of a stream. -/
structure Splice where
  /-- The tokens before it, the nearest first. -/
  before : List Token
  inserted : List Token
  /-- The tokens behind those that go. -/
  after : List Token
  position : Position

/-- Does a logical line start behind these tokens, the nearest first? -/
def atLineStart : List Token → Bool
  | [] => true
  | t :: _ => t.kind == .newline || t.kind == .indent || t.kind == .dedent

/-- The first splice in `rest`, which stands behind `before`. -/
def findSplice (attempt : Attempt) :
    (before rest : List Token) → Expansion (Option Splice)
  | _, [] => pure none
  | before, t :: ts => do
    match ← attempt (atLineStart before) (t :: ts) with
    | some head =>
      return some ⟨before, head.tokens, (t :: ts).drop head.length, t.position⟩
    | none => findSplice attempt (t :: before) ts

namespace Splice

/-- The tokens before the place where the scan goes on, the nearest first. -/
def passed (s : Splice) : List Token := s.before.tail

/-- The tokens from the place where the scan goes on. -/
def pending (s : Splice) : List Token := s.before.head?.toList ++ s.inserted ++ s.after

/-- The stream with the splice made. -/
def result (s : Splice) : List Token := s.before.reverse ++ s.inserted ++ s.after

end Splice

/-- Makes a splice and scans on; `left` splices may be made. -/
def resume (attempt : Attempt) (limit : Nat) : Nat → Splice → Expansion (List Token)
  | 0, s => .fail (.tooManySplices limit) s.position
  | left + 1, s => do
    .ofExcept (requireBalanced s.inserted)
    match ← findSplice attempt s.passed s.pending with
    | none => return s.result
    | some next => resume attempt limit left next

/-- Scans a stream; `none` if nothing is spliced. -/
def scan (attempt : Attempt) (limit : Nat) : Transform := fun ts => do
  match ← findSplice attempt [] ts with
  | none => return none
  | some s => return some (← resume attempt limit limit s)

end TokenMacros

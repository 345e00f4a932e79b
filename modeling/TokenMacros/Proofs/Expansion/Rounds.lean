import TokenMacros.Proofs.Expansion.Frame
import TokenMacros.Proofs.Expansion.Heads

/-!
# Rounds of a macro

`Macro.fixpoint` applies a macro round by round. The streams make a chain: each is what the
macro makes of the one before, as long as that is another stream. The chain stops where the
macro leaves a stream as it is, or fails on it; the rounds end there, or at their limit if
the chain goes beyond:

    (settle step limit limit ts).outcome w = r ↔ answer.Ends limit ts r
                                                           (settle_outcome)

Positions do not count: a stream of the same tokens is no change.
-/

namespace TokenMacros

namespace Expansion

variable {α β : Type} {x : Expansion α} {f : α → Expansion β} {w : Workspace}

theorem eq_ending_outcome (x : Expansion α) (w : Workspace) :
    x w = ending (x.outcome w) (x.final w) := by
  unfold outcome final
  cases x w <;> rfl

theorem outcome_bind_of_ok {a : α} (h : x.outcome w = .ok a) :
    (x >>= f).outcome w = (f a).outcome (x.final w) := by
  have hx := x.eq_ending_outcome w
  rw [h] at hx
  rw [outcome, bind_of_ok hx, outcome]

theorem outcome_bind_of_error {e : Fault} (h : x.outcome w = .error e) :
    (x >>= f).outcome w = .error e := by
  have hx := x.eq_ending_outcome w
  rw [h] at hx
  rw [outcome, bind_of_error hx]

end Expansion

/-! ## Chains -/

/-- How a macro ends on each stream. -/
abbrev Answer := List Token → Except Fault (Option (List Token))

/-- How the macro ends depends on the stream alone. What it defines and logs is left open. -/
def Transform.Answers (step : Transform) (answer : Answer) : Prop :=
  ∀ ts w, (step ts).outcome w = answer ts

namespace Answer

/-- The stream is left as it is: it is not accepted, or the same tokens come out. -/
def Keeps (answer : Answer) (ts : List Token) : Prop :=
  answer ts = .ok none ∨ ∃ same, answer ts = .ok (some same) ∧ sameTokens same ts = true

/-- The stream that comes out, if it is another one. -/
def change? (answer : Answer) (ts : List Token) : Option (List Token) :=
  match answer ts with
  | .ok (some next) => if sameTokens next ts then none else some next
  | _ => none

/-- The stream after so many rounds, if each of them changes it. -/
def afterRounds (answer : Answer) (ts : List Token) : Nat → Option (List Token)
  | 0 => some ts
  | n + 1 => (answer.afterRounds ts n).bind answer.change?

/-- How the rounds end that start with `ts`. -/
inductive Ends (answer : Answer) (limit : Nat) (ts : List Token) :
    Except Fault (Option (List Token)) → Prop
  /-- Nothing changes from the start. -/
  | keeps : answer.Keeps ts → Ends answer limit ts (.ok none)
  /-- The chain stops within the limit, at a stream that is left as it is. -/
  | stops {k : Nat} {out : List Token} : 1 ≤ k → k ≤ limit →
      answer.afterRounds ts k = some out → answer.Keeps out → Ends answer limit ts (.ok (some out))
  /-- The chain stops within the limit, at a stream on which the macro fails. -/
  | fails {k : Nat} {us : List Token} {e : Fault} : k ≤ limit →
      answer.afterRounds ts k = some us → answer us = .error e → Ends answer limit ts (.error e)
  /-- The chain goes beyond the limit. -/
  | exceeds {last next : List Token} : answer.afterRounds ts limit = some last →
      answer.afterRounds ts (limit + 1) = some next →
      Ends answer limit ts (.error ⟨.tooManySplices limit, firstPosition last⟩)

variable {answer : Answer} {ts us vs next : List Token} {e : Fault} {k n limit : Nat}
  {r r' : Except Fault (Option (List Token))}

theorem change?_eq_some_iff : answer.change? ts = some next ↔
    answer ts = .ok (some next) ∧ sameTokens next ts = false := by
  unfold change?
  split
  · next found hfound =>
    rw [hfound]
    simp only [Option.ite_none_left_eq_some, Bool.not_eq_true, Option.some.injEq,
      Except.ok.injEq]
    constructor
    · rintro ⟨hsame, rfl⟩
      exact ⟨rfl, hsame⟩
    · rintro ⟨rfl, hsame⟩
      exact ⟨hsame, rfl⟩
  · next hnone =>
    constructor
    · intro h
      cases h
    · rintro ⟨h, -⟩
      exact absurd h (hnone next)

/-- A stream that is left as it is, is one that does not change and that the macro does not fail
on. -/
theorem keeps_iff :
    answer.Keeps ts ↔ answer.change? ts = none ∧ ∃ found, answer ts = .ok found := by
  unfold Keeps change?
  cases answer ts with
  | error e => simp
  | ok found =>
    cases found with
    | none => simp
    | some next => simp

theorem change?_eq_none_of_error (h : answer ts = .error e) : answer.change? ts = none := by
  rw [change?, h]

theorem afterRounds_succ_of_change (h : answer.change? ts = some next) (n : Nat) :
    answer.afterRounds ts (n + 1) = answer.afterRounds next n := by
  induction n with
  | zero => exact h
  | succ n ih => rw [afterRounds, ih, afterRounds]

/-- Nothing comes behind the stream that a chain stops at. -/
theorem afterRounds_eq_none (hk : answer.afterRounds ts k = some us)
    (hstop : answer.change? us = none) (hlt : k < n) : answer.afterRounds ts n = none := by
  induction hlt with
  | refl => rw [afterRounds, hk, Option.bind_some, hstop]
  | step _ ih => rw [afterRounds, ih, Option.bind_none]

/-- A chain stops at one stream only. -/
theorem stop_unique (hk : answer.afterRounds ts k = some us) (hus : answer.change? us = none)
    (hn : answer.afterRounds ts n = some vs) (hvs : answer.change? vs = none) :
    k = n ∧ us = vs := by
  rcases Nat.lt_trichotomy k n with hlt | rfl | hlt
  · rw [afterRounds_eq_none hk hus hlt] at hn
    cases hn
  · rw [hk] at hn
    exact ⟨rfl, Option.some.inj hn⟩
  · rw [afterRounds_eq_none hn hvs hlt] at hk
    cases hk

/-! ## Ends -/

/-- The chain stops within the limit, and the rounds end with it. -/
def StopsWithin (answer : Answer) (limit : Nat) (ts : List Token)
    (r : Except Fault (Option (List Token))) : Prop :=
  ∃ k us, k ≤ limit ∧ answer.afterRounds ts k = some us ∧ answer.change? us = none ∧
    r = (answer us).map fun _ => if k = 0 then none else some us

/-- The chain goes beyond the limit, and the rounds end with its fault. -/
def Exceeds (answer : Answer) (limit left : Nat) (ts : List Token)
    (r : Except Fault (Option (List Token))) : Prop :=
  ∃ last next, answer.afterRounds ts left = some last ∧ answer.change? last = some next ∧
    r = .error ⟨.tooManySplices limit, firstPosition last⟩

theorem ends_iff : answer.Ends limit ts r ↔
    answer.StopsWithin limit ts r ∨ answer.Exceeds limit limit ts r := by
  constructor
  · intro h
    cases h with
    | keeps hkeeps =>
      obtain ⟨hstop, found, hfound⟩ := keeps_iff.1 hkeeps
      exact .inl ⟨0, ts, Nat.zero_le limit, rfl, hstop, by rw [hfound]; rfl⟩
    | @stops k out hpos hle hk hkeeps =>
      obtain ⟨hstop, found, hfound⟩ := keeps_iff.1 hkeeps
      refine .inl ⟨k, out, hle, hk, hstop, ?_⟩
      rw [hfound, Except.map, if_neg (Nat.ne_of_gt hpos)]
    | fails hle hk herror =>
      exact .inl ⟨_, _, hle, hk, change?_eq_none_of_error herror, by rw [herror]; rfl⟩
    | @exceeds last next hlast hnext =>
      rw [afterRounds, hlast, Option.bind_some] at hnext
      exact .inr ⟨last, next, hlast, hnext, rfl⟩
  · rintro (⟨k, us, hle, hk, hstop, rfl⟩ | ⟨last, next, hlast, hnext, rfl⟩)
    · cases hus : answer us with
      | error e => exact .fails hle hk hus
      | ok found =>
        have hkeeps : answer.Keeps us := keeps_iff.2 ⟨hstop, found, hus⟩
        cases k with
        | zero =>
          cases hk
          exact .keeps hkeeps
        | succ k => exact .stops (Nat.succ_pos k) hle hk hkeeps
    · exact .exceeds hlast (by rw [afterRounds, hlast, Option.bind_some, hnext])

/-- The rounds end in one way only. -/
theorem Ends.unique (h : answer.Ends limit ts r) (h' : answer.Ends limit ts r') : r = r' := by
  have hbeyond : ∀ {k us last next}, k ≤ limit → answer.afterRounds ts k = some us →
      answer.change? us = none → answer.afterRounds ts limit = some last →
      answer.change? last = some next → r = r' := by
    intro k us last next hle hk hstop hlast hnext
    have hnone := afterRounds_eq_none hk hstop (Nat.lt_succ_of_le hle)
    rw [afterRounds, hlast, Option.bind_some, hnext] at hnone
    cases hnone
  rcases ends_iff.1 h with ⟨k, us, hle, hk, hstop, rfl⟩ | ⟨last, next, hlast, hnext, rfl⟩
  · rcases ends_iff.1 h' with ⟨k', us', -, hk', hstop', rfl⟩ | ⟨last, next, hlast, hnext, rfl⟩
    · obtain ⟨rfl, rfl⟩ := stop_unique hk hstop hk' hstop'
      rfl
    · exact hbeyond hle hk hstop hlast hnext
  · rcases ends_iff.1 h' with ⟨k, us, hle, hk, hstop, rfl⟩ | ⟨last', next', hlast', -, rfl⟩
    · exact hbeyond hle hk hstop hlast hnext
    · rw [hlast] at hlast'
      cases hlast'
      rfl

end Answer

/-! ## One round -/

theorem runWithin_fixpoint (nesting : Nat) (inner : Macro) (limit : Nat) (ts : List Token) :
    Macro.runWithin nesting (.fixpoint inner limit) ts =
      settle (Macro.runWithin nesting inner) limit limit ts := by
  cases nesting <;> simp only [Macro.runWithin, Macro.runWith]

section settle

variable {step : Transform} {answer : Answer} {ts next : List Token}
  (hstep : step.Answers answer) (limit left : Nat) (w : Workspace)

include hstep

/-- Where the chain stops nothing is changed any more, and a fault is passed on. -/
theorem outcome_settle_of_stop (h : answer.change? ts = none) :
    (settle step limit left ts).outcome w = (answer ts).map fun _ => none := by
  rw [settle.eq_def]
  cases hanswer : answer ts with
  | error e => rw [Expansion.outcome_bind_of_error ((hstep ts w).trans hanswer)]; rfl
  | ok found =>
    rw [Expansion.outcome_bind_of_ok ((hstep ts w).trans hanswer)]
    cases found with
    | none => rfl
    | some next =>
      have hsame : sameTokens next ts = true := by
        rw [Answer.change?, hanswer] at h
        simpa using h
      simp only [hsame, if_true]
      rfl

theorem outcome_settle_zero (h : answer.change? ts = some next) :
    (settle step limit 0 ts).outcome w =
      .error ⟨.tooManySplices limit, firstPosition ts⟩ := by
  obtain ⟨hanswer, hsame⟩ := Answer.change?_eq_some_iff.1 h
  rw [settle.eq_def, Expansion.outcome_bind_of_ok ((hstep ts w).trans hanswer)]
  simp only [hsame]
  rfl

/-- Behind a round that changes the stream, the rounds go on with what it has become. -/
theorem outcome_settle_succ (h : answer.change? ts = some next) : ∃ w',
    (settle step limit (left + 1) ts).outcome w =
      ((settle step limit left next).outcome w').map fun found => some (found.getD next) := by
  obtain ⟨hanswer, hsame⟩ := Answer.change?_eq_some_iff.1 h
  refine ⟨(step ts).final w, ?_⟩
  rw [settle.eq_def, Expansion.outcome_bind_of_ok ((hstep ts w).trans hanswer)]
  simp only [hsame, Bool.false_eq_true, if_false]
  cases hmore : (settle step limit left next).outcome ((step ts).final w) with
  | ok found => rw [Expansion.outcome_bind_of_ok hmore]; rfl
  | error e => rw [Expansion.outcome_bind_of_error hmore]; rfl

/-! ## All rounds -/

/-- With `left` rounds the chain is followed to its stop, or to its stream number `left`. -/
theorem outcome_settle_cases (ts : List Token) :
    answer.StopsWithin left ts ((settle step limit left ts).outcome w) ∨
      answer.Exceeds limit left ts ((settle step limit left ts).outcome w) := by
  induction left generalizing ts w with
  | zero =>
    cases hchange : answer.change? ts with
    | none =>
      exact .inl ⟨0, ts, Nat.le_refl 0, rfl, hchange,
        outcome_settle_of_stop hstep limit 0 w hchange⟩
    | some next => exact .inr ⟨ts, next, rfl, hchange, outcome_settle_zero hstep limit w hchange⟩
  | succ left ih =>
    cases hchange : answer.change? ts with
    | none =>
      exact .inl ⟨0, ts, Nat.zero_le _, rfl, hchange,
        outcome_settle_of_stop hstep limit (left + 1) w hchange⟩
    | some next =>
      -- the chain from `next` is the one from `ts` without its first stream
      have hchain := Answer.afterRounds_succ_of_change hchange
      obtain ⟨w', hw'⟩ := outcome_settle_succ hstep limit left w hchange
      rw [hw']
      rcases ih w' next with ⟨k, us, hle, hk, hstop, hout⟩ | ⟨last, further, hlast, hfurther, hout⟩
      · refine .inl ⟨k + 1, us, Nat.succ_le_succ hle, (hchain k).trans hk, hstop, ?_⟩
        rw [hout]
        cases answer us with
        | error e => rfl
        | ok found =>
          cases k with
          | zero =>
            cases hk
            rfl
          | succ k => rfl
      · refine .inr ⟨last, further, (hchain left).trans hlast, hfurther, ?_⟩
        rw [hout]
        rfl

end settle

/-- The rounds of a macro end as its chain tells, and in no other way; if the macro has no fault of
that limit itself, they end with one exactly if the chain goes beyond the limit. -/
theorem settle_outcome {step : Transform} {answer : Answer} (hstep : step.Answers answer)
    (limit : Nat) (ts : List Token) (w : Workspace) :
    (∀ r, (settle step limit limit ts).outcome w = r ↔ answer.Ends limit ts r) ∧
    ((∀ us position, answer us ≠ .error ⟨.tooManySplices limit, position⟩) →
      ((∃ position, (settle step limit limit ts).outcome w =
        .error ⟨.tooManySplices limit, position⟩) ↔
          (answer.afterRounds ts (limit + 1)).isSome = true)) := by
  have hends : answer.Ends limit ts ((settle step limit limit ts).outcome w) :=
    Answer.ends_iff.2 (outcome_settle_cases hstep limit limit w ts)
  refine ⟨fun r => ⟨fun h => h ▸ hends, fun h => hends.unique h⟩, fun hown => ⟨?_, ?_⟩⟩
  · rintro ⟨position, h⟩
    rw [h] at hends
    cases hends with
    | fails _ _ herror => exact absurd herror (hown _ position)
    | exceeds _ hnext => rw [hnext]; rfl
  · intro h
    obtain ⟨next, hnext⟩ := Option.isSome_iff_exists.1 h
    obtain ⟨last, hlast, -⟩ := Option.bind_eq_some_iff.1 hnext
    exact ⟨firstPosition last, hends.unique (.exceeds hlast hnext)⟩

/-! ## One round and no more -/

theorem answers_rules (nesting : Nat) (set : RuleSet) :
    Transform.Answers (Macro.runWithin nesting (.rules set)) (applyRules set.rules) := by
  intro ts w
  rw [runWithin_rules]
  cases applyRules set.rules ts <;> rfl

/-- Drops `a` in front of another token. -/
def dropSet : RuleSet where
  name := "drop"
  rules := [⟨[.literal ⟨.name, "a", {}⟩, .capture "x" .token {}], [.hole "x" {}], rfl⟩]

theorem applyRules_dropSet_ne (us : List Token) (limit : Nat) (position : Position) :
    applyRules dropSet.rules us ≠ .error ⟨.tooManySplices limit, position⟩ := by
  simp only [dropSet, applyRules]
  split
  · simp
  · next captures _ =>
    simp only [Template.fill, Template.write, TemplateNode.write, writeHole, valueOf]
    cases captures.find? "x" with
    | none => simp [Except.map]
    | some c => cases c <;> simp [Except.map]

/-- `a b` -/
def dropCall : List Token := [⟨.name, "a", {}⟩, ⟨.name, "b", {}⟩]

theorem settle_outcome_dropSet :
    Transform.Answers (Macro.run (.rules dropSet)) (applyRules dropSet.rules) ∧
      (Macro.run (.fixpoint (.rules dropSet) 1) dropCall).outcome default =
        .ok (some [⟨.name, "b", {}⟩]) ∧
      ∃ position, (Macro.run (.fixpoint (.rules dropSet) 0) dropCall).outcome default =
        .error ⟨.tooManySplices 0, position⟩ := by
  have hanswers : Transform.Answers (Macro.run (.rules dropSet)) (applyRules dropSet.rules) :=
    answers_rules nestingLimit dropSet
  have hround : Answer.afterRounds (applyRules dropSet.rules) dropCall 1 =
      some [⟨.name, "b", {}⟩] := by decide +kernel
  have hkeeps : Answer.Keeps (applyRules dropSet.rules) [⟨.name, "b", {}⟩] := .inl rfl
  refine ⟨hanswers, ?_, ?_⟩
  · rw [Macro.run, runWithin_fixpoint]
    exact ((settle_outcome hanswers 1 dropCall default).1 _).2
      (.stops (Nat.le_refl 1) (Nat.le_refl 1) hround hkeeps)
  · rw [Macro.run, runWithin_fixpoint]
    refine ((settle_outcome hanswers 0 dropCall default).2 fun us position => ?_).2 ?_
    · exact applyRules_dropSet_ne us 0 position
    · rw [hround]
      rfl

end TokenMacros

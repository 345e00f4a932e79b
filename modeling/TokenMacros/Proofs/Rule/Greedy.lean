import TokenMacros.Rule.Reading

/-!
# How far a repetition goes

A repetition with a separator goes on as long as the separator stands there and a
round can be read behind it, with one exception: a first round that takes nothing is
the last. Behind its last round, where there is one:

    inner.RoundFollows separator ts found.stop ↔
      (∃ first, inner.readAt ts start = some first ∧ first.stop = start) ∧
        inner.RoundFollows separator ts start              (Pattern.roundFollows_iff)

A later round that takes nothing ends nothing, since its separator takes a token.
-/

namespace TokenMacros

/-- The rounds that a repetition of a pattern reads from an index on. -/
def Pattern.roundsAt (inner : Pattern) (separator : Option Token) (q : Quantifier)
    (ts : List Token) (start : Nat) : Rounds :=
  readRounds (fun us => inner.read us) separator (q.most (ts.drop start)) none (ts.drop start)

/-- At the index stands the separator, and the pattern matches behind it. -/
def Pattern.RoundFollows (inner : Pattern) (separator : Token) (ts : List Token) (i : Nat) : Prop :=
  (∃ t, ts[i]? = some t ∧ t.same separator = true) ∧ (inner.readAt ts (i + 1)).isSome = true

/-- At the head of the stream stands the separator, and a round can be read behind it. -/
def Resumes (item : Reader) (separator : Token) : List Token → Prop
  | [] => False
  | t :: ts => t.same separator = true ∧ (item ts).isSome = true

variable {item : Reader} {separator : Token} {ts : List Token}

/-! ## Rounds -/

/-- Rounds behind a separator stop only where no separator or no round follows. The induction is on
the bound; every round takes its separator, so the bound is never reached. -/
theorem not_resumes_readRounds (happend : ∀ {ts r}, item ts = some r → r.used ++ r.rest = ts)
    {most : Nat} (hmost : ts.length < most) :
    ¬ Resumes item separator (readRounds item (some separator) most (some separator) ts).rest := by
  induction most generalizing ts with
  | zero => omega
  | succ most ih =>
    cases ts with
    | nil => exact id
    | cons t us =>
      rw [readRounds, splitSeparator]
      by_cases hsame : t.same separator = true
      · simp only [hsame, if_true]
        cases hr : item us with
        | none =>
          rintro ⟨-, hsome⟩
          rw [hr] at hsome
          cases hsome
        | some r =>
          have hlen := congrArg List.length (happend hr)
          rw [List.length_append] at hlen
          rw [List.length_cons] at hmost
          exact ih (by omega)
      · simp only [hsame, Bool.false_eq_true, if_false]
        exact fun h => hsame h.1

/-- The first round stands behind no separator: where it takes nothing, it is the last, and
otherwise the rounds stop only where no separator or no round follows. -/
theorem resumes_readRounds_iff (happend : ∀ {ts r}, item ts = some r → r.used ++ r.rest = ts)
    {most : Nat} (hmost : ts.length < most)
    (hone : (readRounds item (some separator) most none ts).items ≠ []) :
    Resumes item separator (readRounds item (some separator) most none ts).rest ↔
      (∃ r, item ts = some r ∧ r.used = []) ∧ Resumes item separator ts := by
  obtain ⟨most, rfl⟩ := Nat.exists_eq_add_of_le' (Nat.one_le_of_lt hmost)
  cases hr : item ts with
  | none =>
    rw [readRounds, splitSeparator] at hone
    simp only [hr] at hone
    exact absurd rfl hone
  | some r =>
    have hts := happend hr
    rw [readRounds, splitSeparator]
    simp only [hr, List.nil_append]
    cases hused : r.used with
    | nil =>
      rw [hused, List.nil_append] at hts
      rw [hts]
      exact ⟨fun h => ⟨⟨r, rfl, hused⟩, h⟩, fun h => h.2⟩
    | cons u us =>
      have hlen := congrArg List.length hts
      rw [hused, List.length_append, List.length_cons] at hlen
      have hstop : ¬ Resumes item separator
          (readRounds item (some separator) most (some separator) r.rest).rest :=
        not_resumes_readRounds happend (by omega)
      refine ⟨fun h => absurd h hstop, ?_⟩
      rintro ⟨⟨r', hr', hnil⟩, -⟩
      cases hr'
      rw [hused] at hnil
      cases hnil

/-! ## Patterns -/

section patterns

variable {inner : Pattern} {q : Quantifier} {start : Nat}

theorem Pattern.roundFollows_iff_resumes {i : Nat} : inner.RoundFollows separator ts i ↔
    Resumes (fun us => inner.read us) separator (ts.drop i) := by
  have hget : ts[i]? = (ts.drop i)[0]? := by
    rw [List.getElem?_drop, Nat.add_zero]
  have hdrop : ts.drop (i + 1) = (ts.drop i).tail := List.tail_drop.symm
  rw [RoundFollows, Pattern.readAt, Option.isSome_map, hget, hdrop]
  cases ts.drop i with
  | nil => simp [Resumes]
  | cons t us => simp [Resumes]

/-- There is a round exactly if the pattern matches where the repetition starts. -/
theorem Pattern.roundsAt_items_ne_nil (hq : q ≠ .optional) :
    (inner.roundsAt (some separator) q ts start).items ≠ [] ↔
      (inner.readAt ts start).isSome = true := by
  have hmost : q.most (ts.drop start) = (ts.drop start).length + 1 := by
    cases q with
    | optional => exact absurd rfl hq
    | any | atLeastOne => rfl
  rw [roundsAt, hmost, readRounds, Pattern.readAt, Option.isSome_map]
  simp only [splitSeparator, List.nil_append]
  cases inner.read (ts.drop start) with
  | none => simp
  | some r => cases hused : r.used <;> simp [hused]

/-- A repetition with a separator that has read a round stops in front of a separator and another
round exactly if the first round takes nothing and is followed by these. -/
theorem Pattern.roundFollows_iff (hq : q = .any ∨ q = .atLeastOne) {found : Found}
    (h : Pattern.readAt [.repetition inner (some separator) q] ts start = some found)
    (hone : (inner.roundsAt (some separator) q ts start).items ≠ []) :
    inner.RoundFollows separator ts found.stop ↔
      (∃ first, inner.readAt ts start = some first ∧ first.stop = start) ∧
        inner.RoundFollows separator ts start := by
  have hmost : (ts.drop start).length < q.most (ts.drop start) := by
    rcases hq with rfl | rfl <;> exact Nat.lt_succ_self _
  have hrounds := resumes_readRounds_iff (Pattern.read_append inner) hmost hone
  have hstop : ts.drop found.stop = (inner.roundsAt (some separator) q ts start).rest := by
    obtain ⟨r, hr, rfl⟩ := Option.map_eq_some_iff.1 h
    have happend := Pattern.read_append _ hr
    have hrest : r.rest = (inner.roundsAt (some separator) q ts start).rest := by
      simp only [Pattern.read, PatternNode.read, readRepetition] at hr
      split at hr
      · cases hr
      · next hnode =>
        split at hnode
        · cases hnode
        · cases hnode
          cases hr
          rfl
    rw [← hrest, ← List.drop_drop, ← happend, List.drop_left]
  have hfirst : (∃ first, inner.readAt ts start = some first ∧ first.stop = start) ↔
      ∃ r, inner.read (ts.drop start) = some r ∧ r.used = [] := by
    simp only [Pattern.readAt, Option.map_eq_some_iff]
    constructor
    · rintro ⟨_, ⟨r, hr, rfl⟩, hlen⟩
      exact ⟨r, hr, List.length_eq_zero_iff.1 (Nat.left_eq_add.1 hlen.symm)⟩
    · rintro ⟨r, hr, hused⟩
      exact ⟨_, ⟨r, hr, rfl⟩, by simp [hused]⟩
  rw [Pattern.roundFollows_iff_resumes, Pattern.roundFollows_iff_resumes, hstop, hfirst]
  exact hrounds

end patterns

/-! ## Commas with names or nothing between them -/

/-- `$x:name` or nothing. -/
def nameOrNothing : Pattern := [.repetition [.capture "x" .name {}] none .optional]

/-- The separator of a list of names. -/
def nameComma : Token := ⟨.operator, ",", {}⟩

/-- The list `, a`, which starts with nothing. -/
def leadingComma : List Token := [nameComma, ⟨.name, "a", {}⟩]

/-- The list `a , , b`, which has nothing in the middle. -/
def doubleComma : List Token := [⟨.name, "a", {}⟩, nameComma, nameComma, ⟨.name, "b", {}⟩]

/-- Behind the nothing in front of `, a` the repetition stops, though a comma and a name follow. -/
theorem roundFollows_leadingComma : ∃ found,
    Pattern.readAt [.repetition nameOrNothing (some nameComma) .any] leadingComma 0 = some found ∧
      (nameOrNothing.roundsAt (some nameComma) .any leadingComma 0).items ≠ [] ∧
        nameOrNothing.RoundFollows nameComma leadingComma found.stop := by
  obtain ⟨found, hfound, hstop⟩ := Option.map_eq_some_iff.1
    (show (Pattern.readAt [.repetition nameOrNothing (some nameComma) .any] leadingComma 0).map
      Found.stop = some 0 by decide)
  refine ⟨found, hfound, ?_, ?_⟩
  · rw [Pattern.roundsAt_items_ne_nil (by decide)]
    decide
  · rw [hstop]
    exact ⟨⟨nameComma, by decide, by decide⟩, by decide⟩

/-- The nothing in the middle of `a , , b` does not end the list. -/
theorem roundFollows_iff_doubleComma : ∃ found,
    Pattern.readAt [.repetition nameOrNothing (some nameComma) .any] doubleComma 0 = some found ∧
      (nameOrNothing.roundsAt (some nameComma) .any doubleComma 0).items ≠ [] ∧
        ¬ nameOrNothing.RoundFollows nameComma doubleComma found.stop := by
  obtain ⟨found, hfound, hstop⟩ := Option.map_eq_some_iff.1
    (show (Pattern.readAt [.repetition nameOrNothing (some nameComma) .any] doubleComma 0).map
      Found.stop = some 4 by decide)
  have hone : (nameOrNothing.roundsAt (some nameComma) .any doubleComma 0).items ≠ [] := by
    rw [Pattern.roundsAt_items_ne_nil (by decide)]
    decide
  refine ⟨found, hfound, hone, ?_⟩
  rw [Pattern.roundFollows_iff (Or.inl rfl) hfound hone]
  rintro ⟨⟨first, hfirst, hzero⟩, -⟩
  have hlen : (nameOrNothing.readAt doubleComma 0).map Found.stop = some 1 := by decide
  rw [hfirst, Option.map_some, hzero] at hlen
  cases hlen

end TokenMacros

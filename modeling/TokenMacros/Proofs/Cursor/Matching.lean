import TokenMacros.Proofs.Cursor.Basic
import TokenMacros.Rule.Reading

/-!
# Matching by cursor

A pattern can be matched against a stream that stays whole: every node moves a cursor, a
repetition goes round in a loop, and captures are slices of the stream. It finds what
reading the tokens behind the cursor finds, and asks for nothing outside of the stream:

    start ≤ ts.length → p.walk ts start = .ok (p.readAt ts start)       (Pattern.walk_eq)

The loop of a repetition ends by itself, since all rounds but the last take something:

    (readRounds item separator most due ts).items.length ≤
      (readRounds item separator most due ts).used.length + 1           (length_items_le)
-/

namespace TokenMacros

/-! ## Algorithm -/

/-- The index behind what a capture takes at a cursor. -/
def Fragment.stopAt (f : Fragment) (ts : List Token) (pos : Nat) : Option Nat :=
  match f with
  | .null => some pos
  | .tree => (treeSpanAt ts pos).toOption.map Prod.snd
  | _ =>
    match ts[pos]? with
    | none => none
    | some t => if f.accepts t then some (pos + 1) else none

/-- A pattern, or a part of one, that moves a cursor over what it matches. -/
abbrev Walker := Nat → Walk (Option Found)

/-- The cursor behind a separator that is due. -/
def separatorStop (due : Option Token) (ts : List Token) (pos : Nat) : Option Nat :=
  match due with
  | none => some pos
  | some separator =>
    match ts[pos]? with
    | none => none
    | some t => if t.same separator then some (pos + 1) else none

/-- Most rounds of a repetition, if its quantifier sets a bound. -/
def Quantifier.bound? : Quantifier → Option Nat
  | .optional => some 1
  | .any | .atLeastOne => none

/-- Goes through the rounds of a repetition behind the first `done`, and gives the captures of each
and the cursor behind the last. A round that does not move the cursor is the last. The loop has no
bound of its own; here `fuel` bounds it. -/
def walkRounds (item : Walker) (separator : Option Token) (bound : Option Nat) (ts : List Token) :
    (fuel done pos : Nat) → Walk (List Captures × Nat)
  | 0, _, _ => .error .endless
  | fuel + 1, done, pos =>
    if bound.any (· ≤ done) then .ok ([], pos)
    else
      match separatorStop (if done = 0 then none else separator) ts pos with
      | none => .ok ([], pos)
      | some cursor =>
        match item cursor with
        | .error stop => .error stop
        | .ok none => .ok ([], pos)
        | .ok (some found) =>
          if found.stop = pos then .ok ([found.captures], pos)
          else
            (walkRounds item separator bound ts fuel (done + 1) found.stop).map fun more =>
              (found.captures :: more.1, more.2)

/-- Moves a cursor over a repetition; more rounds than there are tokens left, and one, are not to be
expected. -/
def walkRepetition (item : Walker) (slots : List Slot) (separator : Option Token) (q : Quantifier)
    (ts : List Token) (pos : Nat) : Walk (Option Found) :=
  (walkRounds item separator q.bound? ts (ts.length - pos + 2) 0 pos).map fun rounds =>
    if rounds.1.length < q.fewest then none else some ⟨gather slots rounds.1 ∅, rounds.2⟩

mutual

/-- Moves a cursor over what a node matches. -/
def PatternNode.walk (ts : List Token) : PatternNode → Walker
  | .literal literal, pos =>
    match ts[pos]? with
    | none => .ok none
    | some t => .ok (if t.same literal then some ⟨∅, pos + 1⟩ else none)
  | .escape escape, pos =>
    match ts[pos]? with
    | none => .ok none
    | some t => .ok (if t.kind = escape.kind then some ⟨∅, pos + 1⟩ else none)
  | .capture name fragment _, pos =>
    match fragment.stopAt ts pos with
    | none => .ok none
    | some stop => (slice ts pos stop).map fun taken =>
      some ⟨(∅ : Captures).insert name (.once taken), stop⟩
  | .repetition inner separator q, pos =>
    walkRepetition (fun cursor => Pattern.walk ts inner cursor) (Pattern.slots 0 inner) separator q
      ts pos
  | .choice variants _, pos => Pattern.walkFirst ts variants pos
  | .lookahead inner, pos => (Pattern.walk ts inner pos).map fun
    | none => some ⟨∅, pos⟩
    | some _ => none

/-- Moves a cursor over what nodes match, from left to right. -/
def Pattern.walk (ts : List Token) : Pattern → Walker
  | [], pos => .ok (some ⟨∅, pos⟩)
  | node :: nodes, pos =>
    match node.walk ts pos with
    | .error stop => .error stop
    | .ok none => .ok none
    | .ok (some first) => (Pattern.walk ts nodes first.stop).map fun found =>
      found.map fun second => ⟨first.captures.merge second.captures, second.stop⟩

/-- Moves a cursor over what the first variant that matches takes. -/
def Pattern.walkFirst (ts : List Token) : List Pattern → Walker
  | [], _ => .ok none
  | variant :: variants, pos =>
    match Pattern.walk ts variant pos with
    | .error stop => .error stop
    | .ok (some found) => .ok (some found)
    | .ok none => Pattern.walkFirst ts variants pos

end

/-- The captures of a pattern that matches the whole of a stream. -/
def Pattern.walkWhole (p : Pattern) (ts : List Token) : Walk (Option Captures) :=
  (Pattern.walk ts p 0).map fun found =>
    (found.filter fun f => f.stop = ts.length).map Found.captures

/-! ## Walking as reading -/

/-- What a reader finds at a cursor. -/
def Reader.foundAt (item : Reader) (ts : List Token) (pos : Nat) : Option Found :=
  (item (ts.drop pos)).map fun r => ⟨r.captures, pos + r.used.length⟩

/-- A walker finds what a reader finds in the stream, wherever the cursor stands in it. -/
def Walker.Follows (walker : Walker) (item : Reader) (ts : List Token) : Prop :=
  ∀ pos ≤ ts.length, walker pos = .ok (item.foundAt ts pos)

variable {ts : List Token} {pos : Nat} {item : Reader} {walker : Walker}

theorem Reader.foundAt_eq_none (h : item (ts.drop pos) = none) : item.foundAt ts pos = none := by
  rw [foundAt, h, Option.map_none]

theorem Reader.foundAt_eq_some {r : Reading} (h : item (ts.drop pos) = some r) :
    item.foundAt ts pos = some ⟨r.captures, pos + r.used.length⟩ := by
  rw [foundAt, h, Option.map_some]

/-- A capture moves the cursor over what it takes. -/
theorem Fragment.stopAt_eq (f : Fragment) (ts : List Token) (pos : Nat) :
    f.stopAt ts pos = (f.take (ts.drop pos)).map fun p => pos + p.1.length := by
  cases f with
  | null => rfl
  | tree =>
    rw [stopAt, take, treeSpanAt_eq, treeSpan]
    rcases drop_eq_nil_or_cons ts pos with ⟨-, hdrop⟩ | ⟨t, rest, -, hdrop, -⟩
    · rw [hdrop]
      rfl
    · simp only [hdrop]
      cases splitTree (t :: rest) <;> rfl
  | token | name | operator | number | string =>
    rcases drop_eq_nil_or_cons ts pos with ⟨hget, hdrop⟩ | ⟨t, rest, hget, hdrop, -⟩
    · simp only [stopAt, take, hget, hdrop, Option.map_none]
    · simp only [stopAt, take, hget, hdrop]
      split <;> rfl

/-- A separator that is due moves the cursor over what is cut off. -/
theorem separatorStop_eq (due : Option Token) (ts : List Token) (pos : Nat) :
    separatorStop due ts pos =
      (splitSeparator due (ts.drop pos)).map fun p => pos + p.1.length := by
  cases due with
  | none => rfl
  | some separator =>
    rw [separatorStop]
    rcases drop_eq_nil_or_cons ts pos with ⟨hget, hdrop⟩ | ⟨t, rest, hget, hdrop, -⟩
    · simp only [hget, hdrop, splitSeparator, Option.map_none]
    · simp only [hget, hdrop, splitSeparator]
      split <;> rfl

/-! ## Rounds -/

/-- The rounds that the loop may still take, behind `done` of them: as many as the reader that stops
at a bound does, or, without a bound, more than there are tokens left. -/
def RoundsLeft (bound : Option Nat) (done left most : Nat) : Prop :=
  bound = some (done + most) ∨ (bound = none ∧ left < most)

/-- The loop goes through the rounds that are read behind the cursor. Every round that does not end
it takes a token, so that as many turns as there are tokens left, and two, are enough. -/
theorem walkRounds_eq (hwalker : walker.Follows item ts)
    (hitem : ∀ {us r}, item us = some r → r.used ++ r.rest = us) (separator bound) {fuel done most : Nat}
    (hpos : pos ≤ ts.length) (hmost : RoundsLeft bound done (ts.length - pos) most)
    (hfuel : ts.length - pos + 2 ≤ fuel) :
    walkRounds walker separator bound ts fuel done pos =
      .ok ((readRounds item separator most (if done = 0 then none else separator)
          (ts.drop pos)).items,
        pos + (readRounds item separator most (if done = 0 then none else separator)
          (ts.drop pos)).used.length) := by
  induction fuel generalizing done most pos with
  | zero => omega
  | succ fuel ih =>
    rw [walkRounds]
    cases most with
    | zero =>
      have hbound : bound = some done := hmost.resolve_right fun h => Nat.not_lt_zero _ h.2
      simp only [hbound, Option.any_some, Nat.le_refl, decide_true, if_true]
      rfl
    | succ most =>
      have hbound : ¬ bound.any (· ≤ done) = true := by
        rcases hmost with rfl | ⟨rfl, -⟩
        · simp
        · simp
      rw [if_neg hbound, separatorStop_eq, readRounds]
      cases hsplit : splitSeparator (if done = 0 then none else separator) (ts.drop pos) with
      | none => rfl
      | some cut =>
        obtain ⟨taken, behind⟩ := cut
        have htaken := splitSeparator_append hsplit
        have hcursor := le_length_of_append htaken hpos
        simp only [Option.map_some, hwalker _ hcursor]
        have hdrop := drop_of_append htaken
        cases hr : item behind with
        | none =>
          rw [Reader.foundAt_eq_none (by rw [hdrop, hr])]
          rfl
        | some r =>
          rw [Reader.foundAt_eq_some (by rw [hdrop, hr])]
          have happend : (taken ++ r.used) ++ r.rest = ts.drop pos := by
            rw [List.append_assoc, hitem hr, htaken]
          have hstop : pos + taken.length + r.used.length = pos + (taken ++ r.used).length := by
            rw [List.length_append, Nat.add_assoc]
          simp only [hstop]
          cases hround : taken ++ r.used with
          | nil => simp
          | cons u us =>
            rw [hround] at happend
            have hle := le_length_of_append happend hpos
            simp only [List.length_cons] at hle
            have hleft : RoundsLeft bound (done + 1) (ts.length - (pos + (u :: us).length)) most := by
              rw [List.length_cons]
              rcases hmost with hbound | ⟨hnone, hlt⟩
              · exact .inl (by rw [hbound]; congr 1; omega)
              · exact .inr ⟨hnone, by omega⟩
            have hne : pos + (u :: us).length ≠ pos := by
              rw [List.length_cons]
              omega
            have hrest := ih (le_length_of_append happend hpos) hleft (by
              rw [List.length_cons]
              omega)
            rw [if_neg (Nat.succ_ne_zero done), drop_of_append happend] at hrest
            rw [if_neg hne, hrest]
            simp only [Except.map, List.length_append, Nat.add_assoc]

/-- The rounds take something each, all but the last. -/
theorem length_items_le (item : Reader) (separator : Option Token) (most : Nat)
    (due : Option Token) (ts : List Token) :
    (readRounds item separator most due ts).items.length ≤
      (readRounds item separator most due ts).used.length + 1 := by
  induction most generalizing due ts with
  | zero => exact Nat.zero_le _
  | succ most ih =>
    rw [readRounds]
    cases splitSeparator due ts with
    | none => exact Nat.zero_le _
    | some cut =>
      obtain ⟨taken, behind⟩ := cut
      simp only
      cases item behind with
      | none => exact Nat.zero_le _
      | some r =>
        simp only
        cases taken ++ r.used with
        | nil => exact Nat.le_refl _
        | cons u us =>
          have hmore := ih separator r.rest
          simp only [List.length_cons, List.length_append]
          omega

/-- Behind a cursor, a quantifier allows the rounds that it allows a reader. -/
theorem Quantifier.roundsLeft_most (q : Quantifier) (ts : List Token) (pos : Nat) :
    RoundsLeft q.bound? 0 (ts.length - pos) (q.most (ts.drop pos)) := by
  cases q with
  | optional => exact .inl rfl
  | any => exact .inr ⟨rfl, by simp [most]⟩
  | atLeastOne => exact .inr ⟨rfl, by simp [most]⟩

/-- Moving a cursor over a repetition is reading with it. -/
theorem walkRepetition_eq (hwalker : walker.Follows item ts)
    (hitem : ∀ {us r}, item us = some r → r.used ++ r.rest = us) (slots : List Slot)
    (separator : Option Token) (q : Quantifier) :
    Walker.Follows (walkRepetition walker slots separator q ts)
      (readRepetition item slots separator q) ts := by
  intro pos hpos
  have hrounds := walkRounds_eq hwalker hitem separator q.bound? hpos (q.roundsLeft_most ts pos)
    (Nat.le_refl _)
  rw [if_pos rfl] at hrounds
  rw [walkRepetition, hrounds, Reader.foundAt, readRepetition]
  simp only [Except.map]
  split <;> rfl

/-! ## Patterns -/

mutual

/-- Moving a cursor over what a node matches is reading with it. -/
theorem PatternNode.walk_eq (ts : List Token) :
    ∀ node : PatternNode, Walker.Follows (node.walk ts) node.read ts
  | .literal literal, pos, hpos => by
    rw [PatternNode.walk, Reader.foundAt]
    rcases drop_eq_nil_or_cons ts pos with ⟨hget, hdrop⟩ | ⟨t, rest, hget, hdrop, -⟩
    · simp only [hget, hdrop, PatternNode.read, Option.map_none]
    · simp only [hget, hdrop, PatternNode.read]
      split <;> rfl
  | .escape escape, pos, hpos => by
    rw [PatternNode.walk, Reader.foundAt]
    rcases drop_eq_nil_or_cons ts pos with ⟨hget, hdrop⟩ | ⟨t, rest, hget, hdrop, -⟩
    · simp only [hget, hdrop, PatternNode.read, Option.map_none]
    · simp only [hget, hdrop, PatternNode.read]
      split <;> rfl
  | .capture name fragment position, pos, hpos => by
    rw [PatternNode.walk, Reader.foundAt, PatternNode.read, Fragment.stopAt_eq]
    cases htake : fragment.take (ts.drop pos) with
    | none => rfl
    | some cut =>
      obtain ⟨taken, rest⟩ := cut
      simp only [Option.map_some, slice_of_append (Fragment.take_append htake) hpos, Except.map]
  | .repetition inner separator q, pos, hpos => by
    rw [PatternNode.walk, Reader.foundAt, PatternNode.read]
    exact walkRepetition_eq (Pattern.walk_follows ts inner) (Pattern.read_append inner) _ _ _ pos hpos
  | .choice variants position, pos, hpos => by
    rw [PatternNode.walk, Reader.foundAt, PatternNode.read]
    exact Pattern.walkFirst_follows ts variants pos hpos
  | .lookahead inner, pos, hpos => by
    rw [PatternNode.walk, Reader.foundAt, PatternNode.read, Pattern.walk_follows ts inner pos hpos,
      Reader.foundAt]
    cases Pattern.read inner (ts.drop pos) <;> rfl

/-- Moving a cursor over what nodes match is reading with them. -/
theorem Pattern.walk_follows (ts : List Token) :
    ∀ p : Pattern, Walker.Follows (Pattern.walk ts p) (Pattern.read p) ts
  | [], pos, hpos => by rw [Pattern.walk, Reader.foundAt, Pattern.read]; rfl
  | node :: nodes, pos, hpos => by
    rw [Pattern.walk, PatternNode.walk_eq ts node pos hpos, Reader.foundAt, Reader.foundAt,
      Pattern.read]
    cases hfirst : node.read (ts.drop pos) with
    | none => rfl
    | some first =>
      have happend := PatternNode.read_append node hfirst
      simp only [Option.map_some,
        Pattern.walk_follows ts nodes _ (le_length_of_append happend hpos), Reader.foundAt,
        drop_of_append happend, Except.map]
      cases Pattern.read nodes first.rest with
      | none => rfl
      | some second => simp only [Option.map_some, List.length_append, Nat.add_assoc]

/-- Moving a cursor over what the first variant takes is reading with it. -/
theorem Pattern.walkFirst_follows (ts : List Token) :
    ∀ variants : List Pattern,
      Walker.Follows (Pattern.walkFirst ts variants) (Pattern.readFirst variants) ts
  | [], pos, hpos => by rw [Pattern.walkFirst, Reader.foundAt, Pattern.readFirst]; rfl
  | variant :: variants, pos, hpos => by
    rw [Pattern.walkFirst, Pattern.walk_follows ts variant pos hpos, Reader.foundAt, Reader.foundAt,
      Pattern.readFirst]
    cases Pattern.read variant (ts.drop pos) with
    | none => exact Pattern.walkFirst_follows ts variants pos hpos
    | some r => rfl

end

/-- A pattern that moves a cursor finds what it finds by reading, and stays within the stream. -/
theorem Pattern.walk_eq (p : Pattern) {start : Nat} (hstart : start ≤ ts.length) :
    p.walk ts start = .ok (p.readAt ts start) :=
  Pattern.walk_follows ts p start hstart

/-- What is found stops within the stream. -/
theorem Pattern.stop_le_of_readAt {p : Pattern} {start : Nat} {found : Found}
    (hstart : start ≤ ts.length) (h : p.readAt ts start = some found) :
    start ≤ found.stop ∧ found.stop ≤ ts.length := by
  rw [readAt, Option.map_eq_some_iff] at h
  obtain ⟨r, hr, rfl⟩ := h
  exact ⟨Nat.le_add_right _ _, le_length_of_append (read_append p hr) hstart⟩

/-- The loop of a repetition stops within the stream, and goes round at most once more often than it
takes tokens. -/
theorem Pattern.exists_walkRounds (inner : Pattern) (separator : Option Token) (q : Quantifier)
    {start : Nat} (hstart : start ≤ ts.length) : ∃ items stop,
      walkRounds (Pattern.walk ts inner) separator q.bound? ts (ts.length - start + 2) 0 start =
        .ok (items, stop) ∧
      start ≤ stop ∧ stop ≤ ts.length ∧ items.length ≤ stop - start + 1 := by
  have hrounds := walkRounds_eq (Pattern.walk_follows ts inner) (Pattern.read_append inner)
    separator q.bound? hstart (q.roundsLeft_most ts start) (Nat.le_refl _)
  have happend := readRounds_append (Pattern.read_append inner) separator (q.most (ts.drop start))
    none (ts.drop start)
  have hitems := length_items_le (Pattern.read inner) separator (q.most (ts.drop start)) none
    (ts.drop start)
  rw [if_pos rfl] at hrounds
  exact ⟨_, _, hrounds, Nat.le_add_right _ _, le_length_of_append happend hstart,
    by rwa [Nat.add_sub_cancel_left]⟩

theorem Pattern.walkWhole_eq (p : Pattern) (ts : List Token) :
    p.walkWhole ts = .ok (p.readWhole ts) := by
  rw [walkWhole, walk_eq p (Nat.zero_le _), readAt, readWhole, List.drop_zero]
  cases hr : p.read ts with
  | none => rfl
  | some r =>
    have hlen := congrArg List.length (read_append p hr)
    rw [List.length_append] at hlen
    obtain ⟨captures, used, rest⟩ := r
    cases rest with
    | nil =>
      simp only [List.length_nil, Nat.add_zero] at hlen
      simp [Except.map, Option.filter, hlen]
    | cons t rest =>
      simp only [List.length_cons] at hlen
      have hne : used.length ≠ ts.length := by omega
      simp [Except.map, Option.filter, hne]

end TokenMacros

import TokenMacros.Rule.Captured
import TokenMacros.Rule.Pattern
import TokenMacros.Token.Tree

/-!
# Reading with a pattern

A pattern reads the head of a stream and leaves the rest. A node that fails
takes nothing; repetitions are greedy, choices settle on the first variant that
matches, and a node that has matched is never tried again.

    p.read ts = some r → r.used ++ r.rest = ts             (Pattern.read_append)

## Algorithm

`PatternNode.read` and `Pattern.read` follow the pattern; `readRounds` runs the
loop of a repetition over any reader.
-/

namespace TokenMacros

/-- What was read off the head of a stream. -/
structure Reading where
  captures : Captures
  /-- The tokens taken. -/
  used : List Token
  /-- The tokens left. -/
  rest : List Token

/-- Reads the head of a stream. -/
abbrev Reader := List Token → Option Reading

/-! ## Captures -/

/-- Does a capture of this fragment accept the token as its only one? -/
def Fragment.accepts (f : Fragment) (t : Token) : Bool :=
  match f with
  | .token => !t.isDelimiter
  | .name => t.kind == .name
  | .operator => t.kind == .operator
  | .number => t.kind == .number
  | .string => t.kind == .string
  | .tree | .null => false

/-- The tokens that a capture takes, and the tokens left. -/
def Fragment.take (f : Fragment) (ts : List Token) : Option (List Token × List Token) :=
  match f with
  | .null => some ([], ts)
  | .tree => (splitTree ts).toOption
  | _ =>
    match ts with
    | [] => none
    | t :: rest => if f.accepts t then some ([t], rest) else none

/-- A capture in a repetition, with the repetitions around it inside that one. -/
structure Slot where
  name : String
  depth : Nat

mutual

/-- The captures of a node. Of a choice the first variant tells; a lookahead has none. -/
def PatternNode.slots (depth : Nat) : PatternNode → List Slot
  | .capture name _ _ => [⟨name, depth⟩]
  | .repetition inner _ _ => Pattern.slots (depth + 1) inner
  | .choice variants _ => Pattern.slotsOfFirst depth variants
  | .literal _ | .lookahead _ | .escape _ => []

/-- The captures of nodes, from left to right. -/
def Pattern.slots (depth : Nat) : Pattern → List Slot
  | [] => []
  | node :: nodes => node.slots depth ++ Pattern.slots depth nodes

/-- The captures of the first variant. -/
def Pattern.slotsOfFirst (depth : Nat) : List Pattern → List Slot
  | [] => []
  | variant :: _ => Pattern.slots depth variant

end

/-! ## Repetitions -/

/-- Cuts off a separator, if one is due. -/
def splitSeparator : Option Token → List Token → Option (List Token × List Token)
  | none, ts => some ([], ts)
  | some _, [] => none
  | some separator, t :: ts => if t.same separator then some ([t], ts) else none

/-- What the rounds of a repetition have read. -/
structure Rounds where
  /-- The captures of each round. -/
  items : List Captures
  used : List Token
  rest : List Token

/-- Reads `most` rounds of `item` at most, with `separator` between two of them. `due` is the
separator before the next round; it is taken only together with the round behind it. A round that
takes nothing is the last. -/
def readRounds (item : Reader) (separator : Option Token) :
    Nat → Option Token → List Token → Rounds
  | 0, _, ts => ⟨[], [], ts⟩
  | most + 1, due, ts =>
    match splitSeparator due ts with
    | none => ⟨[], [], ts⟩
    | some (taken, behind) =>
      match item behind with
      | none => ⟨[], [], ts⟩
      | some r =>
        match taken ++ r.used with
        | [] => ⟨[r.captures], [], r.rest⟩
        | u :: us =>
          let more := readRounds item separator most separator r.rest
          ⟨r.captures :: more.items, u :: us ++ more.used, more.rest⟩

/-- Most rounds on a stream. Where a quantifier sets no bound the stream does, since every round
but the last takes a token. -/
def Quantifier.most (q : Quantifier) (ts : List Token) : Nat :=
  match q with
  | .optional => 1
  | .any | .atLeastOne => ts.length + 1

/-- Fewest rounds. -/
def Quantifier.fewest : Quantifier → Nat
  | .optional | .any => 0
  | .atLeastOne => 1

/-- Collects for every slot its values in the rounds. Of two slots of one name the first has the
values, and the second, whose values then count as unreached, has the last word. -/
def gather : List Slot → List Captures → Captures → Captures
  | [], _, out => out
  | s :: slots, items, out =>
    gather slots (items.map (·.erase s.name))
      (out.insert s.name (.each (items.map fun c => (c.find? s.name).getD (.unreached s.depth))))

/-- Reads with a repetition of `item`, whose captures are `slots`. -/
def readRepetition (item : Reader) (slots : List Slot) (separator : Option Token)
    (q : Quantifier) : Reader := fun ts =>
  let rounds := readRounds item separator (q.most ts) none ts
  if rounds.items.length < q.fewest then none
  else some ⟨gather slots rounds.items ∅, rounds.used, rounds.rest⟩

/-! ## Patterns -/

mutual

/-- Reads with one node. -/
def PatternNode.read : PatternNode → Reader
  | .literal literal, ts =>
    match ts with
    | [] => none
    | t :: rest => if t.same literal then some ⟨∅, [t], rest⟩ else none
  | .escape escape, ts =>
    match ts with
    | [] => none
    | t :: rest => if t.kind = escape.kind then some ⟨∅, [t], rest⟩ else none
  | .capture name fragment _, ts =>
    (fragment.take ts).map fun p => ⟨(∅ : Captures).insert name (.once p.1), p.1, p.2⟩
  | .repetition inner separator q, ts =>
    readRepetition (fun us => Pattern.read inner us) (Pattern.slots 0 inner) separator q ts
  | .choice variants _, ts => Pattern.readFirst variants ts
  | .lookahead inner, ts =>
    match Pattern.read inner ts with
    | none => some ⟨∅, [], ts⟩
    | some _ => none

/-- Reads with nodes from left to right. Of two values for a name the later counts. -/
def Pattern.read : Pattern → Reader
  | [], ts => some ⟨∅, [], ts⟩
  | node :: nodes, ts =>
    match node.read ts with
    | none => none
    | some r =>
      match Pattern.read nodes r.rest with
      | none => none
      | some s => some ⟨r.captures.merge s.captures, r.used ++ s.used, s.rest⟩

/-- Reads with the first variant that matches. -/
def Pattern.readFirst : List Pattern → Reader
  | [], _ => none
  | variant :: variants, ts =>
    match Pattern.read variant ts with
    | some r => some r
    | none => Pattern.readFirst variants ts

end

/-- What a pattern has captured at an index, and the index behind the last token taken. -/
structure Found where
  captures : Captures
  stop : Nat

/-- Reads at an index; tokens may be left. -/
def Pattern.readAt (p : Pattern) (ts : List Token) (start : Nat) : Option Found :=
  (p.read (ts.drop start)).map fun r => ⟨r.captures, start + r.used.length⟩

/-- The captures of a pattern that takes the whole of a stream. -/
def Pattern.readWhole (p : Pattern) (ts : List Token) : Option Captures :=
  match p.read ts with
  | some ⟨captures, _, []⟩ => some captures
  | _ => none

/-! ## What is read -/

section inversion

variable {ts : List Token} {r : Reading} {inner nodes : Pattern} {node : PatternNode}

theorem read_literal_eq_some {literal : Token} :
    (PatternNode.literal literal).read ts = some r ↔
      ∃ t rest, ts = t :: rest ∧ t.same literal = true ∧ r = ⟨∅, [t], rest⟩ := by
  cases ts with
  | nil => simp [PatternNode.read]
  | cons t rest =>
    simp only [PatternNode.read, Option.ite_none_right_eq_some, Option.some.injEq]
    constructor
    · rintro ⟨hfits, rfl⟩
      exact ⟨t, rest, rfl, hfits, rfl⟩
    · rintro ⟨_, _, ⟨⟩, hfits, rfl⟩
      exact ⟨hfits, rfl⟩

theorem read_escape_eq_some {escape : Escape} :
    (PatternNode.escape escape).read ts = some r ↔
      ∃ t rest, ts = t :: rest ∧ t.kind = escape.kind ∧ r = ⟨∅, [t], rest⟩ := by
  cases ts with
  | nil => simp [PatternNode.read]
  | cons t rest =>
    simp only [PatternNode.read, Option.ite_none_right_eq_some, Option.some.injEq]
    constructor
    · rintro ⟨hfits, rfl⟩
      exact ⟨t, rest, rfl, hfits, rfl⟩
    · rintro ⟨_, _, ⟨⟩, hfits, rfl⟩
      exact ⟨hfits, rfl⟩

theorem read_capture_eq_some {name : String} {fragment : Fragment} {position : Position} :
    (PatternNode.capture name fragment position).read ts = some r ↔
      ∃ taken rest, fragment.take ts = some (taken, rest) ∧
        r = ⟨(∅ : Captures).insert name (.once taken), taken, rest⟩ := by
  simp only [PatternNode.read, Option.map_eq_some_iff]
  constructor
  · rintro ⟨⟨taken, rest⟩, htake, rfl⟩
    exact ⟨taken, rest, htake, rfl⟩
  · rintro ⟨taken, rest, htake, rfl⟩
    exact ⟨(taken, rest), htake, rfl⟩

theorem readRepetition_eq_some {item : Reader} {slots : List Slot} {separator : Option Token}
    {q : Quantifier} : readRepetition item slots separator q ts = some r ↔
      q.fewest ≤ (readRounds item separator (q.most ts) none ts).items.length ∧
        r = ⟨gather slots (readRounds item separator (q.most ts) none ts).items ∅,
          (readRounds item separator (q.most ts) none ts).used,
          (readRounds item separator (q.most ts) none ts).rest⟩ := by
  simp only [readRepetition, Option.ite_none_left_eq_some, Nat.not_lt, Option.some.injEq]
  exact and_congr_right fun _ => eq_comm

theorem read_lookahead_eq_some : (PatternNode.lookahead inner).read ts = some r ↔
    Pattern.read inner ts = none ∧ r = ⟨∅, [], ts⟩ := by
  rw [PatternNode.read]
  cases Pattern.read inner ts with
  | none => simp [eq_comm]
  | some found => simp

theorem Pattern.read_cons_eq_some : Pattern.read (node :: nodes) ts = some r ↔
    ∃ first second, node.read ts = some first ∧ Pattern.read nodes first.rest = some second ∧
      r = ⟨first.captures.merge second.captures, first.used ++ second.used, second.rest⟩ := by
  rw [Pattern.read]
  cases node.read ts with
  | none => simp
  | some first =>
    cases hsecond : Pattern.read nodes first.rest with
    | none => simp [hsecond]
    | some second => simp [hsecond, eq_comm]

theorem Pattern.readFirst_cons_eq_some {variant : Pattern} {variants : List Pattern} :
    Pattern.readFirst (variant :: variants) ts = some r ↔ Pattern.read variant ts = some r ∨
      Pattern.read variant ts = none ∧ Pattern.readFirst variants ts = some r := by
  rw [Pattern.readFirst]
  cases Pattern.read variant ts <;> simp

end inversion

/-! ## What is taken and what is left -/

/-- A capture takes nothing, or a tree, or a token that it accepts. -/
theorem Fragment.take_cases {f : Fragment} {ts taken rest : List Token}
    (h : f.take ts = some (taken, rest)) :
    (f = .null ∧ taken = [] ∧ rest = ts) ∨ (f = .tree ∧ splitTree ts = .ok (taken, rest)) ∨
      ∃ t, f.accepts t = true ∧ taken = [t] ∧ ts = t :: rest := by
  unfold Fragment.take at h
  split at h
  · cases h
    exact Or.inl ⟨rfl, rfl, rfl⟩
  · cases hs : splitTree ts with
    | error e => simp [hs, Except.toOption] at h
    | ok p =>
      simp only [hs, Except.toOption, Option.some.injEq] at h
      exact Or.inr (Or.inl ⟨rfl, by rw [h]⟩)
  · split at h
    · simp at h
    · next t us =>
      split at h
      · next haccepts =>
        cases h
        exact Or.inr (Or.inr ⟨t, haccepts, rfl, rfl⟩)
      · simp at h

theorem Fragment.take_append {f : Fragment} {ts taken rest : List Token}
    (h : f.take ts = some (taken, rest)) : taken ++ rest = ts := by
  rcases Fragment.take_cases h with ⟨-, rfl, rfl⟩ | ⟨-, hsplit⟩ | ⟨t, -, rfl, rfl⟩
  · rfl
  · exact splitTree_append hsplit
  · rfl

/-- Where a separator is due it is taken, and nothing else is. -/
theorem splitSeparator_cases {due : Option Token} {ts taken behind : List Token}
    (h : splitSeparator due ts = some (taken, behind)) :
    (due = none ∧ taken = [] ∧ behind = ts) ∨ ∃ separator t, due = some separator ∧
      t.same separator = true ∧ taken = [t] ∧ ts = t :: behind := by
  unfold splitSeparator at h
  split at h
  · cases h
    exact Or.inl ⟨rfl, rfl, rfl⟩
  · simp at h
  · next separator t us =>
    split at h
    · next hsame =>
      cases h
      exact Or.inr ⟨separator, t, rfl, hsame, rfl, rfl⟩
    · simp at h

theorem splitSeparator_append {due : Option Token} {ts taken behind : List Token}
    (h : splitSeparator due ts = some (taken, behind)) : taken ++ behind = ts := by
  rcases splitSeparator_cases h with ⟨-, rfl, rfl⟩ | ⟨separator, t, -, -, rfl, rfl⟩
  · rfl
  · rfl

theorem readRounds_append {item : Reader}
    (hitem : ∀ {ts r}, item ts = some r → r.used ++ r.rest = ts) (separator : Option Token)
    (most : Nat) (due : Option Token) (ts : List Token) :
    (readRounds item separator most due ts).used
      ++ (readRounds item separator most due ts).rest = ts := by
  induction most generalizing due ts with
  | zero => rfl
  | succ most ih =>
    unfold readRounds
    split
    · rfl
    · rename_i taken behind hs
      split
      · rfl
      · rename_i r hr
        have happend : (taken ++ r.used) ++ r.rest = ts := by
          rw [List.append_assoc, hitem hr, splitSeparator_append hs]
        split
        · rename_i hnil
          rw [hnil] at happend
          exact happend
        · rename_i u us hcons
          rw [hcons] at happend
          rw [List.append_assoc, ih, happend]

theorem readRepetition_append {item : Reader}
    (hitem : ∀ {ts r}, item ts = some r → r.used ++ r.rest = ts) {slots : List Slot}
    {separator : Option Token} {q : Quantifier} {ts : List Token} {r : Reading}
    (h : readRepetition item slots separator q ts = some r) : r.used ++ r.rest = ts := by
  obtain ⟨-, rfl⟩ := readRepetition_eq_some.1 h
  exact readRounds_append hitem separator (q.most ts) none ts

mutual

/-- A node cuts its tokens off the head of the stream. -/
theorem PatternNode.read_append : ∀ (node : PatternNode) {ts : List Token} {r : Reading},
    node.read ts = some r → r.used ++ r.rest = ts
  | .literal literal, ts, r, h => by
    obtain ⟨t, rest, rfl, -, rfl⟩ := read_literal_eq_some.1 h
    rfl
  | .escape escape, ts, r, h => by
    obtain ⟨t, rest, rfl, -, rfl⟩ := read_escape_eq_some.1 h
    rfl
  | .capture name fragment position, ts, r, h => by
    obtain ⟨taken, rest, htake, rfl⟩ := read_capture_eq_some.1 h
    exact Fragment.take_append htake
  | .repetition inner separator q, ts, r, h => by
    rw [PatternNode.read] at h
    exact readRepetition_append (Pattern.read_append inner) h
  | .choice variants position, ts, r, h => by
    rw [PatternNode.read] at h
    exact Pattern.readFirst_append variants h
  | .lookahead inner, ts, r, h => by
    obtain ⟨-, rfl⟩ := read_lookahead_eq_some.1 h
    rfl

/-- A pattern cuts its tokens off the head of the stream. -/
theorem Pattern.read_append : ∀ (p : Pattern) {ts : List Token} {r : Reading},
    p.read ts = some r → r.used ++ r.rest = ts
  | [], ts, r, h => by
    cases h
    rfl
  | node :: nodes, ts, r, h => by
    obtain ⟨first, second, hfirst, hsecond, rfl⟩ := Pattern.read_cons_eq_some.1 h
    rw [List.append_assoc, Pattern.read_append nodes hsecond, PatternNode.read_append node hfirst]

/-- A choice cuts its tokens off the head of the stream. -/
theorem Pattern.readFirst_append :
    ∀ (variants : List Pattern) {ts : List Token} {r : Reading},
      Pattern.readFirst variants ts = some r → r.used ++ r.rest = ts
  | [], ts, r, h => by simp [Pattern.readFirst] at h
  | variant :: variants, ts, r, h => by
    rcases Pattern.readFirst_cons_eq_some.1 h with hvariant | ⟨-, hvariants⟩
    · exact Pattern.read_append variant hvariant
    · exact Pattern.readFirst_append variants hvariants

end

end TokenMacros

import TokenMacros.Proofs.Cursor.Basic
import TokenMacros.Proofs.Rule.Trees

/-!
# What a pattern finds

A pattern is followed node by node: what it captures, and the tokens that it leaves. What
repeats is taken together where it stands for something that is read in one go:

    Pattern.finds (opener :: $($name:tt)* :: closer :: nodes) ts, where a group starts,
      goes on behind the group, with its trees captured  (Pattern.finds_group)
    a repetition that takes trees takes what `splitTreesFrom` cuts off
                                                           (readRounds_splitTrees)
    a repetition that takes a whole stream cuts it into rows
                                                           (readWhole_rows)
-/

namespace TokenMacros

/-! ## What a pattern captures and leaves -/

/-- What a pattern captures at the head of a stream, and the tokens that it leaves. -/
def Pattern.finds (p : Pattern) (ts : List Token) : Option (Captures × List Token) :=
  (p.read ts).map fun r => (r.captures, r.rest)

/-- Captures with those of nodes further right. -/
def joinFinds (captures : Captures) (found : Option (Captures × List Token)) :
    Option (Captures × List Token) :=
  found.map fun p => (captures.merge p.1, p.2)

section finds

variable {nodes : Pattern} {node : PatternNode} {ts rest : List Token} {t : Token}
  {captures : Captures}

@[simp] theorem joinFinds_none : joinFinds captures none = none := rfl

@[simp] theorem joinFinds_some {p : Captures × List Token} :
    joinFinds captures (some p) = some (captures.merge p.1, p.2) := rfl

@[simp] theorem Pattern.finds_nil : Pattern.finds [] ts = some (∅, ts) := rfl

theorem Pattern.finds_cons_of_none (h : node.read ts = none) :
    Pattern.finds (node :: nodes) ts = none := by
  rw [finds, read, h]
  rfl

theorem Pattern.finds_cons_of_some {r : Reading} (h : node.read ts = some r) :
    Pattern.finds (node :: nodes) ts = joinFinds r.captures (Pattern.finds nodes r.rest) := by
  rw [finds, read, h, finds]
  cases hs : Pattern.read nodes r.rest <;> simp [hs]

@[simp] theorem Pattern.finds_literal_nil (l : Token) :
    Pattern.finds (.literal l :: nodes) [] = none := rfl

@[simp] theorem Pattern.finds_literal (l : Token) : Pattern.finds (.literal l :: nodes) (t :: ts) =
    if t.same l then joinFinds ∅ (Pattern.finds nodes ts) else none := by
  split
  · next h => exact finds_cons_of_some (read_literal_eq_some.2 ⟨t, ts, rfl, h, rfl⟩)
  · next h => exact finds_cons_of_none (if_neg h)

@[simp] theorem Pattern.finds_escape_nil (e : Escape) :
    Pattern.finds (.escape e :: nodes) [] = none := rfl

@[simp] theorem Pattern.finds_escape (e : Escape) : Pattern.finds (.escape e :: nodes) (t :: ts) =
    if t.kind = e.kind then joinFinds ∅ (Pattern.finds nodes ts) else none := by
  split
  · next h => exact finds_cons_of_some (read_escape_eq_some.2 ⟨t, ts, rfl, h, rfl⟩)
  · next h => exact finds_cons_of_none (if_neg h)

/-- A capture of one token. -/
theorem Pattern.finds_capture {f : Fragment} (hf : f ≠ .tree ∧ f ≠ .null) (name : String)
    (position : Position) : Pattern.finds (.capture name f position :: nodes) ts =
      match ts with
      | [] => none
      | t :: rest =>
        if f.accepts t then
          joinFinds ((∅ : Captures).insert name (.once [t])) (Pattern.finds nodes rest)
        else none := by
  have hread : (PatternNode.capture name f position).read ts =
      match ts with
      | [] => none
      | t :: rest =>
        if f.accepts t then some ⟨(∅ : Captures).insert name (.once [t]), [t], rest⟩
        else none := by
    rw [PatternNode.read]
    cases f with
    | tree => exact absurd rfl hf.1
    | null => exact absurd rfl hf.2
    | token | name | operator | number | string =>
      cases ts with
      | nil => rfl
      | cons t rest =>
        simp only [Fragment.take]
        split <;> rfl
  cases ts with
  | nil => exact finds_cons_of_none hread
  | cons t rest =>
    simp only at hread ⊢
    split at hread
    · next h => rw [if_pos h, finds_cons_of_some hread]
    · next h => rw [if_neg h, finds_cons_of_none hread]

/-- A lookahead takes nothing and captures nothing. -/
@[simp] theorem Pattern.finds_lookahead (inner : Pattern) :
    Pattern.finds (.lookahead inner :: nodes) ts =
      if (Pattern.finds inner ts).isSome then none else joinFinds ∅ (Pattern.finds nodes ts) := by
  rw [Pattern.finds.eq_def inner]
  cases h : Pattern.read inner ts with
  | none => exact finds_cons_of_some (read_lookahead_eq_some.2 ⟨h, rfl⟩)
  | some r => exact finds_cons_of_none (by rw [PatternNode.read, h])

/-- What may be missing always matches. -/
theorem Pattern.finds_optional_of_none {inner : Pattern} (h : inner.finds ts = none) :
    Pattern.finds (.repetition inner none .optional :: nodes) ts =
      joinFinds (gather (Pattern.slots 0 inner) [] ∅) (Pattern.finds nodes ts) := by
  rw [finds, Option.map_eq_none_iff] at h
  have hread : (PatternNode.repetition inner none .optional).read ts =
      some ⟨gather (Pattern.slots 0 inner) [] ∅, [], ts⟩ := by
    simp [PatternNode.read, readRepetition, Quantifier.most, Quantifier.fewest, readRounds,
      splitSeparator, h]
  exact finds_cons_of_some hread

/-- What may be missing takes what it can. -/
theorem Pattern.finds_optional_of_some {inner : Pattern}
    (h : inner.finds ts = some (captures, rest)) :
    Pattern.finds (.repetition inner none .optional :: nodes) ts =
      joinFinds (gather (Pattern.slots 0 inner) [captures] ∅) (Pattern.finds nodes rest) := by
  rw [finds, Option.map_eq_some_iff] at h
  obtain ⟨r, hr, heq⟩ := h
  obtain ⟨rfl, rfl⟩ := Prod.mk.inj heq
  have hread : (PatternNode.repetition inner none .optional).read ts =
      some ⟨gather (Pattern.slots 0 inner) [r.captures] ∅, r.used, r.rest⟩ := by
    simp only [PatternNode.read, readRepetition, Quantifier.most, Quantifier.fewest,
      Nat.not_lt_zero, if_false, readRounds, splitSeparator, List.nil_append, hr]
    cases r.used <;> simp
  exact finds_cons_of_some hread

end finds

/-! ## Groups -/

/-- `$($name:tt)*` -/
def treesNode (name : String) : PatternNode := .repetition [.capture name .tree {}] none .any

/-- What `$($name:tt)*` captures of a row of trees. -/
def capturedTrees (body : List Token) : Captured :=
  .each ((splitTreesFrom (fun _ => true) body.length body).1.map .once)

/-- The interior of the tree that starts with such a token, and the tokens after the tree. -/
def splitEnclosed (opens : Token → Bool) : List Token → Option (List Token × List Token)
  | [] => none
  | t :: ts =>
    if opens t then
      match splitTree (t :: ts) with
      | .ok (tree, rest) => some (interior tree, rest)
      | .error _ => none
    else none

/-- The node takes one token, of those that are told, and captures nothing. -/
def PatternNode.TakesOne (node : PatternNode) (accepts : Token → Bool) : Prop :=
  ∀ nodes ts, Pattern.finds (node :: nodes) ts =
    match ts with
    | [] => none
    | t :: rest => if accepts t then joinFinds ∅ (Pattern.finds nodes rest) else none

theorem takesOne_literal (l : Token) : (PatternNode.literal l).TakesOne (·.same l) := by
  intro nodes ts
  cases ts with
  | nil => rfl
  | cons t rest => exact Pattern.finds_literal l

theorem takesOne_opener (text : String) :
    (PatternNode.literal ⟨.opener, text, {}⟩).TakesOne (·.isOpener text) :=
  takesOne_literal _

theorem takesOne_closer (text : String) :
    (PatternNode.literal ⟨.closer, text, {}⟩).TakesOne (·.isCloser text) :=
  takesOne_literal _

theorem takesOne_escape (e : Escape) : (PatternNode.escape e).TakesOne (·.kind == e.kind) := by
  intro nodes ts
  cases ts with
  | nil => rfl
  | cons t rest => simp only [Pattern.finds_escape, beq_iff_eq]

section groups

variable {opens closes : Token → Bool} {d : Delimiter} {ts rest body : List Token} {t : Token}
  {trees : List (List Token)}

theorem capturedTrees_flatten (htrees : ∀ tree ∈ trees, TokenTree tree) :
    capturedTrees trees.flatten = .each (trees.map .once) := by
  have hsplit : splitTreesFrom (fun _ => true) trees.flatten.length (trees.flatten ++ []) =
      (trees, []) :=
    splitTreesFrom_flatten htrees (fun tree _ => by cases tree.head? <;> rfl)
      (.inr ⟨_, splitTree_nil⟩) (length_le_length_flatten htrees)
  rw [List.append_nil] at hsplit
  rw [capturedTrees, hsplit]

/-- The trees that are captured are the tokens that they are captured from. -/
theorem flatten_capturedTrees (h : Balanced body) : (capturedTrees body).flatten = body := by
  obtain ⟨trees, htrees, rfl⟩ := balanced_iff_flatten.1 h
  rw [capturedTrees_flatten htrees, Captured.flatten_each_once]

theorem splitEnclosed_eq_some_iff (ho : ∀ {t}, opens t = true → t.role = .opens d)
    (hc : ∀ {t : Token}, t.role = .closes d ↔ closes t = true) :
    splitEnclosed opens ts = some (body, rest) ↔ ∃ opener closer, opens opener = true ∧
      closes closer = true ∧ Balanced body ∧ ts = opener :: (body ++ closer :: rest) := by
  cases ts with
  | nil => simp [splitEnclosed]
  | cons t ts =>
    rw [splitEnclosed]
    constructor
    · intro h
      split at h
      · next hopener =>
        split at h
        · next tree behind hsplit =>
          cases h
          obtain ⟨inner, closer, hcloser, hinner, rfl, rfl⟩ :=
            (splitTree_opens_iff (ho hopener)).1 hsplit
          rw [interior_group]
          exact ⟨t, closer, hopener, hc.1 hcloser, hinner, rfl⟩
        · cases h
      · cases h
    · rintro ⟨opener, closer, hopener, hcloser, hbody, heq⟩
      obtain ⟨rfl, rfl⟩ := List.cons.inj heq
      rw [if_pos hopener,
        (splitTree_opens_iff (ho hopener)).2 ⟨body, closer, hc.2 hcloser, hbody, rfl, rfl⟩]
      simp only [interior_group]

/-- Behind an opener the trees are captured, up to where none starts. -/
theorem Pattern.finds_opened {o : PatternNode} (hopen : o.TakesOne opens) (hopens : opens t = true)
    (htrees : ∀ tree ∈ trees, TokenTree tree) {e : Fault} (hstop : splitTree rest = .error e)
    (name : String) (nodes : Pattern) :
    Pattern.finds (o :: treesNode name :: nodes) (t :: (trees.flatten ++ rest)) =
      joinFinds ∅ (joinFinds ((∅ : Captures).insert name (.each (trees.map .once)))
        (Pattern.finds nodes rest)) := by
  have hrow : (treesNode name).read (trees.flatten ++ rest) = some _ :=
    (Pattern.read_singleton _ _).symm.trans (read_treesPattern htrees hstop)
  rw [hopen]
  simp only [if_pos hopens, finds_cons_of_some hrow]

/-- Trees between an opener and its closer are a group, with the trees captured. -/
theorem Pattern.finds_group {o c : PatternNode} (hopen : o.TakesOne opens)
    (hclose : c.TakesOne closes) (ho : ∀ {t}, opens t = true → t.role = .opens d)
    (hc : ∀ {t : Token}, t.role = .closes d ↔ closes t = true) (name : String) (nodes : Pattern)
    (ts : List Token) : Pattern.finds (o :: treesNode name :: c :: nodes) ts =
      (splitEnclosed opens ts).bind fun group =>
        joinFinds ∅ (joinFinds ((∅ : Captures).insert name (capturedTrees group.1))
          (joinFinds ∅ (Pattern.finds nodes group.2))) := by
  cases hsplit : splitEnclosed opens ts with
  | some group =>
    obtain ⟨body, rest⟩ := group
    obtain ⟨opener, closer, hopener, hcloser, hbody, rfl⟩ :=
      (splitEnclosed_eq_some_iff ho hc).1 hsplit
    obtain ⟨trees, htrees, rfl⟩ := balanced_iff_flatten.1 hbody
    have hstop : splitTree (closer :: rest) = .error (.stray closer) := by
      simp only [splitTree, hc.2 hcloser]
    rw [finds_opened hopen hopener htrees hstop, hclose, Option.bind_some,
      capturedTrees_flatten htrees]
    simp only [if_pos hcloser]
  | none =>
    rw [Option.bind_none]
    cases ts with
    | nil => exact hopen _ []
    | cons t us =>
      by_cases hopens : opens t = true
      · obtain ⟨trees, rest, htrees, ⟨e, hstop⟩, rfl⟩ := exists_flatten_append us
        rw [finds_opened hopen hopens htrees hstop, hclose]
        cases rest with
        | nil => rfl
        | cons closer behind =>
          simp only
          split
          · next hcloser =>
            -- a closer there would end a group
            have hgroup : splitEnclosed opens (t :: (trees.flatten ++ closer :: behind)) =
                some (trees.flatten, behind) :=
              (splitEnclosed_eq_some_iff ho hc).2
                ⟨t, closer, hopens, hcloser, balanced_flatten htrees, rfl⟩
            rw [hsplit] at hgroup
            cases hgroup
          · rfl
      · rw [hopen]
        simp only [if_neg hopens]

end groups

/-! ## Captured tokens -/

namespace Captures

/-- All tokens of a capture. -/
def tokens (captures : Captures) (name : String) : List Token :=
  match captures.find? name with
  | some value => value.flatten
  | none => []

/-- The first token of a capture that stands in no repetition. A capture that has none is asked for
a token outside of what it holds. -/
def token (captures : Captures) (name : String) : Walk Token :=
  match captures.find? name with
  | some (.once (t :: _)) => .ok t
  | _ => .error .outside

/-- The rounds of a capture that stands in a repetition. -/
def rounds (captures : Captures) (name : String) : List Captured :=
  match captures.find? name with
  | some (.each rounds) => rounds
  | _ => []

/-- Was a capture reached in any round? -/
def reached (captures : Captures) (name : String) : Bool :=
  match captures.find? name with
  | some value => !value.leaves.isEmpty
  | none => false

end Captures

/-- What counts as the value of a capture in a round has the tokens that were captured. -/
theorem flatten_getD_unreached (captures : Captures) (name : String) (depth : Nat) :
    ((captures.find? name).getD (.unreached depth)).flatten = captures.tokens name := by
  rw [Captures.tokens]
  cases captures.find? name with
  | some value => rfl
  | none => cases depth <;> rfl

/-! ## Rows -/

/-- Cuts a stream into pieces, with a separator between two of them; `fuel` pieces at most. -/
def cutRows {α : Type} (cut : List Token → Option (α × List Token)) (separator : Option Token) :
    Nat → List Token → Option (List α)
  | 0, _ => none
  | fuel + 1, ts =>
    match cut ts with
    | none => none
    | some (a, []) => some [a]
    | some (a, t :: rest) =>
      match splitSeparator separator (t :: rest) with
      | none => none
      | some (_, behind) => (cutRows cut separator fuel behind).map (a :: ·)

/-- A pattern of pieces, each of which starts with a token that is told: what it finds is what is
cut off. -/
structure Pattern.Cuts {α : Type} (inner : Pattern) (get : Captures → α)
    (cut : List Token → Option (α × List Token)) : Prop where
  finds_eq : ∀ ts, (inner.finds ts).map (fun f => (get f.1, f.2)) = cut ts
  starts : ∃ l nodes, inner = .literal l :: nodes

/-- What is got of one or more rounds that leave nothing. -/
def Rounds.rows? {α : Type} (get : Captures → α) (rounds : Rounds) : Option (List α) :=
  match rounds.items, rounds.rest with
  | first :: items, [] => some (get first :: items.map get)
  | _, _ => none

section rows

variable {α : Type} {item : Reader} {inner : Pattern} {get : Captures → α}
  {cut : List Token → Option (α × List Token)} {ts us taken : List Token} {r : Reading}
  {due : Option Token}

theorem Pattern.Cuts.eq_some (h : inner.Cuts get cut) (hr : inner.read us = some r) :
    cut us = some (get r.captures, r.rest) := by
  rw [← h.finds_eq, finds, hr, Option.map_some, Option.map_some]

theorem Pattern.Cuts.eq_none (h : inner.Cuts get cut) (hr : inner.read us = none) :
    cut us = none := by
  rw [← h.finds_eq, finds, hr, Option.map_none, Option.map_none]

theorem Pattern.Cuts.used_ne_nil (h : inner.Cuts get cut) (hr : inner.read us = some r) :
    r.used ≠ [] := by
  obtain ⟨l, nodes, rfl⟩ := h.starts
  obtain ⟨first, second, hfirst, -, rfl⟩ := Pattern.read_cons_eq_some.1 hr
  obtain ⟨t, rest, -, -, rfl⟩ := read_literal_eq_some.1 hfirst
  exact List.cons_ne_nil _ _

theorem Pattern.Cuts.length_lt (h : inner.Cuts get cut) (hr : inner.read us = some r) :
    r.rest.length < us.length := by
  have hpos := List.length_pos_iff.2 (h.used_ne_nil hr)
  rw [← Pattern.read_append inner hr, List.length_append]
  omega

theorem Pattern.Cuts.read_nil (h : inner.Cuts get cut) : inner.read [] = none := by
  obtain ⟨l, nodes, rfl⟩ := h.starts
  rfl

/-- Where nothing is left there are no more rounds. -/
theorem readRounds_nil (hitem : item [] = none) (separator : Option Token) (most : Nat)
    (due : Option Token) : readRounds item separator most due [] = ⟨[], [], []⟩ := by
  cases most with
  | zero => rfl
  | succ most =>
    rw [readRounds]
    cases due with
    | none => simp only [splitSeparator, hitem]
    | some t => rfl

theorem readRounds_of_none (hsplit : splitSeparator due ts = some (taken, us))
    (hr : item us = none) (separator : Option Token) (most : Nat) :
    readRounds item separator most due ts = ⟨[], [], ts⟩ := by
  cases most with
  | zero => rfl
  | succ most =>
    rw [readRounds]
    simp only [hsplit, hr]

theorem readRounds_of_some (hsplit : splitSeparator due ts = some (taken, us))
    (hr : item us = some r) (hused : r.used ≠ []) (separator : Option Token) (most : Nat) :
    readRounds item separator (most + 1) due ts =
      ⟨r.captures :: (readRounds item separator most separator r.rest).items,
        taken ++ r.used ++ (readRounds item separator most separator r.rest).used,
        (readRounds item separator most separator r.rest).rest⟩ := by
  rw [readRounds]
  simp only [hsplit, hr]
  cases h : taken ++ r.used with
  | nil => exact absurd (List.append_eq_nil_iff.1 h).2 hused
  | cons u us => rfl

/-- A repetition that takes the whole stream cuts it into rows. -/
theorem readRounds_cutRows (h : inner.Cuts get cut) (separator : Option Token) {fuel most : Nat}
    (hfuel : ts.length ≤ fuel) (hmost : ts.length < most) : cutRows cut separator fuel ts =
      (readRounds (Pattern.read inner) separator most none ts).rows? get := by
  induction fuel generalizing ts most with
  | zero =>
    rw [List.length_eq_zero_iff.1 (Nat.le_zero.1 hfuel), readRounds_nil h.read_nil]
    rfl
  | succ fuel ih =>
    have hfirst : splitSeparator none ts = some ([], ts) := rfl
    rw [cutRows]
    cases hr : inner.read ts with
    | none =>
      rw [readRounds_of_none hfirst hr, h.eq_none hr]
      rfl
    | some r =>
      have hlt := h.length_lt hr
      obtain ⟨more, rfl⟩ : ∃ more, most = more + 1 := ⟨most - 1, by omega⟩
      rw [readRounds_of_some hfirst hr (h.used_ne_nil hr), h.eq_some hr]
      cases hrest : r.rest with
      | nil =>
        rw [readRounds_nil h.read_nil]
        rfl
      | cons t rest =>
        rw [hrest] at hlt
        simp only
        cases hsplit : splitSeparator separator (t :: rest) with
        | none =>
          -- no separator, and so no further round
          obtain ⟨more, rfl⟩ : ∃ n, more = n + 1 := ⟨more - 1, by omega⟩
          simp only [readRounds, hsplit, Rounds.rows?]
        | some p =>
          obtain ⟨taken, behind⟩ := p
          have hle := congrArg List.length (splitSeparator_append hsplit)
          rw [List.length_append] at hle
          have hbehind : cutRows cut separator fuel behind =
              (readRounds (Pattern.read inner) separator more none behind).rows? get :=
            ih (by omega) (by omega)
          have hagain : splitSeparator none behind = some ([], behind) := rfl
          simp only
          cases hs : inner.read behind with
          | none =>
            rw [hbehind, readRounds_of_none hagain hs, readRounds_of_none hsplit hs]
            rfl
          | some s =>
            obtain ⟨more, rfl⟩ : ∃ n, more = n + 1 := ⟨more - 1, by omega⟩
            rw [hbehind, readRounds_of_some hagain hs (h.used_ne_nil hs),
              readRounds_of_some hsplit hs (h.used_ne_nil hs)]
            simp only [Rounds.rows?]
            cases (readRounds (Pattern.read inner) separator more separator s.rest).rest <;> rfl

/-- A pattern that repeats pieces matches the streams that are rows of them. -/
theorem readWhole_rows (h : inner.Cuts get cut) (separator : Option Token) (ts : List Token) :
    (Pattern.readWhole [.repetition inner separator .atLeastOne] ts = none ∧
      cutRows cut separator ts.length ts = none) ∨
    ∃ items : List Captures, Pattern.readWhole [.repetition inner separator .atLeastOne] ts =
        some (gather (Pattern.slots 0 inner) items ∅) ∧
      cutRows cut separator ts.length ts = some (items.map get) := by
  have hrows := readRounds_cutRows h separator (Nat.le_refl ts.length) (Nat.lt_add_one _)
  obtain ⟨items, used, rest, hrounds⟩ : ∃ items used rest,
      readRounds (Pattern.read inner) separator (ts.length + 1) none ts = ⟨items, used, rest⟩ :=
    ⟨_, _, _, rfl⟩
  rw [hrounds] at hrows
  rw [Pattern.readWhole, Pattern.read_singleton, PatternNode.read, hrows, readRepetition]
  simp only [Quantifier.most, Quantifier.fewest, hrounds]
  cases items with
  | nil => exact .inl ⟨rfl, rfl⟩
  | cons first items =>
    cases rest with
    | nil => exact .inr ⟨first :: items, by simp, rfl⟩
    | cons t rest => exact .inl ⟨by simp, rfl⟩

/-- A repetition that takes a tree in each round, if its first token is one of those that are told,
takes the trees that are cut off so. -/
theorem readRounds_splitTrees {starts : Token → Bool} {captures : List Token → Captures}
    (hitem : ∀ us, item us = if us.head?.all starts then
      (splitTree us).toOption.map fun p => ⟨captures p.1, p.1, p.2⟩ else none)
    {fuel most : Nat} (hfuel : ts.length ≤ fuel) (hmost : ts.length < most) :
    readRounds item none most none ts =
      ⟨(splitTreesFrom starts fuel ts).1.map captures, (splitTreesFrom starts fuel ts).1.flatten,
        (splitTreesFrom starts fuel ts).2⟩ := by
  induction fuel generalizing ts most with
  | zero =>
    rw [List.length_eq_zero_iff.1 (Nat.le_zero.1 hfuel)]
    refine readRounds_nil ?_ none most none
    rw [hitem]
    rfl
  | succ fuel ih =>
    have hfirst : splitSeparator none ts = some ([], ts) := rfl
    have hread := hitem ts
    rw [splitTreesFrom]
    by_cases hstarts : ts.head?.all starts = true
    · rw [if_pos hstarts] at hread ⊢
      cases hsplit : splitTree ts with
      | error e =>
        rw [hsplit] at hread
        exact readRounds_of_none hfirst hread none most
      | ok p =>
        obtain ⟨tree, rest⟩ := p
        have hlt := splitTree_length_lt hsplit
        obtain ⟨more, rfl⟩ : ∃ n, most = n + 1 := ⟨most - 1, by omega⟩
        rw [hsplit] at hread
        have hrest : readRounds item none more none rest = _ := ih (by omega) (by omega)
        rw [readRounds_of_some hfirst hread (splitTree_ne_nil hsplit), hrest]
        rfl
    · rw [if_neg hstarts] at hread ⊢
      exact readRounds_of_none hfirst hread none most

end rows

end TokenMacros

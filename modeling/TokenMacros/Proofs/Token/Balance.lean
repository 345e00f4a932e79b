import TokenMacros.Token.Tree

/-!
# Balanced streams

`Balanced` is the grammar of the streams whose delimiters balance, `openAfter`
runs the stack of the delimiters that are open.

    Balanced ts ↔ openAfter [] ts = some []                (balanced_iff_openAfter)
    Pairing.ofTokens ts = .ok p for a p ↔ Balanced ts      (ofTokens_ok_iff)
    Balanced u → (Balanced (a ++ u ++ b) ↔ Balanced (a ++ b))
                                                           (Balanced.insert_iff)

Token trees are balanced (`splitTree_balanced`), and so is what the readers built
on them take off the head of a stream; `LeftOf` says that of a reader.
-/

namespace TokenMacros

/-- A stream in which every opener has its closer. -/
inductive Balanced : List Token → Prop
  | nil : Balanced []
  | plain {t : Token} {ts : List Token} : t.role = .plain → Balanced ts → Balanced (t :: ts)
  | tree {opener closer : Token} {d : Delimiter} {inner ts : List Token} :
      opener.role = .opens d → closer.role = .closes d → Balanced inner → Balanced ts →
      Balanced (opener :: inner ++ closer :: ts)

theorem balanced_of_plain {ts : List Token} (h : ∀ t ∈ ts, t.role = .plain) : Balanced ts := by
  induction ts with
  | nil => exact .nil
  | cons t ts ih =>
    rw [List.forall_mem_cons] at h
    exact .plain h.1 (ih h.2)

/-- The delimiters that a token leaves open, the innermost first; `none` if it closes another one
than the innermost. -/
def Token.nest (t : Token) (stack : List Delimiter) : Option (List Delimiter) :=
  match t.role with
  | .plain => some stack
  | .opens d => some (d :: stack)
  | .closes d =>
    match stack with
    | [] => none
    | top :: below => if top = d then some below else none

/-- The delimiters that are open behind a stream that starts within those of `stack`. -/
def openAfter (stack : List Delimiter) : List Token → Option (List Delimiter)
  | [] => some stack
  | t :: ts => (t.nest stack).bind fun next => openAfter next ts

/-! ## The stack of open delimiters -/

theorem openAfter_append (stack : List Delimiter) (ts us : List Token) :
    openAfter stack (ts ++ us) = (openAfter stack ts).bind fun next => openAfter next us := by
  induction ts generalizing stack with
  | nil => rfl
  | cons t ts ih =>
    simp only [List.cons_append, openAfter]
    cases t.nest stack with
    | none => rfl
    | some next => exact ih next

theorem nest_of_plain {t : Token} (h : t.role = .plain) (stack : List Delimiter) :
    t.nest stack = some stack := by
  simp [Token.nest, h]

theorem nest_of_opens {t : Token} {d : Delimiter} (h : t.role = .opens d)
    (stack : List Delimiter) : t.nest stack = some (d :: stack) := by
  simp [Token.nest, h]

theorem nest_of_closes {t : Token} {d : Delimiter} (h : t.role = .closes d)
    (stack : List Delimiter) : t.nest (d :: stack) = some stack := by
  simp [Token.nest, h]

/-- A balanced stream leaves the open delimiters as they are. -/
theorem Balanced.openAfter_eq {ts : List Token} (h : Balanced ts) (stack : List Delimiter) :
    openAfter stack ts = some stack := by
  induction h generalizing stack with
  | nil => rfl
  | plain ht _ ih =>
    rw [openAfter, nest_of_plain ht]
    exact ih stack
  | tree ho hc _ _ ihInner ih =>
    rw [List.cons_append, openAfter, nest_of_opens ho, Option.bind_some, openAfter_append,
      ihInner, Option.bind_some, openAfter, nest_of_closes hc, Option.bind_some]
    exact ih stack

/-- A stream that closes the delimiters of a stack: balanced tokens before each closer, and behind
the last one. -/
def Closes : List Delimiter → List Token → Prop
  | [], ts => Balanced ts
  | d :: below, ts => ∃ inner closer rest, ts = inner ++ closer :: rest ∧ Balanced inner ∧
      closer.role = .closes d ∧ Closes below rest

theorem Closes.plain {t : Token} (ht : t.role = .plain) {stack : List Delimiter}
    {ts : List Token} (h : Closes stack ts) : Closes stack (t :: ts) := by
  cases stack with
  | nil => exact Balanced.plain ht h
  | cons d below =>
    obtain ⟨inner, closer, rest, rfl, hinner, hc, hrest⟩ := h
    exact ⟨t :: inner, closer, rest, rfl, .plain ht hinner, hc, hrest⟩

theorem Closes.opens {t : Token} {d : Delimiter} (ht : t.role = .opens d)
    {stack : List Delimiter} {ts : List Token} (h : Closes (d :: stack) ts) :
    Closes stack (t :: ts) := by
  obtain ⟨inner, closer, rest, rfl, hinner, hc, hrest⟩ := h
  cases stack with
  | nil => exact Balanced.tree ht hc hinner hrest
  | cons e below =>
    obtain ⟨inner', closer', rest', rfl, hinner', hc', hrest'⟩ := hrest
    refine ⟨t :: inner ++ closer :: inner', closer', rest', by simp, ?_, hc', hrest'⟩
    exact .tree ht hc hinner hinner'

theorem closes_of_openAfter {ts : List Token} {stack : List Delimiter}
    (h : openAfter stack ts = some []) : Closes stack ts := by
  induction ts generalizing stack with
  | nil =>
    cases h
    exact Balanced.nil
  | cons t ts ih =>
    rw [openAfter] at h
    cases hrole : t.role with
    | plain =>
      rw [nest_of_plain hrole] at h
      exact (ih h).plain hrole
    | opens d =>
      rw [nest_of_opens hrole] at h
      exact (ih h).opens hrole
    | closes d =>
      cases stack with
      | nil => simp [Token.nest, hrole] at h
      | cons top below =>
        by_cases htop : top = d
        · subst htop
          rw [nest_of_closes hrole] at h
          exact ⟨[], t, ts, rfl, .nil, hrole, ih h⟩
        · simp [Token.nest, hrole, htop] at h

theorem balanced_iff_openAfter {ts : List Token} : Balanced ts ↔ openAfter [] ts = some [] :=
  ⟨fun h => h.openAfter_eq [], fun h => closes_of_openAfter h⟩

instance (ts : List Token) : Decidable (Balanced ts) :=
  decidable_of_iff _ balanced_iff_openAfter.symm

theorem Balanced.append {ts us : List Token} (hts : Balanced ts) (hus : Balanced us) :
    Balanced (ts ++ us) := by
  rw [balanced_iff_openAfter, openAfter_append, hts.openAfter_eq, Option.bind_some,
    hus.openAfter_eq]

/-- A balanced part may be taken out of a stream, or put into it. -/
theorem Balanced.insert_iff {u : List Token} (hu : Balanced u) (a b : List Token) :
    Balanced (a ++ u ++ b) ↔ Balanced (a ++ b) := by
  simp only [balanced_iff_openAfter, openAfter_append]
  cases openAfter [] a with
  | none => rfl
  | some stack => rw [Option.bind_some, hu.openAfter_eq]

/-- A balanced head of what is left of a stream may be replaced by balanced tokens. -/
theorem Balanced.replace_take {before ts us : List Token} {n : Nat} (hout : Balanced (ts.take n))
    (hin : Balanced us) (hts : Balanced (before ++ ts)) :
    Balanced (before ++ us ++ ts.drop n) := by
  rw [← List.take_append_drop n ts, ← List.append_assoc, hout.insert_iff] at hts
  exact (hin.insert_iff _ _).2 hts

/-! ## Pairs -/

theorem pairsFrom_ok_iff (ts : List Token) (index : Nat) (stack : List Pending) :
    (∃ ps, Pairing.pairsFrom index stack ts = .ok ps) ↔
      openAfter (stack.map Pending.delimiter) ts = some [] := by
  induction ts generalizing index stack with
  | nil => cases stack <;> simp [Pairing.pairsFrom, openAfter]
  | cons t ts ih =>
    rw [openAfter]
    unfold Pairing.pairsFrom
    cases hrole : t.role with
    | plain => simp [nest_of_plain hrole, ih]
    | opens d => simp [nest_of_opens hrole, ih]
    | closes d =>
      cases stack with
      | nil => simp [Token.nest, hrole]
      | cons p below =>
        by_cases hp : p.delimiter = d
        · simp only [hp, if_true, List.map_cons, nest_of_closes hrole, Option.bind_some,
            map_eq_ok_iff]
          rw [← ih (index + 1) below, exists_comm]
          simp
        · simp [Token.nest, hrole, hp]

/-- A stream is paired off exactly if it is balanced. -/
theorem ofTokens_ok_iff {ts : List Token} :
    (∃ p, Pairing.ofTokens ts = .ok p) ↔ Balanced ts := by
  have h := pairsFrom_ok_iff ts 0 []
  rw [List.map_nil, ← balanced_iff_openAfter] at h
  rw [← h, Pairing.ofTokens]
  cases Pairing.pairsFrom 0 [] ts <;> simp [Except.map]

theorem requireBalanced_eq_ok_iff {ts : List Token} :
    requireBalanced ts = .ok () ↔ Balanced ts := by
  rw [← ofTokens_ok_iff, requireBalanced]
  cases Pairing.ofTokens ts <;> simp [Except.map]

/-! ## Token trees -/

theorem splitClosing_openAfter {opener : Token} {ts tree rest : List Token} {top : Delimiter}
    {below : List Delimiter} (h : splitClosing opener top below ts = .ok (tree, rest))
    (stack : List Delimiter) : openAfter (top :: below ++ stack) tree = some stack := by
  induction ts generalizing top below tree with
  | nil => simp [splitClosing] at h
  | cons t ts ih =>
    unfold splitClosing at h
    cases hrole : t.role with
    | plain =>
      simp only [hrole] at h
      obtain ⟨tail, hs, rfl⟩ := map_consFirst_eq_ok.1 h
      rw [openAfter, nest_of_plain hrole]
      exact ih hs
    | opens d =>
      simp only [hrole] at h
      obtain ⟨tail, hs, rfl⟩ := map_consFirst_eq_ok.1 h
      rw [openAfter, nest_of_opens hrole]
      exact ih hs
    | closes d =>
      simp only [hrole] at h
      split at h
      · next htop =>
        subst htop
        cases below with
        | nil =>
          cases h
          rw [List.cons_append, openAfter, nest_of_closes hrole]
          rfl
        | cons next below =>
          obtain ⟨tail, hs, rfl⟩ := map_consFirst_eq_ok.1 h
          rw [List.cons_append, openAfter, nest_of_closes hrole]
          exact ih hs
      · cases h

theorem splitTree_balanced {ts tree rest : List Token} (h : splitTree ts = .ok (tree, rest)) :
    Balanced tree := by
  unfold splitTree at h
  split at h
  · cases h
  · next t ts =>
    split at h
    · next hrole =>
      cases h
      exact .plain hrole .nil
    · cases h
    · next d hrole =>
      obtain ⟨tail, hs, rfl⟩ := map_consFirst_eq_ok.1 h
      rw [balanced_iff_openAfter, openAfter, nest_of_opens hrole]
      exact splitClosing_openAfter hs []

/-- `rest` is left of `ts` when balanced tokens are taken off its head. -/
def LeftOf (ts rest : List Token) : Prop := ∃ taken, Balanced taken ∧ taken ++ rest = ts

theorem LeftOf.refl (ts : List Token) : LeftOf ts ts := ⟨[], .nil, rfl⟩

theorem LeftOf.plain {t : Token} (ht : t.role = .plain) {ts rest : List Token}
    (h : LeftOf ts rest) : LeftOf (t :: ts) rest := by
  obtain ⟨taken, hb, rfl⟩ := h
  exact ⟨t :: taken, .plain ht hb, rfl⟩

theorem LeftOf.trans {ts us vs : List Token} (h : LeftOf ts us) (h' : LeftOf us vs) :
    LeftOf ts vs := by
  obtain ⟨taken, hb, rfl⟩ := h
  obtain ⟨taken', hb', rfl⟩ := h'
  exact ⟨taken ++ taken', hb.append hb', by simp⟩

/-- An opener, what is taken behind it, and the closer make a tree. -/
theorem LeftOf.tree {opener closer : Token} {d : Delimiter} (ho : opener.role = .opens d)
    (hc : closer.role = .closes d) {ts rest : List Token} (h : LeftOf ts (closer :: rest)) :
    LeftOf (opener :: ts) rest := by
  obtain ⟨taken, hb, rfl⟩ := h
  exact ⟨opener :: taken ++ [closer], .tree ho hc hb .nil, by simp⟩

theorem leftOf_of_splitTree {ts tree rest : List Token} (h : splitTree ts = .ok (tree, rest)) :
    LeftOf ts rest :=
  ⟨tree, splitTree_balanced h, splitTree_append h⟩

theorem leftOf_of_splitGroup {text : String} {ts body rest : List Token}
    (h : splitGroup text ts = some (body, rest)) : LeftOf ts rest := by
  unfold splitGroup at h
  split at h
  · cases h
  · split at h
    · split at h
      · next hs =>
        cases h
        exact leftOf_of_splitTree hs
      · cases h
    · cases h

/-- The tokens taken are those in front of the rest. -/
theorem LeftOf.take_drop {ts rest : List Token} (h : LeftOf ts rest) :
    Balanced (ts.take (ts.length - rest.length)) ∧ ts.drop (ts.length - rest.length) = rest ∧
      rest.length ≤ ts.length := by
  obtain ⟨taken, hb, rfl⟩ := h
  simpa using hb

end TokenMacros

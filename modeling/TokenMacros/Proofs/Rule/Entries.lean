import TokenMacros.Proofs.Rule.Lockstep
import TokenMacros.Proofs.Rule.Substitution

/-!
# Values where rounds are written

However ragged the captures are, a template that is filled never looks for a round that a
capture does not have. The count of a repetition is compared before its body is entered,
so captures that do not fit fail there:

    t.fill captures ≠ .error ⟨.count (.noValue name), position⟩
    t.Enters captures [] body path → every hole in the body has a value at the path
                                                           (Template.fill_finds_values)

What is carried along is `Captures.HasValues`. It holds at the empty path, where every
capture has itself for a value, and passes from a path to the rounds of a repetition there,
since a capture either stands for all rounds or has as many as were counted.
-/

namespace TokenMacros

/-- The captures that the holes name have values at the path. -/
def Captures.HasValues (captures : Captures) (path : List Nat)
    (holes : List (String × Position)) : Prop :=
  ∀ hole ∈ holes, ∀ c, captures.find? hole.1 = some c → ∃ value, c.along path = some value

/-- Writing the repetition of a body at a path starts the round of that index: it is one of those
that were counted, and the rounds before it were written. -/
def Template.StartsRound (captures : Captures) (inner : Template) (path : List Nat)
    (index : Nat) : Prop :=
  ∃ count, roundCount captures path inner = .ok count ∧ index < count ∧
    ∀ earlier < index, ∃ out, inner.write captures (path ++ [earlier]) = .ok out

/-- Writing a template at a path comes to write the body of a repetition, at the path of one of its
rounds. -/
inductive Template.Enters (captures : Captures) :
    Template → List Nat → Template → List Nat → Prop
  | round {inner nodes : Template} {separator : Option Token} {path : List Nat} {index : Nat} :
      inner.StartsRound captures path index →
      Enters captures (.repetition inner separator :: nodes) path inner (path ++ [index])
  | inside {inner nodes body : Template} {separator : Option Token} {path target : List Nat}
      {index : Nat} : inner.StartsRound captures path index →
      Enters captures inner (path ++ [index]) body target →
      Enters captures (.repetition inner separator :: nodes) path body target
  | behind {node : TemplateNode} {nodes body : Template} {path target : List Nat}
      {out : List Token} : node.write captures path = .ok out →
      Enters captures nodes path body target → Enters captures (node :: nodes) path body target

/-- Ends with the fault of a round that a capture does not have. -/
def MissesValue (x : Except Fault (List Token)) : Prop :=
  ∃ name position, x = .error ⟨.count (.noValue name), position⟩

variable {captures : Captures} {path target : List Nat} {holes : List (String × Position)}
  {inner body : Template}

/-! ## Values at a path -/

/-- At the empty path, a capture has itself for a value. -/
theorem Captures.hasValues_nil (captures : Captures) (holes : List (String × Position)) :
    captures.HasValues [] holes := fun _ _ c _ => ⟨c, Captured.along_nil c⟩

/-- Captures that have values at a path are seen as those values. -/
theorem Captures.HasValues.seenAs (h : captures.HasValues path holes) {hole : String × Position}
    (hmem : hole ∈ holes) : captures.SeenAs path (captures.valueAt path) hole.1 := by
  rw [SeenAs, valueAt]
  cases hfind : captures.find? hole.1 with
  | none => exact .inl ⟨rfl, rfl⟩
  | some c =>
    obtain ⟨value, halong⟩ := h hole hmem c hfind
    exact .inr ⟨c, value, rfl, halong, halong⟩

/-- Where a repetition has a count, each of its rounds finds a value for every hole. -/
theorem Captures.HasValues.exists_value {count index : Nat}
    (h : captures.HasValues path inner.holes) (hcount : roundCount captures path inner = .ok count)
    (hindex : index < count) : ∀ hole ∈ inner.holes, ∃ c value,
      captures.find? hole.1 = some c ∧ c.along (path ++ [index]) = some value := by
  intro hole hmem
  have hseen := h.seenAs hmem
  rw [roundCount_eq fun hole hmem => h.seenAs hmem] at hcount
  obtain ⟨value, hvalue, hlen⟩ := Values.value_of_commonCount hcount hmem
  have hname : hole.1 ∈ inner.holes.map Prod.fst := List.mem_map_of_mem hmem
  rcases hseen.round hname hvalue hlen hindex with ⟨hnone, -⟩ | ⟨c, value, hc, halong, -⟩
  · -- a capture that is missing has no value before the round either
    rw [valueAt, hnone] at hvalue
    cases hvalue
  · exact ⟨c, value, hc, halong⟩

/-- The values lead on into the rounds. -/
theorem Captures.HasValues.round {count index : Nat} (h : captures.HasValues path inner.holes)
    (hcount : roundCount captures path inner = .ok count) (hindex : index < count) :
    captures.HasValues (path ++ [index]) inner.holes := by
  intro hole hmem c hc
  obtain ⟨c', value, hc', halong⟩ := h.exists_value hcount hindex hole hmem
  rw [hc] at hc'
  cases hc'
  exact ⟨value, halong⟩

/-! ## Faults of counting -/

theorem agreedCount_ne_noValue (holes : List (String × Position)) (count : Option (Nat × String))
    (name : String) (position : Position) :
    agreedCount captures path count holes ≠ .error ⟨.count (.noValue name), position⟩ := by
  induction holes generalizing count with
  | nil => simp [agreedCount]
  | cons hole holes ih =>
    obtain ⟨first, place⟩ := hole
    rw [agreedCount, valueOf]
    cases captures.find? first with
    | none => simp
    | some c =>
      simp only
      split
      · exact ih count
      · split
        · exact ih _
        · split
          · exact ih _
          · simp

/-- Counting rounds looks for no round. -/
theorem not_missesValue_of_roundCount {e : Fault} (h : roundCount captures path inner = .error e) :
    ¬ MissesValue (.error e) := by
  rintro ⟨name, position, heq⟩
  cases heq
  rw [roundCount] at h
  split at h
  · next hagreed =>
    cases h
    exact agreedCount_ne_noValue _ _ _ _ hagreed
  · cases h
  · cases h

theorem not_missesValue_ok (out : List Token) : ¬ MissesValue (.ok out) := by
  rintro ⟨name, position, heq⟩
  cases heq

theorem not_missesValue_map {x : Except Fault (List Token)} (h : ¬ MissesValue x)
    (f : List Token → List Token) : ¬ MissesValue (x.map f) := by
  rintro ⟨name, position, heq⟩
  cases x with
  | ok out => cases heq
  | error e =>
    cases heq
    exact h ⟨name, position, rfl⟩

/-! ## Writing -/

/-- A capture with a value at the path has something to write, or repeats there. -/
theorem not_missesValue_writeHole {name : String} {position : Position}
    (h : captures.HasValues path [(name, position)]) :
    ¬ MissesValue (writeHole captures path name position) := by
  rintro ⟨missing, place, heq⟩
  rw [writeHole, valueOf] at heq
  cases hfind : captures.find? name with
  | none => simp [hfind] at heq
  | some c =>
    obtain ⟨value, halong⟩ := h _ List.mem_cons_self c hfind
    cases value <;> simp [hfind, halong] at heq

theorem not_missesValue_writeRounds {round : Nat → Except Fault (List Token)}
    {separator : Option Token} {index left : Nat}
    (h : ∀ i, i < index + left → ¬ MissesValue (round i)) :
    ¬ MissesValue (writeRounds round separator index left) := by
  induction left generalizing index with
  | zero => exact not_missesValue_ok []
  | succ left ih =>
    have hhere := h index (by omega)
    rw [writeRounds]
    split
    · next e he => rwa [he] at hhere
    · exact not_missesValue_map (ih fun i hi => h i (by omega)) _

mutual

theorem TemplateNode.not_missesValue_write : ∀ (node : TemplateNode) {path : List Nat},
    captures.HasValues path node.holes → ¬ MissesValue (node.write captures path)
  | .literal _, _, _ => not_missesValue_ok _
  | .escape _, _, _ => not_missesValue_ok _
  | .hole name position, path, h => not_missesValue_writeHole h
  | .repetition inner separator, path, h => by
    rw [TemplateNode.write]
    split
    · next e he => exact not_missesValue_of_roundCount he
    · next count hcount =>
      refine not_missesValue_writeRounds fun index hindex => ?_
      exact Template.not_missesValue_write inner (h.round hcount (by omega))

/-- A template whose captures have values at a path finds values for all it writes. -/
theorem Template.not_missesValue_write : ∀ (t : Template) {path : List Nat},
    captures.HasValues path t.holes → ¬ MissesValue (t.write captures path)
  | [], _, _ => not_missesValue_ok []
  | node :: nodes, path, h => by
    rw [Template.holes, Captures.HasValues, List.forall_mem_append] at h
    have hnode := TemplateNode.not_missesValue_write node h.1
    rw [Template.write]
    split
    · next e he => rwa [he] at hnode
    · exact not_missesValue_map (Template.not_missesValue_write nodes h.2) _

end

/-! ## Entering bodies -/

/-- A body is entered at paths where every hole in it has a value. -/
theorem Template.Enters.exists_value {t : Template} (h : t.Enters captures path body target)
    (hvalues : captures.HasValues path t.holes) : ∀ hole ∈ body.holes, ∃ c value,
      captures.find? hole.1 = some c ∧ c.along target = some value := by
  induction h with
  | round hstarts =>
    obtain ⟨count, hcount, hindex, -⟩ := hstarts
    rw [Template.holes, Captures.HasValues, List.forall_mem_append] at hvalues
    exact Captures.HasValues.exists_value hvalues.1 hcount hindex
  | inside hstarts _ ih =>
    obtain ⟨count, hcount, hindex, -⟩ := hstarts
    rw [Template.holes, Captures.HasValues, List.forall_mem_append] at hvalues
    exact ih (Captures.HasValues.round hvalues.1 hcount hindex)
  | behind _ _ ih =>
    rw [Template.holes, Captures.HasValues, List.forall_mem_append] at hvalues
    exact ih hvalues.2

/-- Whatever the captures are, filling a template never ends at a round that a capture does not
have, and wherever it enters the body of a repetition, every hole in the body, in repetitions of its
own too, names a capture with a value there. -/
theorem Template.fill_finds_values (t : Template) (captures : Captures) :
    (∀ name position, t.fill captures ≠ .error ⟨.count (.noValue name), position⟩) ∧
      ∀ body path, t.Enters captures [] body path → ∀ hole ∈ body.holes, ∃ c value,
        captures.find? hole.1 = some c ∧ c.along path = some value := by
  have hvalues := captures.hasValues_nil t.holes
  refine ⟨fun name position h => ?_, fun body path h => h.exists_value hvalues⟩
  exact Template.not_missesValue_write t hvalues ⟨name, position, h⟩

/-! ## Ragged rows -/

/-- `$x $y` -/
def pairTemplate : Template := [.hole "x" {}, .hole "y" {}]

/-- `$($($x $y)*)*` -/
def rowsTemplate : Template := [.repetition [.repetition pairTemplate none] none]

/-- A captured `a` -/
def capturedName : Captured := .once [⟨.name, "a", {}⟩]

/-- Two rows of `$x` with two values and one, and two rows of `$y` with two values each. -/
def raggedRows : Captures :=
  ⟨[("x", .each [.each [capturedName, capturedName], .each [capturedName]]),
    ("y", .each [.each [capturedName, capturedName], .each [capturedName, capturedName]])]⟩

/-- The rows fail where their counts are compared. Before that, the pairs of the first row have been
written, and both captures have had values in the second of them. -/
theorem fill_finds_values_raggedRows :
    rowsTemplate.fill raggedRows = .error ⟨.count (.differ "x" 1 "y" 2), {}⟩ ∧
      rowsTemplate.Enters raggedRows [] pairTemplate [0, 1] ∧
      ∀ hole ∈ pairTemplate.holes, ∃ c value, raggedRows.find? hole.1 = some c ∧
        c.along [0, 1] = some value := by
  have hrow : Template.StartsRound raggedRows [.repetition pairTemplate none] [] 0 :=
    ⟨2, rfl, by decide, fun earlier hearlier => absurd hearlier (Nat.not_lt_zero earlier)⟩
  have hpair : pairTemplate.StartsRound raggedRows [0] 1 := by
    refine ⟨2, rfl, by decide, fun earlier hearlier => ?_⟩
    obtain rfl : earlier = 0 := by omega
    exact ⟨_, rfl⟩
  have henters : rowsTemplate.Enters raggedRows [] pairTemplate [0, 1] :=
    .inside hrow (.round hpair)
  exact ⟨rfl, henters, (rowsTemplate.fill_finds_values raggedRows).2 _ _ henters⟩

end TokenMacros

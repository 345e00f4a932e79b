import TokenMacros.Proofs.Rule.Soundness

/-!
# Captures in lockstep

What a pattern that passes the check reads has a value for every capture and for nothing
else, nested as deeply as the capture stands, and the captures inside one repetition
repeat equally often wherever they have values:

    p.depths = .ok declared → p.readAt ts start = some found →
      found.captures binds the names of declared, to values of their depths, and
        p.Repeats k inner → path.length = k →
          found.captures.InStep (fun name => Pattern.Declares name inner) path
                                                           (Pattern.readAt_inStep)

The rounds of a repetition are readings of their own (`Pattern.exists_rounds`), so the
induction goes down the repetitions around, and takes one index off the path at each.
-/

namespace TokenMacros

/-- A capture of that name stands in the pattern, in whichever variant, but in no lookahead. -/
inductive Pattern.Declares (name : String) : Pattern → Prop
  | capture {fragment : Fragment} {position : Position} {p : Pattern} :
      .capture name fragment position ∈ p → Declares name p
  | repetition {inner : Pattern} {separator : Option Token} {q : Quantifier} {p : Pattern} :
      .repetition inner separator q ∈ p → Declares name inner → Declares name p
  | choice {variants : List Pattern} {position : Position} {variant p : Pattern} :
      .choice variants position ∈ p → variant ∈ variants → Declares name variant →
      Declares name p

/-- In the pattern `inner` is repeated, within `k` other repetitions, and in no choice or
lookahead. -/
inductive Pattern.Repeats : Pattern → Nat → Pattern → Prop
  | here {inner : Pattern} {separator : Option Token} {q : Quantifier} {p : Pattern} :
      .repetition inner separator q ∈ p → Repeats p 0 inner
  | inside {k : Nat} {inner outer : Pattern} {separator : Option Token} {q : Quantifier}
      {p : Pattern} : .repetition outer separator q ∈ p → Repeats outer k inner →
      Repeats p (k + 1) inner

namespace Captures

/-- The value of a capture at the end of a path. -/
def valueAt (captures : Captures) (path : List Nat) (name : String) : Option Captured :=
  (captures.find? name).bind fun c => c.along path

/-- Either none of the names has a value at the path, or all of them repeat there, equally
often. -/
def InStep (captures : Captures) (names : String → Prop) (path : List Nat) : Prop :=
  (∀ name, names name → captures.valueAt path name = none) ∨
    ∃ count, ∀ name, names name →
      ∃ rounds, captures.valueAt path name = some (.each rounds) ∧ rounds.length = count

end Captures

variable {p inner : Pattern} {node : PatternNode} {name : String} {ts : List Token} {r : Reading}

/-! ## Names -/

theorem Pattern.WellNamed.of_mem (h : p.WellNamed) (hmem : node ∈ p) : node.WellNamed := by
  induction p with
  | nil => cases hmem
  | cons first nodes ih =>
    rw [Pattern.WellNamed] at h
    rcases List.mem_cons.1 hmem with rfl | hmem
    · exact h.1
    · exact ih h.2.1 hmem

theorem Pattern.WellNamed.of_repetition {separator : Option Token} {q : Quantifier} (h : p.WellNamed)
    (hmem : .repetition inner separator q ∈ p) : inner.WellNamed := by
  have hnode := h.of_mem hmem
  rwa [PatternNode.WellNamed] at hnode

theorem Pattern.VariantsWellNamed.of_mem {variants : List Pattern} {shared : List Slot}
    {variant : Pattern} (h : Pattern.VariantsWellNamed shared variants)
    (hmem : variant ∈ variants) : variant.WellNamed ∧ (Pattern.slots 0 variant).Perm shared := by
  induction variants with
  | nil => cases hmem
  | cons first variants ih =>
    rw [Pattern.VariantsWellNamed] at h
    rcases List.mem_cons.1 hmem with rfl | hmem
    · exact ⟨h.1, h.2.1⟩
    · exact ih h.2.2 hmem

theorem Pattern.mem_slots {s : Slot} (hmem : node ∈ p) (hs : s ∈ node.slots 0) :
    s ∈ Pattern.slots 0 p := by
  induction p with
  | nil => cases hmem
  | cons first nodes ih =>
    rw [Pattern.slots]
    rcases List.mem_cons.1 hmem with rfl | hmem
    · exact List.mem_append_left _ hs
    · exact List.mem_append_right _ (ih hmem)

/-- The slots of what is repeated are those of the repetition, one level deeper. -/
theorem Pattern.deeper_mem_slots {s : Slot} (hs : s ∈ Pattern.slots 0 inner)
    (separator : Option Token) (q : Quantifier) :
    s.deeper 1 ∈ (PatternNode.repetition inner separator q).slots 0 := by
  rw [PatternNode.slots, Pattern.slots_eq_map]
  exact List.mem_map_of_mem hs

/-- The slots of a well-named pattern have all names that are declared in it, those in other
variants than the first included. -/
theorem Pattern.Declares.exists_slot (h : p.Declares name) (hnamed : p.WellNamed) :
    ∃ s ∈ Pattern.slots 0 p, s.name = name := by
  induction h with
  | capture hmem => exact ⟨⟨name, 0⟩, Pattern.mem_slots hmem List.mem_cons_self, rfl⟩
  | repetition hmem _ ih =>
    obtain ⟨s, hs, hname⟩ := ih (hnamed.of_repetition hmem)
    exact ⟨s.deeper 1, Pattern.mem_slots hmem (Pattern.deeper_mem_slots hs _ _), hname⟩
  | choice hmem hvariant _ ih =>
    have hvariants := hnamed.of_mem hmem
    rw [PatternNode.WellNamed] at hvariants
    obtain ⟨hwell, hperm⟩ := hvariants.of_mem hvariant
    obtain ⟨s, hs, hname⟩ := ih hwell
    exact ⟨s, Pattern.mem_slots hmem (hperm.mem_iff.1 hs), hname⟩

theorem Pattern.Repeats.declares {k : Nat} (h : p.Repeats k inner) (hname : inner.Declares name) :
    p.Declares name := by
  induction h with
  | here hmem => exact .repetition hmem hname
  | inside hmem _ ih => exact .repetition hmem (ih hname)

/-! ## Rounds -/

/-- What a node of a well-named pattern has bound is bound to the same values by the whole. -/
theorem Pattern.exists_read_of_mem (hnamed : p.WellNamed) (hmem : node ∈ p)
    (h : Pattern.read p ts = some r) : ∃ us found, node.read us = some found ∧
      ∀ s ∈ node.slots 0, r.captures.find? s.name = found.captures.find? s.name := by
  induction p generalizing ts r with
  | nil => cases hmem
  | cons first nodes ih =>
    rw [Pattern.WellNamed, Pattern.slots] at hnamed
    obtain ⟨-, hnodes, hnodup⟩ := hnamed
    obtain ⟨head, tail, hhead, htail, rfl⟩ := Pattern.read_cons_eq_some.1 h
    have hbinds := Pattern.read_binds nodes hnodes htail
    rcases List.mem_cons.1 hmem with rfl | hmem
    · exact ⟨ts, head, hhead, fun s hs => hbinds.find?_merge_left hnodup hs⟩
    · obtain ⟨us, found, hfound, heq⟩ := ih hnodes hmem htail
      refine ⟨us, found, hfound, fun s hs => ?_⟩
      rw [hbinds.find?_merge_right (Pattern.mem_slots hmem hs), heq s hs]

/-- The captures inside a repetition hold their values in its rounds, each of which is a reading
of what is repeated. -/
theorem Pattern.exists_rounds {separator : Option Token} {q : Quantifier} (hnamed : p.WellNamed)
    (hmem : .repetition inner separator q ∈ p) (h : Pattern.read p ts = some r) :
    ∃ items : List Captures,
      (∀ c ∈ items, ∃ us found, Pattern.read inner us = some found ∧ found.captures = c) ∧
      ∀ s ∈ Pattern.slots 0 inner, r.captures.find? s.name
        = some (.each (items.map fun c => (c.find? s.name).getD (.unreached s.depth))) := by
  obtain ⟨us, found, hfound, heq⟩ := Pattern.exists_read_of_mem hnamed hmem h
  rw [PatternNode.read] at hfound
  obtain ⟨-, rfl⟩ := readRepetition_eq_some.1 hfound
  refine ⟨(readRounds (fun us => Pattern.read inner us) separator (q.most us) none us).items,
    fun c hc => mem_items_readRounds hc, fun s hs => ?_⟩
  rw [← find?_gather s (hnamed.of_repetition hmem).nodup hs]
  exact heq (s.deeper 1) (Pattern.deeper_mem_slots hs separator q)

/-! ## Lockstep -/

section inStep

variable {captures captures' : Captures} {names : String → Prop} {path path' : List Nat}

/-- Values that are the same are in step alike. -/
theorem Captures.InStep.congr (h : captures.InStep names path)
    (heq : ∀ name, names name → captures'.valueAt path' name = captures.valueAt path name) :
    captures'.InStep names path' := by
  rcases h with hnone | ⟨count, hcount⟩
  · exact Or.inl fun name hname => (heq name hname).trans (hnone name hname)
  · refine Or.inr ⟨count, fun name hname => ?_⟩
    rw [heq name hname]
    exact hcount name hname

/-- The captures inside a repetition are in step at every path that leads to it. -/
theorem Pattern.Repeats.inStep {k : Nat} (hrep : p.Repeats k inner) (hnamed : p.WellNamed)
    (h : Pattern.read p ts = some r) (hpath : path.length = k) :
    r.captures.InStep (fun name => inner.Declares name) path := by
  induction hrep generalizing ts r path with
  | @here inner _ _ p hmem =>
    obtain ⟨items, -, hvalues⟩ := Pattern.exists_rounds hnamed hmem h
    rw [List.length_eq_zero_iff.1 hpath]
    refine Or.inr ⟨items.length, fun name hname => ?_⟩
    obtain ⟨s, hs, rfl⟩ := hname.exists_slot (hnamed.of_repetition hmem)
    have hvalue : r.captures.valueAt [] s.name
        = some (.each (items.map fun c => (c.find? s.name).getD (.unreached s.depth))) := by
      rw [Captures.valueAt, hvalues s hs, Option.bind_some, Captured.along_nil]
    exact ⟨_, hvalue, List.length_map _⟩
  | @inside k inner outer _ _ p hmem hrep ih =>
    have houter := hnamed.of_repetition hmem
    obtain ⟨i, path, rfl⟩ := List.exists_cons_of_length_eq_add_one hpath
    obtain ⟨items, hitems, hvalues⟩ := Pattern.exists_rounds hnamed hmem h
    cases hitem : items[i]? with
    | none =>
      -- the path leads behind the last round
      refine Or.inl fun name hname => ?_
      obtain ⟨s, hs, rfl⟩ := (hrep.declares hname).exists_slot houter
      rw [Captures.valueAt, hvalues s hs, Option.bind_some, Captured.along, List.getElem?_map,
        hitem, Option.map_none]
    | some item =>
      obtain ⟨us, found, hfound, rfl⟩ := hitems item (List.mem_of_getElem? hitem)
      refine (ih houter hfound (Nat.succ.inj hpath)).congr fun name hname => ?_
      obtain ⟨s, hs, rfl⟩ := (hrep.declares hname).exists_slot houter
      obtain ⟨c, hc, -⟩ := (Pattern.read_binds outer houter hfound).value s hs
      rw [Captures.valueAt, hvalues s hs, Option.bind_some, Captured.along, List.getElem?_map,
        hitem, Option.map_some, Captures.valueAt, hc, Option.getD_some, Option.bind_some]

end inStep

/-! ## Checked patterns -/

/-- Exactly the declared names are bound. -/
theorem Captures.Binds.find?_iff {captures : Captures} {declared : Depths}
    (hdepths : p.depths = .ok declared) (h : captures.Binds (Pattern.slots 0 p)) (name : String) :
    (∃ c, captures.find? name = some c) ↔ ∃ depth, declared.find? name = some depth := by
  constructor
  · rintro ⟨c, hc⟩
    have hmem : name ∈ (Pattern.slots 0 p).map Slot.name := by
      by_contra hnot
      rw [h.other name hnot] at hc
      cases hc
    obtain ⟨s, hs, rfl⟩ := List.mem_map.1 hmem
    obtain ⟨hentries, hnamed⟩ := Pattern.depths_eq_ok hdepths
    refine ⟨s.depth, (Table.find?_eq_some_iff ?_).2 ?_⟩
    · rw [Table.names, hentries, List.map_map]
      exact hnamed.nodup
    · rw [hentries]
      exact List.mem_map_of_mem hs
  · rintro ⟨depth, hdepth⟩
    obtain ⟨c, hc, -⟩ := h.provide hdepths name depth hdepth
    exact ⟨c, hc⟩

/-- What a checked pattern reads binds the declared captures, each at its depth, and those inside
one repetition in lockstep. -/
theorem Pattern.readAt_inStep {declared : Depths} {start : Nat} {found : Found}
    (hdepths : p.depths = .ok declared) (h : p.readAt ts start = some found) :
    (∀ name, (∃ c, found.captures.find? name = some c) ↔
      ∃ depth, declared.find? name = some depth) ∧
    (∀ name depth, declared.find? name = some depth →
      ∃ c, found.captures.find? name = some c ∧ c.HasDepth depth) ∧
    ∀ k inner path, p.Repeats k inner → path.length = k →
      found.captures.InStep (fun name => inner.Declares name) path := by
  obtain ⟨-, hnamed⟩ := Pattern.depths_eq_ok hdepths
  obtain ⟨r, hr, hcaptures⟩ := read_of_readAt h
  rw [← hcaptures]
  have hbinds := Pattern.read_binds p hnamed hr
  exact ⟨hbinds.find?_iff hdepths, hbinds.provide hdepths,
    fun k inner path hrep hpath => hrep.inStep hnamed hr hpath⟩

/-! ## A list of records -/

/-- `$key:name = $[($value:number) | ($value:string)]` -/
def fieldPattern : Pattern :=
  [.capture "key" .name {}, .literal ⟨.operator, "=", {}⟩,
    .choice [[.capture "value" .number {}], [.capture "value" .string {}]] {}]

/-- `$( $name:name ( $( field ),* ) )+` -/
def recordsPattern : Pattern :=
  [.repetition [.capture "name" .name {}, .literal ⟨.opener, "(", {}⟩,
    .repetition fieldPattern (some ⟨.operator, ",", {}⟩) .any, .literal ⟨.closer, ")", {}⟩]
    none .atLeastOne]

/-- The stream `a ( ) b ( x = 1 , y = "2" )`. -/
def records : List Token :=
  [⟨.name, "a", {}⟩, ⟨.opener, "(", {}⟩, ⟨.closer, ")", {}⟩, ⟨.name, "b", {}⟩,
    ⟨.opener, "(", {}⟩, ⟨.name, "x", {}⟩, ⟨.operator, "=", {}⟩, ⟨.number, "1", {}⟩,
    ⟨.operator, ",", {}⟩, ⟨.name, "y", {}⟩, ⟨.operator, "=", {}⟩, ⟨.string, "\"2\"", {}⟩,
    ⟨.closer, ")", {}⟩]

theorem readAt_inStep_records : ∃ found, recordsPattern.readAt records 0 = some found ∧
    (∃ c, found.captures.find? "value" = some c ∧ c.HasDepth 2) ∧
      found.captures.InStep (fun name => fieldPattern.Declares name) [1] := by
  have hdepths : recordsPattern.depths = .ok ⟨[("name", 1), ("key", 2), ("value", 2)]⟩ := rfl
  have hread : (recordsPattern.readAt records 0).isSome = true := by decide
  obtain ⟨found, hfound⟩ := Option.isSome_iff_exists.1 hread
  have hrep : recordsPattern.Repeats 1 fieldPattern :=
    .inside List.mem_cons_self
      (.here (List.mem_cons_of_mem _ (List.mem_cons_of_mem _ List.mem_cons_self)))
  obtain ⟨-, hvalues, hstep⟩ := Pattern.readAt_inStep hdepths hfound
  exact ⟨found, hfound, hvalues "value" 2 rfl, hstep 1 fieldPattern [1] hrep rfl⟩

end TokenMacros

import TokenMacros.Proofs.Rule.Binding
import TokenMacros.Rule.Filling

/-!
# Checked rules fail in their counts only

A rule that fits fills its template from whatever its pattern reads, unless the
counts of a repetition go wrong:

    Rule.make p t = .ok rule → rule.pattern.readWhole ts = some captures →
      (∃ out, rule.template.fill captures = .ok out) ∨
        ∃ fault position, rule.template.fill captures = .error ⟨.count fault, position⟩
                                                           (Rule.fill_sound)

No name is unknown, and no value still repeats where it is written.
-/

namespace TokenMacros

/-- Ends with a value, or with the fault of a count. -/
def CountsOnly {α : Type} (x : Except Fault α) : Prop :=
  ∀ e, x = .error e → ∃ fault, e.cause = .count fault

/-- Every declared capture has a value of its depth. -/
def Captures.Provide (captures : Captures) (declared : Depths) : Prop :=
  ∀ name depth, declared.find? name = some depth →
    ∃ c, captures.find? name = some c ∧ c.HasDepth depth

variable {captures : Captures} {declared : Depths} {path : List Nat}

theorem countsOnly_ok {α : Type} (a : α) : CountsOnly (.ok a : Except Fault α) := by
  intro e h
  cases h

theorem countsOnly_count {α : Type} (fault : CountFault) (position : Position) :
    CountsOnly (.error ⟨.count fault, position⟩ : Except Fault α) := by
  intro e h
  cases h
  exact ⟨fault, rfl⟩

theorem CountsOnly.error {α β : Type} {x : Except Fault α} {e : Fault} (h : CountsOnly x)
    (he : x = .error e) : CountsOnly (.error e : Except Fault β) := by
  intro e' he'
  cases he'
  exact h e he

theorem CountsOnly.map {α β : Type} {x : Except Fault α} (h : CountsOnly x) (f : α → β) :
    CountsOnly (x.map f) := by
  cases x with
  | ok a => exact countsOnly_ok _
  | error e => exact h.error rfl

theorem Captures.Binds.provide {p : Pattern} (hdepths : p.depths = .ok declared)
    (h : captures.Binds (Pattern.slots 0 p)) : captures.Provide declared := by
  intro name depth hfind
  have hmem : (name, depth) ∈ declared.entries := Table.mem_of_lookup hfind
  rw [(Pattern.depths_eq_ok hdepths).1] at hmem
  obtain ⟨s, hs, heq⟩ := List.mem_map.1 hmem
  cases heq
  exact h.value s hs

/-- A value does not repeat at the end of a path that is as long as the value is deep. -/
theorem Captured.HasDepth.along_ne_each {c : Captured} {depth : Nat} (h : c.HasDepth depth)
    (hpath : depth ≤ path.length) (rounds : List Captured) : c.along path ≠ some (.each rounds) := by
  induction h generalizing path with
  | once => simp
  | @each inner depth _ ih =>
    cases path with
    | nil => cases hpath
    | cons i path =>
      rw [Captured.along]
      cases hround : inner[i]? with
      | none => simp
      | some c => exact ih c (List.mem_of_getElem? hround) (Nat.le_of_succ_le_succ hpath)

/-! ## Counting -/

mutual

/-- The holes of a node that fits name captures. -/
theorem TemplateNode.fit_holes : ∀ (node : TemplateNode) {depth : Nat},
    node.fit declared depth = .ok () →
    ∀ hole ∈ node.holes, ∃ d, declared.find? hole.1 = some d
  | .literal _, _, _, hole, hmem => by cases hmem
  | .escape _, _, _, hole, hmem => by cases hmem
  | .hole name position, _, h, hole, hmem => by
    rw [TemplateNode.holes, List.mem_singleton] at hmem
    subst hmem
    rw [TemplateNode.fit] at h
    split at h
    · cases h
    · next d hd => exact ⟨d, hd⟩
  | .repetition inner _, _, h, hole, hmem => by
    rw [TemplateNode.fit] at h
    rw [TemplateNode.holes] at hmem
    exact Template.fit_holes inner h hole hmem

theorem Template.fit_holes : ∀ (t : Template) {depth : Nat}, t.fit declared depth = .ok () →
    ∀ hole ∈ t.holes, ∃ d, declared.find? hole.1 = some d
  | [], _, _, hole, hmem => by cases hmem
  | node :: nodes, _, h, hole, hmem => by
    rw [Template.fit] at h
    split at h
    · cases h
    · next hnode =>
      rw [Template.holes, List.mem_append] at hmem
      rcases hmem with hmem | hmem
      · exact TemplateNode.fit_holes node hnode hole hmem
      · exact Template.fit_holes nodes h hole hmem

end

theorem valueOf_eq_ok {name : String} {c : Captured} (h : captures.find? name = some c)
    (position : Position) : valueOf captures name position = .ok c := by
  rw [valueOf, h]

theorem agreedCount_countsOnly {holes : List (String × Position)}
    (h : ∀ hole ∈ holes, ∃ c, captures.find? hole.1 = some c) (count : Option (Nat × String)) :
    CountsOnly (agreedCount captures path count holes) := by
  induction holes generalizing count with
  | nil => exact countsOnly_ok _
  | cons hole holes ih =>
    obtain ⟨name, position⟩ := hole
    obtain ⟨c, hc⟩ := h (name, position) List.mem_cons_self
    have hrest := ih fun hole hmem => h hole (List.mem_cons_of_mem _ hmem)
    rw [agreedCount, valueOf_eq_ok hc]
    simp only
    split
    · exact hrest _
    · next found _ =>
      split
      · exact hrest (some (found, name))
      · split
        · exact hrest _
        · exact countsOnly_count _ _

theorem roundCount_countsOnly {inner : Template}
    (h : ∀ hole ∈ inner.holes, ∃ c, captures.find? hole.1 = some c) :
    CountsOnly (roundCount captures path inner) := by
  have hagreed : CountsOnly (agreedCount captures path none inner.holes) :=
    agreedCount_countsOnly h none
  rw [roundCount]
  split
  · next he => exact hagreed.error he
  · exact countsOnly_ok _
  · exact countsOnly_count _ _

/-! ## Writing -/

theorem writeRounds_countsOnly {body : Nat → Except Fault (List Token)} {separator : Option Token}
    (h : ∀ index, CountsOnly (body index)) (index left : Nat) :
    CountsOnly (writeRounds body separator index left) := by
  induction left generalizing index with
  | zero => exact countsOnly_ok _
  | succ left ih =>
    rw [writeRounds]
    split
    · next he => exact (h index).error he
    · exact (ih (index + 1)).map _

theorem writeHole_countsOnly {name : String} {position : Position} {c : Captured} {depth : Nat}
    (hc : captures.find? name = some c) (hdepth : c.HasDepth depth) (hpath : depth ≤ path.length) :
    CountsOnly (writeHole captures path name position) := by
  rw [writeHole, valueOf_eq_ok hc]
  simp only
  split
  · exact countsOnly_ok _
  · next rounds halong => exact absurd halong (hdepth.along_ne_each hpath rounds)
  · exact countsOnly_count _ _

mutual

theorem TemplateNode.write_countsOnly (hvalues : captures.Provide declared) :
    ∀ (node : TemplateNode) (path : List Nat), node.fit declared path.length = .ok () →
    CountsOnly (node.write captures path)
  | .literal _, _, _ => countsOnly_ok _
  | .escape _, _, _ => countsOnly_ok _
  | .hole name position, path, h => by
    rw [TemplateNode.fit] at h
    split at h
    · cases h
    · next depth hdeclared =>
      split at h
      · cases h
      · next hpath =>
        obtain ⟨c, hc, hdepth⟩ := hvalues name depth hdeclared
        rw [TemplateNode.write]
        exact writeHole_countsOnly hc hdepth (Nat.le_of_not_lt hpath)
  | .repetition inner separator, path, h => by
    rw [TemplateNode.fit] at h
    have hholes : ∀ hole ∈ Template.holes inner, ∃ c, captures.find? hole.1 = some c := by
      intro hole hmem
      obtain ⟨depth, hdeclared⟩ := Template.fit_holes inner h hole hmem
      obtain ⟨c, hc, -⟩ := hvalues hole.1 depth hdeclared
      exact ⟨c, hc⟩
    rw [TemplateNode.write]
    split
    · next he => exact (roundCount_countsOnly hholes).error he
    · refine writeRounds_countsOnly (fun index => ?_) 0 _
      refine Template.write_countsOnly hvalues inner (path ++ [index]) ?_
      rwa [List.length_append, List.length_singleton]

/-- A template that fits writes from captures of the declared depths, unless a count fails. -/
theorem Template.write_countsOnly (hvalues : captures.Provide declared) :
    ∀ (t : Template) (path : List Nat), t.fit declared path.length = .ok () →
    CountsOnly (t.write captures path)
  | [], _, _ => countsOnly_ok _
  | node :: nodes, path, h => by
    rw [Template.fit] at h
    split at h
    · cases h
    · next hnode =>
      rw [Template.write]
      split
      · next he => exact (TemplateNode.write_countsOnly hvalues node path hnode).error he
      · exact (Template.write_countsOnly hvalues nodes path h).map _

end

/-! ## Rules -/

theorem Rule.fit_eq_ok {p : Pattern} {t : Template} (h : Rule.fit p t = .ok ()) :
    ∃ declared, p.depths = .ok declared ∧ t.fit declared 0 = .ok () := by
  rw [Rule.fit] at h
  split at h
  · cases h
  · next declared hdeclared => exact ⟨declared, hdeclared, h⟩

theorem Rule.fill_countsOnly (rule : Rule) {ts : List Token} {r : Reading}
    (h : rule.pattern.read ts = some r) : CountsOnly (rule.template.fill r.captures) := by
  obtain ⟨declared, hdepths, hfit⟩ := Rule.fit_eq_ok rule.fits
  have hbinds := Pattern.read_binds rule.pattern (Pattern.depths_eq_ok hdepths).2 h
  exact Template.write_countsOnly (hbinds.provide hdepths) rule.template [] hfit

theorem read_of_readAt {p : Pattern} {ts : List Token} {start : Nat} {found : Found}
    (h : p.readAt ts start = some found) :
    ∃ r, p.read (ts.drop start) = some r ∧ r.captures = found.captures := by
  rw [Pattern.readAt, Option.map_eq_some_iff] at h
  obtain ⟨r, hr, rfl⟩ := h
  exact ⟨r, hr, rfl⟩

theorem read_of_readWhole {p : Pattern} {ts : List Token} {captures : Captures}
    (h : p.readWhole ts = some captures) :
    p.read ts = some ⟨captures, ts, []⟩ := by
  rw [Pattern.readWhole] at h
  split at h
  · next used hread =>
    cases h
    have happend : used ++ [] = ts := Pattern.read_append p hread
    rw [hread, ← happend, List.append_nil]
  · cases h

/-- Where the pattern of a checked rule matches, at an index or the whole stream, its template is
filled, or the fault is one of counts. -/
theorem Rule.fill_sound {p : Pattern} {t : Template} {rule : Rule} {ts : List Token}
    {captures : Captures} (hrule : Rule.make p t = .ok rule)
    (hread : p.readWhole ts = some captures ∨
      ∃ start stop, p.readAt ts start = some ⟨captures, stop⟩) :
    (∃ out, t.fill captures = .ok out) ∨
      ∃ fault position, t.fill captures = .error ⟨.count fault, position⟩ := by
  obtain ⟨rfl, rfl⟩ := Rule.make_eq_ok_iff.1 hrule
  have hcounts : CountsOnly (rule.template.fill captures) := by
    rcases hread with hwhole | ⟨start, stop, hat⟩
    · exact rule.fill_countsOnly (read_of_readWhole hwhole)
    · obtain ⟨r, hr, rfl⟩ := read_of_readAt hat
      exact rule.fill_countsOnly hr
  cases hfill : rule.template.fill captures with
  | ok out => exact Or.inl ⟨out, rfl⟩
  | error e =>
    obtain ⟨fault, hcause⟩ := hcounts e hfill
    exact Or.inr ⟨fault, e.position, by rw [← hcause]⟩

/-! ## A list of pairs -/

/-- `$( $key:name $[($value:number) | ($value:string)] ),*` -/
def pairsPattern : Pattern :=
  [.repetition [.capture "key" .name {},
    .choice [[.capture "value" .number {}], [.capture "value" .string {}]] {}]
    (some ⟨.operator, ",", {}⟩) .any]

/-- `$( $value = $key )*` -/
def pairsTemplate : Template :=
  [.repetition [.hole "value" {}, .literal ⟨.operator, "=", {}⟩, .hole "key" {}] none]

/-- The stream `a 1, b "2"`. -/
def pairs : List Token :=
  [⟨.name, "a", {}⟩, ⟨.number, "1", {}⟩, ⟨.operator, ",", {}⟩, ⟨.name, "b", {}⟩,
    ⟨.string, "\"2\"", {}⟩]

theorem fill_sound_pairs : ∃ rule captures, Rule.make pairsPattern pairsTemplate = .ok rule ∧
    pairsPattern.readWhole pairs = some captures ∧
      ((∃ out, pairsTemplate.fill captures = .ok out) ∨
        ∃ fault position, pairsTemplate.fill captures = .error ⟨.count fault, position⟩) := by
  have hmake : Rule.make pairsPattern pairsTemplate = .ok ⟨_, _, rfl⟩ :=
    Rule.make_eq_ok_iff.2 ⟨rfl, rfl⟩
  have hread : (pairsPattern.readWhole pairs).isSome = true := by decide
  obtain ⟨captures, hcaptures⟩ := Option.isSome_iff_exists.1 hread
  exact ⟨_, captures, hmake, hcaptures, Rule.fill_sound hmake (Or.inl hcaptures)⟩

end TokenMacros

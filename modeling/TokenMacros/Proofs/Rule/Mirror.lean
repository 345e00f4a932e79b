import TokenMacros.Proofs.Rule.Soundness

/-!
# Filling undoes reading

The mirror of a pattern is the template that writes each of its nodes back: a hole
for every capture, a repetition for every repetition, and nothing for a lookahead.
Filled with what the pattern has read off a stream, it writes the stream again:

    p.readWhole ts = some captures → ∃ out, p.mirror.fill captures = .ok out ∧
      sameTokens out ts = true                             (Pattern.fill_mirror)

Every repetition needs a capture to tell its rounds, and the tokens that only an
escape can name have to carry the text that the escape writes. What the proof
carries down the pattern is `Captures.AgreeAt`: at the path of a round, the captures
of the whole stream are those that the round has read.
-/

namespace TokenMacros

mutual

/-- Writes back what the node reads. Of a choice it is not known which variant has matched. -/
def PatternNode.mirror : PatternNode → Template
  | .literal token => [.literal token]
  | .escape escape => [.escape escape]
  | .capture name _ position => [.hole name position]
  | .repetition inner separator _ => [.repetition (Pattern.mirror inner) separator]
  | .choice _ _ | .lookahead _ => []

/-- Writes back what the pattern reads. -/
def Pattern.mirror : Pattern → Template
  | [] => []
  | node :: nodes => node.mirror ++ Pattern.mirror nodes

end

mutual

/-- There is no choice in the node, and a capture in every repetition; what stands in lookaheads
does not count. -/
def PatternNode.Mirrorable : PatternNode → Prop
  | .literal _ | .escape _ | .capture _ _ _ | .lookahead _ => True
  | .repetition inner _ _ => Pattern.slots 0 inner ≠ [] ∧ Pattern.Mirrorable inner
  | .choice _ _ => False

def Pattern.Mirrorable : Pattern → Prop
  | [] => True
  | node :: nodes => node.Mirrorable ∧ Pattern.Mirrorable nodes

end

/-- A token of a kind that an escape names has the text that the escape writes. -/
def Token.Canonical (t : Token) : Prop :=
  ∀ escape : Escape, t.kind = escape.kind → t.same (escape.token {}) = true

instance (t : Token) : Decidable t.Canonical :=
  decidable_of_iff (∀ escape ∈ [Escape.dollar, .indent, .dedent, .newline],
      t.kind = escape.kind → t.same (escape.token {}) = true)
    ⟨fun h escape => h escape (by cases escape <;> simp), fun h escape _ => h escape⟩

/-- At the end of the path, the captures have the values that were found for the slots. -/
def Captures.AgreeAt (captures : Captures) (path : List Nat) (slots : List Slot)
    (found : Captures) : Prop :=
  ∀ s ∈ slots, (captures.find? s.name).bind (fun c => c.along path) = found.find? s.name

/-- The template writes the tokens that were used, up to their places. -/
def Template.Restores (captures : Captures) (path : List Nat) (t : Template)
    (used : List Token) : Prop :=
  ∃ out, t.write captures path = .ok out ∧ out.map Token.bare = used.map Token.bare

variable {captures : Captures} {declared : Depths} {path : List Nat}

/-! ## Checking -/

theorem Template.fit_append {t u : Template} {depth : Nat} (ht : t.fit declared depth = .ok ())
    (hu : u.fit declared depth = .ok ()) : Template.fit declared depth (t ++ u) = .ok () := by
  induction t with
  | nil => exact hu
  | cons node nodes ih =>
    rw [Template.fit] at ht
    rw [List.cons_append, Template.fit]
    split at ht
    · cases ht
    · exact ih ht

theorem Template.fit_singleton {node : TemplateNode} {depth : Nat}
    (h : node.fit declared depth = .ok ()) : Template.fit declared depth [node] = .ok () := by
  rw [Template.fit, h, Template.fit]

mutual

theorem PatternNode.mirror_fit : ∀ (node : PatternNode) {depth : Nat}, node.Mirrorable →
    (∀ s ∈ node.slots depth, declared.find? s.name = some s.depth) →
    Template.fit declared depth node.mirror = .ok ()
  | .literal _, _, _, _ => Template.fit_singleton rfl
  | .escape _, _, _, _ => Template.fit_singleton rfl
  | .lookahead _, _, _, _ => rfl
  | .choice _ _, _, hm, _ => hm.elim
  | .capture name _ position, depth, _, h => by
    have hfind : declared.find? name = some depth := h ⟨name, depth⟩ List.mem_cons_self
    refine Template.fit_singleton ?_
    rw [TemplateNode.fit, hfind]
    simp only [Nat.lt_irrefl, if_false]
  | .repetition inner _ _, depth, hm, h => by
    rw [PatternNode.Mirrorable] at hm
    refine Template.fit_singleton ?_
    rw [TemplateNode.fit]
    exact Pattern.mirror_fit inner hm.2 h

/-- Every hole of a mirror stands in as many repetitions as its capture. -/
theorem Pattern.mirror_fit : ∀ (p : Pattern) {depth : Nat}, Pattern.Mirrorable p →
    (∀ s ∈ Pattern.slots depth p, declared.find? s.name = some s.depth) →
    Template.fit declared depth (Pattern.mirror p) = .ok ()
  | [], _, _, _ => rfl
  | node :: nodes, depth, hm, h => by
    rw [Pattern.Mirrorable] at hm
    rw [Pattern.slots] at h
    rw [Pattern.mirror]
    exact Template.fit_append
      (PatternNode.mirror_fit node hm.1 fun s hs => h s (List.mem_append_left _ hs))
      (Pattern.mirror_fit nodes hm.2 fun s hs => h s (List.mem_append_right _ hs))

end

/-! ## Counting -/

theorem Template.holes_append (t u : Template) :
    Template.holes (t ++ u) = t.holes ++ u.holes := by
  induction t with
  | nil => rfl
  | cons node nodes ih =>
    rw [List.cons_append, Template.holes, Template.holes, ih, List.append_assoc]

mutual

theorem PatternNode.holes_mirror : ∀ (node : PatternNode) (depth : Nat), node.Mirrorable →
    (Template.holes node.mirror).map Prod.fst = (node.slots depth).map Slot.name
  | .literal _, _, _ => rfl
  | .escape _, _, _ => rfl
  | .lookahead _, _, _ => rfl
  | .capture _ _ _, _, _ => rfl
  | .choice _ _, _, hm => hm.elim
  | .repetition inner _ _, depth, hm => by
    rw [PatternNode.Mirrorable] at hm
    rw [PatternNode.mirror, Template.holes, TemplateNode.holes, Template.holes, List.append_nil]
    exact Pattern.holes_mirror inner (depth + 1) hm.2

/-- The holes of a mirror are the captures. -/
theorem Pattern.holes_mirror : ∀ (p : Pattern) (depth : Nat), Pattern.Mirrorable p →
    (Template.holes (Pattern.mirror p)).map Prod.fst = (Pattern.slots depth p).map Slot.name
  | [], _, _ => rfl
  | node :: nodes, depth, hm => by
    rw [Pattern.Mirrorable] at hm
    rw [Pattern.mirror, Template.holes_append, Pattern.slots, List.map_append, List.map_append,
      PatternNode.holes_mirror node depth hm.1, Pattern.holes_mirror nodes depth hm.2]

end

theorem agreedCount_of_some {holes : List (String × Position)} {count : Nat} {first : String}
    (h : ∀ hole ∈ holes, ∃ c, captures.find? hole.1 = some c ∧
      (c.along path).bind Captured.count? = some count) :
    agreedCount captures path (some (count, first)) holes = .ok (some (count, first)) := by
  induction holes with
  | nil => rfl
  | cons hole holes ih =>
    obtain ⟨name, position⟩ := hole
    obtain ⟨c, hc, hcount⟩ := h (name, position) List.mem_cons_self
    rw [agreedCount, valueOf_eq_ok hc]
    simp only [hcount, if_true]
    exact ih fun hole hmem => h hole (List.mem_cons_of_mem _ hmem)

/-- Holes that all repeat equally often, and of which there is one, give the count. -/
theorem roundCount_eq_ok {inner : Template} {count : Nat} (hne : inner.holes ≠ [])
    (h : ∀ hole ∈ inner.holes, ∃ c, captures.find? hole.1 = some c ∧
      (c.along path).bind Captured.count? = some count) :
    roundCount captures path inner = .ok count := by
  rw [roundCount]
  cases hholes : inner.holes with
  | nil => exact absurd hholes hne
  | cons hole holes =>
    rw [hholes] at h
    obtain ⟨name, position⟩ := hole
    obtain ⟨c, hc, hcount⟩ := h (name, position) List.mem_cons_self
    have hrest : agreedCount captures path (some (count, name)) holes = .ok (some (count, name)) :=
      agreedCount_of_some fun hole hmem => h hole (List.mem_cons_of_mem _ hmem)
    simp only [agreedCount, valueOf_eq_ok hc, hcount, hrest]

/-! ## Rounds at a path -/

section agree

variable {slots slots' : List Slot} {found found' : Captures} {items : List Captures}

theorem Captures.AgreeAt.left (h : captures.AgreeAt path (slots ++ slots') (found.merge found'))
    (hfound : found'.Binds slots') (hnodup : ((slots ++ slots').map Slot.name).Nodup) :
    captures.AgreeAt path slots found := by
  intro s hs
  rw [h s (List.mem_append_left _ hs), hfound.find?_merge_left hnodup hs]

theorem Captures.AgreeAt.right (h : captures.AgreeAt path (slots ++ slots') (found.merge found'))
    (hfound : found'.Binds slots') : captures.AgreeAt path slots' found' := by
  intro s hs
  rw [h s (List.mem_append_right _ hs), hfound.find?_merge_right hs]

/-- At the path of a repetition, a capture inside it has its values in all rounds. -/
theorem Captures.AgreeAt.exists_each
    (h : captures.AgreeAt path (slots.map (Slot.deeper 1)) (gather slots items ∅))
    (hnodup : (slots.map Slot.name).Nodup) {s : Slot} (hs : s ∈ slots) :
    ∃ c, captures.find? s.name = some c ∧ c.along path
      = some (.each (items.map fun item => (item.find? s.name).getD (.unreached s.depth))) := by
  have hagree := h (s.deeper 1) (List.mem_map_of_mem hs)
  rw [Slot.deeper, find?_gather s hnodup hs] at hagree
  exact Option.bind_eq_some_iff.1 hagree

/-- At the path of a round, a capture has its value in that round. -/
theorem Captures.AgreeAt.round
    (h : captures.AgreeAt path (slots.map (Slot.deeper 1)) (gather slots items ∅))
    (hnodup : (slots.map Slot.name).Nodup) {i : Nat} {item : Captures}
    (hitem : items[i]? = some item) (hbinds : item.Binds slots) :
    captures.AgreeAt (path ++ [i]) slots item := by
  intro s hs
  obtain ⟨c, hc, halong⟩ := h.exists_each hnodup hs
  obtain ⟨value, hvalue, -⟩ := hbinds.value s hs
  rw [hc, hvalue, Option.bind_some, Captured.along_append, halong, Option.bind_some,
    Captured.along_each_singleton, List.getElem?_map, hitem, Option.map_some, hvalue,
    Option.getD_some]

/-- The mirror of what a repetition holds has a round for every round that was read. -/
theorem Captures.AgreeAt.roundCount {inner : Pattern} (hm : inner.Mirrorable)
    (hne : Pattern.slots 0 inner ≠ []) (hnamed : inner.WellNamed)
    (h : captures.AgreeAt path ((Pattern.slots 0 inner).map (Slot.deeper 1))
      (gather (Pattern.slots 0 inner) items ∅)) :
    roundCount captures path inner.mirror = .ok items.length := by
  have hnames := Pattern.holes_mirror inner 0 hm
  refine roundCount_eq_ok ?_ fun hole hmem => ?_
  · intro hnil
    rw [hnil] at hnames
    exact hne (List.map_eq_nil_iff.1 hnames.symm)
  · have hname : hole.1 ∈ (Pattern.slots 0 inner).map Slot.name := by
      rw [← hnames]
      exact List.mem_map_of_mem hmem
    obtain ⟨s, hs, heq⟩ := List.mem_map.1 hname
    obtain ⟨c, hc, halong⟩ := h.exists_each hnamed.nodup hs
    refine ⟨c, heq ▸ hc, ?_⟩
    rw [halong, Option.bind_some, Captured.count?, List.length_map]

end agree

/-! ## Rounds -/

theorem map_bare_splitSeparator {due : Option Token} {ts taken behind : List Token}
    (h : splitSeparator due ts = some (taken, behind)) :
    taken.map Token.bare = due.toList.map Token.bare := by
  rcases splitSeparator_cases h with ⟨rfl, rfl, -⟩ | ⟨separator, t, rfl, hsame, rfl, -⟩
  · rfl
  · simp [Token.same_iff.1 hsame]

/-- If the body writes back each round, the rounds are written back, separators included. The
induction is on the rounds that may still be read; `index` counts those before. -/
theorem writeRounds_readRounds (item : Reader) (body : Nat → Except Fault (List Token))
    {separator due : Option Token} {most index : Nat} {ts : List Token}
    (hdue : due = if index = 0 then none else separator)
    (hbody : ∀ k c us r, (readRounds item separator most due ts).items[k]? = some c →
      item us = some r → r.captures = c → (∀ t ∈ r.used, t.Canonical) →
      ∃ out, body (index + k) = .ok out ∧ out.map Token.bare = r.used.map Token.bare)
    (hcanon : ∀ t ∈ (readRounds item separator most due ts).used, t.Canonical) :
    ∃ out, writeRounds body separator index (readRounds item separator most due ts).items.length
        = .ok out ∧
      out.map Token.bare = (readRounds item separator most due ts).used.map Token.bare := by
  induction most generalizing index due ts with
  | zero => exact ⟨[], rfl, rfl⟩
  | succ most ih =>
    rw [readRounds] at hbody hcanon ⊢
    cases hsep : splitSeparator due ts with
    | none => exact ⟨[], rfl, rfl⟩
    | some split =>
      obtain ⟨taken, behind⟩ := split
      simp only [hsep] at hbody hcanon ⊢
      cases hitem : item behind with
      | none => exact ⟨[], rfl, rfl⟩
      | some r =>
        simp only [hitem] at hbody hcanon ⊢
        have htaken : (if index = 0 then [] else separator.toList).map Token.bare
            = taken.map Token.bare := by
          rw [map_bare_splitSeparator hsep, hdue]
          split <;> rfl
        cases hused : taken ++ r.used with
        | nil =>
          simp only [hused] at hbody hcanon ⊢
          obtain ⟨rfl, hnil⟩ := List.append_eq_nil_iff.1 hused
          obtain ⟨here, hhere, hbare⟩ := hbody 0 r.captures behind r rfl hitem rfl (by simp [hnil])
          refine ⟨(if index = 0 then [] else separator.toList) ++ here ++ [], ?_, ?_⟩
          · rw [Nat.add_zero] at hhere
            rw [List.length_singleton, writeRounds, hhere]
            rfl
          · rw [List.append_nil, List.map_append, htaken, hbare, hnil, List.map_nil, List.append_nil]
        | cons u us =>
          simp only [hused] at hbody hcanon ⊢
          rw [← hused] at hcanon ⊢
          have hcanon' : ∀ t ∈ r.used, t.Canonical := fun t ht =>
            hcanon t (List.mem_append_left _ (List.mem_append_right _ ht))
          obtain ⟨here, hhere, hbare⟩ := hbody 0 r.captures behind r rfl hitem rfl hcanon'
          have hnext : ∀ k c us r', (readRounds item separator most separator r.rest).items[k]?
              = some c → item us = some r' → r'.captures = c → (∀ t ∈ r'.used, t.Canonical) →
              ∃ out, body (index + 1 + k) = .ok out ∧
                out.map Token.bare = r'.used.map Token.bare := by
            intro k c us r' hk hr hc hcan
            have hindex : index + (k + 1) = index + 1 + k := by omega
            rw [← hindex]
            exact hbody (k + 1) c us r' hk hr hc hcan
          obtain ⟨rest, hrest, hbareRest⟩ := ih (if_neg (Nat.succ_ne_zero index)).symm hnext
            fun t ht => hcanon t (List.mem_append_right _ ht)
          refine ⟨(if index = 0 then [] else separator.toList) ++ here ++ rest, ?_, ?_⟩
          · rw [Nat.add_zero] at hhere
            rw [List.length_cons, writeRounds, hhere]
            simp only [hrest, Except.map]
          · rw [List.map_append, List.map_append, htaken, hbare, hbareRest, List.map_append,
              List.map_append]

/-! ## Writing -/

theorem Template.restores_nil : Template.Restores captures path [] [] := ⟨[], rfl, rfl⟩

theorem Template.restores_singleton {node : TemplateNode} {out used : List Token}
    (h : node.write captures path = .ok out) (hbare : out.map Token.bare = used.map Token.bare) :
    Template.Restores captures path [node] used := by
  refine ⟨out, ?_, hbare⟩
  rw [Template.write, h, Template.write]
  simp [Except.map]

theorem Template.Restores.append {t u : Template} {used used' : List Token}
    (ht : t.Restores captures path used) (hu : u.Restores captures path used') :
    Template.Restores captures path (t ++ u) (used ++ used') := by
  induction t generalizing used with
  | nil =>
    obtain ⟨_, ⟨⟩, hbare⟩ := ht
    obtain ⟨out, hout, hbare'⟩ := hu
    refine ⟨out, hout, ?_⟩
    rw [List.map_append, ← hbare, hbare']
    rfl
  | cons node nodes ih =>
    obtain ⟨out, hout, hbare⟩ := ht
    rw [Template.write] at hout
    split at hout
    · cases hout
    · next here hhere =>
      obtain ⟨rest, hrest, rfl⟩ := map_eq_ok_iff.1 hout
      obtain ⟨all, hall, hbareAll⟩ := ih ⟨rest, hrest, rfl⟩
      refine ⟨here ++ all, ?_, ?_⟩
      · rw [List.cons_append, Template.write, hhere]
        simp only [hall, Except.map]
      · rw [List.map_append, hbareAll, List.map_append, ← List.append_assoc, ← List.map_append,
          hbare, List.map_append]

theorem restores_hole {name : String} {position : Position} {tokens : List Token} {c : Captured}
    (hc : captures.find? name = some c) (halong : c.along path = some (.once tokens)) :
    Template.Restores captures path [.hole name position] tokens := by
  refine Template.restores_singleton ?_ rfl
  rw [TemplateNode.write, writeHole, valueOf_eq_ok hc]
  simp only [halong]

mutual

theorem PatternNode.restores : ∀ (node : PatternNode) {ts : List Token} {r : Reading}
    {path : List Nat}, node.WellNamed → node.Mirrorable → node.read ts = some r →
    captures.AgreeAt path (node.slots 0) r.captures → (∀ t ∈ r.used, t.Canonical) →
    Template.Restores captures path node.mirror r.used
  | .literal literal, ts, r, path, _, _, h, _, _ => by
    obtain ⟨t, rest, -, hsame, rfl⟩ := read_literal_eq_some.1 h
    refine Template.restores_singleton rfl ?_
    simp [Token.same_iff.1 hsame]
  | .escape escape, ts, r, path, _, _, h, _, hcanon => by
    obtain ⟨t, rest, -, hkind, rfl⟩ := read_escape_eq_some.1 h
    have hsame := hcanon t List.mem_cons_self escape hkind
    refine Template.restores_singleton rfl ?_
    simp [Token.same_iff.1 hsame]
  | .capture name fragment position, ts, r, path, _, _, h, hagree, _ => by
    obtain ⟨taken, rest, -, rfl⟩ := read_capture_eq_some.1 h
    have hvalue := hagree ⟨name, 0⟩ List.mem_cons_self
    rw [Table.find?_insert_self] at hvalue
    obtain ⟨c, hc, halong⟩ := Option.bind_eq_some_iff.1 hvalue
    exact restores_hole hc halong
  | .repetition inner separator q, ts, r, path, hnamed, hm, h, hagree, hcanon => by
    rw [PatternNode.WellNamed] at hnamed
    rw [PatternNode.Mirrorable] at hm
    rw [PatternNode.slots, Pattern.slots_eq_map] at hagree
    rw [PatternNode.read] at h
    obtain ⟨-, rfl⟩ := readRepetition_eq_some.1 h
    obtain ⟨out, hout, hbare⟩ := writeRounds_readRounds (fun us => Pattern.read inner us)
      (fun index => Template.write captures (Pattern.mirror inner) (path ++ [index])) rfl
      (fun k c us found hk hfound hc hcan => by
        subst hc
        rw [Nat.zero_add]
        have hround := hagree.round hnamed.nodup hk (Pattern.read_binds inner hnamed hfound)
        exact Pattern.restores inner hnamed hm.2 hfound hround hcan)
      hcanon
    refine Template.restores_singleton ?_ hbare
    rw [TemplateNode.write, hagree.roundCount hm.2 hm.1 hnamed]
    exact hout
  | .choice _ _, _, _, _, _, hm, _, _, _ => hm.elim
  | .lookahead inner, ts, r, path, _, _, h, _, _ => by
    obtain ⟨-, rfl⟩ := read_lookahead_eq_some.1 h
    exact Template.restores_nil

/-- A mirror writes back what its pattern has read, at every path where the captures agree. -/
theorem Pattern.restores : ∀ (p : Pattern) {ts : List Token} {r : Reading} {path : List Nat},
    Pattern.WellNamed p → Pattern.Mirrorable p → Pattern.read p ts = some r →
    captures.AgreeAt path (Pattern.slots 0 p) r.captures → (∀ t ∈ r.used, t.Canonical) →
    Template.Restores captures path (Pattern.mirror p) r.used
  | [], _, _, _, _, _, h, _, _ => by
    cases h
    exact Template.restores_nil
  | node :: nodes, ts, r, path, hnamed, hm, h, hagree, hcanon => by
    rw [Pattern.WellNamed] at hnamed
    obtain ⟨hnode, hnodes, hnodup⟩ := hnamed
    rw [Pattern.Mirrorable] at hm
    obtain ⟨first, second, hfirst, hsecond, rfl⟩ := Pattern.read_cons_eq_some.1 h
    rw [Pattern.slots] at hagree hnodup
    have hbinds := Pattern.read_binds nodes hnodes hsecond
    have hrestoreFirst := PatternNode.restores node hnode hm.1 hfirst
      (hagree.left hbinds hnodup) fun t ht => hcanon t (List.mem_append_left _ ht)
    have hrestoreSecond := Pattern.restores nodes hnodes hm.2 hsecond
      (hagree.right hbinds) fun t ht => hcanon t (List.mem_append_right _ ht)
    exact hrestoreFirst.append hrestoreSecond

end

/-! ## Rules -/

/-- The mirror of a pattern fits it. -/
theorem Pattern.exists_mirror_rule {p : Pattern} (hdepths : p.depths = .ok declared)
    (hm : p.Mirrorable) : ∃ rule, Rule.make p p.mirror = .ok rule := by
  obtain ⟨hentries, hnamed⟩ := Pattern.depths_eq_ok hdepths
  have hnodup : declared.names.Nodup := by
    rw [Table.names, hentries, List.map_map]
    exact hnamed.nodup
  have hfit : Rule.fit p p.mirror = .ok () := by
    rw [Rule.fit, hdepths]
    refine Pattern.mirror_fit p hm fun s hs => ?_
    rw [Table.find?_eq_some_iff hnodup, hentries]
    exact List.mem_map_of_mem hs
  exact ⟨⟨p, p.mirror, hfit⟩, Rule.make_eq_ok_iff.2 ⟨rfl, rfl⟩⟩

/-- A pattern without choices makes a rule with its mirror, and that rule writes every stream that
its pattern takes as it was. -/
theorem Pattern.fill_mirror {p : Pattern} (hdepths : p.depths = .ok declared)
    (hm : p.Mirrorable) :
    (∃ rule, Rule.make p p.mirror = .ok rule) ∧
      ∀ ts captures, (∀ t ∈ ts, t.Canonical) → p.readWhole ts = some captures →
        ∃ out, p.mirror.fill captures = .ok out ∧ sameTokens out ts = true := by
  refine ⟨Pattern.exists_mirror_rule hdepths hm, fun ts captures hcanon hread => ?_⟩
  have hagree : captures.AgreeAt [] (Pattern.slots 0 p) captures := by
    intro s _
    cases captures.find? s.name <;> simp
  obtain ⟨out, hout, hbare⟩ := Pattern.restores p (Pattern.depths_eq_ok hdepths).2 hm
    (read_of_readWhole hread) hagree hcanon
  exact ⟨out, hout, sameTokens_iff.2 hbare⟩

/-! ## A list of lists -/

/-- `$( $name:name [ $( $item:tt ),* ] $[! end] $^ )+` -/
def rowsPattern : Pattern :=
  [.repetition [.capture "name" .name {}, .literal ⟨.opener, "[", {}⟩,
    .repetition [.capture "item" .tree {}] (some ⟨.operator, ",", {}⟩) .any,
    .literal ⟨.closer, "]", {}⟩, .lookahead [.literal ⟨.name, "end", {}⟩],
    .escape .newline] none .atLeastOne]

/-- The stream `a [ 1 , 2 ]`, a newline, `b [ ]`, and a newline. -/
def rows : List Token :=
  [⟨.name, "a", {}⟩, ⟨.opener, "[", {}⟩, ⟨.number, "1", {}⟩, ⟨.operator, ",", {}⟩,
    ⟨.number, "2", {}⟩, ⟨.closer, "]", {}⟩, ⟨.newline, "\n", {}⟩, ⟨.name, "b", {}⟩,
    ⟨.opener, "[", {}⟩, ⟨.closer, "]", {}⟩, ⟨.newline, "\n", {}⟩]

theorem fill_mirror_rows : rowsPattern.Mirrorable ∧
    (∃ rule, Rule.make rowsPattern rowsPattern.mirror = .ok rule) ∧
      ∃ captures, rowsPattern.readWhole rows = some captures ∧
        ∃ out, rowsPattern.mirror.fill captures = .ok out ∧ sameTokens out rows = true := by
  have hdepths : rowsPattern.depths = .ok ⟨[("name", 1), ("item", 2)]⟩ := rfl
  have hm : rowsPattern.Mirrorable := by
    simp [rowsPattern, Pattern.Mirrorable, PatternNode.Mirrorable, Pattern.slots,
      PatternNode.slots]
  have hcanon : ∀ t ∈ rows, t.Canonical := by decide
  have hread : (rowsPattern.readWhole rows).isSome = true := by decide
  obtain ⟨captures, hcaptures⟩ := Option.isSome_iff_exists.1 hread
  obtain ⟨hrule, hfill⟩ := Pattern.fill_mirror hdepths hm
  exact ⟨hm, hrule, captures, hcaptures, hfill rows captures hcanon hcaptures⟩

end TokenMacros

import TokenMacros.Proofs.Rule.Soundness

/-!
# Filling by substitution

A template can be filled without paths: each round of a repetition is written from values
of its own, in which every capture that repeats is cut down to that round. Filling along
paths comes to the same, in tokens and in faults, for all captures whatever:

    t.fill captures = t.substitute 0 captures.find?        (Template.fill_eq_substitute)

What the induction over the template carries is `Captures.SeenAs`: at the path of a round,
a capture has the value that the round sees.
-/

namespace TokenMacros

/-! ## Algorithm -/

mutual

/-- A node, and the nodes inside it. -/
def TemplateNode.nodes : TemplateNode → List TemplateNode
  | .repetition inner separator => .repetition inner separator :: Template.nodes inner
  | node => [node]

/-- All nodes of a template, in the order of its text. -/
def Template.nodes : Template → List TemplateNode
  | [] => []
  | node :: nodes => node.nodes ++ Template.nodes nodes

end

/-- Name and position of a hole. -/
def TemplateNode.hole? : TemplateNode → Option (String × Position)
  | .hole name position => some (name, position)
  | _ => none

/-- The holes among all nodes of a template. -/
def Template.allHoles (t : Template) : List (String × Position) :=
  (Template.nodes t).filterMap TemplateNode.hole?

/-- The values that one round of the repetitions around sees. -/
abbrev Values := String → Option Captured

namespace Values

/-- The values in a round of a repetition of these names: of those that repeat, the one of that
round. -/
def round (values : Values) (names : List String) (index : Nat) : Values := fun name =>
  match values name with
  | some (.each rounds) => if name ∈ names then rounds[index]? else some (.each rounds)
  | value => value

/-- The count of the first hole whose value repeats, and its name. -/
def firstCount (values : Values) (holes : List (String × Position)) : Option (Nat × String) :=
  holes.findSome? fun hole =>
    ((values hole.1).bind Captured.count?).map fun count => (count, hole.1)

/-- What is wrong with a hole in a repetition where `first` is the first that repeats: it has no
value, or one that repeats otherwise. -/
def holeFault (values : Values) (first : Option (Nat × String)) (hole : String × Position) :
    Option Fault :=
  match values hole.1 with
  | none => some ⟨.unknownCapture hole.1, hole.2⟩
  | some (.once _) => none
  | some (.each rounds) =>
    match first with
    | none => none
    | some (count, name) =>
      if count = rounds.length then none
      else some ⟨.count (.differ name count hole.1 rounds.length), hole.2⟩

/-- The count that all holes have whose values repeat; there has to be one. -/
def commonCount (values : Values) (holes : List (String × Position)) : Except Fault Nat :=
  match holes.findSome? (values.holeFault (values.firstCount holes)), values.firstCount holes with
  | some fault, _ => .error fault
  | none, some (count, _) => .ok count
  | none, none => .error ⟨.count .nothingRepeats, (holes.head?.map Prod.snd).getD {}⟩

end Values

mutual

/-- Writes a node, which stands in `depth` repetitions, from the values there. -/
def TemplateNode.substitute : TemplateNode → Nat → Values → Except Fault (List Token)
  | .literal token, _, _ => .ok [token]
  | .escape escape, _, _ => .ok [escape.token {}]
  | .hole name position, depth, values =>
    match values name with
    | none => .error ⟨.unknownCapture name, position⟩
    | some (.once tokens) => .ok tokens
    | some (.each rounds) =>
      .error ⟨.stillRepeating name (depth + (Captured.each rounds).levels) depth, position⟩
  | .repetition inner separator, depth, values =>
    match values.commonCount (Template.allHoles inner) with
    | .error e => .error e
    | .ok count =>
      ((List.range count).mapM fun index => Template.substitute inner (depth + 1)
        (values.round ((Template.allHoles inner).map Prod.fst) index)).map
          (List.intercalate separator.toList)

/-- Writes nodes, which stand in `depth` repetitions, from left to right. -/
def Template.substitute : Template → Nat → Values → Except Fault (List Token)
  | [], _, _ => .ok []
  | node :: nodes, depth, values =>
    match node.substitute depth values with
    | .error e => .error e
    | .ok here => (Template.substitute nodes depth values).map (here ++ ·)

end

/-- At the path, the capture has the value that is seen under its name; or there is no such capture,
and nothing is seen. -/
def Captures.SeenAs (captures : Captures) (path : List Nat) (values : Values) (name : String) :
    Prop :=
  (captures.find? name = none ∧ values name = none) ∨
    ∃ c value, captures.find? name = some c ∧ c.along path = some value ∧
      values name = some value

variable {captures : Captures} {path : List Nat} {values : Values}
  {holes : List (String × Position)}

/-! ## Counting -/

mutual

theorem TemplateNode.holes_eq : ∀ node : TemplateNode,
    node.holes = node.nodes.filterMap TemplateNode.hole?
  | .literal _ | .escape _ | .hole _ _ => rfl
  | .repetition inner _ => Template.holes_eq inner

/-- The holes that are counted are those among all nodes. -/
theorem Template.holes_eq : ∀ t : Template, t.holes = Template.allHoles t
  | [] => rfl
  | node :: nodes => by
    rw [Template.holes, TemplateNode.holes_eq node, Template.holes_eq nodes, Template.allHoles,
      Template.allHoles, Template.nodes, List.filterMap_append]

end

/-- The holes are looked through for their count as for their faults, whatever count was found
before them. -/
theorem agreedCount_eq (hseen : ∀ hole ∈ holes, captures.SeenAs path values hole.1)
    (found : Option (Nat × String)) : agreedCount captures path found holes =
      match holes.findSome? (values.holeFault (found.or (values.firstCount holes))) with
      | some fault => .error fault
      | none => .ok (found.or (values.firstCount holes)) := by
  induction holes generalizing found with
  | nil => cases found <;> rfl
  | cons hole holes ih =>
    obtain ⟨name, position⟩ := hole
    rw [List.forall_mem_cons] at hseen
    obtain ⟨hhole, hholes⟩ := hseen
    rw [agreedCount, Values.firstCount, List.findSome?_cons, List.findSome?_cons]
    rcases hhole with ⟨hnone, hvalue⟩ | ⟨c, value, hc, halong, hvalue⟩
    · simp only [valueOf, hnone, hvalue, Values.holeFault]
    · simp only at hvalue
      simp only [valueOf_eq_ok hc, halong, hvalue, Option.bind_some, Values.holeFault]
      cases value with
      | once tokens => exact ih hholes found
      | each rounds =>
        cases found with
        | none => simp [Captured.count?, ih hholes]
        | some first =>
          obtain ⟨count, first⟩ := first
          simp only [Captured.count?, Option.map_some, Option.some_or]
          split
          · exact ih hholes _
          · rfl

/-- A repetition has the count that its holes have in common. -/
theorem roundCount_eq {inner : Template}
    (hseen : ∀ hole ∈ inner.holes, captures.SeenAs path values hole.1) :
    roundCount captures path inner = values.commonCount inner.holes := by
  rw [roundCount, agreedCount_eq hseen, Values.commonCount, Option.none_or]
  cases inner.holes.findSome? (values.holeFault (values.firstCount inner.holes)) with
  | some fault => rfl
  | none =>
    cases values.firstCount inner.holes with
    | none => rfl
    | some first => rfl

/-- Where the holes have a common count, every one has a value, and a value that repeats has so many
rounds. -/
theorem Values.value_of_commonCount {count : Nat} (h : values.commonCount holes = .ok count)
    {hole : String × Position} (hmem : hole ∈ holes) :
    ∃ value, values hole.1 = some value ∧
      ∀ rounds, value = .each rounds → rounds.length = count := by
  rw [Values.commonCount] at h
  split at h
  · cases h
  · next hnone hfirst =>
    cases h
    have hfault := List.findSome?_eq_none_iff.1 hnone hole hmem
    rw [hfirst] at hfault
    cases hvalue : values hole.1 with
    | none => simp [Values.holeFault, hvalue] at hfault
    | some value =>
      refine ⟨value, rfl, ?_⟩
      rintro rounds rfl
      by_contra hne
      simp [Values.holeFault, hvalue, Ne.symm hne] at hfault
  · cases h

/-! ## Rounds -/

/-- The next round sees a capture as the path that leads into it does. -/
theorem Captures.SeenAs.round {names : List String} {name : String} {value : Captured}
    {index count : Nat} (hseen : captures.SeenAs path values name) (hname : name ∈ names)
    (hvalue : values name = some value)
    (hcount : ∀ rounds, value = .each rounds → rounds.length = count) (hindex : index < count) :
    captures.SeenAs (path ++ [index]) (values.round names index) name := by
  rcases hseen with ⟨-, hnone⟩ | ⟨c, value', hc, halong, hvalue'⟩
  · rw [hnone] at hvalue
    cases hvalue
  · rw [hvalue] at hvalue'
    cases hvalue'
    have hstep : c.along (path ++ [index]) = value.along [index] := by
      rw [Captured.along_append, halong, Option.bind_some]
    cases value with
    | once tokens =>
      rw [Captured.along_once] at hstep
      exact Or.inr ⟨c, _, hc, hstep, by rw [Values.round, hvalue]⟩
    | each rounds =>
      rw [Captured.along_each_singleton] at hstep
      have hlt : index < rounds.length := by rwa [hcount rounds rfl]
      rw [List.getElem?_eq_getElem hlt] at hstep
      refine Or.inr ⟨c, _, hc, hstep, ?_⟩
      rw [Values.round, hvalue]
      simp only [if_pos hname, List.getElem?_eq_getElem hlt]

/-- Behind the first piece, each has the separator in front. -/
theorem intercalate_cons (separator piece : List Token) (pieces : List (List Token)) :
    separator.intercalate (piece :: pieces) = piece ++ pieces.flatMap (separator ++ ·) := by
  induction pieces generalizing piece with
  | nil => simp
  | cons next pieces ih =>
    rw [List.intercalate_cons_cons, ih, List.flatMap_cons]
    simp only [List.append_assoc]

/-- The rounds behind the first have the separator in front of each. -/
theorem writeRounds_succ_eq (body : Nat → Except Fault (List Token)) (separator : Option Token)
    (index left : Nat) : writeRounds body separator (index + 1) left =
      ((List.range' (index + 1) left).mapM body).map fun pieces =>
        pieces.flatMap (separator.toList ++ ·) := by
  induction left generalizing index with
  | zero => rfl
  | succ left ih =>
    rw [writeRounds, List.range'_succ, List.mapM_cons]
    cases body (index + 1) with
    | error e => rfl
    | ok here =>
      rw [ih]
      cases (List.range' (index + 1 + 1) left).mapM body with
      | error e => rfl
      | ok pieces => rfl

/-- The rounds are the pieces with the separator between two of them. -/
theorem writeRounds_eq (body : Nat → Except Fault (List Token)) (separator : Option Token)
    (count : Nat) : writeRounds body separator 0 count =
      ((List.range count).mapM body).map (List.intercalate separator.toList) := by
  cases count with
  | zero => rfl
  | succ left =>
    rw [List.range_eq_range', writeRounds, List.range'_succ, List.mapM_cons, Nat.zero_add,
      writeRounds_succ_eq body separator 0]
    cases body 0 with
    | error e => rfl
    | ok here =>
      cases (List.range' 1 left).mapM body with
      | error e => rfl
      | ok pieces => exact congrArg Except.ok (intercalate_cons _ here pieces).symm

/-- Bodies that write the same rounds make the same row. -/
theorem mapM_congr {body body' : Nat → Except Fault (List Token)} {indexes : List Nat}
    (h : ∀ index ∈ indexes, body index = body' index) :
    indexes.mapM body = indexes.mapM body' := by
  induction indexes with
  | nil => rfl
  | cons index indexes ih =>
    rw [List.forall_mem_cons] at h
    rw [List.mapM_cons, List.mapM_cons, h.1, ih h.2]

/-! ## Writing -/

theorem writeHole_eq {name : String} (hseen : captures.SeenAs path values name)
    (position : Position) : writeHole captures path name position =
      (TemplateNode.hole name position).substitute path.length values := by
  rw [writeHole, TemplateNode.substitute]
  rcases hseen with ⟨hnone, hvalue⟩ | ⟨c, value, hc, halong, hvalue⟩
  · simp only [valueOf, hnone, hvalue]
  · rw [valueOf_eq_ok hc, hvalue]
    simp only [halong]
    cases value <;> rfl

mutual

theorem TemplateNode.write_eq : ∀ (node : TemplateNode) {path : List Nat} {values : Values},
    (∀ hole ∈ node.holes, captures.SeenAs path values hole.1) →
    node.write captures path = node.substitute path.length values
  | .literal _, _, _, _ => rfl
  | .escape _, _, _, _ => rfl
  | .hole name position, _, _, h => writeHole_eq (h (name, position) List.mem_cons_self) position
  | .repetition inner separator, path, values, h => by
    rw [TemplateNode.write, TemplateNode.substitute, roundCount_eq h, ← Template.holes_eq inner]
    cases hcommon : values.commonCount (Template.holes inner) with
    | error e => rfl
    | ok count =>
      simp only
      rw [writeRounds_eq]
      congr 1
      refine mapM_congr fun index hindex => ?_
      rw [Template.write_eq inner, List.length_append, List.length_singleton]
      intro hole hmem
      obtain ⟨value, hvalue, hcount⟩ := Values.value_of_commonCount hcommon hmem
      exact (h hole hmem).round (List.mem_map_of_mem hmem) hvalue hcount
        (List.mem_range.1 hindex)

/-- At a path that leads to what the values show, writing is substituting. -/
theorem Template.write_eq : ∀ (t : Template) {path : List Nat} {values : Values},
    (∀ hole ∈ t.holes, captures.SeenAs path values hole.1) →
    t.write captures path = t.substitute path.length values
  | [], _, _, _ => rfl
  | node :: nodes, path, values, h => by
    rw [Template.holes, List.forall_mem_append] at h
    rw [Template.write, TemplateNode.write_eq node h.1, Template.write_eq nodes h.2]
    rfl

end

/-- Filling a template along paths is substituting the values of each round. -/
theorem Template.fill_eq_substitute (t : Template) (captures : Captures) :
    t.fill captures = t.substitute 0 captures.find? := by
  refine Template.write_eq t fun hole _ => ?_
  cases hfind : captures.find? hole.1 with
  | none => exact Or.inl ⟨hfind, hfind⟩
  | some c => exact Or.inr ⟨c, c, hfind, Captured.along_nil c, hfind⟩

/-- `$($row $($row $x),*);*`: `$row` repeats in the outer rounds only, and stands for all the inner
ones of its round. -/
example (f g a b c comma semicolon : Token) :
    Template.substitute
      [.repetition
        [.hole "row" {}, .repetition [.hole "row" {}, .hole "x" {}] (some comma)]
        (some semicolon)]
      0
      (Table.find? ⟨[("row", .each [.once [f], .once [g]]),
        ("x", .each [.each [.once [a], .once [b]], .each [.once [c]]])]⟩) =
    .ok [f, f, a, comma, f, b, semicolon, g, g, c] := rfl

end TokenMacros

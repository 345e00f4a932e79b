import TokenMacros.Expansion.Rules
import TokenMacros.Proofs.Position.Spelling

/-!
# Positions in rules that are applied

Rules that agree up to positions do to streams that agree what agrees again: they match or
not, capture, and write or fail alike.

    (bare p).read (bare ts) = bare (p.read ts)             (Pattern.read_bare)
    (bare t).fill (bare captures) = bare (t.fill captures) (template_fill_bare)
    applyRules (bare rules) (bare ts) = bare (applyRules rules ts)
                                                           (applyRules_bare)
-/

namespace TokenMacros

/-! ## Tables -/

section tables

variable {α : Type} [Placed α]

theorem find?_bare (t : Table α) (name : String) : (bare t).find? name = bare (t.find? name) := by
  obtain ⟨entries⟩ := t
  show Table.lookup name (entries.map _) = bare (Table.lookup name entries)
  induction entries with
  | nil => rfl
  | cons e entries ih =>
    rw [List.map_cons, Table.lookup, Table.lookup, ih, bare_ite]
    rfl

theorem insert_bare (t : Table α) (name : String) (value : α) :
    (bare t).insert name (bare value) = bare (t.insert name value) := by
  obtain ⟨entries⟩ := t
  refine congrArg Table.mk ?_
  show Table.put name (bare value) (entries.map _) = (Table.put name value entries).map _
  induction entries with
  | nil => rfl
  | cons e entries ih =>
    rw [List.map_cons, Table.put, Table.put, ih]
    split <;> rfl

theorem erase_bare (t : Table α) (name : String) : (bare t).erase name = bare (t.erase name) := by
  obtain ⟨entries⟩ := t
  refine congrArg Table.mk ?_
  show (entries.map _).filter _ = (entries.filter _).map _
  rw [List.filter_map]
  rfl

theorem merge_bare (t u : Table α) : (bare t).merge (bare u) = bare (t.merge u) := by
  obtain ⟨entries⟩ := u
  show (entries.map _).foldl _ (bare t) = bare (entries.foldl _ t)
  induction entries generalizing t with
  | nil => rfl
  | cons e entries ih =>
    rw [List.map_cons, List.foldl_cons, List.foldl_cons, insert_bare, ih]

end tables

/-! ## Captured values -/

mutual

/-- The value without positions. -/
def Captured.bare : Captured → Captured
  | .once tokens => .once (Placed.bare tokens)
  | .each rounds => .each (Captured.bareEach rounds)

/-- The values without positions. -/
def Captured.bareEach : List Captured → List Captured
  | [] => []
  | c :: cs => c.bare :: Captured.bareEach cs

end

instance : Placed Captured := ⟨Captured.bare⟩

@[simp] theorem bare_each (rounds : List Captured) :
    bare (Captured.each rounds) = .each (bare rounds) := by
  show Captured.each (Captured.bareEach rounds) = _
  congr 1
  induction rounds with
  | nil => rfl
  | cons c cs ih => rw [Captured.bareEach, ih]; rfl

theorem bare_unreached (depth : Nat) : bare (Captured.unreached depth) = .unreached depth := by
  cases depth <;> rfl

theorem along_bare (c : Captured) (path : List Nat) :
    (bare c).along path = bare (c.along path) := by
  induction path generalizing c with
  | nil => rw [Captured.along_nil, Captured.along_nil]; rfl
  | cons i path ih =>
    cases c with
    | once tokens => rfl
    | each rounds =>
      rw [bare_each, Captured.along, Captured.along]
      have hget : (bare rounds)[i]? = bare rounds[i]? := List.getElem?_map
      rw [hget]
      cases rounds[i]? with
      | none => rfl
      | some c => exact ih c

theorem count?_bare (c : Captured) : (bare c).count? = c.count? := by
  cases c with
  | once tokens => rfl
  | each rounds => rw [bare_each, Captured.count?, length_bare, Captured.count?]

theorem levels_bare : ∀ c : Captured, (bare c).levels = c.levels
  | .once tokens => rfl
  | .each [] => rfl
  | .each (c :: cs) => by
    rw [bare_each, bare_cons, Captured.levels, Captured.levels, levels_bare c]

/-! ## Reading -/

instance : Placed Reading := ⟨fun r => ⟨bare r.captures, bare r.used, bare r.rest⟩⟩
instance : Placed Rounds := ⟨fun r => ⟨bare r.items, bare r.used, bare r.rest⟩⟩

@[simp] theorem captures_bare (r : Reading) : (bare r).captures = bare r.captures := rfl
@[simp] theorem used_bare (r : Reading) : (bare r).used = bare r.used := rfl
@[simp] theorem rest_bare (r : Reading) : (bare r).rest = bare r.rest := rfl
@[simp] theorem items_bare (r : Rounds) : (bare r).items = bare r.items := rfl

theorem accepts_bare (f : Fragment) (t : Token) : f.accepts (bare t) = f.accepts t := by
  cases f <;> rfl

theorem take_bare (f : Fragment) (ts : List Token) : f.take (bare ts) = bare (f.take ts) := by
  cases f with
  | null => rfl
  | tree =>
    rw [Fragment.take, splitTree_bare, Fragment.take]
    cases splitTree ts <;> rfl
  | token | name | operator | number | string =>
    cases ts with
    | nil => rfl
    | cons t ts =>
      simp only [bare_cons, Fragment.take, accepts_bare, bare_ite]
      rfl

theorem splitSeparator_bare (due : Option Token) (ts : List Token) :
    splitSeparator (bare due) (bare ts) = bare (splitSeparator due ts) := by
  match due, ts with
  | none, _ | some _, [] => rfl
  | some separator, t :: ts =>
    simp only [bare_some, bare_cons, splitSeparator, same_bare, bare_ite]
    rfl

theorem gather_bare (slots : List Slot) (items : List Captures) (out : Captures) :
    gather slots (bare items) (bare out) = bare (gather slots items out) := by
  induction slots generalizing items out with
  | nil => rfl
  | cons s slots ih =>
    have herase : (bare items).map (·.erase s.name) = bare (items.map (·.erase s.name)) := by
      show (items.map bare).map _ = (items.map _).map bare
      rw [List.map_map, List.map_map]
      exact List.map_congr_left fun c _ => erase_bare c s.name
    have hvalues : (bare items).map (fun c => (c.find? s.name).getD (.unreached s.depth)) =
        bare (items.map fun c => (c.find? s.name).getD (.unreached s.depth)) := by
      show (items.map bare).map _ = (items.map _).map bare
      rw [List.map_map, List.map_map]
      refine List.map_congr_left fun c _ => ?_
      show ((bare c).find? s.name).getD _ = bare ((c.find? s.name).getD _)
      rw [find?_bare]
      cases c.find? s.name with
      | none => exact (bare_unreached s.depth).symm
      | some value => rfl
    rw [gather, gather, herase, hvalues, ← bare_each, insert_bare, ih]

section repetitions

variable {item item' : Reader} (hitem : ∀ ts, item' (bare ts) = bare (item ts))

include hitem

theorem readRounds_bare (separator : Option Token) (most : Nat) (due : Option Token)
    (ts : List Token) : readRounds item' (bare separator) most (bare due) (bare ts) =
      bare (readRounds item separator most due ts) := by
  induction most generalizing due ts with
  | zero => rfl
  | succ most ih =>
    rw [readRounds, readRounds, splitSeparator_bare]
    cases splitSeparator due ts with
    | none => rfl
    | some found =>
      obtain ⟨taken, behind⟩ := found
      simp only [bare_some, bare_mk, hitem]
      cases item behind with
      | none => rfl
      | some r =>
        simp only [bare_some, used_bare, ← bare_append]
        cases taken ++ r.used with
        | nil => rfl
        | cons u us =>
          simp only [bare_cons, rest_bare, captures_bare, ih separator r.rest]
          exact congrArg (fun used => Rounds.mk _ used _) (bare_append (u :: us) _).symm

theorem readRepetition_bare (slots : List Slot) (separator : Option Token) (q : Quantifier)
    (ts : List Token) : readRepetition item' slots (bare separator) q (bare ts) =
      bare (readRepetition item slots separator q ts) := by
  have hrounds := readRounds_bare hitem separator (q.most ts) none ts
  have hmost : q.most (bare ts) = q.most ts := by
    cases q with
    | optional => rfl
    | any | atLeastOne => exact congrArg (· + 1) (length_bare ts)
  rw [bare_none] at hrounds
  simp only [readRepetition, hmost, hrounds, items_bare, length_bare, bare_ite]
  congr 1
  exact congrArg (fun captures => some (Reading.mk captures _ _))
    (gather_bare slots (readRounds item separator (q.most ts) none ts).items ∅)

end repetitions

mutual

theorem PatternNode.slots_bare : ∀ (depth : Nat) (node : PatternNode),
    (bare node).slots depth = node.slots depth
  | depth, .literal _ | depth, .escape _ | depth, .capture _ _ _ => rfl
  | depth, .lookahead _ => rfl
  | depth, .repetition inner separator q => by
    rw [bare_repetition, PatternNode.slots, PatternNode.slots, Pattern.slots_bare]
  | depth, .choice variants position => by
    rw [bare_choice, PatternNode.slots, PatternNode.slots, Pattern.slotsOfFirst_bare]

theorem Pattern.slots_bare : ∀ (depth : Nat) (p : Pattern),
    Pattern.slots depth (bare p) = Pattern.slots depth p
  | depth, [] => rfl
  | depth, node :: nodes => by
    rw [bare_cons, Pattern.slots, Pattern.slots, PatternNode.slots_bare, Pattern.slots_bare]

theorem Pattern.slotsOfFirst_bare : ∀ (depth : Nat) (variants : List Pattern),
    Pattern.slotsOfFirst depth (bare variants) = Pattern.slotsOfFirst depth variants
  | depth, [] => rfl
  | depth, variant :: _ => by
    rw [bare_cons, Pattern.slotsOfFirst, Pattern.slotsOfFirst, Pattern.slots_bare]

end

mutual

theorem PatternNode.read_bare : ∀ (node : PatternNode) (ts : List Token),
    (bare node).read (bare ts) = bare (node.read ts)
  | .literal literal, ts => by
    cases ts with
    | nil => rfl
    | cons t ts =>
      simp only [bare_literal, bare_cons, PatternNode.read, same_bare, bare_ite]
      rfl
  | .escape escape, ts => by
    cases ts with
    | nil => rfl
    | cons t ts =>
      simp only [bare_escape, bare_cons, PatternNode.read, kind_bare, bare_ite]
      rfl
  | .capture name fragment position, ts => by
    rw [bare_capture, PatternNode.read, PatternNode.read, take_bare]
    cases fragment.take ts <;> rfl
  | .repetition inner separator q, ts => by
    rw [bare_repetition, PatternNode.read, PatternNode.read, Pattern.slots_bare]
    exact readRepetition_bare (Pattern.read_bare inner) _ separator q ts
  | .choice variants position, ts => by
    rw [bare_choice, PatternNode.read, PatternNode.read]
    exact Pattern.readFirst_bare variants ts
  | .lookahead inner, ts => by
    rw [bare_lookahead, PatternNode.read, PatternNode.read, Pattern.read_bare inner ts]
    cases Pattern.read inner ts <;> rfl

/-- A pattern reads alike whatever the positions, its own and those of the stream. -/
theorem Pattern.read_bare : ∀ (p : Pattern) (ts : List Token),
    Pattern.read (bare p) (bare ts) = bare (Pattern.read p ts)
  | [], ts => rfl
  | node :: nodes, ts => by
    rw [bare_cons, Pattern.read, Pattern.read, PatternNode.read_bare]
    cases node.read ts with
    | none => rfl
    | some r =>
      simp only [bare_some, rest_bare, Pattern.read_bare]
      cases Pattern.read nodes r.rest with
      | none => rfl
      | some s =>
        simp only [bare_some, captures_bare, used_bare, rest_bare, merge_bare, ← bare_append]
        rfl

theorem Pattern.readFirst_bare : ∀ (variants : List Pattern) (ts : List Token),
    Pattern.readFirst (bare variants) (bare ts) = bare (Pattern.readFirst variants ts)
  | [], ts => rfl
  | variant :: variants, ts => by
    rw [bare_cons, Pattern.readFirst, Pattern.readFirst, Pattern.read_bare]
    cases Pattern.read variant ts with
    | some r => rfl
    | none => exact Pattern.readFirst_bare variants ts

end

instance : Placed Found := ⟨fun found => { found with captures := bare found.captures }⟩

theorem readAt_bare (p : Pattern) (ts : List Token) (start : Nat) :
    (bare p).readAt (bare ts) start = bare (p.readAt ts start) := by
  rw [Pattern.readAt, Pattern.readAt, drop_bare, Pattern.read_bare]
  cases p.read (ts.drop start) with
  | none => rfl
  | some r => exact congrArg (fun n => some (Found.mk _ (start + n))) (length_bare r.used)

theorem readWhole_bare (p : Pattern) (ts : List Token) :
    (bare p).readWhole (bare ts) = bare (p.readWhole ts) := by
  rw [Pattern.readWhole, Pattern.readWhole, Pattern.read_bare]
  match p.read ts with
  | none | some ⟨_, _, []⟩ | some ⟨_, _, _ :: _⟩ => rfl

/-! ## Filling -/

instance : Placed Position := ⟨fun _ => {}⟩

mutual

theorem TemplateNode.holes_bare : ∀ node : TemplateNode, (bare node).holes = bare node.holes
  | .literal _ | .escape _ | .hole _ _ => rfl
  | .repetition inner separator => by
    rw [bare_templateRepetition, TemplateNode.holes, TemplateNode.holes, Template.holes_bare]

theorem Template.holes_bare : ∀ t : Template, Template.holes (bare t) = bare (Template.holes t)
  | [] => rfl
  | node :: nodes => by
    rw [bare_cons, Template.holes, Template.holes, TemplateNode.holes_bare, Template.holes_bare,
      bare_append]

end

section captures

variable (captures : Captures) (path : List Nat)

theorem valueOf_bare (name : String) (position : Position) :
    valueOf (bare captures) name {} = bare (valueOf captures name position) := by
  rw [valueOf, valueOf, find?_bare]
  cases captures.find? name <;> rfl

theorem agreedCount_bare (count : Option (Nat × String)) (holes : List (String × Position)) :
    agreedCount (bare captures) path count (bare holes) =
      bare (agreedCount captures path count holes) := by
  induction holes generalizing count with
  | nil => cases count <;> rfl
  | cons hole holes ih =>
    obtain ⟨name, position⟩ := hole
    show agreedCount (bare captures) path count ((name, {}) :: bare holes) = _
    rw [agreedCount, agreedCount, valueOf_bare captures name position]
    cases valueOf captures name position with
    | error e => rfl
    | ok c =>
      have hcount : ((bare c).along path).bind Captured.count? =
          (c.along path).bind Captured.count? := by
        rw [along_bare]
        cases c.along path with
        | none => rfl
        | some c => exact count?_bare c
      simp only [bare_ok, hcount]
      cases (c.along path).bind Captured.count? with
      | none => exact ih count
      | some found =>
        cases count with
        | none => exact ih _
        | some first =>
          simp only [ih, bare_ite]
          rfl

theorem roundCount_bare (inner : Template) :
    roundCount (bare captures) path (bare inner) = bare (roundCount captures path inner) := by
  simp only [roundCount, Template.holes_bare, agreedCount_bare]
  match agreedCount captures path none inner.holes with
  | .error _ | .ok (some _) => rfl
  | .ok none => cases inner.holes <;> rfl

theorem writeHole_bare (name : String) (position : Position) :
    writeHole (bare captures) path name {} = bare (writeHole captures path name position) := by
  rw [writeHole, writeHole, valueOf_bare captures name position]
  cases valueOf captures name position with
  | error e => rfl
  | ok c =>
    simp only [bare_ok, along_bare]
    match c.along path with
    | none | some (.once _) => rfl
    | some (.each rounds) =>
      simp only [bare_some, bare_each]
      rw [← bare_each, levels_bare]
      rfl

end captures

theorem writeRounds_bare {body body' : Nat → Except Fault (List Token)}
    (hbody : ∀ index, body' index = bare (body index)) (separator : Option Token)
    (index left : Nat) : writeRounds body' (bare separator) index left =
      bare (writeRounds body separator index left) := by
  induction left generalizing index with
  | zero => rfl
  | succ left ih =>
    rw [writeRounds, writeRounds, hbody, ih]
    cases body index with
    | error e => rfl
    | ok here =>
      have hseparator : (if index = 0 then [] else (bare separator).toList) =
          bare (if index = 0 then [] else separator.toList) := by
        rw [bare_ite]
        cases separator <;> rfl
      simp only [bare_ok, hseparator, ← bare_append]
      exact map_bare (fun rest => (bare_append _ rest).symm) _

mutual

theorem TemplateNode.write_bare (captures : Captures) : ∀ (node : TemplateNode) (path : List Nat),
    (bare node).write (bare captures) path = bare (node.write captures path)
  | .literal token, path => rfl
  | .escape escape, path => by cases escape <;> rfl
  | .hole name position, path => writeHole_bare captures path name position
  | .repetition inner separator, path => by
    rw [bare_templateRepetition, TemplateNode.write, TemplateNode.write, roundCount_bare]
    cases roundCount captures path inner with
    | error e => rfl
    | ok count =>
      exact writeRounds_bare (fun index => Template.write_bare captures inner _) separator 0 count

/-- A template writes alike whatever the positions, its own and those of the captures. -/
theorem Template.write_bare (captures : Captures) : ∀ (t : Template) (path : List Nat),
    Template.write (bare captures) (bare t) path = bare (Template.write captures t path)
  | [], path => rfl
  | node :: nodes, path => by
    rw [bare_cons, Template.write, Template.write, TemplateNode.write_bare, Template.write_bare]
    cases node.write captures path with
    | error e => rfl
    | ok here => exact map_bare (fun rest => (bare_append here rest).symm) _

end

theorem template_fill_bare (t : Template) (captures : Captures) :
    Template.fill (bare t) (bare captures) = bare (t.fill captures) :=
  Template.write_bare captures t []

/-! ## Applying -/

instance : Placed HeadChange := ⟨fun change => { change with tokens := bare change.tokens }⟩

theorem applyRules_bare (rules : List Rule) (ts : List Token) :
    applyRules (bare rules) (bare ts) = bare (applyRules rules ts) := by
  induction rules with
  | nil => rfl
  | cons rule rules ih =>
    have hread : (bare rule).pattern.readWhole (bare ts) = bare (rule.pattern.readWhole ts) :=
      readWhole_bare rule.pattern ts
    have hfill : ∀ captures, (bare rule).template.fill (bare captures) =
        bare (rule.template.fill captures) := template_fill_bare rule.template
    rw [bare_cons, applyRules, applyRules, hread]
    cases rule.pattern.readWhole ts with
    | none => exact ih
    | some captures =>
      simp only [bare_some, hfill]
      cases rule.template.fill captures <;> rfl

theorem applyRulesToHead_bare (rules : List Rule) (ts : List Token) :
    applyRulesToHead (bare rules) (bare ts) = bare (applyRulesToHead rules ts) := by
  induction rules with
  | nil => rfl
  | cons rule rules ih =>
    have hread : (bare rule).pattern.readAt (bare ts) 0 = bare (rule.pattern.readAt ts 0) :=
      readAt_bare rule.pattern ts 0
    have hfill : ∀ captures, (bare rule).template.fill (bare captures) =
        bare (rule.template.fill captures) := template_fill_bare rule.template
    rw [bare_cons, applyRulesToHead, applyRulesToHead, hread]
    cases rule.pattern.readAt ts 0 with
    | none => exact ih
    | some found =>
      have hcaptures : (bare found).captures = bare found.captures := rfl
      simp only [bare_some, hcaptures, hfill]
      cases rule.template.fill found.captures <;> rfl

end TokenMacros

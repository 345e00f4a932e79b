import TokenMacros.Expansion.Rules
import TokenMacros.Proofs.Rule.Renaming

/-!
# Rules with renamed captures

Names tie the holes of a template to the captures of a pattern, and do nothing else. With
new names a pattern matches the same streams and captures the same values, under the new
names; a template writes the same from them.

    (rename r p).read ts = rename r (p.read ts)            (Pattern.read_rename)
    (rename r t).fill (rename r captures) =
      (t.fill captures).mapError (rename r)                (template_fill_rename)

A list of rules may then be renamed rule by rule, and changes what it changed before; only a
fault may name other captures (rules_invariant_of_renaming).
-/

namespace TokenMacros

/-! ## Reading -/

instance : Named Slot := ⟨fun r s => { s with name := r s.name }⟩
instance : Named Reading := ⟨fun r x => { x with captures := rename r x.captures }⟩
instance : Named Rounds := ⟨fun r x => { x with items := rename r x.items }⟩
instance : Named Found := ⟨fun r x => { x with captures := rename r x.captures }⟩

theorem gather_rename (r : Renaming) (slots : List Slot) (items : List Captures) (out : Captures) :
    gather (rename r slots) (rename r items) (rename r out) =
      rename r (gather slots items out) := by
  induction slots generalizing items out with
  | nil => rfl
  | cons s slots ih =>
    -- a slot looks up its own name in every round, and clears that name for the slots behind it
    have herase : (rename r items).map (·.erase (r s.name)) =
        rename r (items.map (·.erase s.name)) := by
      show (items.map (rename r)).map _ = (items.map _).map (rename r)
      rw [List.map_map, List.map_map]
      exact List.map_congr_left fun c _ => erase_rename r c s.name
    have hvalues : (rename r items).map (fun c => (c.find? (r s.name)).getD (.unreached s.depth)) =
        items.map fun c => (c.find? s.name).getD (.unreached s.depth) := by
      show (items.map (rename r)).map _ = _
      rw [List.map_map]
      exact List.map_congr_left fun c _ =>
        congrArg (fun value : Option Captured => value.getD (.unreached s.depth))
          (find?_rename r c s.name)
    show gather (rename r slots) ((rename r items).map (·.erase (r s.name)))
      ((rename r out).insert (r s.name) (.each ((rename r items).map
        fun c => (c.find? (r s.name)).getD (.unreached s.depth)))) = _
    rw [herase, hvalues, insert_rename, ih, gather]

section repetitions

variable {r : Renaming} {item item' : Reader} (hitem : ∀ ts, item' ts = rename r (item ts))

include hitem

theorem readRounds_rename (separator : Option Token) (most : Nat) (due : Option Token)
    (ts : List Token) : readRounds item' separator most due ts =
      rename r (readRounds item separator most due ts) := by
  induction most generalizing due ts with
  | zero => rfl
  | succ most ih =>
    rw [readRounds, readRounds]
    cases splitSeparator due ts with
    | none => rfl
    | some found =>
      simp only [hitem]
      cases item found.2 with
      | none => rfl
      | some x =>
        have hused : (rename r x).used = x.used := rfl
        simp only [rename_some, hused]
        cases found.1 ++ x.used with
        | nil => rfl
        | cons u us =>
          simp only [ih]
          rfl

theorem readRepetition_rename (slots : List Slot) (separator : Option Token) (q : Quantifier)
    (ts : List Token) : readRepetition item' (rename r slots) separator q ts =
      rename r (readRepetition item slots separator q ts) := by
  have hgather := gather_rename r slots (readRounds item separator (q.most ts) none ts).items ∅
  rw [rename_empty] at hgather
  simp only [readRepetition, readRounds_rename hitem]
  rw [rename_ite]
  show (if (rename r _ : List Captures).length < _ then _ else _) = _
  rw [length_rename]
  congr 1
  exact congrArg (fun captures => some (Reading.mk captures _ _)) hgather

end repetitions

mutual

theorem PatternNode.slots_rename (r : Renaming) : ∀ (depth : Nat) (node : PatternNode),
    (rename r node).slots depth = rename r (node.slots depth)
  | depth, .literal _ | depth, .escape _ | depth, .capture _ _ _ | depth, .lookahead _ => rfl
  | depth, .repetition inner separator q => by
    rw [rename_repetition, PatternNode.slots, PatternNode.slots, Pattern.slots_rename]
  | depth, .choice variants position => by
    rw [rename_choice, PatternNode.slots, PatternNode.slots, Pattern.slotsOfFirst_rename]

theorem Pattern.slots_rename (r : Renaming) : ∀ (depth : Nat) (p : Pattern),
    Pattern.slots depth (rename r p) = rename r (Pattern.slots depth p)
  | depth, [] => rfl
  | depth, node :: nodes => by
    rw [rename_cons, Pattern.slots, Pattern.slots, PatternNode.slots_rename,
      Pattern.slots_rename, rename_append]

theorem Pattern.slotsOfFirst_rename (r : Renaming) : ∀ (depth : Nat) (variants : List Pattern),
    Pattern.slotsOfFirst depth (rename r variants) =
      rename r (Pattern.slotsOfFirst depth variants)
  | depth, [] => rfl
  | depth, variant :: _ => by
    rw [rename_cons, Pattern.slotsOfFirst, Pattern.slotsOfFirst, Pattern.slots_rename]

end

mutual

theorem PatternNode.read_rename (r : Renaming) : ∀ (node : PatternNode) (ts : List Token),
    (rename r node).read ts = rename r (node.read ts)
  | .literal literal, ts => by
    cases ts with
    | nil => rfl
    | cons t ts =>
      simp only [rename_literal, PatternNode.read, rename_ite]
      rfl
  | .escape escape, ts => by
    cases ts with
    | nil => rfl
    | cons t ts =>
      simp only [rename_escape, PatternNode.read, rename_ite]
      rfl
  | .capture name fragment position, ts => by
    rw [rename_capture, PatternNode.read, PatternNode.read]
    cases fragment.take ts <;> rfl
  | .repetition inner separator q, ts => by
    rw [rename_repetition, PatternNode.read, PatternNode.read, Pattern.slots_rename]
    exact readRepetition_rename (Pattern.read_rename r inner) _ separator q ts
  | .choice variants position, ts => by
    rw [rename_choice, PatternNode.read, PatternNode.read]
    exact Pattern.readFirst_rename r variants ts
  | .lookahead inner, ts => by
    rw [rename_lookahead, PatternNode.read, PatternNode.read, Pattern.read_rename r inner ts]
    cases Pattern.read inner ts <;> rfl

/-- With new names a pattern reads the same, and captures it under the new names. -/
theorem Pattern.read_rename (r : Renaming) : ∀ (p : Pattern) (ts : List Token),
    Pattern.read (rename r p) ts = rename r (Pattern.read p ts)
  | [], ts => rfl
  | node :: nodes, ts => by
    rw [rename_cons, Pattern.read, Pattern.read, PatternNode.read_rename]
    cases node.read ts with
    | none => rfl
    | some first =>
      have hnodes : Pattern.read (rename r nodes) (rename r first).rest =
          rename r (Pattern.read nodes first.rest) := Pattern.read_rename r nodes first.rest
      simp only [rename_some, hnodes]
      cases Pattern.read nodes first.rest with
      | none => rfl
      | some second =>
        exact congrArg (fun captures => some (Reading.mk captures _ _)) (merge_rename r _ _)

theorem Pattern.readFirst_rename (r : Renaming) : ∀ (variants : List Pattern) (ts : List Token),
    Pattern.readFirst (rename r variants) ts = rename r (Pattern.readFirst variants ts)
  | [], ts => rfl
  | variant :: variants, ts => by
    rw [rename_cons, Pattern.readFirst, Pattern.readFirst, Pattern.read_rename]
    cases Pattern.read variant ts with
    | some found => rfl
    | none => exact Pattern.readFirst_rename r variants ts

end

theorem readAt_rename (r : Renaming) (p : Pattern) (ts : List Token) (start : Nat) :
    (rename r p).readAt ts start = rename r (p.readAt ts start) := by
  rw [Pattern.readAt, Pattern.readAt, Pattern.read_rename]
  cases p.read (ts.drop start) <;> rfl

theorem readWhole_rename (r : Renaming) (p : Pattern) (ts : List Token) :
    (rename r p).readWhole ts = rename r (p.readWhole ts) := by
  rw [Pattern.readWhole, Pattern.readWhole, Pattern.read_rename]
  match p.read ts with
  | none | some ⟨_, _, []⟩ | some ⟨_, _, _ :: _⟩ => rfl

/-! ## Filling -/

instance : Named (String × Position) := ⟨fun r hole => (r hole.1, hole.2)⟩
instance : Named (Nat × String) := ⟨fun r count => (count.1, r count.2)⟩

mutual

theorem TemplateNode.holes_rename (r : Renaming) :
    ∀ node : TemplateNode, (rename r node).holes = rename r node.holes
  | .literal _ | .escape _ | .hole _ _ => rfl
  | .repetition inner separator => by
    rw [rename_templateRepetition, TemplateNode.holes, TemplateNode.holes, Template.holes_rename]

theorem Template.holes_rename (r : Renaming) :
    ∀ t : Template, Template.holes (rename r t) = rename r (Template.holes t)
  | [] => rfl
  | node :: nodes => by
    rw [rename_cons, Template.holes, Template.holes, TemplateNode.holes_rename,
      Template.holes_rename, rename_append]

end

/-- What is done to a value leaves the names in a fault alone. -/
theorem map_mapError {α β : Type} (f : α → β) (g : Fault → Fault) (x : Except Fault α) :
    (x.mapError g).map f = (x.map f).mapError g := by
  cases x <;> rfl

section captures

variable (r : Renaming) (captures : Captures) (path : List Nat)

theorem valueOf_rename (name : String) (position : Position) :
    valueOf (rename r captures) (r name) position =
      (valueOf captures name position).mapError (rename r) := by
  rw [valueOf, valueOf, find?_rename]
  cases captures.find? name <;> rfl

theorem agreedCount_rename (count : Option (Nat × String)) (holes : List (String × Position)) :
    agreedCount (rename r captures) path (rename r count) (rename r holes) =
      rename r (agreedCount captures path count holes) := by
  induction holes generalizing count with
  | nil => rfl
  | cons hole holes ih =>
    obtain ⟨name, position⟩ := hole
    show agreedCount (rename r captures) path (rename r count)
      ((r name, position) :: rename r holes) = _
    rw [agreedCount, agreedCount, valueOf_rename]
    cases valueOf captures name position with
    | error e => rfl
    | ok c =>
      simp only [Except.mapError]
      cases (c.along path).bind Captured.count? with
      | none => exact ih count
      | some found =>
        cases count with
        | none => exact ih (some (found, name))
        | some first =>
          -- the counts are compared, and the names only go into the fault
          have hrest := ih (some first)
          rw [rename_some] at hrest
          simp only [rename_some, rename_ite]
          rw [← hrest]
          rfl

theorem roundCount_rename (inner : Template) :
    roundCount (rename r captures) path (rename r inner) =
      (roundCount captures path inner).mapError (rename r) := by
  have hagreed := agreedCount_rename r captures path none inner.holes
  rw [rename_none] at hagreed
  simp only [roundCount, Template.holes_rename, hagreed]
  match agreedCount captures path none inner.holes with
  | .error _ | .ok (some _) => rfl
  | .ok none => cases inner.holes <;> rfl

theorem writeHole_rename (name : String) (position : Position) :
    writeHole (rename r captures) path (r name) position =
      (writeHole captures path name position).mapError (rename r) := by
  rw [writeHole, writeHole, valueOf_rename]
  cases valueOf captures name position with
  | error e => rfl
  | ok c =>
    simp only [Except.mapError]
    match c.along path with
    | none | some (.once _) | some (.each _) => rfl

end captures

theorem writeRounds_mapError {body body' : Nat → Except Fault (List Token)} {g : Fault → Fault}
    (hbody : ∀ index, body' index = (body index).mapError g) (separator : Option Token)
    (index left : Nat) : writeRounds body' separator index left =
      (writeRounds body separator index left).mapError g := by
  induction left generalizing index with
  | zero => rfl
  | succ left ih =>
    rw [writeRounds, writeRounds, hbody, ih]
    cases body index with
    | error e => rfl
    | ok here => exact map_mapError _ g _

mutual

theorem TemplateNode.write_rename (r : Renaming) (captures : Captures) :
    ∀ (node : TemplateNode) (path : List Nat), (rename r node).write (rename r captures) path =
      (node.write captures path).mapError (rename r)
  | .literal _, path | .escape _, path => rfl
  | .hole name position, path => writeHole_rename r captures path name position
  | .repetition inner separator, path => by
    rw [rename_templateRepetition, TemplateNode.write, TemplateNode.write, roundCount_rename]
    cases roundCount captures path inner with
    | error e => rfl
    | ok count =>
      exact writeRounds_mapError (fun index => Template.write_rename r captures inner _)
        separator 0 count

/-- With new names a template writes the same from captures with these names. -/
theorem Template.write_rename (r : Renaming) (captures : Captures) :
    ∀ (t : Template) (path : List Nat), Template.write (rename r captures) (rename r t) path =
      (Template.write captures t path).mapError (rename r)
  | [], path => rfl
  | node :: nodes, path => by
    rw [rename_cons, Template.write, Template.write, TemplateNode.write_rename,
      Template.write_rename]
    cases node.write captures path with
    | error e => rfl
    | ok here => exact map_mapError _ _ _

end

theorem template_fill_rename (r : Renaming) (t : Template) (captures : Captures) :
    Template.fill (rename r t) (rename r captures) =
      (t.fill captures).mapError (rename r) :=
  Template.write_rename r captures t []

/-! ## Applying -/

/-- Up to the names in a fault, a template writes the same with new names. -/
theorem template_fill_anonymous (r : Renaming) (t : Template) (captures : Captures) :
    (Template.fill (rename r t) (rename r captures)).mapError Fault.anonymous =
      (t.fill captures).mapError Fault.anonymous := by
  rw [template_fill_rename]
  cases t.fill captures with
  | ok out => rfl
  | error e => exact congrArg Except.error (anonymous_rename r e)

/-- The rules, each with its captures renamed in its own way. -/
def renamedRules (rules : List (Renaming × Rule)) : List Rule :=
  rules.map fun x => rename x.1 x.2

theorem applyRules_renamedRules (rules : List (Renaming × Rule)) (ts : List Token) :
    (applyRules (renamedRules rules) ts).mapError Fault.anonymous =
      (applyRules (rules.map Prod.snd) ts).mapError Fault.anonymous := by
  induction rules with
  | nil => rfl
  | cons x rules ih =>
    obtain ⟨r, rule⟩ := x
    show (applyRules (rename r rule :: renamedRules rules) ts).mapError _ = _
    have hread : (rename r rule).pattern.readWhole ts = rename r (rule.pattern.readWhole ts) :=
      readWhole_rename r rule.pattern ts
    rw [List.map_cons, applyRules, applyRules, hread]
    cases rule.pattern.readWhole ts with
    | none => exact ih
    | some captures =>
      simp only [rename_some, ← map_mapError]
      exact congrArg (Except.map some) (template_fill_anonymous r rule.template captures)

theorem applyRulesToHead_renamedRules (rules : List (Renaming × Rule)) (ts : List Token) :
    (applyRulesToHead (renamedRules rules) ts).mapError Fault.anonymous =
      (applyRulesToHead (rules.map Prod.snd) ts).mapError Fault.anonymous := by
  induction rules with
  | nil => rfl
  | cons x rules ih =>
    obtain ⟨r, rule⟩ := x
    show (applyRulesToHead (rename r rule :: renamedRules rules) ts).mapError _ = _
    have hread : (rename r rule).pattern.readAt ts 0 = rename r (rule.pattern.readAt ts 0) :=
      readAt_rename r rule.pattern ts 0
    rw [List.map_cons, applyRulesToHead, applyRulesToHead, hread]
    cases rule.pattern.readAt ts 0 with
    | none => exact ih
    | some found =>
      simp only [rename_some, ← map_mapError]
      exact congrArg (Except.map fun out => some (HeadChange.mk found.stop out))
        (template_fill_anonymous r rule.template found.captures)

/-- New names for captures do not matter. A pattern and a template with new names make the same
rule with new names, or fail alike; a pattern matches the same streams, and captures the same under
the new names; and rules, each with new names of its own, change a stream or the head of one to the
same tokens, or fail alike. -/
theorem rules_invariant_of_renaming :
    (∀ (r : Renaming) (p : Pattern) (t : Template),
      (Rule.make (rename r p) (rename r t)).mapError Fault.anonymous =
        ((Rule.make p t).map (rename r)).mapError Fault.anonymous) ∧
    (∀ (r : Renaming) (p : Pattern) (ts : List Token),
      (rename r p).readWhole ts = rename r (p.readWhole ts)) ∧
    ∀ (rules : List (Renaming × Rule)) (ts : List Token),
      (applyRules (renamedRules rules) ts).mapError Fault.anonymous =
        (applyRules (rules.map Prod.snd) ts).mapError Fault.anonymous ∧
      (applyRulesToHead (renamedRules rules) ts).mapError Fault.anonymous =
        (applyRulesToHead (rules.map Prod.snd) ts).mapError Fault.anonymous := by
  refine ⟨fun r p t => ?_, readWhole_rename, fun rules ts => ?_⟩
  · rw [rule_make_rename]
    cases Rule.make p t with
    | ok rule => rfl
    | error e => exact congrArg Except.error (anonymous_rename r e)
  · exact ⟨applyRules_renamedRules rules ts, applyRulesToHead_renamedRules rules ts⟩

end TokenMacros

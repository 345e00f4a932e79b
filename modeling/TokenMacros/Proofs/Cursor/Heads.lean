import TokenMacros.Proofs.Cursor.Declaration
import TokenMacros.Proofs.Cursor.Steps
import TokenMacros.Proofs.Expansion.Balance
import TokenMacros.Proofs.Expansion.Inert

/-!
# Changing heads by cursor

Rules, declarations, decorators and calls find what they take with a cursor: the end of an
item, the bounds of a tree, the slices that a macro is given. On every stream a head changes
as it does when the parts are cut off, and nothing outside of the stream is asked for:

    head.walkHead apply ts = Expansion.within (head.changeHead apply ts)
                                                           (HeadMacro.walkHead_eq)

What goes is never more than there is, and of a declaration, a decorator or a call it is
three tokens at least (`HeadMacro.length_le_of_changeHead`,
`HeadMacro.three_le_of_changeHead`).
-/

namespace TokenMacros

/-! ## Algorithm -/

/-- Applies the first rule that matches a head of the stream. -/
def walkRulesToHead : List Rule → List Token → Walk (Option HeadChange)
  | [], _ => return none
  | rule :: rules, ts => do
    match ← rule.pattern.walk ts 0 with
    | none => walkRulesToHead rules ts
    | some found =>
      return some ⟨found.stop, ← Walk.within (rule.template.fill found.captures)⟩

/-- Defines the macro that is declared at the head of a stream. -/
def walkDeclare (operator : String) (ts : List Token) : WalkStep (Option HeadChange) := do
  match ← WalkStep.ofWalk (Declaration.walkAt operator ts 0) with
  | none => return none
  | some (declaration, stop) =>
    Expansion.within (.modifyEnvironment fun e =>
      e.define declaration.name (.rules ⟨declaration.name, declaration.rules⟩))
    return some ⟨stop, []⟩

/-- The bounds of the tree behind name and operator that holds the argument, and whether it is a
block. -/
def argumentSpan (ts : List Token) (next : Token) : Walk (Option ((Nat × Nat) × Bool)) := do
  if next.isOpener "(" || next.isOpener "[" || next.isOpener "\x7b" then
    return some (← Walk.within (treeSpanAt ts 2), false)
  else if next.isOperator ":" && ts[3]?.any (·.kind == .indent) then
    return some (← Walk.within (treeSpanAt ts 3), true)
  else return none

/-- Changes `name!(...)` and its like. -/
def walkCall (apply : Apply) (operator : String) (ts : List Token) :
    WalkStep (Option HeadChange) :=
  match ts with
  | name :: op :: next :: _ => do
    if name.kind = .name ∧ op.isOperator operator then
      match ← WalkStep.ofWalk (argumentSpan ts next) with
      | none => return none
      | some (span, block) =>
        let last ← WalkStep.ofWalk (indexBefore span.2)
        let argument ← WalkStep.ofWalk (slice ts (span.1 + 1) last)
        let out ← Expansion.within (invoke apply name argument)
        let ending := if block then [Token.newline name.position] else []
        return some ⟨span.2, out ++ ending⟩
    else return none
  | _ => return none

/-- The index behind the item that starts at `lineStart`; `pos` is the cursor. The loop has no bound
of its own; here `fuel` bounds it. -/
def itemStop (ts : List Token) : (fuel pos lineStart : Nat) → Walk Nat
  | 0, _, _ => .error .endless
  | fuel + 1, pos, lineStart =>
    match ts[pos]? with
    | none => return pos
    | some t =>
      match t.kind with
      | .newline => do
        if (← tokenAt ts lineStart).isOperator "@" then itemStop ts fuel (pos + 1) (pos + 1)
        else return pos
      | .dedent | .closer => return pos
      | .indent => return (← Walk.within (treeSpanAt ts pos)).2
      | .opener => do itemStop ts fuel (← Walk.within (treeSpanAt ts pos)).2 lineStart
      | _ => itemStop ts fuel (pos + 1) lineStart

/-- The tree of parameters behind the operator of a decorator, and the cursor behind it. -/
def walkParameters (ts : List Token) : Walk (List Token × Nat) := do
  if ts[3]?.any (·.isOpener "(") then
    let span ← Walk.within (treeSpanAt ts 3)
    return (← slice ts span.1 span.2, span.2)
  else return ([], 3)

/-- The decorator at the head of a stream, and the cursor behind its item. -/
def walkDecoration (operator : String) (ts : List Token) : Walk (Option (Decoration × Nat)) :=
  match ts with
  | sign :: name :: op :: _ => do
    if sign.isOperator "@" ∧ name.kind = .name ∧ op.isOperator operator then
      let (parameters, pos) ← walkParameters ts
      if ts[pos]?.any (·.kind == .newline) then
        let start := pos + 1
        let stop ← itemStop ts (ts.length - start + 1) start start
        if stop = start then
          .error (.fault ⟨.malformed (.noItem name.text operator), sign.position⟩)
        else
          let item ← slice ts start stop
          return some (⟨name, parameters, item⟩, stop)
      else return none
    else return none
  | _ => return none

/-- Changes a decorator together with its item. -/
def walkDecorator (apply : Apply) (operator : String) (ts : List Token) :
    WalkStep (Option HeadChange) := do
  match ← WalkStep.ofWalk (walkDecoration operator ts) with
  | none => return none
  | some (d, stop) =>
    let out ← Expansion.within (invoke apply d.name (d.parameters ++ d.item))
    let last ← WalkStep.ofWalk (indexBefore stop >>= tokenAt ts)
    let endsLine := out.getLast?.any fun t => t.kind == .newline || t.kind == .dedent
    let ending := if last.kind == .dedent && !endsLine then [Token.newline {}] else []
    return some ⟨stop, out ++ ending⟩

/-- Tries a macro on the head of a stream. -/
def HeadMacro.walkHead (apply : Apply) : HeadMacro → List Token → WalkStep (Option HeadChange)
  | .rules set, ts => WalkStep.ofWalk (walkRulesToHead set.rules ts)
  | .declaration operator, ts => walkDeclare operator ts
  | .decorator operator, ts => walkDecorator apply operator ts
  | .call operator, ts => walkCall apply operator ts

/-! ## Lemmas -/

variable {ts behind rest taken : List Token} {pos : Nat} {t : Token} {operator : String}
  {apply : Apply}

/-- Nothing goes wrong in looking up the tree at a cursor but what goes wrong in cutting it off. -/
theorem within_treeSpanAt (hdrop : ts.drop pos = t :: behind) :
    Walk.within (treeSpanAt ts pos) =
      Walk.within ((splitTree (t :: behind)).map fun p => (pos, pos + p.1.length)) := by
  rw [treeSpanAt_eq, treeSpan, hdrop]

/-! ## Rules and declarations -/

theorem walkRulesToHead_eq (rules : List Rule) (ts : List Token) :
    walkRulesToHead rules ts = Walk.within (applyRulesToHead rules ts) := by
  induction rules with
  | nil => rfl
  | cons rule rules ih =>
    rw [walkRulesToHead, applyRulesToHead, Pattern.walk_eq _ (Nat.zero_le _), Walk.ok_bind]
    cases rule.pattern.readAt ts 0 with
    | none => exact ih
    | some found =>
      simp only
      cases rule.template.fill found.captures <;> rfl

theorem walkDeclare_eq (operator : String) (ts : List Token) :
    walkDeclare operator ts = Expansion.within (declareHead operator ts) := by
  rw [walkDeclare, declareHead, within_bind, within_ofExcept,
    Declaration.walkAt_eq operator (Nat.zero_le _), Declaration.readAt, List.drop_zero]
  cases Declaration.read operator ts with
  | error e => rfl
  | ok found =>
    cases found with
    | none => rfl
    | some found =>
      simp only [Except.map, Option.map_some, Walk.within_ok, ofWalk_ok, WalkStep.pure_bind,
        within_bind, within_pure, Nat.zero_add]

/-! ## Calls -/

/-- Between the delimiters of the tree at a cursor stands its interior. -/
theorem exists_slice_interior {tree : List Token} {d : Delimiter}
    (hdrop : ts.drop pos = t :: behind) (ht : t.role = .opens d)
    (hsplit : splitTree (t :: behind) = .ok (tree, rest)) : ∃ last : Nat,
      indexBefore (pos + tree.length) = .ok last ∧
      slice ts (pos + 1) last = .ok (interior tree) ∧
      pos + tree.length = ts.length - rest.length := by
  obtain ⟨inner, closer, -, -, rfl, rfl⟩ := (splitTree_opens_iff ht).1 hsplit
  have hlen := congrArg List.length hdrop
  have hslice : slice ts (pos + 1) (pos + 1 + inner.length) = .ok inner :=
    slice_of_append (drop_succ_of_drop hdrop).symm (lt_length_of_drop hdrop)
  have hstop : pos + (t :: inner ++ [closer]).length = pos + 1 + inner.length + 1 := by
    simp only [List.length_append, List.length_cons, List.length_nil]
    omega
  simp only [List.length_drop, List.length_cons, List.length_append] at hlen
  rw [hstop, interior_group]
  exact ⟨pos + 1 + inner.length, rfl, hslice, by omega⟩

/-- The argument of a call, as the walk finds it. -/
theorem argumentSpan_eq {name op next : Token} {us : List Token}
    (hts : ts = name :: op :: next :: us) :
    match splitArgument (next :: us) with
    | .error e => argumentSpan ts next = .error (.fault e)
    | .ok none => argumentSpan ts next = .ok none
    | .ok (some ((argument, block), rest)) => ∃ span last,
        argumentSpan ts next = .ok (some (span, block)) ∧ indexBefore span.2 = .ok last ∧
          slice ts (span.1 + 1) last = .ok argument ∧ span.2 = ts.length - rest.length := by
  have hdrop : ts.drop 2 = next :: us := by rw [hts]; rfl
  have hindent : ts[3]? = us.head? := by rw [hts]; cases us <;> rfl
  rw [splitArgument, argumentSpan, hindent]
  by_cases hopener : (next.isOpener "(" || next.isOpener "[" || next.isOpener "\x7b") = true
  · simp only [if_pos hopener, within_treeSpanAt hdrop]
    cases hsplit : splitTree (next :: us) with
    | error e => rfl
    | ok found =>
      obtain ⟨tree, rest⟩ := found
      have hrole : ∃ d, next.role = .opens d := by
        have hkind : next.kind = .opener := by
          simp only [Bool.or_eq_true, Token.isOpener_iff] at hopener
          rcases hopener with (h | h) | h <;> exact h.1
        simp [Token.role, hkind]
      obtain ⟨d, hrole⟩ := hrole
      obtain ⟨last, hlast, hslice, hstop⟩ := exists_slice_interior hdrop hrole hsplit
      exact ⟨_, last, rfl, hlast, hslice, hstop⟩
  · simp only [if_neg hopener]
    by_cases hblock : (next.isOperator ":" && us.head?.any (·.kind == .indent)) = true
    · simp only [if_pos hblock]
      cases us with
      | nil => simp at hblock
      | cons indent us =>
        have hdrop' := drop_succ_of_drop hdrop
        rw [within_treeSpanAt hdrop']
        cases hsplit : splitTree (indent :: us) with
        | error e => rfl
        | ok found =>
          obtain ⟨tree, rest⟩ := found
          have hrole : indent.role = .opens .indent := by
            simp only [Bool.and_eq_true, List.head?_cons, Option.any_some, beq_iff_eq] at hblock
            simp [Token.role, hblock.2]
          obtain ⟨last, hlast, hslice, hstop⟩ := exists_slice_interior hdrop' hrole hsplit
          exact ⟨_, last, rfl, hlast, hslice, hstop⟩
    · simp only [if_neg hblock]
      rfl

theorem walkCall_eq (apply : Apply) (operator : String) (ts : List Token) :
    walkCall apply operator ts = Expansion.within (callHead apply operator ts) := by
  match ts with
  | [] => rfl
  | [name] => rfl
  | [name, op] =>
    rw [callHead]
    split <;> rfl
  | name :: op :: next :: us =>
    have hspan := argumentSpan_eq (rfl : name :: op :: next :: us = name :: op :: next :: us)
    rw [walkCall, callHead]
    split
    · rw [within_bind, within_ofExcept]
      cases hsplit : splitArgument (next :: us) with
      | error e =>
        rw [hsplit] at hspan
        simp only at hspan
        rw [hspan]
        rfl
      | ok found =>
        rw [hsplit] at hspan
        cases found with
        | none =>
          simp only at hspan
          rw [hspan]
          rfl
        | some found =>
          obtain ⟨⟨argument, block⟩, rest⟩ := found
          obtain ⟨span, last, hwalk, hlast, hslice, hstop⟩ := hspan
          simp only [hwalk, hlast, hslice, ofWalk_ok, WalkStep.pure_bind, Walk.within_ok,
            within_bind, within_pure]
          rw [hstop]
          rfl
    · rfl

/-! ## Items -/

/-- The index behind an item is found where the item is cut off. -/
theorem itemStop_eq {fuel lineStart : Nat} (hfuel : (ts.drop pos).length ≤ fuel)
    (hpos : pos ≤ ts.length) (hline : lineStart ≤ pos) :
    itemStop ts (fuel + 1) pos lineStart =
      Walk.within ((splitItemFrom fuel (startsDecorator (ts.drop lineStart)) (ts.drop pos)).map
        fun p => pos + p.1.length) := by
  induction fuel generalizing pos lineStart with
  | zero =>
    have hnil := List.length_eq_zero_iff.1 (Nat.le_zero.1 hfuel)
    rw [itemStop, ← List.head?_drop, hnil]
    rfl
  | succ fuel ih =>
    rw [itemStop]
    rcases drop_eq_nil_or_cons ts pos with ⟨hget, hdrop⟩ | ⟨t, behind, hget, hdrop, hlt⟩
    · rw [hget, hdrop]
      rfl
    · have hbehind : behind.length ≤ fuel := by
        rw [hdrop, List.length_cons] at hfuel
        exact Nat.le_of_succ_le_succ hfuel
      have hstep : ∀ {line : Nat}, line ≤ pos + 1 → itemStop ts (fuel + 1) (pos + 1) line =
          Walk.within (((splitItemFrom fuel (startsDecorator (ts.drop line)) behind).map
            (consFirst t)).map fun p => pos + p.1.length) := by
        intro line hle
        have hrest := ih (by rwa [drop_succ_of_drop hdrop]) hlt hle
        rw [drop_succ_of_drop hdrop] at hrest
        rw [hrest, except_map_map]
        congr 2
        funext p
        rw [consFirst, List.length_cons]
        omega
      rw [hget, hdrop, splitItemFrom]
      cases hkind : t.kind <;> simp only [hkind]
      case newline =>
        -- the line starts at or before the newline, and so within the stream
        obtain ⟨hnone, -⟩ | ⟨first, line, hfirst, hdropLine, -⟩ := drop_eq_nil_or_cons ts lineStart
        · rw [List.getElem?_eq_none_iff] at hnone
          omega
        · rw [tokenAt_of_getElem? hfirst, Walk.ok_bind, hdropLine, startsDecorator, List.head?_cons,
            Option.any_some]
          split
          · rw [hstep (Nat.le_refl _), drop_succ_of_drop hdrop]
          · rfl
      case indent =>
        rw [within_treeSpanAt hdrop]
        cases splitTree (t :: behind) <;> rfl
      case opener =>
        rw [within_treeSpanAt hdrop]
        cases hsplit : splitTree (t :: behind) with
        | error e => rfl
        | ok found =>
          obtain ⟨tree, rest⟩ := found
          have happend := splitTree_append hsplit
          rw [← hdrop] at happend
          have hlen := splitTree_length_lt hsplit
          rw [List.length_cons] at hlen
          have hrest : itemStop ts (fuel + 1) (pos + tree.length) lineStart = _ :=
            ih (by rw [drop_of_append happend]; omega) (le_length_of_append happend hpos)
              (Nat.le_add_right_of_le hline)
          rw [drop_of_append happend] at hrest
          show itemStop ts (fuel + 1) (pos + tree.length) lineStart = _
          rw [hrest]
          simp only [except_map_map, List.length_append, Nat.add_assoc]
      case dedent | closer => rfl
      all_goals exact hstep (by omega)

/-- The item behind the newline at a cursor is found where it is cut off. -/
theorem itemStop_behind {line : Token} (hdrop : ts.drop pos = line :: behind) :
    itemStop ts (ts.length - (pos + 1) + 1) (pos + 1) (pos + 1) =
      Walk.within ((splitItem behind).map fun p => pos + 1 + p.1.length) := by
  have hbehind := drop_succ_of_drop hdrop
  have hlen : behind.length = ts.length - (pos + 1) := by rw [← hbehind, List.length_drop]
  rw [itemStop_eq (Nat.le_of_eq List.length_drop) (lt_length_of_drop hdrop) (Nat.le_refl _),
    hbehind, splitItem, hlen]

/-- The item behind the newline at a cursor can be cut out, up to the tokens that are left. -/
theorem slice_item {line : Token} {item : List Token} (hdrop : ts.drop pos = line :: behind)
    (h : splitItem behind = .ok (item, rest)) :
    slice ts (pos + 1) (pos + 1 + item.length) = .ok item ∧
      pos + 1 + item.length = ts.length - rest.length := by
  have hjoin := (splitItemFrom_append h).2
  rw [← drop_succ_of_drop hdrop] at hjoin
  have hlt := lt_length_of_drop hdrop
  have hlen := congrArg List.length hjoin
  rw [List.length_append, List.length_drop] at hlen
  exact ⟨slice_of_append hjoin hlt, by omega⟩

/-! ## Decorators -/

theorem walkParameters_eq {sign name op : Token} {us : List Token}
    (hts : ts = sign :: name :: op :: us) : walkParameters ts =
      Walk.within ((splitParameters us).map fun p => (p.1, 3 + p.1.length)) := by
  have hdrop : ts.drop 3 = us := by rw [hts]; rfl
  have hpos : 3 ≤ ts.length := by rw [hts]; simp
  rw [walkParameters, ← List.head?_drop, hdrop]
  cases us with
  | nil => rfl
  | cons t us =>
    rw [List.head?_cons, Option.any_some, splitParameters]
    split
    · rw [within_treeSpanAt hdrop]
      cases hsplit : splitTree (t :: us) with
      | error e => rfl
      | ok found =>
        obtain ⟨tree, rest⟩ := found
        have happend := splitTree_append hsplit
        rw [← hdrop] at happend
        show (do return (← slice ts 3 (3 + tree.length), 3 + tree.length)) = _
        rw [slice_of_append happend hpos]
        rfl
    · rfl

/-- The decorator at the head of a stream is walked to as it is read. -/
theorem walkDecoration_eq (operator : String) (ts : List Token) : walkDecoration operator ts =
    Walk.within ((Decoration.read operator ts).map
      (Option.map fun p => (p.1, ts.length - p.2.length))) := by
  match ts with
  | [] => rfl
  | [sign] => rfl
  | [sign, name] => rfl
  | sign :: name :: op :: us =>
    obtain ⟨ts, hts⟩ : ∃ ts, ts = sign :: name :: op :: us := ⟨_, rfl⟩
    rw [walkDecoration, Decoration.read, ← hts]
    split
    · rw [walkParameters_eq hts]
      cases hparameters : splitParameters us with
      | error e => rfl
      | ok found =>
        obtain ⟨parameters, left⟩ := found
        have happend : parameters ++ left = ts.drop 3 := by
          rw [(splitParameters_eq_ok hparameters).1, hts]
          rfl
        have hdrop := drop_of_append happend
        simp only [Except.map, Walk.within_ok, Walk.ok_bind, ← List.head?_drop, hdrop]
        cases left with
        | nil => rfl
        | cons line behind =>
          simp only [List.head?_cons, Option.any_some, beq_iff_eq]
          split
          · rw [itemStop_behind hdrop]
            cases hitem : splitItem behind with
            | error e => rfl
            | ok found =>
              obtain ⟨item, rest⟩ := found
              obtain ⟨hslice, hlen⟩ := slice_item hdrop hitem
              simp only [Except.map, Walk.within_ok, Walk.ok_bind]
              cases item with
              | nil => exact if_pos rfl
              | cons first item =>
                rw [if_neg (by simp), hslice, hlen]
                rfl
          · rfl
    · rfl

/-- A decorator stands in front of an item that is not empty. -/
theorem exists_item_of_decoration_read {d : Decoration}
    (h : Decoration.read operator ts = .ok (some (d, rest))) :
    ∃ header, 3 ≤ header.length ∧ header ++ (d.item ++ rest) = ts ∧ d.item ≠ [] := by
  unfold Decoration.read at h
  split at h
  · next sign name op us =>
    split at h
    · split at h
      · cases h
      · cases h
      · next parameters line behind hparameters =>
        split at h
        · split at h
          · cases h
          · cases h
          · next hne hitem =>
            cases h
            refine ⟨sign :: name :: op :: (parameters ++ [line]), by simp, ?_, ?_⟩
            · rw [(splitItemFrom_append hitem).2, ← (splitParameters_eq_ok hparameters).1]
              simp
            · exact fun hnil => hne hnil
        · cases h
    · cases h
  · cases h

/-- The token in front of what is left of a decorator is the last one of its item. -/
theorem tokenAt_lastOfItem {d : Decoration}
    (h : Decoration.read operator ts = .ok (some (d, rest))) : ∃ last,
      (indexBefore (ts.length - rest.length) >>= tokenAt ts) = .ok last ∧
        d.item.getLast? = some last := by
  obtain ⟨header, -, rfl, hne⟩ := exists_item_of_decoration_read h
  obtain ⟨init, last, hitem⟩ := (List.eq_nil_or_concat d.item).resolve_left hne
  rw [List.concat_eq_append] at hitem
  have hstop : (header ++ (d.item ++ rest)).length - rest.length = (header ++ init).length + 1 := by
    simp only [hitem, List.length_append, List.length_singleton]
    omega
  refine ⟨last, ?_, by rw [hitem, List.getLast?_concat]⟩
  rw [hstop, indexBefore, Walk.ok_bind, tokenAt_of_getElem?]
  simp [hitem]

theorem walkDecorator_eq (apply : Apply) (operator : String) (ts : List Token) :
    walkDecorator apply operator ts = Expansion.within (decoratorHead apply operator ts) := by
  rw [walkDecorator, decoratorHead, within_bind, within_ofExcept, walkDecoration_eq]
  cases hread : Decoration.read operator ts with
  | error e => rfl
  | ok found =>
    cases found with
    | none => rfl
    | some found =>
      obtain ⟨d, rest⟩ := found
      obtain ⟨last, hlast, hitem⟩ := tokenAt_lastOfItem hread
      simp only [Except.map, Option.map_some, Walk.within_ok, ofWalk_ok, WalkStep.pure_bind, hlast,
        itemEnding, hitem, Option.any_some, within_bind, within_pure]

/-! ## All forms -/

/-- A head changes within its stream as it does when its parts are cut off. -/
theorem HeadMacro.walkHead_eq (apply : Apply) (head : HeadMacro) (ts : List Token) :
    head.walkHead apply ts = Expansion.within (head.changeHead apply ts) := by
  cases head with
  | rules set => rw [walkHead, changeHead, within_ofExcept, walkRulesToHead_eq]
  | declaration operator => exact walkDeclare_eq operator ts
  | decorator operator => exact walkDecorator_eq apply operator ts
  | call operator => exact walkCall_eq apply operator ts

section bounds

variable {w w' : Workspace} {change : HeadChange} {head : HeadMacro}

theorem length_lt_of_declaration_split {found : Token × List Token}
    (h : Declaration.split? ts = some (found, rest)) : rest.length < ts.length := by
  unfold Declaration.split? at h
  split at h
  · next name colon us =>
    split at h
    · obtain ⟨⟨body, behind⟩, hblock, heq⟩ := Option.map_eq_some_iff.1 h
      cases heq
      have := ((leftOf_skipNewline us).trans (leftOf_of_splitBlock hblock)).take_drop.2.2
      simp only [List.length_cons]
      omega
    · cases h
  · cases h

theorem length_le_of_declaration_read {d : Declaration}
    (h : Declaration.read operator ts = .ok (some (d, rest))) : rest.length + 3 ≤ ts.length := by
  unfold Declaration.read at h
  split at h
  · split at h
    · split at h
      · cases h
      · next hsplit =>
        split at h
        · cases h
        · obtain ⟨rules, -, heq⟩ := map_eq_ok_iff.1 h
          cases heq
          exact Nat.add_le_add_right (length_lt_of_declaration_split hsplit) 2
    · cases h
  · cases h

theorem length_lt_of_splitArgument {found : List Token × Bool}
    (h : splitArgument ts = .ok (some (found, rest))) : rest.length < ts.length := by
  unfold splitArgument at h
  split at h
  · cases h
  · split at h
    · obtain ⟨⟨tree, behind⟩, hs, heq⟩ := map_eq_ok_iff.1 h
      cases heq
      exact splitTree_length_lt hs
    · split at h
      · obtain ⟨⟨tree, behind⟩, hs, heq⟩ := map_eq_ok_iff.1 h
        cases heq
        exact Nat.lt_succ_of_lt (splitTree_length_lt hs)
      · cases h

/-- What goes is part of the stream. -/
theorem HeadMacro.length_le_of_changeHead
    (h : head.changeHead apply ts w = .ok (some change) w') : change.length ≤ ts.length := by
  cases head with
  | rules set =>
    obtain ⟨happly, -⟩ := Expansion.ofExcept_eq_ok.1 h
    obtain ⟨rule, -, found, hread, -, hlength⟩ := applyRulesToHead_eq_some happly
    rw [hlength]
    exact (Pattern.stop_le_of_readAt (Nat.zero_le _) hread).2
  | declaration operator =>
    obtain ⟨-, hnone, -⟩ | ⟨d, rest, -, hsome, -⟩ := declareHead_eq_ok h
    · cases hnone
    · cases hsome
      exact Nat.sub_le _ _
  | decorator operator =>
    obtain ⟨-, hnone, -⟩ | ⟨d, rest, out, -, -, hsome⟩ := decoratorHead_eq_ok h
    · cases hnone
    · cases hsome
      exact Nat.sub_le _ _
  | call operator =>
    obtain ⟨hnone, -⟩ | ⟨name, op, us, argument, block, rest, out, rfl, -, -, -, -, hsome⟩ :=
      callHead_eq_ok h
    · cases hnone
    · cases hsome
      exact Nat.sub_le _ _

/-- A declaration, a decorator and a call take three tokens at least. -/
theorem HeadMacro.three_le_of_changeHead (hhead : ∀ set, head ≠ .rules set)
    (h : head.changeHead apply ts w = .ok (some change) w') : 3 ≤ change.length := by
  cases head with
  | rules set => exact absurd rfl (hhead set)
  | declaration operator =>
    obtain ⟨-, hnone, -⟩ | ⟨d, rest, hread, hsome, -⟩ := declareHead_eq_ok h
    · cases hnone
    · cases hsome
      have := length_le_of_declaration_read hread
      show 3 ≤ ts.length - rest.length
      omega
  | decorator operator =>
    obtain ⟨-, hnone, -⟩ | ⟨d, rest, out, hread, -, hsome⟩ := decoratorHead_eq_ok h
    · cases hnone
    · cases hsome
      obtain ⟨header, hheader, rfl, -⟩ := exists_item_of_decoration_read hread
      simp only [List.length_append]
      omega
  | call operator =>
    obtain ⟨hnone, -⟩ | ⟨name, op, us, argument, block, rest, out, rfl, -, -, hsplit, -, hsome⟩ :=
      callHead_eq_ok h
    · cases hnone
    · cases hsome
      have := length_lt_of_splitArgument hsplit
      show 3 ≤ us.length + 2 - rest.length
      omega

end bounds

end TokenMacros

import TokenMacros.Proofs.Cursor.Forms
import TokenMacros.Proofs.Cursor.Matching

/-!
# Reading rules by cursor

The tokens of a rule can be read with a cursor in a stream that stays whole. The form behind
a dollar sign is told by a pattern that moves the cursor over it. The same is read as off the
head of the stream, faults included, and nothing outside of the stream is asked for:

    Pattern.parseAt (ts.length + 1) ts 0 = Walk.within (Pattern.ofTokens ts)
                                                           (Pattern.parseAt_eq)
    Template.parseAt (ts.length + 1) ts 0 = Walk.within (Template.ofTokens ts)
                                                           (Template.parseAt_eq)
-/

namespace TokenMacros

/-! ## Algorithm -/

/-- Fails for a dollar sign at the cursor that starts no form. -/
def refuseDollar {α : Type} (ts : List Token) (pos : Nat) : Walk α := do
  let dollar ← tokenAt ts pos
  .error (.fault (badDollar dollar ts[pos + 1]?.toList))

/-- The escape at a cursor. -/
def escapeAt (ts : List Token) (pos : Nat) : Walk (Option Escape) := do
  match ← symbolPattern.walk ts pos with
  | none => return none
  | some found => return Escape.ofSymbol? (← found.captures.token "symbol")

/-- Reads the items in turn. -/
def walkEach {Item α : Type} (parse : Item → Walk α) : List Item → Walk (List α)
  | [] => return []
  | item :: rest => do
    let a ← parse item
    return a :: (← walkEach parse rest)

/-- The node for the tokens between `$[` and `]`. -/
def walkGroup (parse : List Token → Walk Pattern) (position : Position) (body : List Token) :
    Walk PatternNode := do
  if body.head?.any (·.isOperator "!") then
    return .lookahead (← parse body.tail)
  else
    match ← variantsPattern.walkWhole body with
    | none => .error (.fault ⟨.malformed .badGroup, position⟩)
    | some captures =>
      let variants := (captures.rounds "variant").map Captured.flatten
      return .choice (← walkEach parse variants) position

/-- The node that the dollar sign at a cursor starts, and the cursor behind it; `parse` reads
bodies. -/
def walkPatternForm (parse : List Token → Walk Pattern) (position : Position) (ts : List Token)
    (pos : Nat) : Walk (PatternNode × Nat) := do
  match ← capturePattern.walk ts pos with
  | some found =>
    let (name, word) ← captureIn found.captures
    match Fragment.ofWord? word.text with
    | some fragment => return (.capture name.text fragment position, found.stop)
    | none => .error (.fault ⟨.malformed (.unknownFragment word), word.position⟩)
  | none =>
    match ← repetitionPattern.walk ts pos with
    | some found =>
      let (body, tail) ← repetitionIn found.captures
      let (separator, q) ← Walk.within (tail.resolve position)
      return (.repetition (← parse body) separator q, found.stop)
    | none =>
      match ← groupPattern.walk ts pos with
      | some found =>
        return (← walkGroup parse position (found.captures.tokens "body"), found.stop)
      | none =>
        match ← escapeAt ts pos with
        | some escape => return (.escape escape, pos + 2)
        | none => refuseDollar ts pos

/-- The node that the dollar sign at a cursor starts, and the cursor behind it; `parse` reads
bodies. -/
def walkTemplateForm (parse : List Token → Walk Template) (position : Position) (ts : List Token)
    (pos : Nat) : Walk (TemplateNode × Nat) := do
  match ← repetitionPattern.walk ts pos with
  | some found =>
    let (body, tail) ← repetitionIn found.captures
    let (separator, _) ← Walk.within (tail.resolve position)
    return (.repetition (← parse body) separator, found.stop)
  | none =>
    match ← holePattern.walk ts pos with
    | some found => return (.hole (← found.captures.token "name").text position, found.stop)
    | none =>
      match ← escapeAt ts pos with
      | some escape => return (.escape escape, pos + 2)
      | none =>
        match ← groupPattern.walk ts pos with
        | some _ => .error (.fault ⟨.malformed .patternOnly, position⟩)
        | none => refuseDollar ts pos

/-- The nodes that the tokens from a cursor on spell, where `form` walks over what a dollar sign
starts. The walk has no bound of its own, neither for the nodes in a row nor for the bodies in each
other; here `fuel` bounds them. -/
def walkNodes {Node : Type}
    (form : (List Token → Walk (List Node)) → Position → List Token → Nat → Walk (Node × Nat))
    (literal : Token → Node) : (fuel : Nat) → List Token → (pos : Nat) → Walk (List Node)
  | 0, _, _ => .error .endless
  | fuel + 1, ts, pos =>
    match ts[pos]? with
    | none => return []
    | some t => do
      if t.kind = .dollar then
        let (node, stop) ← form (fun body => walkNodes form literal fuel body 0) t.position ts pos
        return node :: (← walkNodes form literal fuel ts stop)
      else return literal t :: (← walkNodes form literal fuel ts (pos + 1))

/-- The pattern that the tokens from a cursor on spell. -/
def Pattern.parseAt : (fuel : Nat) → List Token → (pos : Nat) → Walk Pattern :=
  walkNodes walkPatternForm .literal

/-- The template that the tokens from a cursor on spell. -/
def Template.parseAt : (fuel : Nat) → List Token → (pos : Nat) → Walk Template :=
  walkNodes walkTemplateForm .literal

/-- The nodes that tokens spell, where `form` reads what a dollar sign starts. -/
def parseNodes {Node : Type}
    (form : (List Token → Except Fault (List Node)) → Token → List Token →
      Except Fault (Node × List Token))
    (literal : Token → Node) : Nat → List Token → Except Fault (List Node)
  | _, [] => .ok []
  | 0, t :: ts => .error (badDollar t ts)
  | fuel + 1, t :: ts =>
    if t.kind = .dollar then
      match form (parseNodes form literal fuel) t ts with
      | .error e => .error e
      | .ok (node, rest) => (parseNodes form literal fuel rest).map (node :: ·)
    else (parseNodes form literal fuel ts).map (literal t :: ·)

/-! ## Cursors behind what is read -/

/-- A cursor has moved on, to where the given tokens are left. -/
structure Behind (ts : List Token) (pos : Nat) (rest : List Token) (stop : Nat) : Prop where
  lt : pos < stop
  le : stop ≤ ts.length
  drop : ts.drop stop = rest

/-- A walk ends as a reader does that has `behind` in front of it: with the same fault, or with the
same value and the cursor at the tokens that are left. -/
def ReadsAs {α : Type} (ts : List Token) (pos : Nat) (walk : Walk (α × Nat))
    (read : Except Fault (α × List Token)) : Prop :=
  match read with
  | .error e => walk = .error (.fault e)
  | .ok (a, rest) => ∃ stop, walk = .ok (a, stop) ∧ Behind ts pos rest stop

variable {ts behind rest body : List Token} {pos : Nat} {dollar : Token}

theorem Behind.length_lt {stop : Nat} (h : Behind ts pos rest stop)
    (hdrop : ts.drop pos = dollar :: behind) : rest.length ≤ behind.length := by
  have hlen := congrArg List.length hdrop
  have hrest := congrArg List.length h.drop
  have hlt := h.lt
  rw [List.length_drop] at hlen hrest
  rw [List.length_cons] at hlen
  omega

section spells

variable {α : Type} {p : Pattern} {captures : Captures} {extract : Captures → Walk α}
  {form : List Token → Option (α × List Token)}

theorem Pattern.walk_of_finds_none (hpos : pos ≤ ts.length) (h : p.finds (ts.drop pos) = none) :
    p.walk ts pos = .ok none := by
  rw [finds, Option.map_eq_none_iff] at h
  rw [p.walk_eq hpos, readAt, h, Option.map_none]

/-- A pattern moves the cursor to the tokens that it leaves. -/
theorem Pattern.exists_walk_of_finds (hpos : pos ≤ ts.length)
    (h : p.finds (ts.drop pos) = some (captures, rest)) : ∃ used : List Token,
      p.read (ts.drop pos) = some ⟨captures, used, rest⟩ ∧ used ++ rest = ts.drop pos ∧
      p.walk ts pos = .ok (some ⟨captures, pos + used.length⟩) := by
  rw [finds, Option.map_eq_some_iff] at h
  obtain ⟨⟨_, used, _⟩, hread, heq⟩ := h
  obtain ⟨rfl, rfl⟩ := Prod.mk.inj heq
  refine ⟨used, hread, read_append p hread, ?_⟩
  rw [p.walk_eq hpos, readAt, hread, Option.map_some]

/-- Where there is no form, the pattern does not match. -/
theorem Pattern.Spells.walk_eq_none (h : p.Spells extract form)
    (hdrop : ts.drop pos = dollar :: behind) (hdollar : dollar.kind = .dollar)
    (hform : form behind = none) : p.walk ts pos = .ok none := by
  have hfinds := h.finds_eq hdollar behind
  rw [hform, Option.map_none, Option.map_eq_none_iff, ← hdrop] at hfinds
  exact walk_of_finds_none (Nat.le_of_lt (lt_length_of_drop hdrop)) hfinds

/-- Where there is a form, the pattern moves the cursor over it, and has captured what it holds. -/
theorem Pattern.Spells.exists_walk_eq (h : p.Spells extract form)
    (hdrop : ts.drop pos = dollar :: behind) (hdollar : dollar.kind = .dollar) {a : α}
    (hform : form behind = some (a, rest)) : ∃ found, p.walk ts pos = .ok (some found) ∧
      extract found.captures = .ok a ∧ Behind ts pos rest found.stop := by
  have hpos := Nat.le_of_lt (lt_length_of_drop hdrop)
  have hfinds := h.finds_eq hdollar behind
  rw [hform, Option.map_some, Option.map_eq_some_iff, ← hdrop] at hfinds
  obtain ⟨⟨captures, left⟩, hfinds, heq⟩ := hfinds
  obtain ⟨hextract, rfl⟩ := Prod.mk.inj heq
  obtain ⟨used, hread, happend, hwalk⟩ := exists_walk_of_finds hpos hfinds
  refine ⟨⟨captures, pos + used.length⟩, hwalk, hextract, ?_, le_length_of_append happend hpos,
    drop_of_append happend⟩
  -- the dollar sign at least is taken
  obtain ⟨nodes, rfl⟩ := h.starts
  obtain ⟨first, second, hfirst, -, heq⟩ := read_cons_eq_some.1 hread
  obtain ⟨t, us, -, -, rfl⟩ := read_escape_eq_some.1 hfirst
  have hused := congrArg (fun r => r.used.length) heq
  simp only [List.length_append, List.length_singleton] at hused
  show pos < pos + used.length
  omega

end spells

/-- A dollar sign that starts no form is refused with the tokens behind it in view. -/
theorem refuseDollar_eq {α : Type} (hdrop : ts.drop pos = dollar :: behind) :
    (refuseDollar ts pos : Walk α) = .error (.fault (badDollar dollar behind)) := by
  have hnext : ts[pos + 1]? = behind.head? := by
    rw [← List.head?_drop, drop_succ_of_drop hdrop]
  rw [refuseDollar, tokenAt_of_getElem? (getElem?_of_drop hdrop), Walk.ok_bind, hnext]
  cases behind <;> rfl

/-- The escape behind a dollar sign takes one token. -/
theorem escapeAt_eq (hdrop : ts.drop pos = dollar :: behind) (hdollar : dollar.kind = .dollar) :
    escapeAt ts pos = .ok ((escapeForm? behind).map Prod.fst) := by
  rw [escapeAt, escapeForm?_eq]
  cases hform : symbolForm? behind with
  | none =>
    rw [symbolPattern_spells.walk_eq_none hdrop hdollar hform]
    rfl
  | some found =>
    obtain ⟨symbol, rest⟩ := found
    obtain ⟨found, hwalk, htoken, -⟩ := symbolPattern_spells.exists_walk_eq hdrop hdollar hform
    rw [hwalk]
    simp only [Walk.ok_bind, htoken, Walk.pure_eq, Option.bind_some]
    cases Escape.ofSymbol? symbol <;> rfl

theorem behind_of_escapeForm? {escape : Escape} (hdrop : ts.drop pos = dollar :: behind)
    (h : escapeForm? behind = some (escape, rest)) : Behind ts pos rest (pos + 2) := by
  obtain ⟨symbol, -, rfl⟩ := escapeForm?_eq_some_iff.1 h
  have hsucc := drop_succ_of_drop hdrop
  exact ⟨by omega, lt_length_of_drop hsucc, drop_succ_of_drop hsucc⟩

theorem walkEach_eq {α : Type} {walk : List Token → Walk α} {parse : List Token → Except Fault α}
    {parts : List (List Token)} (h : ∀ part ∈ parts, walk part = Walk.within (parse part)) :
    walkEach walk parts = Walk.within (parseEach parse parts) := by
  induction parts with
  | nil => rfl
  | cons part parts ih =>
    rw [List.forall_mem_cons] at h
    rw [walkEach, parseEach, h.1, ih h.2]
    cases parse part with
    | error e => rfl
    | ok a => cases parseEach parse parts <;> rfl

section forms

variable {walk : List Token → Walk Pattern} {parse : List Token → Except Fault Pattern}

/-- The node of a group is walked to as it is read, if the bodies in it are. -/
theorem walkGroup_eq (h : ∀ part : List Token, part.length ≤ body.length →
      walk part = Walk.within (parse part)) (position : Position) :
    walkGroup walk position body = Walk.within (groupNode parse position body) := by
  rw [walkGroup, groupNode]
  split
  · rw [h body.tail (by simp)]
    cases parse body.tail <;> rfl
  · have hwhole := readWhole_variantsPattern body
    rw [Pattern.walkWhole_eq, Walk.ok_bind]
    cases hread : variantsPattern.readWhole body with
    | none =>
      rw [hread, Option.map_none] at hwhole
      rw [← hwhole]
      rfl
    | some captures =>
      rw [hread, Option.map_some] at hwhole
      have hrow := variantsFrom_eq_some_iff.1 hwhole.symm
      rw [← hwhole]
      simp only
      rw [walkEach_eq fun part hpart => h part (Nat.le_of_lt (hrow.length_lt part hpart))]
      cases parseEach parse ((captures.rounds "variant").map Captured.flatten) <;> rfl

theorem length_of_repetitionForm? {tail : RepetitionTail}
    (h : repetitionForm? behind = some ((body, tail), rest)) : body.length ≤ behind.length := by
  obtain ⟨group, left, hgroup, -, rfl⟩ := repetitionForm?_eq_some_iff.1 h
  have hlen := hgroup.length_eq
  rw [List.length_append]
  omega

theorem length_of_splitBracket (h : splitGroup "[" behind = some (body, rest)) :
    body.length ≤ behind.length := by
  obtain ⟨group, hgroup, rfl⟩ := splitGroup_bracket_iff.1 h
  have hlen := hgroup.length_eq
  rw [List.length_append]
  omega

/-- The form behind a dollar sign is walked over as it is read. -/
theorem walkPatternForm_readsAs (hdrop : ts.drop pos = dollar :: behind)
    (hdollar : dollar.kind = .dollar)
    (h : ∀ part : List Token, part.length ≤ behind.length → walk part = Walk.within (parse part)) :
    ReadsAs ts pos (walkPatternForm walk dollar.position ts pos)
      (patternForm parse dollar behind) := by
  rw [walkPatternForm, patternForm]
  cases hcapture : captureForm? behind with
  | some form =>
    obtain ⟨⟨name, word⟩, rest⟩ := form
    obtain ⟨found, hwalk, hin, hbehind⟩ :=
      capturePattern_spells.exists_walk_eq hdrop hdollar hcapture
    simp only [hwalk, Walk.ok_bind, hin]
    cases Fragment.ofWord? word.text with
    | none => rfl
    | some fragment => exact ⟨_, rfl, hbehind⟩
  | none =>
    simp only [capturePattern_spells.walk_eq_none hdrop hdollar hcapture, Walk.ok_bind]
    cases hrepetition : repetitionForm? behind with
    | some form =>
      obtain ⟨⟨body, tail⟩, rest⟩ := form
      obtain ⟨found, hwalk, hin, hbehind⟩ :=
        repetitionPattern_spells.exists_walk_eq hdrop hdollar hrepetition
      simp only [hwalk, Walk.ok_bind, hin]
      cases tail.resolve dollar.position with
      | error e => rfl
      | ok resolved =>
        simp only [Walk.within_ok, Walk.ok_bind, h body (length_of_repetitionForm? hrepetition)]
        cases parse body with
        | error e => rfl
        | ok inner => exact ⟨_, rfl, hbehind⟩
    | none =>
      simp only [repetitionPattern_spells.walk_eq_none hdrop hdollar hrepetition, Walk.ok_bind]
      cases hgroup : splitGroup "[" behind with
      | some form =>
        obtain ⟨body, rest⟩ := form
        obtain ⟨found, hwalk, hin, hbehind⟩ :=
          groupPattern_spells.exists_walk_eq hdrop hdollar hgroup
        have hbody := length_of_splitBracket hgroup
        simp only [hwalk, Walk.ok_bind, Except.ok.inj hin,
          walkGroup_eq (fun part hpart => h part (Nat.le_trans hpart hbody)) dollar.position]
        cases groupNode parse dollar.position body with
        | error e => rfl
        | ok node => exact ⟨_, rfl, hbehind⟩
      | none =>
        simp only [groupPattern_spells.walk_eq_none hdrop hdollar hgroup, Walk.ok_bind,
          escapeAt_eq hdrop hdollar]
        cases hescape : escapeForm? behind with
        | some form => exact ⟨_, rfl, behind_of_escapeForm? hdrop hescape⟩
        | none => exact refuseDollar_eq hdrop

end forms

section templates

variable {walk : List Token → Walk Template} {parse : List Token → Except Fault Template}

/-- The form behind a dollar sign is walked over as it is read. -/
theorem walkTemplateForm_readsAs (hdrop : ts.drop pos = dollar :: behind)
    (hdollar : dollar.kind = .dollar)
    (h : ∀ part : List Token, part.length ≤ behind.length → walk part = Walk.within (parse part)) :
    ReadsAs ts pos (walkTemplateForm walk dollar.position ts pos)
      (templateForm parse dollar behind) := by
  rw [walkTemplateForm, templateForm]
  cases hrepetition : repetitionForm? behind with
  | some form =>
    obtain ⟨⟨body, tail⟩, rest⟩ := form
    obtain ⟨found, hwalk, hin, hbehind⟩ :=
      repetitionPattern_spells.exists_walk_eq hdrop hdollar hrepetition
    simp only [hwalk, Walk.ok_bind, hin]
    cases tail.resolve dollar.position with
    | error e => rfl
    | ok resolved =>
      simp only [Walk.within_ok, Walk.ok_bind, h body (length_of_repetitionForm? hrepetition)]
      cases parse body with
      | error e => rfl
      | ok inner => exact ⟨_, rfl, hbehind⟩
  | none =>
    simp only [repetitionPattern_spells.walk_eq_none hdrop hdollar hrepetition, Walk.ok_bind]
    cases hname : nameForm? behind with
    | some form =>
      obtain ⟨name, rest⟩ := form
      obtain ⟨found, hwalk, hin, hbehind⟩ := holePattern_spells.exists_walk_eq hdrop hdollar hname
      simp only [hwalk, Walk.ok_bind, hin]
      exact ⟨_, rfl, hbehind⟩
    | none =>
      simp only [holePattern_spells.walk_eq_none hdrop hdollar hname, Walk.ok_bind,
        escapeAt_eq hdrop hdollar]
      cases hescape : escapeForm? behind with
      | some form => exact ⟨_, rfl, behind_of_escapeForm? hdrop hescape⟩
      | none =>
        simp only [Option.map_none]
        cases hgroup : splitGroup "[" behind with
        | some form =>
          obtain ⟨found, hwalk, -, -⟩ := groupPattern_spells.exists_walk_eq hdrop hdollar hgroup
          simp only [hwalk, Walk.ok_bind]
          rfl
        | none =>
          simp only [groupPattern_spells.walk_eq_none hdrop hdollar hgroup, Walk.ok_bind]
          exact refuseDollar_eq hdrop

end templates

/-! ## Rows of nodes -/

/-- What the tokens from a cursor on spell is what they spell by themselves, if that holds of each
form; a unit of fuel more is for the end of the stream. -/
theorem walkNodes_eq {Node : Type} {literal : Token → Node}
    {walkForm : (List Token → Walk (List Node)) → Position → List Token → Nat → Walk (Node × Nat)}
    {form : (List Token → Except Fault (List Node)) → Token → List Token →
      Except Fault (Node × List Token)}
    (hform : ∀ {walk parse} {ts behind : List Token} {pos : Nat} {dollar : Token},
      ts.drop pos = dollar :: behind → dollar.kind = .dollar →
      (∀ part : List Token, part.length ≤ behind.length → walk part = Walk.within (parse part)) →
      ReadsAs ts pos (walkForm walk dollar.position ts pos) (form parse dollar behind))
    {fuel : Nat} (hfuel : (ts.drop pos).length ≤ fuel) :
    walkNodes walkForm literal (fuel + 1) ts pos =
      Walk.within (parseNodes form literal fuel (ts.drop pos)) := by
  induction fuel generalizing ts pos with
  | zero =>
    have hnil := List.length_eq_zero_iff.1 (Nat.le_zero.1 hfuel)
    rw [walkNodes, ← List.head?_drop, hnil]
    rfl
  | succ fuel ih =>
    rw [walkNodes]
    rcases drop_eq_nil_or_cons ts pos with ⟨hget, hdrop⟩ | ⟨t, behind, hget, hdrop, -⟩
    · rw [hget, hdrop]
      rfl
    · rw [hdrop, List.length_cons] at hfuel
      have hbehind : behind.length ≤ fuel := Nat.le_of_succ_le_succ hfuel
      rw [hget, hdrop, parseNodes]
      simp only
      split
      · next hdollar =>
        have hbodies : ∀ part : List Token, part.length ≤ behind.length →
            walkNodes walkForm literal (fuel + 1) part 0 =
              Walk.within (parseNodes form literal fuel part) := fun part hpart =>
          ih (Nat.le_trans hpart hbehind)
        have hread := hform hdrop hdollar hbodies
        cases hnode : form (parseNodes form literal fuel) t behind with
        | error e =>
          rw [hnode] at hread
          have hwalk : walkForm _ t.position ts pos = .error (.fault e) := hread
          rw [hwalk]
          rfl
        | ok found =>
          obtain ⟨node, rest⟩ := found
          rw [hnode] at hread
          obtain ⟨stop, hwalk, hstop⟩ := hread
          have hrest : walkNodes walkForm literal (fuel + 1) ts stop = _ :=
            ih (by rw [hstop.drop]; exact Nat.le_trans (hstop.length_lt hdrop) hbehind)
          rw [hwalk, Walk.ok_bind]
          simp only [hrest, hstop.drop]
          cases parseNodes form literal fuel rest <;> rfl
      · have hrest : walkNodes walkForm literal (fuel + 1) ts (pos + 1) = _ :=
          ih (by rwa [drop_succ_of_drop hdrop])
        rw [hrest, drop_succ_of_drop hdrop]
        cases parseNodes form literal fuel behind <;> rfl

theorem Pattern.parse_eq_parseNodes (fuel : Nat) (ts : List Token) :
    Pattern.parse fuel ts = parseNodes patternForm .literal fuel ts := by
  induction fuel generalizing ts with
  | zero => cases ts <;> rfl
  | succ fuel ih =>
    cases ts with
    | nil => rfl
    | cons t ts =>
      have hparse : Pattern.parse fuel = parseNodes patternForm .literal fuel := funext ih
      rw [Pattern.parse, parseNodes, hparse]
      split
      · cases patternForm (parseNodes patternForm .literal fuel) t ts <;> rfl
      · rfl

theorem Template.parse_eq_parseNodes (fuel : Nat) (ts : List Token) :
    Template.parse fuel ts = parseNodes templateForm .literal fuel ts := by
  induction fuel generalizing ts with
  | zero => cases ts <;> rfl
  | succ fuel ih =>
    cases ts with
    | nil => rfl
    | cons t ts =>
      have hparse : Template.parse fuel = parseNodes templateForm .literal fuel := funext ih
      rw [Template.parse, parseNodes, hparse]
      split
      · cases templateForm (parseNodes templateForm .literal fuel) t ts <;> rfl
      · rfl

/-- The pattern of a stream is walked to as it is read. -/
theorem Pattern.parseAt_eq (ts : List Token) :
    Pattern.parseAt (ts.length + 1) ts 0 = Walk.within (Pattern.ofTokens ts) := by
  rw [Pattern.ofTokens, Pattern.parse_eq_parseNodes]
  exact walkNodes_eq walkPatternForm_readsAs (Nat.le_refl _)

/-- The template of a stream is walked to as it is read. -/
theorem Template.parseAt_eq (ts : List Token) :
    Template.parseAt (ts.length + 1) ts 0 = Walk.within (Template.ofTokens ts) := by
  rw [Template.ofTokens, Template.parse_eq_parseNodes]
  exact walkNodes_eq walkTemplateForm_readsAs (Nat.le_refl _)

end TokenMacros

import TokenMacros.Proofs.Expansion.Heads
import TokenMacros.Proofs.Expansion.Scan
import TokenMacros.Proofs.Rule.Delimited
import TokenMacros.Proofs.Rule.Soundness

/-!
# Macros that pass the check of the scan

The scan refuses a splice whose tokens are not balanced. It never refuses what a macro
writes that has only delimited rules, however the macro is invoked: the scan goes on
behind the splice (`RuleSet.Delimited.keeps_balance`).
-/

namespace TokenMacros

/-- All rules of the set are delimited. -/
def RuleSet.Delimited (set : RuleSet) : Prop := ∀ rule ∈ set.rules, rule.Delimited

/-- The head, tried on these tokens, applies that macro: it tries the rules itself, or the macro has
the name of the call or the decorator. -/
inductive HeadMacro.Applies (set : RuleSet) (w : Workspace) : HeadMacro → List Token → Prop
  | rules {ts : List Token} : Applies set w (.rules set) ts
  | call {operator : String} {name : Token} {ts : List Token} :
      w.env.find? name.text = some (.rules set) → Applies set w (.call operator) (name :: ts)
  | decorator {operator : String} {sign name : Token} {ts : List Token} :
      w.env.find? name.text = some (.rules set) →
      Applies set w (.decorator operator) (sign :: name :: ts)

/-- The scan behind a splice that has passed the check. -/
def Splice.scanOn (s : Splice) (attempt : Attempt) (limit left : Nat) : Expansion (List Token) := do
  match ← findSplice attempt s.passed s.pending with
  | none => return s.result
  | some next => resume attempt limit left next

variable {set : RuleSet} {ts out : List Token} {w w' : Workspace} {change : HeadChange}
  {nesting : Nat}

/-! ## Applying -/

theorem balanced_of_applyRules {rules : List Rule} (hrules : ∀ rule ∈ rules, rule.Delimited)
    (h : applyRules rules ts = .ok (some out)) : Balanced out := by
  induction rules with
  | nil => cases h
  | cons rule rules ih =>
    rw [List.forall_mem_cons] at hrules
    rw [applyRules] at h
    split at h
    · exact ih hrules.2 h
    · next captures hread =>
      obtain ⟨filled, hfill, heq⟩ := map_eq_ok_iff.1 h
      cases heq
      exact hrules.1.balanced_fill (read_of_readWhole hread) hfill

theorem balanced_of_applyRulesToHead {rules : List Rule}
    (hrules : ∀ rule ∈ rules, rule.Delimited)
    (h : applyRulesToHead rules ts = .ok (some change)) : Balanced change.tokens := by
  obtain ⟨rule, hmem, found, hread, hfill, -⟩ := applyRulesToHead_eq_some h
  obtain ⟨r, hr, hcaptures⟩ := read_of_readAt hread
  rw [← hcaptures] at hfill
  exact (hrules rule hmem).balanced_fill hr hfill

/-! ## Splicing -/

theorem balanced_newline (position : Position) : Balanced [Token.newline position] :=
  .plain rfl .nil

theorem balanced_itemEnding (item out : List Token) : Balanced (itemEnding item out) := by
  unfold itemEnding
  dsimp only
  split
  · exact balanced_newline {}
  · exact .nil

/-- A decorator names its macro behind its sign. -/
theorem name_of_decoration_read {operator : String} {sign name : Token} {us rest : List Token}
    {d : Decoration} (h : Decoration.read operator (sign :: name :: us) = .ok (some (d, rest))) :
    d.name = name := by
  unfold Decoration.read at h
  split at h
  · next heq =>
    cases heq
    split at h
    · split at h
      · cases h
      · cases h
      · split at h
        · split at h
          · cases h
          · cases h
          · cases h
            rfl
        · cases h
    · cases h
  · cases h

/-- What a head writes that applies a macro with delimited rules is balanced. -/
theorem RuleSet.Delimited.balanced_changeHead (hset : set.Delimited) {head : HeadMacro}
    (happlies : head.Applies set w ts)
    (h : head.changeHead (Macro.runWithin nesting) ts w = .ok (some change) w') :
    Balanced change.tokens := by
  cases happlies with
  | rules =>
    exact balanced_of_applyRulesToHead hset (Expansion.ofExcept_eq_ok.1 h).1
  | call hfind =>
    obtain ⟨hnone, -⟩ | ⟨name, op, us, argument, block, rest, out, heq, -, -, -, hinvoke, hsome⟩ :=
      callHead_eq_ok h
    · cases hnone
    · cases heq
      cases hsome
      have happly := ((invoke_rules_eq_ok_iff hfind).1 hinvoke).1
      refine Balanced.append (balanced_of_applyRules hset happly) ?_
      cases block
      · exact .nil
      · exact balanced_newline _
  | @decorator operator sign name us hfind =>
    obtain ⟨-, hnone, -⟩ | ⟨d, rest, out, hread, hinvoke, hsome⟩ := decoratorHead_eq_ok h
    · cases hnone
    · cases hsome
      rw [← name_of_decoration_read hread] at hfind
      have happly := ((invoke_rules_eq_ok_iff hfind).1 hinvoke).1
      exact Balanced.append (balanced_of_applyRules hset happly) (balanced_itemEnding d.item out)

theorem resume_of_balanced {attempt : Attempt} {limit left : Nat} {s : Splice}
    (h : Balanced s.inserted) :
    resume attempt limit (left + 1) s w = s.scanOn attempt limit left w := by
  rw [resume, requireBalanced_eq_ok_iff.2 h]
  rfl

/-- What the rules of a delimited set write can be paired off, and where the scan meets a head that
applies the set, it goes on behind the splice. -/
theorem RuleSet.Delimited.keeps_balance (hset : set.Delimited) :
    (∀ rule ∈ set.rules, ∀ ts captures out, (rule.pattern.readWhole ts = some captures ∨
        ∃ start stop, rule.pattern.readAt ts start = some ⟨captures, stop⟩) →
      rule.template.fill captures = .ok out → ∃ p, Pairing.ofTokens out = .ok p) ∧
    ∀ head nesting ts w change w', HeadMacro.Applies set w head ts →
      head.changeHead (Macro.runWithin nesting) ts w = .ok (some change) w' →
      ∀ attempt limit left before,
        resume attempt limit (left + 1) (change.splice before ts) w' =
          (change.splice before ts).scanOn attempt limit left w' := by
  constructor
  · intro rule hrule ts captures out hread hfill
    rw [ofTokens_ok_iff]
    rcases hread with hwhole | ⟨start, stop, hat⟩
    · exact (hset rule hrule).balanced_fill (read_of_readWhole hwhole) hfill
    · obtain ⟨r, hr, rfl⟩ := read_of_readAt hat
      exact (hset rule hrule).balanced_fill hr hfill
  · intro head nesting ts w change w' happlies hchange attempt limit left before
    exact resume_of_balanced (hset.balanced_changeHead happlies hchange)

/-! ## A list on lines of its own -/

/-- `$( $item:tt ),*` -/
def commaList : List Token :=
  [.dollar {}, ⟨.opener, "(", {}⟩, .dollar {}, ⟨.name, "item", {}⟩, ⟨.operator, ":", {}⟩,
    ⟨.name, "tt", {}⟩, ⟨.closer, ")", {}⟩, ⟨.operator, ",", {}⟩, ⟨.operator, "*", {}⟩]

/-- `[ $( ( $item ) ) $^ * ]` -/
def lineList : List Token :=
  [⟨.opener, "[", {}⟩, .dollar {}, ⟨.opener, "(", {}⟩, ⟨.opener, "(", {}⟩, .dollar {},
    ⟨.name, "item", {}⟩, ⟨.closer, ")", {}⟩, ⟨.closer, ")", {}⟩, .dollar {}, ⟨.operator, "^", {}⟩,
    ⟨.operator, "*", {}⟩, ⟨.closer, "]", {}⟩]

/-- The rule that they spell. -/
def listRule : Rule where
  pattern := [.repetition [.capture "item" .tree {}] (some ⟨.operator, ",", {}⟩) .any]
  template := [.literal ⟨.opener, "[", {}⟩,
    .repetition [.literal ⟨.opener, "(", {}⟩, .hole "item" {}, .literal ⟨.closer, ")", {}⟩]
      (some (.newline {})), .literal ⟨.closer, "]", {}⟩]
  fits := rfl

/-- The macro of that rule. -/
def listSet : RuleSet := ⟨"list", [listRule]⟩

/-- A workspace in which it is defined. -/
def listMacros : Workspace := { env := (default : Environment).define "list" (.rules listSet) }

/-- The list `a, {b}`. -/
def listArgument : List Token :=
  [⟨.name, "a", {}⟩, ⟨.operator, ",", {}⟩, ⟨.opener, "\x7b", {}⟩, ⟨.name, "b", {}⟩,
    ⟨.closer, "\x7d", {}⟩]

/-- The call of the macro with that list. -/
def listCall : List Token :=
  [⟨.name, "list", {}⟩, ⟨.operator, "!", {}⟩, ⟨.opener, "(", {}⟩] ++ listArgument ++
    [⟨.closer, ")", {}⟩]

theorem delimited_listSet : listSet.Delimited := by
  intro rule hrule
  rw [List.mem_singleton.1 hrule]
  exact ⟨commaList, lineList, rfl, by decide, rfl⟩

/-- The items of the list come out on lines of their own, and the scan goes on. -/
theorem keeps_balance_listCall :
    (∃ captures out p, listRule.pattern.readWhole listArgument = some captures ∧
      listRule.template.fill captures = .ok out ∧ Pairing.ofTokens out = .ok p) ∧
    ∃ change w', HeadMacro.Applies listSet listMacros (.call "!") listCall ∧
      HeadMacro.changeHead (Macro.runWithin 0) (.call "!") listCall listMacros =
        .ok (some change) w' ∧
      resume (firstChange (Macro.runWithin 0) [.call "!"]) 1 1 (change.splice [] listCall) w' =
        (change.splice [] listCall).scanOn (firstChange (Macro.runWithin 0) [.call "!"]) 1 0 w' := by
  obtain ⟨hfill, hscan⟩ := delimited_listSet.keeps_balance
  constructor
  · obtain ⟨captures, hread⟩ := Option.isSome_iff_exists.1
      (show (listRule.pattern.readWhole listArgument).isSome = true by decide)
    have hok : (listRule.pattern.readWhole listArgument).any
        (fun captures => (listRule.template.fill captures).isOk) = true := by decide
    rw [hread, Option.any_some] at hok
    cases hout : listRule.template.fill captures with
    | error e =>
      rw [hout] at hok
      cases hok
    | ok out =>
      obtain ⟨p, hp⟩ := hfill listRule List.mem_cons_self listArgument captures out (.inl hread) hout
      exact ⟨captures, out, p, hread, hout, hp⟩
  · have happlies : HeadMacro.Applies listSet listMacros (.call "!") listCall := .call (by rfl)
    obtain ⟨found, w', hchange, hfound⟩ := Expansion.exists_ok_of_passes
      (show (HeadMacro.changeHead (Macro.runWithin 0) (.call "!") listCall).Passes listMacros
        (fun found _ => found.isSome) by decide)
    obtain ⟨change, rfl⟩ := Option.isSome_iff_exists.1 hfound
    exact ⟨change, w', happlies, hchange, hscan _ _ _ _ _ _ happlies hchange _ 1 0 []⟩

end TokenMacros

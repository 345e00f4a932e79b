import TokenMacros.Proofs.Expansion.Heads
import TokenMacros.Proofs.Expansion.Scan
import TokenMacros.Proofs.Rule.Closed

/-!
# Rules with closed patterns in a scan

What a rule with a closed pattern takes out of a stream is balanced, and what the scan
puts in for it has passed the check. So a scan that tries such rules at every token makes
a balanced stream of a balanced stream (`keeps_balance_of_closed`).
-/

namespace TokenMacros

variable {sets : List RuleSet} {apply : Apply} {ts : List Token} {w w' : Workspace}

/-- What a rule with a closed pattern changes is balanced. -/
theorem balanced_take_of_applyRulesToHead {rules : List Rule} {change : HeadChange}
    (hrules : ∀ rule ∈ rules, rule.pattern.closed = true)
    (h : applyRulesToHead rules ts = .ok (some change)) : Balanced (ts.take change.length) := by
  obtain ⟨rule, hmem, found, hread, -, hlength⟩ := applyRulesToHead_eq_some h
  have htaken := Pattern.balanced_of_readAt (hrules rule hmem) hread
  rwa [List.drop_zero, Nat.sub_zero, ← hlength] at htaken

theorem balanced_take_of_firstChange {lineStart : Bool} {change : HeadChange}
    (hsets : ∀ set ∈ sets, ∀ rule ∈ set.rules, rule.pattern.closed = true)
    (h : firstChange apply (sets.map .rules) lineStart ts w = .ok (some change) w') :
    Balanced (ts.take change.length) := by
  obtain ⟨head, hmem, -, w₁, hhead⟩ := firstChange_eq_some h
  obtain ⟨set, hset, rfl⟩ := List.mem_map.1 hmem
  exact balanced_take_of_applyRulesToHead (hsets set hset) (Expansion.ofExcept_eq_ok.1 hhead).1

/-- A scan with closed patterns keeps a stream balanced, splice by splice. -/
theorem balanced_of_scan_closed {limit : Nat} {r : Option (List Token)}
    (hsets : ∀ set ∈ sets, ∀ rule ∈ set.rules, rule.pattern.closed = true)
    (h : scan (firstChange apply (sets.map .rules)) limit ts w = .ok r w') (hts : Balanced ts) :
    Balanced (r.getD ts) := by
  obtain ⟨splices, hrun, -⟩ := exists_scan_iff.1 ⟨r, h, rfl⟩
  refine (hrun.invariant Balanced (fun before rest w change w' hattempt hin hstream => ?_) hts).1
  exact (balanced_take_of_firstChange hsets hattempt).replace_take hin hstream

/-- A closed pattern takes balanced tokens off any stream, balanced or not, and a scan with rules
whose patterns are closed makes balanced streams of balanced streams. -/
theorem keeps_balance_of_closed :
    (∀ (p : Pattern) ts start found, p.closed = true → p.readAt ts start = some found →
      Balanced ((ts.drop start).take (found.stop - start))) ∧
    ∀ (sets : List RuleSet) limit apply ts w r w',
      (∀ set ∈ sets, ∀ rule ∈ set.rules, rule.pattern.closed = true) →
      (Macro.heads (sets.map .rules) limit).runWith apply ts w = .ok r w' → Balanced ts →
      Balanced (r.getD ts) := by
  refine ⟨fun _ _ _ _ hp h => Pattern.balanced_of_readAt hp h, ?_⟩
  intro sets limit apply ts w r w' hsets h hts
  rw [Macro.runWith] at h
  exact balanced_of_scan_closed hsets h hts

/-! ## Cells in parentheses -/

/-- `( $( [$x:tt] ),* $[ (;) | () ] )`, whose parentheses stand around the other nodes, and what
the cells hold. -/
def cellsRule : Rule where
  pattern := [.literal ⟨.opener, "(", {}⟩,
    .repetition [.literal ⟨.opener, "[", {}⟩, .capture "x" .tree {}, .literal ⟨.closer, "]", {}⟩]
      (some ⟨.operator, ",", {}⟩) .any,
    .choice [[.literal ⟨.operator, ";", {}⟩], []] {}, .literal ⟨.closer, ")", {}⟩]
  template := [.repetition [.hole "x" {}] none]
  fits := rfl

/-- `f ([a], [{}];)` -/
def cells : List Token :=
  [⟨.name, "f", {}⟩, ⟨.opener, "(", {}⟩, ⟨.opener, "[", {}⟩, ⟨.name, "a", {}⟩,
    ⟨.closer, "]", {}⟩, ⟨.operator, ",", {}⟩, ⟨.opener, "[", {}⟩, ⟨.opener, "\x7b", {}⟩,
    ⟨.closer, "\x7d", {}⟩, ⟨.closer, "]", {}⟩, ⟨.operator, ";", {}⟩, ⟨.closer, ")", {}⟩]

theorem keeps_balance_cells : cellsRule.pattern.closed = true ∧
    (∃ found, cellsRule.pattern.readAt (⟨.closer, ")", {}⟩ :: cells) 2 = some found ∧
      Balanced (((⟨.closer, ")", {}⟩ :: cells).drop 2).take (found.stop - 2))) ∧
    ∃ out w', (Macro.heads [.rules ⟨"cells", [cellsRule]⟩] 1).run cells default =
      .ok (some out) w' ∧ Balanced out := by
  obtain ⟨hread, hscan⟩ := keeps_balance_of_closed
  have hclosed : cellsRule.pattern.closed = true := by decide
  refine ⟨hclosed, ?_, ?_⟩
  · obtain ⟨found, hfound⟩ := Option.isSome_iff_exists.1
      (show (cellsRule.pattern.readAt (⟨.closer, ")", {}⟩ :: cells) 2).isSome = true by
        decide +kernel)
    exact ⟨found, hfound, hread _ _ _ _ hclosed hfound⟩
  · obtain ⟨r, w', hrun, hsome⟩ := Expansion.exists_ok_of_passes
      (show ((Macro.heads [.rules ⟨"cells", [cellsRule]⟩] 1).run cells).Passes default
        (fun r _ => r.isSome) by decide +kernel)
    obtain ⟨out, rfl⟩ := Option.isSome_iff_exists.1 hsome
    have hsets : ∀ set ∈ [RuleSet.mk "cells" [cellsRule]], ∀ rule ∈ set.rules,
        rule.pattern.closed = true := by simpa using hclosed
    exact ⟨out, w', hrun, hscan _ 1 _ cells default _ w' hsets hrun (by decide)⟩

end TokenMacros

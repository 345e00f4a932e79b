import TokenMacros.Proofs.Expansion.Inert
import TokenMacros.Proofs.Position.Heads
import TokenMacros.Proofs.Rule.Rows

/-!
# Counting token trees

Two macros write `1 +` for every token tree of their argument, and then `0`. One takes
a tree and calls itself on those behind it, the other counts in a repetition:

    count:  [$t:tt $($rest:tt)*]: 1 + count!($($rest)*)
            []: 0
    ncount: [$($_:tt $counter:null)*]: $($counter 1 +)* 0

On a row of `n` trees the first makes `n + 1` splices, the second makes one, and they
end with the same tokens (`Expander.expand_count`).
-/

namespace TokenMacros

/-! ## The macros -/

/-- The number `1`. -/
def oneToken : Token := ⟨.number, "1", {}⟩

/-- The operator `+`. -/
def plusToken : Token := ⟨.operator, "+", {}⟩

/-- The number `0`. -/
def zeroToken : Token := ⟨.number, "0", {}⟩

/-- `1 +` as often as that, and then `0`. -/
def tally (n : Nat) : List Token :=
  (List.replicate n [oneToken, plusToken]).flatten ++ [zeroToken]

/-- The rules `[$t:tt $($rest:tt)*]: 1 + count!($($rest)*)` and `[]: 0`. -/
def countParts (operator : String) : List (List Token × List Token) :=
  [([.dollar {}, ⟨.name, "t", {}⟩, ⟨.operator, ":", {}⟩, ⟨.name, "tt", {}⟩,
      .dollar {}, ⟨.opener, "(", {}⟩, .dollar {}, ⟨.name, "rest", {}⟩, ⟨.operator, ":", {}⟩,
      ⟨.name, "tt", {}⟩, ⟨.closer, ")", {}⟩, ⟨.operator, "*", {}⟩],
    [oneToken, plusToken, ⟨.name, "count", {}⟩, ⟨.operator, operator, {}⟩, ⟨.opener, "(", {}⟩,
      .dollar {}, ⟨.opener, "(", {}⟩, .dollar {}, ⟨.name, "rest", {}⟩, ⟨.closer, ")", {}⟩,
      ⟨.operator, "*", {}⟩, ⟨.closer, ")", {}⟩]),
    ([], [zeroToken])]

/-- The rule `[$($_:tt $counter:null)*]: $($counter 1 +)* 0`. -/
def ncountParts : List (List Token × List Token) :=
  [([.dollar {}, ⟨.opener, "(", {}⟩, .dollar {}, ⟨.name, "_", {}⟩, ⟨.operator, ":", {}⟩,
      ⟨.name, "tt", {}⟩, .dollar {}, ⟨.name, "counter", {}⟩, ⟨.operator, ":", {}⟩,
      ⟨.name, "null", {}⟩, ⟨.closer, ")", {}⟩, ⟨.operator, "*", {}⟩],
    [.dollar {}, ⟨.opener, "(", {}⟩, .dollar {}, ⟨.name, "counter", {}⟩, oneToken, plusToken,
      ⟨.closer, ")", {}⟩, ⟨.operator, "*", {}⟩, zeroToken])]

/-- The name stands for a macro whose rules these tokens spell, wherever they stand. -/
def Workspace.HasRules (w : Workspace) (name : String) (parts : List (List Token × List Token)) :
    Prop :=
  ∃ set spelled, w.env.find? name = some (.rules set) ∧ bare spelled = parts ∧
    rulesOfTokens spelled = .ok set.rules

/-- `1 + count!($($rest)*)` for `$t:tt $($rest:tt)*`. -/
def countRule (operator : String) : Rule where
  pattern := [.capture "t" .tree {}, .repetition [.capture "rest" .tree {}] none .any]
  template := [.literal oneToken, .literal plusToken, .literal ⟨.name, "count", {}⟩,
    .literal ⟨.operator, operator, {}⟩, .literal ⟨.opener, "(", {}⟩,
    .repetition [.hole "rest" {}] none, .literal ⟨.closer, ")", {}⟩]
  fits := rfl

/-- `0` for nothing. -/
def zeroRule : Rule := ⟨[], [.literal zeroToken], rfl⟩

/-- `$($counter 1 +)* 0` for `$($_:tt $counter:null)*`. -/
def ncountRule : Rule where
  pattern := [.repetition [.capture "_" .tree {}, .capture "counter" .null {}] none .any]
  template := [.repetition [.hole "counter" {}, .literal oneToken, .literal plusToken] none,
    .literal zeroToken]
  fits := rfl

theorem rulesOfTokens_countParts (operator : String) :
    rulesOfTokens (countParts operator) = .ok [countRule operator, zeroRule] := rfl

theorem rulesOfTokens_ncountParts : rulesOfTokens ncountParts = .ok [ncountRule] := rfl

example : (tokenize "$t:tt $($rest:tt)*").map bare = .ok (countParts "!")[0].1 ∧
    (tokenize "1 + count!($($rest)*)").map bare = .ok (countParts "!")[0].2 := ⟨rfl, rfl⟩

example : (tokenize "$($_:tt $counter:null)*").map bare = .ok ncountParts[0].1 ∧
    (tokenize "$($counter 1 +)* 0").map bare = .ok ncountParts[0].2 := ⟨rfl, rfl⟩

/-! ## What the rules write -/

variable {operator name : String} {ts tree rest argument : List Token} {n : Nat}

/-- The trees behind the first are captured one by one. -/
theorem exists_readWhole_countRule (operator : String) {trees : List (List Token)}
    (htree : TokenTree tree) (htrees : ∀ tree ∈ trees, TokenTree tree) :
    ∃ captures : Captures,
      (countRule operator).pattern.readWhole (tree ++ trees.flatten) = some captures ∧
        captures.find? "rest" = some (.each (trees.map .once)) := by
  have hrow := read_repetition_flatten
    (fun tree behind (htree : TokenTree tree) => (Pattern.read_singleton _ _).trans
      (read_tree_of_tokenTree htree "rest" {} behind))
    htrees ((Pattern.read_singleton _ _).trans (read_tree_of_error splitTree_nil "rest" {}))
  rw [List.append_nil] at hrow
  have hread : (countRule operator).pattern.readWhole (tree ++ trees.flatten) =
      some ((Table.insert ∅ "t" (.once tree)).merge (gather [⟨"rest", 0⟩]
        (trees.map fun tree => Table.insert ∅ "rest" (.once tree)) ∅)) := by
    rw [Pattern.readWhole, countRule, Pattern.read, read_tree_of_tokenTree htree]
    simp only [Pattern.read_singleton, hrow]
    rfl
  refine ⟨_, hread, ?_⟩
  rw [Table.find?_merge (nodup_gather Table.nodup_empty),
    find?_gather_map ⟨"rest", 0⟩ (by decide) (List.mem_singleton.2 rfl)]
  simp only [Table.find?_insert_self, Option.getD_some, Option.some_or]

theorem applyRules_count_succ (operator : String) (htree : TokenTree tree) (hrest : Row n rest) :
    applyRules [countRule operator, zeroRule] (tree ++ rest) =
      .ok (some ([oneToken, plusToken, ⟨.name, "count", {}⟩, ⟨.operator, operator, {}⟩,
        ⟨.opener, "(", {}⟩] ++ rest ++ [⟨.closer, ")", {}⟩])) := by
  obtain ⟨trees, htrees, -, rfl⟩ := hrest
  obtain ⟨captures, hread, hfind⟩ := exists_readWhole_countRule operator htree htrees
  have hcount : roundCount captures [] [.hole "rest" {}] = .ok trees.length := by
    rw [roundCount_single rfl hfind, List.length_map]
  have hpieces : ∀ i (hi : i < trees.length),
      Template.write captures [.hole "rest" {}] [i] = .ok trees[i] := by
    intro i hi
    have hround : (trees.map Captured.once)[i]? = some (.once trees[i]) := by
      rw [List.getElem?_map, List.getElem?_eq_getElem hi, Option.map_some]
    rw [Template.write, TemplateNode.write, writeHole_round hfind hround]
    simp only [Template.write, Except.map, List.append_nil]
  have hfill : (countRule operator).template.fill captures =
      .ok ([oneToken, plusToken, ⟨.name, "count", {}⟩, ⟨.operator, operator, {}⟩,
        ⟨.opener, "(", {}⟩] ++ trees.flatten ++ [⟨.closer, ")", {}⟩]) := by
    simp only [Template.fill, countRule, Template.write_literal,
      Template.write_repetition hcount hpieces]
    simp [Template.write, Except.map]
  rw [applyRules, hread]
  simp only [hfill, Except.map]

theorem applyRules_count_zero (operator : String) :
    applyRules [countRule operator, zeroRule] [] = .ok (some [zeroToken]) := rfl

/-- The counter is reached once for every tree. -/
theorem exists_readWhole_ncountRule {trees : List (List Token)}
    (htrees : ∀ tree ∈ trees, TokenTree tree) :
    ∃ captures : Captures, ncountRule.pattern.readWhole trees.flatten = some captures ∧
      captures.find? "counter" = some (.each (trees.map fun _ => .once [])) := by
  have hitem : ∀ tree behind, TokenTree tree →
      Pattern.read [.capture "_" .tree {}, .capture "counter" .null {}] (tree ++ behind) =
        some ⟨(Table.insert ∅ "_" (.once tree)).merge (Table.insert ∅ "counter" (.once [])),
          tree, behind⟩ := by
    intro tree behind htree
    have hnull : (PatternNode.capture "counter" .null {}).read behind =
        some ⟨Table.insert ∅ "counter" (.once []), [], behind⟩ := rfl
    rw [Pattern.read, read_tree_of_tokenTree htree]
    simp only [Pattern.read_singleton, hnull, List.append_nil]
  have hstop : Pattern.read [.capture "_" .tree {}, .capture "counter" .null {}] [] = none := rfl
  have hrow := read_repetition_flatten hitem htrees hstop
  rw [List.append_nil] at hrow
  have hread : ncountRule.pattern.readWhole trees.flatten =
      some (gather [⟨"_", 0⟩, ⟨"counter", 0⟩] (trees.map fun tree =>
        (Table.insert ∅ "_" (.once tree)).merge (Table.insert ∅ "counter" (.once []))) ∅) := by
    rw [Pattern.readWhole, ncountRule, Pattern.read_singleton]
    simp only [hrow]
    rfl
  refine ⟨_, hread, ?_⟩
  rw [find?_gather_map ⟨"counter", 0⟩ (by decide) (List.mem_cons_of_mem _ (List.mem_singleton.2 rfl))]
  rfl

theorem applyRules_ncount (h : Row n ts) : applyRules [ncountRule] ts = .ok (some (tally n)) := by
  obtain ⟨trees, htrees, rfl, rfl⟩ := h
  obtain ⟨captures, hread, hfind⟩ := exists_readWhole_ncountRule htrees
  have hlen : (List.replicate trees.length [oneToken, plusToken]).length =
      (trees.map fun _ => Captured.once []).length := by
    rw [List.length_replicate, List.length_map]
  have hcount : roundCount captures []
      [.hole "counter" {}, .literal oneToken, .literal plusToken] =
        .ok (List.replicate trees.length [oneToken, plusToken]).length := by
    rw [hlen]
    exact roundCount_single rfl hfind
  have hpieces : ∀ i (hi : i < (List.replicate trees.length [oneToken, plusToken]).length),
      Template.write captures [.hole "counter" {}, .literal oneToken, .literal plusToken] [i] =
        .ok (List.replicate trees.length [oneToken, plusToken])[i] := by
    intro i hi
    have hround : (trees.map fun _ => Captured.once [])[i]? = some (.once []) := by
      rw [List.length_replicate] at hi
      rw [List.getElem?_map, List.getElem?_eq_getElem hi, Option.map_some]
    rw [Template.write, TemplateNode.write, writeHole_round hfind hround, List.getElem_replicate]
    rfl
  have hfill : ncountRule.template.fill captures = .ok (tally trees.length) := by
    rw [Template.fill, ncountRule, Template.write_repetition hcount hpieces]
    rfl
  rw [applyRules, hread]
  simp only [hfill, Except.map]

/-! ## Rules in other places -/

theorem tokenTree_bare_iff : TokenTree (bare ts) ↔ TokenTree ts := by
  have hsplit (ts : List Token) : TokenTree ts ↔ splitTree ts = .ok (ts, []) := by
    rw [splitTree_eq_ok_iff, List.append_nil]
    exact (and_iff_left rfl).symm
  rw [hsplit, hsplit, splitTree_bare]
  constructor
  · intro h
    cases hs : splitTree ts with
    | error e =>
      rw [hs] at h
      cases h
    | ok p =>
      obtain ⟨tree, rest⟩ := p
      rw [hs] at h
      have hrest : bare rest = [] := congrArg Prod.snd (Except.ok.inj h)
      obtain rfl := List.map_eq_nil_iff.1 hrest
      have happend := splitTree_append hs
      rw [List.append_nil] at happend
      rw [happend]
  · intro h
    rw [h]
    rfl

theorem row_bare_iff : Row n (bare ts) ↔ Row n ts := by
  induction n generalizing ts with
  | zero =>
    rw [row_zero_iff, row_zero_iff]
    exact List.map_eq_nil_iff
  | succ n ih =>
    rw [row_succ_iff, row_succ_iff]
    constructor
    · rintro ⟨_, _, htree, hrest, happend⟩
      obtain ⟨tree, rest, rfl, rfl, rfl⟩ := List.map_eq_append_iff.1 happend
      exact ⟨tree, rest, tokenTree_bare_iff.1 htree, ih.1 hrest, rfl⟩
    · rintro ⟨tree, rest, htree, hrest, rfl⟩
      exact ⟨bare tree, bare rest, tokenTree_bare_iff.2 htree, ih.2 hrest, bare_append tree rest⟩

/-- What rules write that are spelled elsewhere is the same up to positions. -/
theorem Workspace.HasRules.exists_applyRules {w : Workspace}
    {parts : List (List Token × List Token)} {rules : List Rule} {written : List Token}
    (h : w.HasRules name parts) (hrules : rulesOfTokens parts = .ok rules)
    (happly : applyRules rules (bare argument) = .ok (some written)) :
    ∃ set out, w.env.find? name = some (.rules set) ∧
      applyRules set.rules argument = .ok (some out) ∧ bare out = written := by
  obtain ⟨set, spelled, hfind, rfl, hspelled⟩ := h
  rw [rulesOfTokens_bare, hspelled, bare_ok, Except.ok.injEq] at hrules
  rw [← hrules, applyRules_bare] at happly
  cases happlied : applyRules set.rules argument with
  | error e =>
    rw [happlied] at happly
    cases happly
  | ok found =>
    rw [happlied, bare_ok, Except.ok.injEq] at happly
    cases found with
    | none => cases happly
    | some out => exact ⟨set, out, hfind, happlied, Option.some.inj happly⟩

/-! ## Calls -/

/-- `name!(argument)`, with that operator. -/
inductive InlineCall (operator name : String) (argument : List Token) : List Token → Prop
  | mk {word op : Token} {group : List Token} : word.isWord name = true →
      op.isOperator operator = true → Enclosed "(" ")" argument group →
      InlineCall operator name argument (word :: op :: group)

theorem InlineCall.balanced {call : List Token} (h : InlineCall operator name argument call) :
    Balanced call := by
  obtain ⟨hword, hop, hgroup⟩ := h
  exact .plain (role_of_isWord hword) (.plain (role_of_isOperator hop) hgroup.tokenTree.balanced)

/-- What is a call up to positions is a call. -/
theorem InlineCall.exists_of_bare {call : List Token}
    (h : InlineCall operator name argument (bare call)) :
    ∃ body, bare body = argument ∧ InlineCall operator name body call := by
  generalize hbare : bare call = tokens at h
  obtain ⟨hword, hop, ho, hbody, hc⟩ := h
  obtain ⟨word, behind, rfl, rfl, hbehind⟩ := List.map_eq_cons_iff.1 hbare
  obtain ⟨op, group, rfl, rfl, hgroup⟩ := List.map_eq_cons_iff.1 hbehind
  obtain ⟨inside, last, rfl, hinside, hlast⟩ := List.map_eq_append_iff.1 hgroup
  obtain ⟨opener, body, rfl, rfl, rfl⟩ := List.map_eq_cons_iff.1 hinside
  obtain ⟨closer, rfl, rfl⟩ := List.map_eq_singleton_iff.1 hlast
  obtain ⟨n, hrow⟩ := balanced_iff_row.1 hbody
  exact ⟨body, rfl, .mk hword hop (.mk ho (row_bare_iff.1 hrow).balanced hc)⟩

/-- Nothing is counted as `0`. -/
theorem Workspace.HasRules.exists_apply_nil {w : Workspace}
    (h : w.HasRules "count" (countParts operator)) :
    ∃ set zero, w.env.find? "count" = some (.rules set) ∧
      applyRules set.rules [] = .ok (some [zero]) ∧ bare zero = zeroToken := by
  have happly : applyRules [countRule operator, zeroRule] (bare []) = .ok (some [zeroToken]) :=
    applyRules_count_zero operator
  obtain ⟨set, out, hfind, happlied, hout⟩ :=
    h.exists_applyRules (rulesOfTokens_countParts operator) happly
  obtain ⟨zero, rfl, hzero⟩ := List.map_eq_singleton_iff.1 hout
  exact ⟨set, zero, hfind, happlied, hzero⟩

/-- The first tree is counted as `1 +`, and a call counts those behind it. -/
theorem Workspace.HasRules.exists_apply_row {w : Workspace}
    (h : w.HasRules "count" (countParts operator)) (hrow : Row (n + 1) argument) :
    ∃ set one plus call rest, w.env.find? "count" = some (.rules set) ∧
      applyRules set.rules argument = .ok (some (one :: plus :: call)) ∧ bare one = oneToken ∧
        bare plus = plusToken ∧ Row n rest ∧ InlineCall operator "count" rest call := by
  obtain ⟨tree, rest, htree, hrest, hargument⟩ := row_succ_iff.1 (row_bare_iff.2 hrow)
  have happly := applyRules_count_succ operator htree hrest
  rw [← hargument] at happly
  obtain ⟨set, out, hfind, happlied, hout⟩ :=
    h.exists_applyRules (rulesOfTokens_countParts operator) happly
  obtain ⟨one, out, rfl, hone, hout⟩ := List.map_eq_cons_iff.1 hout
  obtain ⟨plus, call, rfl, hplus, hcall⟩ := List.map_eq_cons_iff.1 hout
  have hwritten : InlineCall operator "count" rest (bare call) := by
    rw [show bare call = _ from hcall]
    exact .mk rfl (by simp [Token.isOperator]) (.mk rfl hrest.balanced rfl)
  obtain ⟨body, rfl, hnext⟩ := hwritten.exists_of_bare
  exact ⟨set, one, plus, call, body, hfind, happlied, hone, hplus, row_bare_iff.1 hrest, hnext⟩

/-! ## Attempts -/

/-- No head starts with the token. -/
def Token.Quiet (t : Token) : Prop := t.kind ≠ .name ∧ t.isOperator "@" = false

instance (t : Token) : Decidable t.Quiet := inferInstanceAs (Decidable (_ ∧ _))

theorem quiet_of_bare {t u : Token} (h : bare t = u) (hu : u.Quiet) : t.Quiet := by
  rw [← h] at hu
  exact hu

theorem plain_of_bare {t u : Token} (h : bare t = u) (hu : u.role = .plain) : t.role = .plain := by
  rw [← h] at hu
  exact hu

section attempts

variable {e : Expander} {set : RuleSet} {lineStart : Bool} {t : Token} {next call out : List Token}
  {w : Workspace}

theorem attempt_of_quiet (ht : t.Quiet) : e.attempt lineStart (t :: next) w = .ok none w := by
  obtain ⟨hname, hsign⟩ := ht
  refine firstChange_of_none fun head hhead _ => ?_
  simp only [Expander.heads, List.mem_cons, List.not_mem_nil, or_false] at hhead
  rcases hhead with rfl | rfl | rfl
  · refine declareHead_of_read_none (declaration_read_of_not_starts ?_) w
    cases next <;> simp [startsDeclaration, Token.isWord, hname]
  · exact decoratorHead_of_read_none (decoration_read_of_sign hsign next) w
  · refine callHead_of_not_starts ?_
    cases next <;> simp [startsCall, hname]

theorem splitArgument_of_enclosed {body group : List Token} (h : Enclosed "(" ")" body group)
    (rest : List Token) : splitArgument (group ++ rest) = .ok (some ((body, false), rest)) := by
  obtain ⟨t, tail, hgroup, ho⟩ := h.starts
  have hsplit := splitTree_of_tokenTree h.tokenTree rest
  rw [hgroup, List.cons_append] at hsplit ⊢
  rw [splitArgument, ho, Bool.true_or, Bool.true_or, if_pos rfl, hsplit, ← hgroup]
  simp only [Except.map, h.interior_eq]

/-- A call at the end of a stream becomes what the rules of its macro write. -/
theorem attempt_of_inlineCall (hcall : InlineCall e.settings.operator name argument call)
    (hname : name ≠ "macro_rules") (hfind : w.env.find? name = some (.rules set))
    (happly : applyRules set.rules argument = .ok (some out)) :
    e.attempt lineStart call w = .ok (some ⟨call.length, out⟩) w := by
  obtain @⟨word, op, group, hword, hop, hgroup⟩ := hcall
  obtain ⟨hkind, rfl⟩ := Token.isWord_iff.1 hword
  have hsplit := splitArgument_of_enclosed hgroup []
  rw [List.append_nil] at hsplit
  have hinvoke : invoke (Macro.runWithin (nestingLimit - 1)) word argument w = .ok out w :=
    (invoke_rules_eq_ok_iff hfind).2 ⟨happly, rfl⟩
  have hchange : callHead (Macro.runWithin (nestingLimit - 1)) e.settings.operator
      (word :: op :: group) w = .ok (some ⟨group.length + 2, out⟩) w := by
    rw [callHead, if_pos ⟨hkind, hop⟩, hsplit]
    refine (Expansion.bind_of_ok rfl).trans ((Expansion.bind_of_ok hinvoke).trans ?_)
    simp only [List.length_nil, Nat.sub_zero, Bool.false_eq_true, if_false, List.append_nil]
    rfl
  show firstChange _ ([.declaration e.settings.operator, .decorator e.settings.operator] ++
    .call e.settings.operator :: []) lineStart (word :: op :: group) w = _
  refine firstChange_of_some (fun head hhead _ => ?_) (fun h => nomatch h) hchange
  simp only [List.mem_cons, List.not_mem_nil, or_false] at hhead
  rcases hhead with rfl | rfl
  · refine declareHead_of_read_none (declaration_read_of_not_starts ?_) w
    simp [startsDeclaration, Token.isWord, hname]
  · exact decoratorHead_of_read_none
      (decoration_read_of_sign (by simp [Token.isOperator, hkind]) (op :: group)) w

end attempts

/-! ## Runs -/

section runs

variable {e : Expander} {set : RuleSet} {w w' : Workspace} {splices : List Splice}
  {before quiet call out done : List Token}

theorem scanRun_of_quiet (hquiet : ∀ t ∈ quiet, t.Quiet) :
    ScanRun e.attempt before quiet w [] (before.reverse ++ quiet) w :=
  .of_unchanged fun _ t _ hsplit => attempt_of_quiet (hquiet t (hsplit ▸ List.mem_append_cons_self))

/-- Behind quiet tokens, a call at the end of the stream becomes what the rules write, and the scan
goes on one token before it. -/
theorem exists_scanRun_call (hcall : InlineCall e.settings.operator name argument call)
    (hname : name ≠ "macro_rules") (hfind : w.env.find? name = some (.rules set))
    (happly : applyRules set.rules argument = .ok (some out)) (hbalanced : Balanced out)
    (hquiet : ∀ t ∈ quiet, t.Quiet)
    (hrun : ScanRun e.attempt (quiet.reverse ++ before).tail
      ((quiet.reverse ++ before).head?.toList ++ out) w splices done w') :
    ∃ s, ScanRun e.attempt before (quiet ++ call) w (s :: splices) done w' := by
  have hattempt : e.attempt (atLineStart (quiet.reverse ++ before)) call w =
      .ok (some ⟨call.length, out⟩) w := attempt_of_inlineCall hcall hname hfind happly
  have hpending : (HeadChange.splice ⟨call.length, out⟩ (quiet.reverse ++ before) call).pending =
      (quiet.reverse ++ before).head?.toList ++ out := by
    simp only [HeadChange.splice, Splice.pending, List.drop_length, List.append_nil]
  rw [← hpending] at hrun
  obtain @⟨word, op, group, -, -, -⟩ := hcall
  have hsplice := ScanRun.splice hattempt hbalanced hrun
  exact ⟨_, hsplice.pass_append fun _ t _ hsplit =>
    attempt_of_quiet (hquiet t (hsplit ▸ List.mem_append_cons_self))⟩

/-- The stack of what was passed, with its first token put back, spells the same. -/
theorem reverse_tail_append_head (before rest : List Token) :
    before.tail.reverse ++ (before.head?.toList ++ rest) = before.reverse ++ rest := by
  cases before <;> simp

theorem quiet_tail_append_head {rest : List Token} (hbefore : ∀ t ∈ before, t.Quiet)
    (hrest : ∀ t ∈ rest, t.Quiet) :
    ∀ t ∈ before.tail ++ (before.head?.toList ++ rest), t.Quiet := by
  cases before with
  | nil => exact hrest
  | cons first before =>
    rw [List.forall_mem_cons] at hbefore
    intro t ht
    simp only [List.tail_cons, List.head?_cons, Option.toList_some, List.mem_append,
      List.mem_singleton] at ht
    rcases ht with ht | rfl | ht
    · exact hbefore.2 t ht
    · exact hbefore.1
    · exact hrest t ht

theorem forall_quiet_swap (h : ∀ t ∈ before ++ quiet, t.Quiet) :
    ∀ t ∈ quiet.reverse ++ before, t.Quiet := fun t ht => h t (by
  simpa [or_comm] using ht)

/-- Behind quiet tokens, a call of `count` on a row of `n` trees takes `n + 1` splices. Each of them
but the last leaves `1 +`, which is quiet, and a call on one tree less. -/
theorem exists_scanRun_count (hrules : w.HasRules "count" (countParts e.settings.operator))
    (hrow : Row n argument) (hcall : InlineCall e.settings.operator "count" argument call)
    (hquiet : ∀ t ∈ before ++ quiet, t.Quiet) :
    ∃ splices done, ScanRun e.attempt before (quiet ++ call) w splices done w ∧
      splices.length = n + 1 ∧ bare done = bare (before.reverse ++ quiet) ++ tally n := by
  induction n generalizing argument call before quiet with
  | zero =>
    obtain rfl := row_zero_iff.1 hrow
    obtain ⟨set, zero, hfind, happly, hzero⟩ := hrules.exists_apply_nil
    have hzeroQuiet : zero.Quiet := quiet_of_bare hzero (by decide)
    have hpending := quiet_tail_append_head (forall_quiet_swap hquiet)
      (List.forall_mem_singleton.2 hzeroQuiet)
    have hrun : ScanRun e.attempt (quiet.reverse ++ before).tail
        ((quiet.reverse ++ before).head?.toList ++ [zero]) w [] _ w :=
      scanRun_of_quiet fun t ht => hpending t (List.mem_append_right _ ht)
    rw [reverse_tail_append_head] at hrun
    obtain ⟨s, hscan⟩ := exists_scanRun_call hcall (by decide) hfind happly
      (.plain (plain_of_bare hzero rfl) .nil)
      (fun t ht => hquiet t (List.mem_append_right _ ht)) hrun
    refine ⟨[s], _, hscan, rfl, ?_⟩
    rw [List.reverse_append, List.reverse_reverse, bare_append _ [zero], bare_cons, hzero]
    rfl
  | succ n ih =>
    obtain ⟨set, one, plus, next, rest, hfind, happly, hone, hplus, hrest, hnext⟩ :=
      hrules.exists_apply_row hrow
    have honeQuiet : one.Quiet := quiet_of_bare hone (by decide)
    have hplusQuiet : plus.Quiet := quiet_of_bare hplus (by decide)
    have hpending := quiet_tail_append_head (forall_quiet_swap hquiet)
      (List.forall_mem_cons.2 ⟨honeQuiet, List.forall_mem_singleton.2 hplusQuiet⟩)
    obtain ⟨splices, done, hrun, hlen, hdone⟩ := ih hrest hnext hpending
    rw [List.append_assoc] at hrun
    obtain ⟨s, hscan⟩ := exists_scanRun_call hcall (by decide) hfind happly
      (.plain (plain_of_bare hone rfl) (.plain (plain_of_bare hplus rfl) hnext.balanced))
      (fun t ht => hquiet t (List.mem_append_right _ ht)) hrun
    refine ⟨s :: splices, done, hscan, congrArg Nat.succ hlen, ?_⟩
    rw [hdone, reverse_tail_append_head, List.reverse_append, List.reverse_reverse,
      bare_append _ [one, plus], bare_cons, bare_cons, hone, hplus, List.append_assoc]
    rfl

theorem mem_tally {t : Token} (h : t ∈ tally n) :
    t = oneToken ∨ t = plusToken ∨ t = zeroToken := by
  rw [tally, List.mem_append, List.mem_singleton] at h
  rcases h with h | rfl
  · obtain ⟨round, hround, ht⟩ := List.mem_flatten.1 h
    rw [List.eq_of_mem_replicate hround] at ht
    simp only [List.mem_cons, List.not_mem_nil, or_false] at ht
    exact ht.imp_right .inl
  · exact .inr (.inr rfl)

/-- A call of `ncount` takes one splice, whose tokens are quiet. -/
theorem exists_scanRun_ncount (hrules : w.HasRules "ncount" ncountParts)
    (hrow : Row n argument) (hcall : InlineCall e.settings.operator "ncount" argument call) :
    ∃ s done, ScanRun e.attempt [] call w [s] done w ∧ bare done = tally n := by
  obtain ⟨set, out, hfind, happly, hout⟩ := hrules.exists_applyRules rulesOfTokens_ncountParts
    (applyRules_ncount (row_bare_iff.2 hrow))
  have htally : ∀ t ∈ out, bare t = oneToken ∨ bare t = plusToken ∨ bare t = zeroToken := by
    intro t ht
    have hmem : bare t ∈ bare out := List.mem_map_of_mem ht
    rw [hout] at hmem
    exact mem_tally hmem
  have hquiet : ∀ t ∈ out, t.Quiet := by
    intro t ht
    rcases htally t ht with h | h | h <;> exact quiet_of_bare h (by decide)
  have hbalanced : Balanced out := by
    refine balanced_of_plain fun t ht => ?_
    rcases htally t ht with h | h | h <;> exact plain_of_bare h rfl
  have hrun : ScanRun e.attempt [] out w [] out w := scanRun_of_quiet hquiet
  have hnil : ∀ t ∈ ([] : List Token), t.Quiet := List.forall_mem_nil _
  have hscan : ∃ s, ScanRun e.attempt [] ([] ++ call) w [s] out w :=
    exists_scanRun_call hcall (by decide) hfind happly hbalanced hnil hrun
  obtain ⟨s, hscan⟩ := hscan
  exact ⟨s, out, hscan, hout⟩

end runs

/-! ## Expansions -/

section expansions

variable {w : Workspace} {call : List Token}

theorem InlineCall.runUnitTop_eq_none (h : InlineCall operator name argument call)
    (find? : String → Option UnitStep) : runUnitTop operator find? call w = .ok none w := by
  obtain @⟨word, op, group, hword, -, -⟩ := h
  have hkind := (Token.isWord_iff.1 hword).1
  refine runUnitTop_of_read_none ?_
  rw [splitDocstring, if_neg (by simp [hkind])]
  unfold UnitInvocation.read
  split
  · next heq =>
    cases heq
    rw [if_neg (by simp [Token.isOperator, hkind])]
  · rfl

/-- `count` and `ncount` end with the same tokens, `1 +` for each tree and `0`. The one needs a
splice more than there are trees, the other needs one. -/
theorem Expander.expand_count (e : Expander) {w : Workspace}
    (hcount : w.HasRules "count" (countParts e.settings.operator))
    (hncount : w.HasRules "ncount" ncountParts) (hrow : Row n ts) :
    (∀ call, InlineCall e.settings.operator "count" ts call →
      (n + 1 ≤ e.settings.spliceLimit →
        ∃ out, e.expand call w = .ok out w ∧ out.map Token.bare = tally n) ∧
      (e.settings.spliceLimit < n + 1 → ∃ position w',
        e.expand call w = .error ⟨.tooManySplices e.settings.spliceLimit, position⟩ w')) ∧
    ∀ call, InlineCall e.settings.operator "ncount" ts call → 1 ≤ e.settings.spliceLimit →
      ∃ out, e.expand call w = .ok out w ∧ out.map Token.bare = tally n := by
  constructor
  · intro call hcall
    have htop := hcall.runUnitTop_eq_none (w := w) e.unitStep?
    have hquiet : ∀ t ∈ ([] ++ [] : List Token), t.Quiet := List.forall_mem_nil _
    obtain ⟨splices, done, hrun, hlen, hdone⟩ := exists_scanRun_count hcount hrow hcall hquiet
    constructor
    · intro hlimit
      exact ⟨done, expand_eq_ok_iff.2 ⟨splices, hcall.balanced, none, w, htop, hrun,
        hlen ▸ hlimit⟩, hdone⟩
    · intro hlimit
      obtain ⟨position, w', hscan⟩ := scan_eq_tooManySplices hrun (hlen ▸ hlimit)
      exact ⟨position, w', expand_eq_error_of_scan hcall.balanced htop hscan⟩
  · intro call hcall hlimit
    have htop := hcall.runUnitTop_eq_none (w := w) e.unitStep?
    obtain ⟨s, done, hrun, hdone⟩ := exists_scanRun_ncount hncount hrow hcall
    exact ⟨done, expand_eq_ok_iff.2 ⟨[s], hcall.balanced, none, w, htop, hrun, hlimit⟩, hdone⟩

end expansions

/-! ## A row of two trees -/

/-- A workspace in which both macros are defined. -/
def countMacros : Workspace where
  env := ((default : Environment).define "count"
    (.rules ⟨"count", [countRule "!", zeroRule]⟩)).define "ncount" (.rules ⟨"ncount", [ncountRule]⟩)

/-- The group `( count ! ( ) )`. -/
def innerCall : List Token :=
  [⟨.opener, "(", {}⟩, ⟨.name, "count", {}⟩, ⟨.operator, "!", {}⟩, ⟨.opener, "(", {}⟩,
    ⟨.closer, ")", {}⟩, ⟨.closer, ")", {}⟩]

/-- The stream `x ( count ! ( ) )`, whose second tree holds a call. -/
def twoTrees : List Token := ⟨.name, "x", {}⟩ :: innerCall

/-- The call of a macro on these trees. -/
def callTwoTrees (name : String) : List Token :=
  [⟨.name, name, {}⟩, ⟨.operator, "!", {}⟩, ⟨.opener, "(", {}⟩] ++ twoTrees ++ [⟨.closer, ")", {}⟩]

theorem hasRules_countMacros : countMacros.HasRules "count" (countParts "!") ∧
    countMacros.HasRules "ncount" ncountParts :=
  ⟨⟨⟨"count", [countRule "!", zeroRule]⟩, countParts "!", rfl, rfl, rfl⟩,
    ⟨⟨"ncount", [ncountRule]⟩, ncountParts, rfl, rfl, rfl⟩⟩

theorem row_twoTrees : Row 2 twoTrees := by
  refine ⟨[[⟨.name, "x", {}⟩], innerCall], ?_, rfl, rfl⟩
  have hinner : Balanced [⟨.name, "count", {}⟩, ⟨.operator, "!", {}⟩, ⟨.opener, "(", {}⟩,
    ⟨.closer, ")", {}⟩] := by decide
  exact List.forall_mem_cons.2 ⟨.leaf rfl, List.forall_mem_singleton.2
    (.group (by decide : Token.role _ = .opens .paren) (by decide) hinner)⟩

theorem inlineCall_twoTrees (name : String) :
    InlineCall "!" name twoTrees (callTwoTrees name) :=
  .mk (by simp [Token.isWord]) (by decide) (.mk (by decide) row_twoTrees.balanced (by decide))

/-- Three splices count two trees, two do not; in a repetition one is enough. -/
theorem expand_count_twoTrees :
    (∃ out, Expander.expand ⟨⟨3, "!"⟩, ∅⟩ (callTwoTrees "count") countMacros =
      .ok out countMacros ∧ out.map Token.bare = tally 2) ∧
    (∃ position w', Expander.expand ⟨⟨2, "!"⟩, ∅⟩ (callTwoTrees "count") countMacros =
      .error ⟨.tooManySplices 2, position⟩ w') ∧
    ∃ out, Expander.expand ⟨⟨1, "!"⟩, ∅⟩ (callTwoTrees "ncount") countMacros =
      .ok out countMacros ∧ out.map Token.bare = tally 2 := by
  obtain ⟨hcount, hncount⟩ := hasRules_countMacros
  refine ⟨?_, ?_, ?_⟩
  · exact ((Expander.expand_count ⟨⟨3, "!"⟩, ∅⟩ hcount hncount row_twoTrees).1 _
      (inlineCall_twoTrees "count")).1 (by decide)
  · exact ((Expander.expand_count ⟨⟨2, "!"⟩, ∅⟩ hcount hncount row_twoTrees).1 _
      (inlineCall_twoTrees "count")).2 (by decide)
  · exact (Expander.expand_count ⟨⟨1, "!"⟩, ∅⟩ hcount hncount row_twoTrees).2 _
      (inlineCall_twoTrees "ncount") (by decide)

end TokenMacros

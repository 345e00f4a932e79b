import TokenMacros.Proofs.Cursor.Parsing
import TokenMacros.Rule.Declaration

/-!
# Declarations by cursor

A declaration can be told by two patterns, one for its head and the block of its rules,

    macro_rules <operator> $name:name : $($^)? $> $($rules:tt)* $<

and one for the rules in the block,

    $( [ $($matcher:tt)* ] : $[ ( $($^)? $> $($transcriber:tt)* $< )
                              | ( $($[!$^] $transcriber:tt)* $($^)? ) ] )+

Walked to with a cursor, it is the declaration that is read, and ends where that ends:

    start ≤ ts.length → Declaration.walkAt operator ts start =
      Walk.within (Declaration.readAt operator ts start)   (Declaration.walkAt_eq)

Behind other tokens everything that is read with a cursor is the same, with all indexes
moved by the number of those tokens (`walk_append`).
-/

namespace TokenMacros

/-! ## Algorithm -/

/-- `$($^)?` -/
def newlineNode : PatternNode := .repetition [.escape .newline] none .optional

/-- `$($^)? $> $($name:tt)* $<` -/
def blockPattern (name : String) : Pattern :=
  [newlineNode, .escape .indent, treesNode name, .escape .dedent]

/-- `$($[!$^] $transcriber:tt)* $($^)?` -/
def linePattern : Pattern :=
  [.repetition [.lookahead [.escape .newline], .capture "transcriber" .tree {}] none .any,
    newlineNode]

/-- `[ $($matcher:tt)* ] : $[ (block) | (line) ]` -/
def rulePattern : Pattern :=
  [.literal ⟨.opener, "[", {}⟩, treesNode "matcher", .literal ⟨.closer, "]", {}⟩,
    .literal ⟨.operator, ":", {}⟩, .choice [blockPattern "transcriber", linePattern] {}]

/-- One or more rules. -/
def rulesPattern : Pattern := [.repetition rulePattern none .atLeastOne]

/-- `macro_rules <operator> $name:name : $($^)? $> $($rules:tt)* $<` -/
def declarationPattern (operator : String) : Pattern :=
  .literal ⟨.name, "macro_rules", {}⟩ :: .literal ⟨.operator, operator, {}⟩ ::
    .capture "name" .name {} :: .literal ⟨.operator, ":", {}⟩ :: blockPattern "rules"

/-- The rule that two lists of tokens spell. -/
def walkRule (tokens : List Token × List Token) : Walk Rule := do
  let pattern ← Pattern.parseAt (tokens.1.length + 1) tokens.1 0
  let template ← Template.parseAt (tokens.2.length + 1) tokens.2 0
  Walk.within (Rule.make pattern template)

/-- The tokens of pattern and template of each rule that was captured. -/
def rulesIn (captures : Captures) : List (List Token × List Token) :=
  ((captures.rounds "matcher").zip (captures.rounds "transcriber")).map fun p =>
    (p.1.flatten, p.2.flatten)

namespace Declaration

/-- The declaration at a cursor, and the cursor behind its last token. -/
def walkAt (operator : String) (ts : List Token) (start : Nat) :
    Walk (Option (Declaration × Nat)) :=
  match ts[start]?, ts[start + 1]? with
  | some keyword, some op => do
    if keyword.isWord "macro_rules" ∧ op.isOperator operator then
      match ← (declarationPattern operator).walk ts start with
      | none => .error (.fault ⟨.malformed (.badDeclaration operator), keyword.position⟩)
      | some found =>
        let name ← found.captures.token "name"
        let body := found.captures.tokens "rules"
        match ← rulesPattern.walkWhole body with
        | none => .error (.fault ⟨.malformed (.badRules operator name.text),
            (body.head?.map Token.position).getD keyword.position⟩)
        | some captures =>
          let rules ← walkEach walkRule (rulesIn captures)
          return some (⟨name.text, rules⟩, found.stop)
    else return none
  | _, _ => return none

end Declaration

variable {ts behind rest body : List Token}

/-! ## Blocks and lines -/

/-- A newline that may be missing is skipped. -/
theorem finds_newline (nodes : Pattern) (ts : List Token) :
    Pattern.finds (newlineNode :: nodes) ts =
      joinFinds ∅ (Pattern.finds nodes (skipNewline ts)) := by
  rw [newlineNode]
  cases ts with
  | nil =>
    rw [Pattern.finds_optional_of_none rfl]
    rfl
  | cons t rest =>
    rw [skipNewline]
    have hescape : Pattern.finds [.escape .newline] (t :: rest) = _ := Pattern.finds_escape .newline
    by_cases ht : t.kind = .newline
    · rw [if_pos (show t.kind = Escape.newline.kind from ht)] at hescape
      rw [if_pos ht, Pattern.finds_optional_of_some hescape]
      rfl
    · rw [if_neg (show ¬ t.kind = Escape.newline.kind from ht)] at hescape
      rw [if_neg ht, Pattern.finds_optional_of_none hescape]
      rfl

theorem splitBlock_eq (ts : List Token) : splitBlock ts = splitEnclosed (·.kind == .indent) ts := by
  cases ts with
  | nil => rfl
  | cons t rest =>
    rw [splitBlock, splitEnclosed]
    by_cases hindent : t.kind = .indent
    · cases splitTree (t :: rest) <;> simp [hindent]
    · simp [hindent]

theorem takesOne_indent : (PatternNode.escape .indent).TakesOne (·.kind == .indent) :=
  takesOne_escape .indent

theorem takesOne_dedent : (PatternNode.escape .dedent).TakesOne (·.kind == .dedent) :=
  takesOne_escape .dedent

theorem role_of_beq_indent {t : Token} (h : (t.kind == .indent) = true) :
    t.role = .opens .indent := by
  simp [Token.role, beq_iff_eq.1 h]

theorem closes_indent_iff_beq {t : Token} :
    t.role = .closes .indent ↔ (t.kind == .dedent) = true := by
  rw [closes_indent_iff, beq_iff_eq]

theorem finds_block (name : String) (ts : List Token) : (blockPattern name).finds ts =
    (splitBlock (skipNewline ts)).map fun block =>
      ((∅ : Captures).insert name (capturedTrees block.1), block.2) := by
  rw [blockPattern, finds_newline, splitBlock_eq, Pattern.finds_group takesOne_indent
    takesOne_dedent role_of_beq_indent closes_indent_iff_beq]
  cases splitEnclosed (·.kind == .indent) (skipNewline ts) <;> rfl

theorem balanced_of_splitBlock (h : splitBlock ts = some (body, rest)) : Balanced body := by
  rw [splitBlock_eq] at h
  obtain ⟨-, -, -, -, hbody, -⟩ :=
    (splitEnclosed_eq_some_iff role_of_beq_indent closes_indent_iff_beq).1 h
  exact hbody

/-- A tree that does not start with a newline. -/
theorem read_lineTree (us : List Token) :
    Pattern.read [.lookahead [.escape .newline], .capture "transcriber" .tree {}] us =
      if us.head?.all (·.kind != .newline) then
        (splitTree us).toOption.map fun p =>
          ⟨(∅ : Captures).insert "transcriber" (.once p.1), p.1, p.2⟩
      else none := by
  cases us with
  | nil => rfl
  | cons t rest =>
    have hlookahead : (PatternNode.lookahead [.escape .newline]).read (t :: rest) =
        if t.kind = .newline then none else some ⟨∅, [], t :: rest⟩ := by
      rw [PatternNode.read, Pattern.read_singleton, PatternNode.read.eq_def]
      simp only [Escape.kind]
      by_cases ht : t.kind = .newline
      · simp only [ht, if_true]
      · simp only [ht, if_false]
    rw [Pattern.read, hlookahead, List.head?_cons, Option.all_some]
    by_cases ht : t.kind = .newline
    · simp [ht]
    · simp only [ht, if_false, bne_iff_ne, ne_eq, not_false_eq_true, if_true,
        Pattern.read_singleton]
      rw [PatternNode.read, Fragment.take]
      cases (splitTree (t :: rest)).toOption <;> rfl

theorem finds_line (ts : List Token) : linePattern.finds ts =
    some ((∅ : Captures).insert "transcriber" (.each
      ((splitTreesFrom (·.kind != .newline) ts.length ts).1.map .once)),
      skipNewline (splitTreesFrom (·.kind != .newline) ts.length ts).2) := by
  obtain ⟨trees, rest, hsplit⟩ : ∃ trees rest,
      splitTreesFrom (·.kind != .newline) ts.length ts = (trees, rest) := ⟨_, _, rfl⟩
  have hrounds : readRounds
      (Pattern.read [.lookahead [.escape .newline], .capture "transcriber" .tree {}]) none
      (ts.length + 1) none ts = ⟨(splitTreesFrom (·.kind != .newline) ts.length ts).1.map
        fun tree => (∅ : Captures).insert "transcriber" (.once tree), _, _⟩ :=
    readRounds_splitTrees read_lineTree (Nat.le_refl _) (Nat.lt_add_one _)
  rw [hsplit] at hrounds
  have hread : (PatternNode.repetition
      [.lookahead [.escape .newline], .capture "transcriber" .tree {}] none .any).read ts =
        some ⟨(∅ : Captures).insert "transcriber" (.each (trees.map .once)), trees.flatten, rest⟩ := by
    rw [PatternNode.read, readRepetition_eq_some, Quantifier.most, hrounds]
    refine ⟨Nat.zero_le _, ?_⟩
    rw [← gather_once]
    rfl
  rw [linePattern, Pattern.finds_cons_of_some hread, finds_newline, hsplit]
  rfl

/-! ## Rules -/

theorem finds_choice (first second : Pattern) (ts : List Token) :
    Pattern.finds [.choice [first, second] {}] ts = (first.finds ts).or (second.finds ts) := by
  rw [Pattern.finds, Pattern.read_singleton, PatternNode.read, Pattern.readFirst, Pattern.finds]
  cases hfirst : first.read ts with
  | some r => rfl
  | none =>
    rw [Pattern.finds, Pattern.readFirst]
    cases second.read ts <;> rfl

/-- A template is a block, or what is left of a line. -/
theorem finds_template (ts : List Token) : ∃ value : Captured,
    Pattern.finds [.choice [blockPattern "transcriber", linePattern] {}] ts =
      some ((∅ : Captures).insert "transcriber" value, (splitTemplate ts).2) ∧
    value.flatten = (splitTemplate ts).1 := by
  rw [finds_choice, finds_block, finds_line, splitTemplate]
  cases hblock : splitBlock (skipNewline ts) with
  | some block =>
    exact ⟨capturedTrees block.1, rfl, flatten_capturedTrees (balanced_of_splitBlock hblock)⟩
  | none => exact ⟨_, rfl, Captured.flatten_each_once _⟩

/-- A rule is a group in brackets, a colon and a template. -/
theorem rulePattern_cuts : rulePattern.Cuts
    (fun captures => (captures.tokens "matcher", captures.tokens "transcriber")) splitRule where
  finds_eq ts := by
    rw [rulePattern, finds_bracketGroup, splitRule]
    cases hgroup : splitGroup "[" ts with
    | none => rfl
    | some group =>
      obtain ⟨body, behind⟩ := group
      have hbody := flatten_capturedTrees (balanced_of_splitBracket hgroup)
      cases behind with
      | nil => rfl
      | cons colon behind =>
        have hcolon : colon.same ⟨.operator, ":", {}⟩ = colon.isOperator ":" := rfl
        rw [Option.bind_some, Pattern.finds_literal, hcolon]
        simp only
        split
        · obtain ⟨value, hfinds, hvalue⟩ := finds_template behind
          rw [hfinds]
          show some (((capturedTrees body).flatten, value.flatten), (splitTemplate behind).2) = _
          rw [hbody, hvalue]
        · rfl
  starts := ⟨_, _, rfl⟩

/-- The rules of a declaration are rows. -/
theorem splitRules_eq_cutRows (fuel : Nat) (ts : List Token) :
    splitRules fuel ts = cutRows splitRule none fuel ts := by
  induction fuel generalizing ts with
  | zero => rfl
  | succ fuel ih =>
    rw [splitRules, cutRows]
    cases splitRule ts with
    | none => rfl
    | some found =>
      obtain ⟨rule, behind⟩ := found
      cases behind with
      | nil => rfl
      | cons t rest => simp only [splitSeparator, ih]

theorem flatten_erase (captures : Captures) (depth : Nat) :
    (((captures.erase "matcher").find? "transcriber").getD (.unreached depth)).flatten =
      captures.tokens "transcriber" := by
  rw [Table.find?_erase_of_ne _ (by decide), flatten_getD_unreached]

/-- The rules that the pattern captures are those of the declaration. -/
theorem readWhole_rulesPattern (body : List Token) :
    (rulesPattern.readWhole body).map rulesIn = splitRules body.length body := by
  rw [splitRules_eq_cutRows, rulesPattern]
  rcases readWhole_rows rulePattern_cuts none body with ⟨hread, hcut⟩ | ⟨items, hread, hcut⟩
  · rw [hread, hcut]
    rfl
  · rw [hread, hcut]
    show some (List.map _ (List.zip (items.map _) ((items.map _).map _))) = _
    rw [List.map_map, List.zip_map', List.map_map]
    congr 2
    funext captures
    exact Prod.ext (flatten_getD_unreached captures "matcher" 1) (flatten_erase captures 1)

theorem walkRule_eq (tokens : List Token × List Token) :
    walkRule tokens = Walk.within (Rule.ofTokens tokens.1 tokens.2) := by
  rw [walkRule, Pattern.parseAt_eq, Template.parseAt_eq, Rule.ofTokens]
  cases Pattern.ofTokens tokens.1 with
  | error e => rfl
  | ok pattern => cases Template.ofTokens tokens.2 <;> rfl

theorem walkEach_walkRule (parts : List (List Token × List Token)) :
    walkEach walkRule parts = Walk.within (rulesOfTokens parts) := by
  induction parts with
  | nil => rfl
  | cons part parts ih =>
    rw [walkEach, rulesOfTokens, walkRule_eq, ih]
    cases Rule.ofTokens part.1 part.2 with
    | error e => rfl
    | ok rule => cases rulesOfTokens parts <;> rfl

/-! ## Declarations -/

theorem finds_literal_of_same {t l : Token} (h : t.same l = true) (nodes : Pattern)
    (ts : List Token) :
    Pattern.finds (.literal l :: nodes) (t :: ts) = joinFinds ∅ (Pattern.finds nodes ts) := by
  rw [Pattern.finds_literal, if_pos h]

/-- The head of a declaration with its block, behind keyword and operator. -/
theorem finds_declaration {operator : String} {keyword op : Token}
    (hkeyword : keyword.isWord "macro_rules" = true) (hop : op.isOperator operator = true)
    (ts : List Token) : (declarationPattern operator).finds (keyword :: op :: ts) =
      (Declaration.split? ts).map fun found =>
        (((∅ : Captures).insert "name" (.once [found.1.1])).insert "rules"
          (capturedTrees found.1.2), found.2) := by
  have hfirst : keyword.same ⟨.name, "macro_rules", {}⟩ = true := hkeyword
  have hsecond : op.same ⟨.operator, operator, {}⟩ = true := hop
  rw [declarationPattern, finds_literal_of_same hfirst, finds_literal_of_same hsecond, finds_name]
  match ts with
  | [] => rfl
  | [name] =>
    simp only
    split <;> rfl
  | name :: colon :: behind =>
    have hcolon : colon.same ⟨.operator, ":", {}⟩ = colon.isOperator ":" := rfl
    simp only [Declaration.split?, Pattern.finds_literal, finds_block, hcolon]
    by_cases hname : name.kind = .name
    · by_cases hop : colon.isOperator ":" = true
      · simp only [hname, hop, if_true, and_self]
        cases splitBlock (skipNewline behind) <;> rfl
      · simp [hname, hop]
    · simp [hname]

theorem balanced_of_split? {name : Token}
    (h : Declaration.split? ts = some ((name, body), rest)) : Balanced body := by
  unfold Declaration.split? at h
  split at h
  · split at h
    · obtain ⟨block, hblock, heq⟩ := Option.map_eq_some_iff.1 h
      cases heq
      exact balanced_of_splitBlock hblock
    · cases h
  · cases h

namespace Declaration

/-- A declaration is walked to as it is read. -/
theorem walkAt_eq (operator : String) {start : Nat} (hstart : start ≤ ts.length) :
    walkAt operator ts start = Walk.within (readAt operator ts start) := by
  rw [walkAt, readAt]
  rcases drop_eq_nil_or_cons ts start with ⟨hget, hdrop⟩ | ⟨keyword, behind, hget, hdrop, -⟩
  · rw [hget, hdrop]
    rfl
  · rw [hget, ← List.head?_drop, drop_succ_of_drop hdrop]
    cases behind with
    | nil =>
      rw [hdrop]
      rfl
    | cons op us =>
      simp only [List.head?_cons, hdrop, read]
      split
      · next hhead =>
        have hfinds := finds_declaration hhead.1 hhead.2 us
        rw [← hdrop] at hfinds
        cases hsplit : split? us with
        | none =>
          rw [hsplit, Option.map_none] at hfinds
          rw [Pattern.walk_of_finds_none hstart hfinds]
          rfl
        | some found =>
          obtain ⟨⟨name, body⟩, rest⟩ := found
          rw [hsplit, Option.map_some] at hfinds
          obtain ⟨used, -, happend, hwalk⟩ := Pattern.exists_walk_of_finds hstart hfinds
          have hname : Captures.token (((∅ : Captures).insert "name" (.once [name])).insert "rules"
              (capturedTrees body)) "name" = .ok name := rfl
          have hbody : Captures.tokens (((∅ : Captures).insert "name" (.once [name])).insert "rules"
              (capturedTrees body)) "rules" = body :=
            flatten_capturedTrees (balanced_of_split? hsplit)
          have hstop : (keyword :: op :: us).length - rest.length = used.length := by
            rw [← hdrop, ← happend, List.length_append, Nat.add_sub_cancel]
          have hrules := readWhole_rulesPattern body
          simp only [hwalk, Walk.ok_bind, hname, hbody, Pattern.walkWhole_eq]
          cases hread : rulesPattern.readWhole body with
          | none =>
            rw [hread, Option.map_none] at hrules
            rw [← hrules]
            rfl
          | some captures =>
            rw [hread, Option.map_some] at hrules
            rw [← hrules]
            simp only [walkEach_walkRule]
            cases rulesOfTokens (rulesIn captures) with
            | error e => rfl
            | ok rules =>
              simp only [Except.map, Option.map_some, hstop]
              rfl
      · rfl

end Declaration

/-! ## Tokens before the cursor -/

/-- What is found, further on in a longer stream. -/
def Found.shift (n : Nat) (found : Found) : Found := ⟨found.captures, n + found.stop⟩

theorem Pattern.readAt_append (p : Pattern) (before ts : List Token) :
    p.readAt (before ++ ts) before.length = (p.readAt ts 0).map (Found.shift before.length) := by
  rw [readAt, readAt, List.drop_left, List.drop_zero, Option.map_map]
  congr 1
  funext r
  rw [Function.comp_apply, Found.shift, Nat.zero_add]

theorem Declaration.readAt_append (operator : String) (before ts : List Token) :
    readAt operator (before ++ ts) before.length =
      (readAt operator ts 0).map (Option.map fun d => (d.1, before.length + d.2)) := by
  rw [readAt, readAt, List.drop_left, List.drop_zero, except_map_map]
  congr 1
  funext found
  rw [Option.map_map]
  congr 1
  funext d
  rw [Function.comp_apply, Nat.zero_add]

theorem treeSpan_append (before ts : List Token) :
    (treeSpan (before ++ ts) before.length).toOption =
      (treeSpan ts 0).toOption.map fun span => (before.length + span.1, before.length + span.2) := by
  rw [treeSpan, treeSpan, List.drop_left, List.drop_zero]
  cases ts with
  | nil => rfl
  | cons t rest =>
    simp only
    cases splitTree (t :: rest) with
    | error e => rfl
    | ok p =>
      show some (before.length, before.length + p.1.length) =
        some (before.length + 0, before.length + (0 + p.1.length))
      rw [Nat.zero_add, Nat.add_zero]

/-- What is found at a cursor does not depend on what stands before it: behind other tokens a
pattern captures the same, a declaration is the same or at fault in the same way, and a tree is a
tree; only the indexes are further on by the number of those tokens. -/
theorem walk_append (before ts : List Token) :
    (∀ p : Pattern,
      p.walk (before ++ ts) before.length =
          (p.walk ts 0).map (Option.map (Found.shift before.length)) ∧
        p.readAt (before ++ ts) before.length =
          (p.readAt ts 0).map (Found.shift before.length)) ∧
    (∀ operator : String,
      Declaration.walkAt operator (before ++ ts) before.length =
          (Declaration.walkAt operator ts 0).map
            (Option.map fun d => (d.1, before.length + d.2)) ∧
        Declaration.readAt operator (before ++ ts) before.length =
          (Declaration.readAt operator ts 0).map
            (Option.map fun d => (d.1, before.length + d.2))) ∧
    (treeSpanAt (before ++ ts) before.length).toOption =
        (treeSpanAt ts 0).toOption.map (fun span =>
          (before.length + span.1, before.length + span.2)) ∧
      (treeSpan (before ++ ts) before.length).toOption =
        (treeSpan ts 0).toOption.map fun span =>
          (before.length + span.1, before.length + span.2) := by
  have hbefore : before.length ≤ (before ++ ts).length := by
    rw [List.length_append]
    exact Nat.le_add_right _ _
  refine ⟨fun p => ⟨?_, p.readAt_append before ts⟩,
    fun operator => ⟨?_, Declaration.readAt_append operator before ts⟩, ?_, treeSpan_append before ts⟩
  · rw [p.walk_eq hbefore, p.walk_eq (Nat.zero_le _), p.readAt_append]
    rfl
  · rw [Declaration.walkAt_eq operator hbefore, Declaration.walkAt_eq operator (Nat.zero_le _),
      Declaration.readAt_append, Walk.within_map]
  · rw [treeSpanAt_eq, treeSpanAt_eq, treeSpan_append]

end TokenMacros

import Mathlib.Data.List.Forall2
import TokenMacros.Proofs.Token.Tree
import TokenMacros.Rule.Declaration

/-!
# Reading declarations back

A declaration may be laid out in many ways: every template stands in a block of its
own or on the line of its pattern, and the last line may lack its newline. However
it is laid out, and whatever follows it, what is read is what was laid out:

    Declaration.readAt operator (before ++ ts ++ tail) before.length

is the first fault among the rules, in their order, or else the declaration of the
name with exactly these rules, and the index behind `ts`     (Declaration.readAt_of_layout)

No token stands between two rules, so the proof follows the readers: a block ends with
its dedent (`splitTemplate_block`), a line with the first newline outside delimiters
(`OneLine.splitTemplate_eq`), and the next rule starts with a bracket, which neither of
the two forms of a template can take for its own.
-/

namespace TokenMacros

/-! ## Layouts -/

/-- A template that may stand on the line of its pattern: it is balanced, no newline stands
outside its delimiters, and it does not look like a block. -/
structure OneLine (ts : List Token) : Prop where
  balanced : Balanced ts
  noBreak : ∀ i (h : i < ts.length), Balanced (ts.take i) → ts[i].kind ≠ .newline
  noBlock : ∀ t ∈ ts.head?, t.kind ≠ .indent

instance (ts : List Token) : Decidable (OneLine ts) :=
  decidable_of_iff (Balanced ts ∧ (∀ i (h : i < ts.length), Balanced (ts.take i) →
      ts[i].kind ≠ .newline) ∧ ∀ t ∈ ts.head?, t.kind ≠ .indent)
    ⟨fun ⟨hb, hn, hi⟩ => ⟨hb, hn, hi⟩, fun h => ⟨h.balanced, h.noBreak, h.noBlock⟩⟩

/-- `[ pattern ] :` -/
inductive RuleHead (pattern : List Token) : List Token → Prop
  | mk {opener closer colon : Token} : opener.isOpener "[" = true → Balanced pattern →
      closer.isCloser "]" = true → colon.isOperator ":" = true →
      RuleHead pattern (opener :: pattern ++ [closer, colon])

/-- A template in a block, or on a line that ends with a newline. -/
inductive TemplateLayout (template : List Token) : List Token → Prop
  | block {indent dedent : Token} : indent.kind = .indent → Balanced template →
      dedent.kind = .dedent → TemplateLayout template (indent :: template ++ [dedent])
  | line {newline : Token} : OneLine template → newline.kind = .newline →
      TemplateLayout template (template ++ [newline])

/-- One or more rules, one after the other. Behind the last of them the newline may be missing. -/
inductive RulesLayout : List (List Token × List Token) → List Token → Prop
  | lastLine {pattern head template : List Token} : RuleHead pattern head → OneLine template →
      RulesLayout [(pattern, template)] (head ++ template)
  | last {pattern head template laid : List Token} : RuleHead pattern head →
      TemplateLayout template laid → RulesLayout [(pattern, template)] (head ++ laid)
  | more {pattern head template laid body : List Token}
      {rules : List (List Token × List Token)} : RuleHead pattern head →
      TemplateLayout template laid → RulesLayout rules body →
      RulesLayout ((pattern, template) :: rules) (head ++ (laid ++ body))

/-- A declaration of that name, with rules in an indented block. -/
inductive DeclarationLayout (operator name : String) (rules : List (List Token × List Token)) :
    List Token → Prop
  | mk {keyword op label colon indent dedent : Token} {body : List Token} :
      keyword.isWord "macro_rules" = true → op.isOperator operator = true →
      label.isWord name = true → colon.isOperator ":" = true → indent.kind = .indent →
      RulesLayout rules body → dedent.kind = .dedent →
      DeclarationLayout operator name rules
        (keyword :: op :: label :: colon :: indent :: body ++ [dedent])

variable {ts body pattern template head laid rest : List Token} {name : String}
  {rules : List (List Token × List Token)}

/-! ## Templates -/

theorem skipNewline_of_ne (h : ∀ t ∈ ts.head?, t.kind ≠ .newline) : skipNewline ts = ts := by
  cases ts with
  | nil => rfl
  | cons t ts => rw [skipNewline, if_neg (h t rfl)]

theorem skipNewline_newline {t : Token} (h : t.kind = .newline) (ts : List Token) :
    skipNewline (t :: ts) = ts := by
  rw [skipNewline, if_pos h]

theorem splitBlock_of_balanced {indent dedent : Token} (hi : indent.kind = .indent)
    (hbody : Balanced body) (hd : dedent.kind = .dedent) (rest : List Token) :
    splitBlock (indent :: body ++ dedent :: rest) = some (body, rest) := by
  have hrole : indent.role = .opens .indent := by simp [Token.role, hi]
  rw [List.cons_append, splitBlock, if_pos hi,
    (splitTree_opens_iff hrole).2 ⟨body, dedent, closes_indent_iff.2 hd, hbody, rfl, rfl⟩]
  simp only [interior_group]

theorem splitBlock_of_ne (h : ∀ t ∈ ts.head?, t.kind ≠ .indent) : splitBlock ts = none := by
  cases ts with
  | nil => rfl
  | cons t ts => rw [splitBlock, if_neg (h t rfl)]

/-- A block is skipped to as it is. -/
theorem splitBlock_skipNewline {indent dedent : Token} (hi : indent.kind = .indent)
    (hbody : Balanced body) (hd : dedent.kind = .dedent) (rest : List Token) :
    splitBlock (skipNewline (indent :: body ++ dedent :: rest)) = some (body, rest) := by
  rw [skipNewline_of_ne (by simp [hi]), splitBlock_of_balanced hi hbody hd]

theorem splitTemplate_block {indent dedent : Token} (hi : indent.kind = .indent)
    (ht : Balanced template) (hd : dedent.kind = .dedent) (rest : List Token) :
    splitTemplate (indent :: template ++ dedent :: rest) = (template, rest) := by
  rw [splitTemplate, splitBlock_skipNewline hi ht hd]

/-- The first token of a template on a line ends no line. -/
theorem OneLine.head_ne_newline (h : OneLine ts) : ∀ t ∈ ts.head?, t.kind ≠ .newline := by
  intro t ht
  obtain ⟨ts, rfl⟩ := List.head?_eq_some_iff.1 ht
  exact h.noBreak 0 (Nat.zero_lt_succ _) .nil

/-- The line is read up to its newline, or to the end. -/
theorem OneLine.splitTreesWhile_eq (h : OneLine ts)
    (hrest : ∀ t ∈ rest.head?, t.kind = .newline) :
    splitTreesWhile (fun t => t.kind != .newline) (ts ++ rest) = (ts, rest) := by
  obtain ⟨trees, htrees, rfl⟩ := balanced_iff_flatten.1 h.balanced
  have hheads : ∀ tree ∈ trees, tree.head?.all (fun t => t.kind != .newline) = true := by
    intro tree htree
    obtain ⟨before, behind, rfl⟩ := List.append_of_mem htree
    obtain ⟨t, tail, rfl⟩ := List.exists_cons_of_ne_nil (htrees tree htree).ne_nil
    -- the trees in front of it are balanced, so its first token stands outside delimiters
    have hbefore := balanced_flatten fun u hu => htrees u (List.mem_append_left _ hu)
    have hne := h.noBreak before.flatten.length (by simp) (by simpa using hbefore)
    simpa using hne
  have hstop : rest.head?.all (fun t => t.kind != .newline) = false ∨
      ∃ e, splitTree rest = .error e := by
    cases rest with
    | nil => exact .inr ⟨_, rfl⟩
    | cons t rest => exact .inl (by simp [hrest t rfl])
  have hfuel : trees.length ≤ (trees.flatten ++ rest).length := by
    have := length_le_length_flatten htrees
    rw [List.length_append]
    omega
  rw [splitTreesWhile, splitTreesFrom_flatten htrees hheads hstop hfuel]

theorem OneLine.splitTemplate_eq (h : OneLine template)
    (hrest : ∀ t ∈ rest.head?, t.kind = .newline)
    (hbehind : ∀ t ∈ (skipNewline rest).head?, t.kind ≠ .indent) :
    splitTemplate (template ++ rest) = (template, skipNewline rest) := by
  have hblock : splitBlock (skipNewline (template ++ rest)) = none := by
    cases template with
    | nil => exact splitBlock_of_ne hbehind
    | cons t template =>
      have hskip : skipNewline (t :: template ++ rest) = t :: template ++ rest :=
        skipNewline_of_ne fun u hu => h.head_ne_newline u hu
      rw [hskip]
      exact splitBlock_of_ne fun u hu => h.noBlock u hu
  rw [splitTemplate, hblock]
  simp only [h.splitTreesWhile_eq hrest]

/-- A template is read back from either layout, up to the bracket of the next rule. -/
theorem TemplateLayout.splitTemplate_eq (h : TemplateLayout template laid)
    (hrest : ∀ t ∈ rest.head?, t.kind ≠ .indent) :
    splitTemplate (laid ++ rest) = (template, rest) := by
  cases h with
  | block hi ht hd =>
    rw [List.append_assoc, List.singleton_append]
    exact splitTemplate_block hi ht hd rest
  | @line newline hline hn =>
    have hskip := skipNewline_newline hn rest
    rw [List.append_assoc, List.singleton_append,
      hline.splitTemplate_eq (by simpa using hn) (by rwa [hskip]), hskip]

/-! ## Rules -/

theorem RuleHead.splitRule_eq (h : RuleHead pattern head) (ts : List Token) :
    splitRule (head ++ ts) = some ((pattern, (splitTemplate ts).1), (splitTemplate ts).2) := by
  obtain @⟨opener, closer, colon, ho, hp, hc, hcolon⟩ := h
  have hgroup : splitGroup "[" (opener :: pattern ++ [closer, colon] ++ ts) =
      some (pattern, colon :: ts) :=
    (splitGroup_eq_some_iff role_of_isOpener_bracket closes_bracket_iff).2
      ⟨opener, closer, ho, hc, hp, by simp⟩
  rw [splitRule, hgroup]
  simp only [hcolon, if_true]

theorem RuleHead.starts (h : RuleHead pattern head) :
    ∃ t tail, head = t :: tail ∧ t.kind = .opener := by
  obtain ⟨ho, -, -, -⟩ := h
  exact ⟨_, _, rfl, (Token.isOpener_iff.1 ho).1⟩

theorem RulesLayout.starts (h : RulesLayout rules body) :
    ∃ t tail, body = t :: tail ∧ t.kind = .opener := by
  cases h with
  | lastLine hhead _ | last hhead _ | more hhead _ _ =>
    obtain ⟨t, tail, rfl, ht⟩ := hhead.starts
    exact ⟨t, _, rfl, ht⟩

theorem RulesLayout.splitRules_eq (h : RulesLayout rules body) {fuel : Nat}
    (hfuel : body.length ≤ fuel) : splitRules fuel body = some rules := by
  induction h generalizing fuel with
  | lastLine hhead ht =>
    obtain ⟨t, tail, rfl, -⟩ := hhead.starts
    cases fuel with
    | zero => simp at hfuel
    | succ fuel =>
      have hline : splitTemplate (_ ++ []) = _ :=
        ht.splitTemplate_eq (by simp) (by simp [skipNewline])
      rw [List.append_nil, skipNewline] at hline
      rw [splitRules, hhead.splitRule_eq, hline]
  | last hhead ht =>
    obtain ⟨t, tail, rfl, -⟩ := hhead.starts
    cases fuel with
    | zero => simp at hfuel
    | succ fuel =>
      have hlaid : splitTemplate (_ ++ []) = _ := ht.splitTemplate_eq (by simp)
      rw [List.append_nil] at hlaid
      rw [splitRules, hhead.splitRule_eq, hlaid]
  | @more pattern head template laid rules body hhead ht hrules ih =>
    obtain ⟨t, tail, rfl, -⟩ := hhead.starts
    obtain ⟨u, us, rfl, hu⟩ := hrules.starts
    cases fuel with
    | zero => simp at hfuel
    | succ fuel =>
      have hlaid : splitTemplate (laid ++ u :: us) = _ := ht.splitTemplate_eq (by simp [hu])
      have hlen : (u :: us).length ≤ fuel := by
        simp only [List.cons_append, List.length_cons, List.length_append] at hfuel ⊢
        omega
      rw [splitRules, hhead.splitRule_eq, hlaid]
      simp only [ih hlen, Option.map_some]

/-! ### Balance -/

theorem RuleHead.balanced (h : RuleHead pattern head) : Balanced head := by
  obtain ⟨ho, hp, hc, hcolon⟩ := h
  exact .tree (role_of_isOpener_bracket ho) (closes_bracket_iff.2 hc) hp
    (.plain (role_of_isOperator hcolon) .nil)

theorem TemplateLayout.balanced (h : TemplateLayout template laid) : Balanced laid := by
  cases h with
  | block hi ht hd =>
    exact .tree (d := .indent) (by simp [Token.role, hi]) (closes_indent_iff.2 hd) ht .nil
  | line hline hn => exact hline.balanced.append (.plain (Token.role_of_newline hn) .nil)

theorem RulesLayout.balanced (h : RulesLayout rules body) : Balanced body := by
  induction h with
  | lastLine hhead ht => exact hhead.balanced.append ht.balanced
  | last hhead ht => exact hhead.balanced.append ht.balanced
  | more hhead ht _ ih => exact hhead.balanced.append (ht.balanced.append ih)

/-! ### Faults in order -/

theorem rulesOfTokens_eq_ok {made : List Rule}
    (h : List.Forall₂ (fun r rule => Rule.ofTokens r.1 r.2 = .ok rule) rules made) :
    rulesOfTokens rules = .ok made := by
  induction h with
  | nil => rfl
  | @cons r rule rules made hr _ ih =>
    rw [rulesOfTokens, hr, ih]
    rfl

/-- The first rule that cannot be read decides. -/
theorem rulesOfTokens_eq_error {good bad : List (List Token × List Token)} {e : Fault}
    (hgood : ∀ r ∈ good, ∃ rule, Rule.ofTokens r.1 r.2 = .ok rule)
    (he : Rule.ofTokens pattern template = .error e) :
    rulesOfTokens (good ++ (pattern, template) :: bad) = .error e := by
  induction good with
  | nil => rw [List.nil_append, rulesOfTokens, he]
  | cons r good ih =>
    rw [List.forall_mem_cons] at hgood
    obtain ⟨⟨rule, hrule⟩, hgood⟩ := hgood
    rw [List.cons_append, rulesOfTokens, hrule, ih hgood]
    rfl

/-! ## Declarations -/

namespace Declaration

variable {operator : String}

theorem read_of_layout (h : DeclarationLayout operator name rules ts) (tail : List Token) :
    read operator (ts ++ tail) = (rulesOfTokens rules).map fun made => some (⟨name, made⟩, tail) := by
  obtain @⟨keyword, op, label, colon, indent, dedent, body, hkeyword, hop, hlabel, hcolon, hi,
    hrules, hd⟩ := h
  obtain ⟨hkind, rfl⟩ := Token.isWord_iff.1 hlabel
  have hsplit : split? (label :: colon :: indent :: body ++ dedent :: tail) =
      some ((label, body), tail) := by
    rw [List.cons_append, List.cons_append, split?, if_pos ⟨hkind, hcolon⟩,
      splitBlock_skipNewline hi hrules.balanced hd]
    rfl
  have hts : keyword :: op :: label :: colon :: indent :: body ++ [dedent] ++ tail =
      keyword :: op :: (label :: colon :: indent :: body ++ dedent :: tail) := by simp
  rw [hts, read, if_pos ⟨hkeyword, hop⟩, hsplit]
  simp only [hrules.splitRules_eq (Nat.le_refl _)]

/-- A declaration is read back from every layout: its rules in order up to the first fault, its
name, and the index behind its last token. -/
theorem readAt_of_layout (h : DeclarationLayout operator name rules ts)
    (before tail : List Token) :
    (∀ made, List.Forall₂ (fun r rule => Rule.ofTokens r.1 r.2 = .ok rule) rules made →
      readAt operator (before ++ ts ++ tail) before.length =
        .ok (some (⟨name, made⟩, before.length + ts.length))) ∧
    (∀ good pattern template bad e, rules = good ++ (pattern, template) :: bad →
      (∀ r ∈ good, ∃ rule, Rule.ofTokens r.1 r.2 = .ok rule) →
      Rule.ofTokens pattern template = .error e →
      readAt operator (before ++ ts ++ tail) before.length = .error e) := by
  have hread : readAt operator (before ++ ts ++ tail) before.length =
      (rulesOfTokens rules).map fun made =>
        some (⟨name, made⟩, before.length + ts.length) := by
    rw [readAt, List.append_assoc, List.drop_left, read_of_layout h, except_map_map]
    simp
  constructor
  · intro made hmade
    rw [hread, rulesOfTokens_eq_ok hmade]
    rfl
  · rintro good pattern template bad e rfl hgood he
    rw [hread, rulesOfTokens_eq_error hgood he]
    rfl

end Declaration

/-! ## Three layouts in a row -/

/-- A rule with a template of two lines, one without a template, and one whose template holds a
newline within parentheses. -/
def mixedRules (last : List Token) : List (List Token × List Token) :=
  [([⟨.name, "a", {}⟩], [⟨.name, "b", {}⟩, ⟨.newline, "\n", {}⟩, ⟨.name, "c", {}⟩]),
    ([⟨.name, "d", {}⟩], []),
    (last, [⟨.opener, "(", {}⟩, ⟨.newline, "\n", {}⟩, ⟨.closer, ")", {}⟩])]

/-- `[ pattern ] :` -/
def writtenHead (pattern : List Token) : List Token :=
  ⟨.opener, "[", {}⟩ :: pattern ++ [⟨.closer, "]", {}⟩, ⟨.operator, ":", {}⟩]

/-- The first of the rules in a block, the second on a line of its own, and the third on a line
without a newline. -/
def mixed (last : List Token) : List Token :=
  ⟨.name, "macro_rules", {}⟩ :: ⟨.operator, "!", {}⟩ :: ⟨.name, "m", {}⟩ :: ⟨.operator, ":", {}⟩ ::
    ⟨.indent, "", {}⟩ ::
    (writtenHead [⟨.name, "a", {}⟩] ++
      ((⟨.indent, "", {}⟩ :: [⟨.name, "b", {}⟩, ⟨.newline, "\n", {}⟩, ⟨.name, "c", {}⟩] ++
        [⟨.dedent, "", {}⟩]) ++
      (writtenHead [⟨.name, "d", {}⟩] ++
        (([] ++ [⟨.newline, "\n", {}⟩]) ++
        (writtenHead last ++
          [⟨.opener, "(", {}⟩, ⟨.newline, "\n", {}⟩, ⟨.closer, ")", {}⟩]))))) ++
    [⟨.dedent, "", {}⟩]

theorem layout_mixed {last : List Token} (h : Balanced last) :
    DeclarationLayout "!" "m" (mixedRules last) (mixed last) := by
  have hhead : ∀ pattern, Balanced pattern → RuleHead pattern (writtenHead pattern) :=
    fun pattern hp => .mk rfl hp rfl rfl
  refine .mk rfl rfl rfl rfl rfl (.more (hhead _ (by decide)) (.block rfl (by decide) rfl)
    (.more (hhead _ (by decide)) (.line (by decide) rfl)
      (.lastLine (hhead _ h) (by decide)))) rfl

/-- Behind a number and in front of a name, the declaration is read with three rules, or with the
fault of its last pattern. -/
theorem readAt_mixed :
    (DeclarationLayout "!" "m" (mixedRules []) (mixed []) ∧ ∃ made, made.length = 3 ∧
      Declaration.readAt "!" (⟨.number, "1", {}⟩ :: mixed [] ++ [⟨.name, "z", {}⟩]) 1 =
        .ok (some (⟨"m", made⟩, 27))) ∧
    DeclarationLayout "!" "m" (mixedRules [⟨.dollar, "$", {}⟩]) (mixed [⟨.dollar, "$", {}⟩]) ∧
      Declaration.readAt "!" (⟨.number, "1", {}⟩ :: mixed [⟨.dollar, "$", {}⟩] ++
        [⟨.name, "z", {}⟩]) 1 = .error ⟨.malformed .loneDollar, {}⟩ := by
  have hgood : DeclarationLayout "!" "m" (mixedRules []) (mixed []) := layout_mixed (by decide)
  have hbad : DeclarationLayout "!" "m" (mixedRules [⟨.dollar, "$", {}⟩])
    (mixed [⟨.dollar, "$", {}⟩]) := layout_mixed (by decide)
  obtain ⟨made, hmade⟩ : ∃ made,
      List.Forall₂ (fun r rule => Rule.ofTokens r.1 r.2 = .ok rule) (mixedRules []) made :=
    ⟨_, .cons rfl (.cons rfl (.cons rfl .nil))⟩
  refine ⟨⟨hgood, made, hmade.length_eq.symm, ?_⟩, hbad, ?_⟩
  · exact (Declaration.readAt_of_layout hgood [⟨.number, "1", {}⟩] [⟨.name, "z", {}⟩]).1 made hmade
  · refine (Declaration.readAt_of_layout hbad [⟨.number, "1", {}⟩] [⟨.name, "z", {}⟩]).2
      ((mixedRules []).take 2) _ _ [] _ rfl ?_ rfl
    exact List.forall_mem_cons.2 ⟨⟨_, rfl⟩, List.forall_mem_cons.2 ⟨⟨_, rfl⟩, by simp⟩⟩

end TokenMacros

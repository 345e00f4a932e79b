import TokenMacros.Proofs.Expansion.Balance
import TokenMacros.Proofs.Expansion.Inert

/-!
# Decorated items

What a decorator takes as its item is laid out in lines: lines of stacked decorators, each
with its newline, and one more line, which a block may end (`ItemLayout`). In a balanced
stream a decorator finds such an item wherever its header stands, and the item is all that
is taken behind the header                                 (Decoration.takes_item)

The walk is followed with the part of the line that it has passed (`FindsItem`): a line is a
row of trees, so that it grows by one tree at a step (`FindsItem.pass`), and a newline that
the walk passes ends a line with a decorator (`FindsItem.newline`).
-/

namespace TokenMacros

/-! ## Layouts -/

/-- A row of trees, none of which is a newline or a block. -/
def Inline (ts : List Token) : Prop :=
  ∃ trees : List (List Token), (∀ tree ∈ trees, TokenTree tree ∧
    ∀ t ∈ tree.head?, t.kind ≠ .newline ∧ t.kind ≠ .indent) ∧ trees.flatten = ts

/-- A line that starts with `@`, and its newline. -/
inductive DecoratorLine : List Token → Prop
  | mk {line : List Token} {newline : Token} : Inline line → startsDecorator line = true →
      newline.kind = .newline → DecoratorLine (line ++ [newline])

/-- An item in front of the rest of a stream. -/
inductive ItemLayout : List Token → List Token → Prop
  /-- The last line of the item ends with a block, and the item with it. -/
  | block {lines : List (List Token)} {line body rest : List Token} {indent dedent : Token} :
      (∀ l ∈ lines, DecoratorLine l) → Inline line → indent.kind = .indent → Balanced body →
      dedent.kind = .dedent →
      ItemLayout (lines.flatten ++ line ++ (indent :: body ++ [dedent])) rest
  /-- The last line has no block. It is the last of the stream, or of what the item stands in, or
  it ends with a newline and starts with no `@`. -/
  | line {lines : List (List Token)} {line rest : List Token} :
      (∀ l ∈ lines, DecoratorLine l) → Inline line →
      (∀ t ∈ rest.head?, t.kind = .dedent ∨ t.kind = .closer ∨
        t.kind = .newline ∧ startsDecorator line = false) →
      ItemLayout (lines.flatten ++ line) rest

/-- A decorator's header: the sign, its name and the operator, parameters in parentheses or none,
and a newline. -/
inductive DecoratorHeader (operator : String) (name : Token) (parameters : List Token) :
    List Token → Prop
  | mk {sign op line : Token} : sign.isOperator "@" = true → name.kind = .name →
      op.isOperator operator = true → (parameters = [] ∨ ∃ body, Enclosed "(" ")" body parameters) →
      line.kind = .newline →
      DecoratorHeader operator name parameters (sign :: name :: op :: (parameters ++ [line]))

variable {operator : String} {name t : Token} {apply : Apply} {w w' : Workspace}
  {ts line tree item rest before header behind parameters : List Token}

/-! ## Lines -/

theorem Inline.balanced (h : Inline line) : Balanced line := by
  obtain ⟨trees, htrees, rfl⟩ := h
  exact balanced_flatten fun tree htree => (htrees tree htree).1

theorem inline_nil : Inline [] := ⟨[], by simp, rfl⟩

/-- A line goes on with any tree that is no newline and no block. -/
theorem Inline.concat (h : Inline line) (htree : TokenTree tree)
    (hhead : ∀ t ∈ tree.head?, t.kind ≠ .newline ∧ t.kind ≠ .indent) :
    Inline (line ++ tree) := by
  obtain ⟨trees, htrees, rfl⟩ := h
  refine ⟨trees ++ [tree], ?_, by simp⟩
  intro u hu
  rcases List.mem_append.1 hu with hu | hu
  · exact htrees u hu
  · rw [List.mem_singleton.1 hu]
    exact ⟨htree, hhead⟩

theorem startsDecorator_append_newline (ht : t.kind = .newline) (line ts : List Token) :
    startsDecorator (line ++ t :: ts) = startsDecorator line := by
  cases line with
  | nil => simp [startsDecorator, Token.isOperator, ht]
  | cons u line => rfl

theorem DecoratorLine.balanced (h : DecoratorLine line) : Balanced line := by
  obtain ⟨hline, -, hnewline⟩ := h
  exact hline.balanced.append (.plain (Token.role_of_newline hnewline) .nil)

theorem balanced_block {indent dedent : Token} {body : List Token} (hi : indent.kind = .indent)
    (hbody : Balanced body) (hd : dedent.kind = .dedent) :
    Balanced (indent :: body ++ [dedent]) :=
  .tree (by simp [Token.role, hi]) (closes_indent_iff.2 hd) hbody .nil

/-! ## Items -/

theorem ItemLayout.balanced (h : ItemLayout item rest) : Balanced item := by
  have hlines : ∀ {lines : List (List Token)}, (∀ l ∈ lines, DecoratorLine l) →
      Balanced lines.flatten := by
    intro lines hlines
    induction lines with
    | nil => exact .nil
    | cons l lines ih =>
      rw [List.forall_mem_cons] at hlines
      exact hlines.1.balanced.append (ih hlines.2)
  cases h with
  | block hdecorators hline hi hbody hd =>
    exact ((hlines hdecorators).append hline.balanced).append (balanced_block hi hbody hd)
  | line hdecorators hline _ => exact (hlines hdecorators).append hline.balanced

/-- A line with a decorator may stand in front of an item. -/
theorem ItemLayout.decorated (hline : DecoratorLine line) (h : ItemLayout item rest) :
    ItemLayout (line ++ item) rest := by
  cases h with
  | @block lines last body _ indent dedent hdecorators hlast hi hbody hd =>
    have hall : ∀ l ∈ line :: lines, DecoratorLine l := List.forall_mem_cons.2 ⟨hline, hdecorators⟩
    simpa using @ItemLayout.block _ _ _ rest _ _ hall hlast hi hbody hd
  | @line lines last _ hdecorators hlast hstop =>
    have hall : ∀ l ∈ line :: lines, DecoratorLine l := List.forall_mem_cons.2 ⟨hline, hdecorators⟩
    simpa using ItemLayout.line hall hlast hstop

/-! ## The walk -/

/-- A tree is taken whole, if it is no newline and no block. -/
theorem splitItemFrom_tree (htree : TokenTree tree)
    (hhead : ∀ t ∈ tree.head?, t.kind ≠ .newline ∧ t.kind ≠ .indent) (fuel : Nat)
    (decorator : Bool) (rest : List Token) : splitItemFrom (fuel + 1) decorator (tree ++ rest) =
      (splitItemFrom fuel decorator rest).map fun p => (tree ++ p.1, p.2) := by
  cases htree with
  | @leaf t ht =>
    have hne := hhead t rfl
    rw [List.singleton_append, splitItemFrom]
    cases hkind : t.kind <;> simp_all [Token.role] <;> rfl
  | @group opener closer d inner ho hc hinner =>
    have hsplit := splitTree_of_tokenTree (.group ho hc hinner) rest
    have hne := hhead opener rfl
    rw [List.cons_append, List.cons_append] at hsplit ⊢
    rw [splitItemFrom]
    cases hkind : opener.kind <;> simp_all [Token.role]

/-- In a balanced stream a tree starts at every token but the closers. -/
theorem exists_tokenTree (hts : Balanced (before ++ t :: ts)) (ht : ∀ d, t.role ≠ .closes d) :
    ∃ tree rest, TokenTree tree ∧ tree ++ rest = t :: ts := by
  cases hrole : t.role with
  | plain => exact ⟨[t], ts, .leaf hrole, rfl⟩
  | opens d =>
    obtain ⟨tree, rest, hsplit⟩ := hts.exists_splitTree hrole
    exact ⟨tree, rest, splitTree_eq_ok_iff.1 hsplit⟩
  | closes d => exact absurd hrole (ht d)

/-- With part of a line behind it, the walk finds an item in `ts`. -/
def FindsItem (fuel : Nat) (line ts : List Token) : Prop :=
  ∃ item rest, splitItemFrom fuel (startsDecorator (line ++ ts)) ts = .ok (item, rest) ∧
    item ++ rest = ts ∧ ItemLayout (line ++ item) rest

theorem FindsItem.stop {fuel : Nat} (hline : Inline line)
    (hsplit : splitItemFrom fuel (startsDecorator (line ++ ts)) ts = .ok ([], ts))
    (hrest : ∀ t ∈ ts.head?, t.kind = .dedent ∨ t.kind = .closer ∨
      t.kind = .newline ∧ startsDecorator line = false) : FindsItem fuel line ts :=
  ⟨[], ts, hsplit, rfl, by simpa using @ItemLayout.line [] _ _ (by simp) hline hrest⟩

theorem FindsItem.nil (fuel : Nat) (hline : Inline line) : FindsItem fuel line [] :=
  .stop hline (by cases fuel <;> rfl) (by simp)

/-- A tree goes to the line. -/
theorem FindsItem.pass {fuel : Nat} (htree : TokenTree tree)
    (hhead : ∀ t ∈ tree.head?, t.kind ≠ .newline ∧ t.kind ≠ .indent)
    (h : FindsItem fuel (line ++ tree) rest) : FindsItem (fuel + 1) line (tree ++ rest) := by
  obtain ⟨item, behind, hsplit, hitem, hlayout⟩ := h
  rw [List.append_assoc] at hsplit hlayout
  refine ⟨tree ++ item, behind, ?_, by rw [List.append_assoc, hitem], hlayout⟩
  rw [splitItemFrom_tree htree hhead, hsplit]
  rfl

/-- A newline ends the line of a stacked decorator, or the item. -/
theorem FindsItem.newline {fuel : Nat} (hline : Inline line) (ht : t.kind = .newline)
    (h : FindsItem fuel [] ts) : FindsItem (fuel + 1) line (t :: ts) := by
  have hflag := startsDecorator_append_newline ht line ts
  cases hstart : startsDecorator line with
  | false =>
    refine .stop hline ?_ (by simp [ht, hstart])
    rw [hflag, hstart, splitItemFrom]
    simp only [ht]
    rfl
  | true =>
    obtain ⟨item, rest, hsplit, hitem, hlayout⟩ := h
    rw [List.nil_append] at hsplit hlayout
    refine ⟨t :: item, rest, ?_, by rw [List.cons_append, hitem], ?_⟩
    · rw [hflag, hstart, splitItemFrom]
      simp only [ht, hsplit]
      rfl
    · simpa using hlayout.decorated (.mk hline hstart ht)

/-- A block ends the item. -/
theorem FindsItem.block (fuel : Nat) (hline : Inline line) (ht : t.kind = .indent)
    (hts : Balanced (before ++ t :: ts)) : FindsItem (fuel + 1) line (t :: ts) := by
  have hrole : t.role = .opens .indent := by simp [Token.role, ht]
  obtain ⟨tree, rest, hsplit⟩ := hts.exists_splitTree hrole
  obtain ⟨body, dedent, hdedent, hbody, rfl, -⟩ := (splitTree_opens_iff hrole).1 hsplit
  refine ⟨_, rest, by simpa only [splitItemFrom, ht] using hsplit, splitTree_append hsplit, ?_⟩
  simpa using @ItemLayout.block [] _ _ rest _ _ (by simp) hline ht hbody
    (closes_indent_iff.1 hdedent)

/-- The walk finds an item in a balanced stream, whatever part of a line stands before it. -/
theorem findsItem_of_balanced {fuel : Nat} (hline : Inline line) (hts : Balanced (before ++ ts))
    (hfuel : ts.length ≤ fuel) : FindsItem fuel line ts := by
  -- each step stops or leaves fewer tokens, so that the fuel lasts
  induction fuel generalizing line before ts with
  | zero =>
    obtain rfl := List.length_eq_zero_iff.1 (Nat.le_zero.1 hfuel)
    exact .nil 0 hline
  | succ fuel ih =>
    cases ts with
    | nil => exact .nil (fuel + 1) hline
    | cons t ts =>
      have hpass : (∀ d, t.role ≠ .closes d) → t.kind ≠ .newline → t.kind ≠ .indent →
          FindsItem (fuel + 1) line (t :: ts) := by
        intro hrole hnewline hindent
        obtain ⟨tree, behind, htree, happend⟩ := exists_tokenTree hts hrole
        have hhead : ∀ u ∈ tree.head?, u.kind ≠ .newline ∧ u.kind ≠ .indent := by
          intro u hu
          obtain ⟨more, rfl⟩ := List.head?_eq_some_iff.1 hu
          cases happend
          exact ⟨hnewline, hindent⟩
        have hshorter : behind.length ≤ fuel := by
          have hpos := List.length_pos_of_ne_nil htree.ne_nil
          have hlength := congrArg List.length happend
          simp only [List.length_append, List.length_cons] at hlength hfuel
          omega
        rw [← happend] at hts ⊢
        rw [← List.append_assoc] at hts
        exact .pass htree hhead (ih (hline.concat htree hhead) hts hshorter)
      cases hkind : t.kind with
      | newline =>
        have hbehind : Balanced ((before ++ [t]) ++ ts) := by simpa using hts
        exact .newline hline hkind (ih inline_nil hbehind (Nat.le_of_succ_le_succ hfuel))
      | indent => exact .block fuel hline hkind hts
      | dedent => exact .stop hline (by simp only [splitItemFrom, hkind]) (by simp [hkind])
      | closer => exact .stop hline (by simp only [splitItemFrom, hkind]) (by simp [hkind])
      | _ => exact hpass (by simp [Token.role, hkind]) (by simp [hkind]) (by simp [hkind])

/-- An item starts at every place of a balanced stream. -/
theorem exists_splitItem (hts : Balanced (before ++ ts)) : ∃ item rest,
    splitItem ts = .ok (item, rest) ∧ item ++ rest = ts ∧ ItemLayout item rest :=
  findsItem_of_balanced inline_nil hts (Nat.le_refl _)

/-! ## Decorators -/

theorem DecoratorHeader.balanced (h : DecoratorHeader operator name parameters header) :
    Balanced header := by
  obtain ⟨hsign, hname, hop, hparameters, hline⟩ := h
  have hinner : Balanced parameters := by
    rcases hparameters with rfl | ⟨body, hbody⟩
    · exact .nil
    · exact hbody.tokenTree.balanced
  exact .plain (role_of_isOperator hsign) (.plain (Token.role_of_name hname)
    (.plain (role_of_isOperator hop)
      (hinner.append (.plain (Token.role_of_newline hline) .nil))))

/-- A decorator with its line is one with its header. -/
theorem StartsDecorator.exists_header (h : StartsDecorator operator ts) :
    ∃ name parameters header behind,
      DecoratorHeader operator name parameters header ∧ ts = header ++ behind := by
  cases h with
  | @bare sign name op line rest hsign hname hop hline =>
    exact ⟨name, [], _, rest, .mk hsign hname hop (.inl rfl) hline, rfl⟩
  | @group sign name op line body parameters rest hsign hname hop hbody hline =>
    exact ⟨name, parameters, _, rest, .mk hsign hname hop (.inr ⟨body, hbody⟩) hline, by simp⟩

/-- Behind its header a decorator takes its item, which may not be empty. -/
theorem decoration_read_of_header (h : DecoratorHeader operator name parameters header)
    (hitem : splitItem behind = .ok (item, rest)) :
    Decoration.read operator (header ++ behind) =
      if item = [] then
        .error ⟨.malformed (.noItem name.text operator), firstPosition header⟩
      else .ok (some (⟨name, parameters, item⟩, rest)) := by
  obtain @⟨sign, op, line, hsign, hname, hop, hparameters, hline⟩ := h
  have hsplit : splitParameters (parameters ++ line :: behind) =
      .ok (parameters, line :: behind) := by
    rcases hparameters with rfl | ⟨body, hbody⟩
    · exact if_neg (by simp [Token.isOpener, hline])
    · exact splitParameters_of_enclosed hbody _
  simp only [List.cons_append, List.append_assoc, List.nil_append, Decoration.read, hsplit]
  rw [if_pos ⟨hsign, hname, hop⟩, if_pos hline, hitem]
  cases item <;> rfl

/-- In a balanced stream a decorator is read where a header stands, and nowhere else. -/
theorem decoration_read_ne_none_iff (hts : Balanced (before ++ ts)) :
    Decoration.read operator ts ≠ .ok none ↔ ∃ name parameters header behind,
      DecoratorHeader operator name parameters header ∧ ts = header ++ behind := by
  constructor
  · intro hsome
    by_contra hnone
    exact hsome (decoration_read_of_not_starts hts fun h => hnone h.exists_header)
  · rintro ⟨name, parameters, header, behind, hheader, rfl⟩
    rw [← List.append_assoc] at hts
    obtain ⟨item, rest, hitem, -⟩ := exists_splitItem hts
    rw [decoration_read_of_header hheader hitem]
    split <;> simp

/-- What is replaced by a decorator is what stands in front of the rest that it leaves. -/
theorem span_of_decoratorHead {d : Decoration} {taken : List Token} {change : HeadChange}
    (hread : Decoration.read operator ts = .ok (some (d, rest))) (hparts : taken ++ rest = ts)
    (h : decoratorHead apply operator ts w = .ok (some change) w') :
    ts.take change.length = taken ∧ ts.drop change.length = rest := by
  rcases decoratorHead_eq_ok h with ⟨-, hnone, -⟩ | ⟨d', rest', out, hread', -, hchange⟩
  · cases hnone
  · rw [hread] at hread'
    cases hread'
    cases hchange
    have hlength : ts.length - rest.length = taken.length := by
      rw [← hparts, List.length_append, Nat.add_sub_cancel]
    rw [hlength, ← hparts]
    exact ⟨List.take_left, List.drop_left⟩

/-- What a decorator in a balanced stream takes for its item: it is laid out as one, whole, and all
of what is taken behind the header. An error is left for no item at all. -/
theorem Decoration.takes_item (hts : Balanced (before ++ ts)) :
    (Decoration.read operator ts ≠ .ok none ↔ ∃ name parameters header behind,
      DecoratorHeader operator name parameters header ∧ ts = header ++ behind) ∧
    ∀ name parameters header behind, DecoratorHeader operator name parameters header →
      ts = header ++ behind → ∃ item rest, splitItem behind = .ok (item, rest) ∧
        ItemLayout item rest ∧ Balanced item ∧ Balanced (header ++ item) ∧
        (header ++ item) ++ rest = ts ∧
        (Decoration.read operator ts =
          if item = [] then
            .error ⟨.malformed (.noItem name.text operator), firstPosition header⟩
          else .ok (some (⟨name, parameters, item⟩, rest))) ∧
        ∀ apply w change w', decoratorHead apply operator ts w = .ok (some change) w' →
          ts.take change.length = header ++ item ∧ ts.drop change.length = rest := by
  refine ⟨decoration_read_ne_none_iff hts, ?_⟩
  rintro name parameters header behind hheader rfl
  have hbehind : Balanced ((before ++ header) ++ behind) := by rwa [List.append_assoc]
  obtain ⟨item, rest, hitem, happend, hlayout⟩ := exists_splitItem hbehind
  have hread := decoration_read_of_header hheader hitem
  have hparts : (header ++ item) ++ rest = header ++ behind := by
    rw [List.append_assoc, happend]
  refine ⟨item, rest, hitem, hlayout, hlayout.balanced,
    hheader.balanced.append hlayout.balanced, hparts, hread, ?_⟩
  intro apply w change w' hhead
  by_cases hnil : item = []
  · -- no change is made where the item is missing
    rw [if_pos hnil] at hread
    rcases decoratorHead_eq_ok hhead with ⟨-, hnone, -⟩ | ⟨d, rest', out, hread', -, -⟩
    · cases hnone
    · rw [hread] at hread'
      cases hread'
  · rw [if_neg hnil] at hread
    exact span_of_decoratorHead hread hparts hhead

/-! ## An item under two decorators -/

/-- The line `@f!(x)`. -/
def outerHeader : List Token :=
  [⟨.operator, "@", {}⟩, ⟨.name, "f", {}⟩, ⟨.operator, "!", {}⟩, ⟨.opener, "(", {}⟩,
    ⟨.name, "x", {}⟩, ⟨.closer, ")", {}⟩, .newline {}]

/-- The lines

    @g!
    class A:
        pass
-/
def decoratedClass : List Token :=
  [⟨.operator, "@", {}⟩, ⟨.name, "g", {}⟩, ⟨.operator, "!", {}⟩, .newline {},
    ⟨.name, "class", {}⟩, ⟨.name, "A", {}⟩, ⟨.operator, ":", {}⟩, .indent {},
    ⟨.name, "pass", {}⟩, .newline {}, .dedent {}]

/-- The line `b`. -/
def lineBehind : List Token := [⟨.name, "b", {}⟩, .newline {}]

/-- The outer decorator takes the line of the inner one, and the class with its block. -/
theorem takes_item_decoratedClass :
    Balanced ([] ++ (outerHeader ++ (decoratedClass ++ lineBehind))) ∧
    splitItem (decoratedClass ++ lineBehind) = .ok (decoratedClass, lineBehind) ∧
    ItemLayout decoratedClass lineBehind := by
  have hts : Balanced ([] ++ (outerHeader ++ (decoratedClass ++ lineBehind))) := by decide
  have hheader : DecoratorHeader "!" ⟨.name, "f", {}⟩
      [⟨.opener, "(", {}⟩, ⟨.name, "x", {}⟩, ⟨.closer, ")", {}⟩] outerHeader := by
    have hparameters : Enclosed "(" ")" [⟨.name, "x", {}⟩]
        (⟨.opener, "(", {}⟩ :: [⟨.name, "x", {}⟩] ++ [⟨.closer, ")", {}⟩]) :=
      .mk rfl (.plain rfl .nil) rfl
    exact .mk rfl rfl rfl (.inr ⟨_, hparameters⟩) rfl
  obtain ⟨item, rest, hsplit, hlayout, -⟩ :=
    (Decoration.takes_item hts).2 _ _ _ _ hheader rfl
  have hitem : splitItem (decoratedClass ++ lineBehind) = .ok (decoratedClass, lineBehind) := rfl
  cases hitem.symm.trans hsplit
  exact ⟨hts, hitem, hlayout⟩

end TokenMacros

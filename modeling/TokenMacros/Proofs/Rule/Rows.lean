import TokenMacros.Proofs.Rule.Binding
import TokenMacros.Proofs.Token.Tree
import TokenMacros.Rule.Filling

/-!
# Rows of trees in repetitions

Every stream is a row of trees and a rest that starts none (`exists_flatten_append`). A
repetition that takes a tree in each round reads the row, and stops where the rest
stops it:

    readRounds item none most none (trees.flatten ++ rest) =
      ⟨trees.map captures, trees.flatten, rest⟩            (readRounds_flatten)

A template writes what was captured in the rounds one by one, as often as there were
rounds (`Template.write_repetition`).
-/

namespace TokenMacros

/-- A stream starts with a row of trees, behind which no tree starts. -/
theorem exists_flatten_append (ts : List Token) : ∃ (trees : List (List Token)) (rest : List Token),
    (∀ tree ∈ trees, TokenTree tree) ∧ (∃ e, splitTree rest = .error e) ∧
      trees.flatten ++ rest = ts := by
  cases hsplit : splitTree ts with
  | error e => exact ⟨[], ts, by simp, ⟨e, hsplit⟩, rfl⟩
  | ok found =>
    obtain ⟨tree, behind⟩ := found
    have hlt := splitTree_length_lt hsplit
    obtain ⟨trees, rest, htrees, hstop, happend⟩ := exists_flatten_append behind
    obtain ⟨htree, htree'⟩ := splitTree_eq_ok_iff.1 hsplit
    refine ⟨tree :: trees, rest, List.forall_mem_cons.2 ⟨htree, htrees⟩, hstop, ?_⟩
    rw [List.flatten_cons, List.append_assoc, happend, htree']
termination_by ts.length

section rounds

variable {item : Reader} {captures : List Token → Captures} {trees : List (List Token)}
  {rest : List Token}

/-- Rounds that take a tree each read a row of trees. -/
theorem readRounds_flatten (hitem : ∀ tree behind, TokenTree tree →
      item (tree ++ behind) = some ⟨captures tree, tree, behind⟩)
    (htrees : ∀ tree ∈ trees, TokenTree tree) (hstop : item rest = none) {most : Nat}
    (hmost : trees.length ≤ most) :
    readRounds item none most none (trees.flatten ++ rest) =
      ⟨trees.map captures, trees.flatten, rest⟩ := by
  induction trees generalizing most with
  | nil =>
    rw [List.flatten_nil, List.nil_append]
    cases most with
    | zero => rfl
    | succ most =>
      rw [readRounds, splitSeparator]
      simp only [hstop, List.map_nil]
  | cons tree trees ih =>
    rw [List.forall_mem_cons] at htrees
    obtain ⟨most, rfl⟩ := Nat.exists_eq_add_of_le' (Nat.one_le_of_lt hmost)
    obtain ⟨t, tail, rfl⟩ := List.exists_cons_of_ne_nil htrees.1.ne_nil
    have hfirst := hitem (t :: tail) (trees.flatten ++ rest) htrees.1
    rw [List.flatten_cons, List.append_assoc, readRounds, splitSeparator]
    simp only [hfirst, ih htrees.2 (Nat.le_of_succ_le_succ hmost), List.nil_append, List.map_cons]

/-- A repetition that takes a tree in each round reads a row of trees. -/
theorem read_repetition_flatten {inner : Pattern}
    (hitem : ∀ tree behind, TokenTree tree →
      Pattern.read inner (tree ++ behind) = some ⟨captures tree, tree, behind⟩)
    (htrees : ∀ tree ∈ trees, TokenTree tree) (hstop : Pattern.read inner rest = none) :
    (PatternNode.repetition inner none .any).read (trees.flatten ++ rest) =
      some ⟨gather (Pattern.slots 0 inner) (trees.map captures) ∅, trees.flatten, rest⟩ := by
  have hmost : trees.length ≤ (trees.flatten ++ rest).length + 1 := by
    have hlen := length_le_length_flatten htrees
    rw [List.length_append]
    omega
  simp only [PatternNode.read, readRepetition, Quantifier.most, Quantifier.fewest,
    readRounds_flatten hitem htrees hstop hmost, Nat.not_lt_zero, if_false]

end rounds

/-! ## Captures of trees -/

theorem Pattern.read_singleton (node : PatternNode) (ts : List Token) :
    Pattern.read [node] ts = node.read ts := by
  rw [Pattern.read]
  cases node.read ts with
  | none => rfl
  | some r =>
    simp only [Pattern.read, List.append_nil]
    rfl

theorem read_tree_of_tokenTree {tree : List Token} (htree : TokenTree tree) (name : String)
    (position : Position) (rest : List Token) :
    (PatternNode.capture name .tree position).read (tree ++ rest) =
      some ⟨Table.insert ∅ name (.once tree), tree, rest⟩ := by
  simp only [PatternNode.read, Fragment.take, splitTree_of_tokenTree htree rest, Except.toOption,
    Option.map_some]

theorem read_tree_of_error {ts : List Token} {e : Fault} (h : splitTree ts = .error e)
    (name : String) (position : Position) :
    (PatternNode.capture name .tree position).read ts = none := by
  simp only [PatternNode.read, Fragment.take, h, Except.toOption, Option.map_none]

/-- In a row of trees a capture holds its value in each of the rounds. -/
theorem find?_gather_map {slots : List Slot} (s : Slot) (hnodup : (slots.map Slot.name).Nodup)
    (hs : s ∈ slots) (captures : List Token → Captures) (trees : List (List Token)) :
    (gather slots (trees.map captures) ∅).find? s.name = some (.each (trees.map fun tree =>
      ((captures tree).find? s.name).getD (.unreached s.depth))) := by
  rw [find?_gather s hnodup hs, List.map_map]
  rfl

/-! ## Writing -/

/-- Rounds that write one piece each write the pieces one after the other. -/
theorem writeRounds_flatten {body : Nat → Except Fault (List Token)} {pieces : List (List Token)}
    {index : Nat} (hbody : ∀ i (hi : i < pieces.length), body (index + i) = .ok pieces[i]) :
    writeRounds body none index pieces.length = .ok pieces.flatten := by
  induction pieces generalizing index with
  | nil => rfl
  | cons piece pieces ih =>
    have hfirst : body index = .ok piece := hbody 0 (Nat.zero_lt_succ _)
    have hrest : writeRounds body none (index + 1) pieces.length = .ok pieces.flatten := by
      refine ih fun i hi => ?_
      rw [Nat.add_right_comm]
      exact hbody (i + 1) (Nat.succ_lt_succ hi)
    rw [List.length_cons, writeRounds, hfirst]
    simp only [hrest, Option.toList_none, ite_self, List.nil_append, List.flatten_cons]
    rfl

/-- Where one capture alone stands in a repetition, there are as many rounds as it has. -/
theorem roundCount_single {captures : Captures} {inner : Template} {name : String}
    {position : Position} {rounds : List Captured} (hholes : inner.holes = [(name, position)])
    (hfind : captures.find? name = some (.each rounds)) :
    roundCount captures [] inner = .ok rounds.length := by
  simp only [roundCount, hholes, agreedCount, valueOf, hfind, Captured.along_nil, Option.bind_some,
    Captured.count?]

/-- A hole in a repetition is filled with the round of its capture. -/
theorem writeHole_round {captures : Captures} {name : String} {position : Position}
    {rounds : List Captured} (hfind : captures.find? name = some (.each rounds)) {i : Nat}
    {tokens : List Token} (hround : rounds[i]? = some (.once tokens)) :
    writeHole captures [i] name position = .ok tokens := by
  simp only [writeHole, valueOf, hfind, Captured.along, hround]

theorem Template.write_literal (captures : Captures) (t : Token) (nodes : Template)
    (path : List Nat) : Template.write captures (.literal t :: nodes) path =
      (Template.write captures nodes path).map (t :: ·) := rfl

/-- A repetition writes a row of pieces, one in each round. -/
theorem Template.write_repetition {captures : Captures} {inner nodes : Template}
    {pieces : List (List Token)} (hcount : roundCount captures [] inner = .ok pieces.length)
    (hpieces : ∀ i (hi : i < pieces.length), Template.write captures inner [i] = .ok pieces[i]) :
    Template.write captures (.repetition inner none :: nodes) [] =
      (Template.write captures nodes []).map (pieces.flatten ++ ·) := by
  have hrounds : writeRounds (fun index => Template.write captures inner ([] ++ [index])) none 0
      pieces.length = .ok pieces.flatten := by
    refine writeRounds_flatten fun i hi => ?_
    rw [Nat.zero_add]
    exact hpieces i hi
  rw [Template.write, TemplateNode.write]
  simp only [hcount, hrounds]

end TokenMacros

import Mathlib.Logic.Embedding.Basic
import TokenMacros.Rule.Basic

/-!
# Renaming captures

A renaming gives every capture another name, and no two of them the same. `rename` does so
in any data that name captures. What compares names, and does no more with them, commutes
with it,

    f (rename r x) = rename r (f x)

Here this is shown for tables of captures, and for the check that a template fits a pattern:

    Rule.make (rename r p) (rename r t) = rename r (Rule.make p t)
                                                           (rule_make_rename)
-/

namespace TokenMacros

/-- New names for captures. -/
abbrev Renaming := String ↪ String

/-- Data that name captures. -/
class Named (α : Type) where
  /-- The data with new names for the captures. -/
  rename : Renaming → α → α

export Named (rename)

/-! ## Containers -/

section containers

variable {α : Type} [Named α] (r : Renaming)

instance : Named (Option α) := ⟨fun r => Option.map (rename r)⟩
instance : Named (List α) := ⟨fun r => List.map (rename r)⟩

@[simp] theorem rename_none : rename r (none : Option α) = none := rfl
@[simp] theorem rename_some (a : α) : rename r (some a) = some (rename r a) := rfl

@[simp] theorem rename_cons (a : α) (as : List α) :
    rename r (a :: as) = rename r a :: rename r as := rfl

@[simp] theorem rename_append (as bs : List α) :
    rename r (as ++ bs) = rename r as ++ rename r bs := List.map_append

@[simp] theorem length_rename (as : List α) : (rename r as).length = as.length := List.length_map _

end containers

/-! ## Faults -/

/-- The fault with other names for the captures. -/
def CountFault.mapNames (f : String → String) : CountFault → CountFault
  | .noValue name => .noValue (f name)
  | .differ first expected name found => .differ (f first) expected (f name) found
  | .nothingRepeats => .nothingRepeats

/-- The cause with other names for the captures. -/
def Cause.mapNames (f : String → String) : Cause → Cause
  | .duplicateCapture name => .duplicateCapture (f name)
  | .stillRepeating name declared used => .stillRepeating (f name) declared used
  | .unknownCapture name => .unknownCapture (f name)
  | .count fault => .count (fault.mapNames f)
  | cause => cause

/-- The fault with other names for the captures. -/
def Fault.mapNames (f : String → String) (e : Fault) : Fault :=
  { e with cause := e.cause.mapNames f }

/-- The fault without the names of captures: what is wrong and where, but not with which. -/
def Fault.anonymous (e : Fault) : Fault := e.mapNames fun _ => ""

instance : Named Fault := ⟨fun r => Fault.mapNames r⟩

@[simp] theorem anonymous_rename (r : Renaming) (e : Fault) :
    (rename r e).anonymous = e.anonymous := by
  obtain ⟨cause, position⟩ := e
  cases cause with
  | count fault => cases fault <;> rfl
  | _ => rfl

section results

variable {α : Type} [Named α] (r : Renaming)

instance : Named (Except Fault α) where
  rename r
    | .ok a => .ok (rename r a)
    | .error e => .error (rename r e)

@[simp] theorem rename_ok (a : α) : rename r (.ok a : Except Fault α) = .ok (rename r a) := rfl

theorem rename_ite (c : Prop) [Decidable c] (a b : α) :
    rename r (if c then a else b) = if c then rename r a else rename r b :=
  apply_ite (rename r) c a b

end results

/-! ## Tables -/

section tables

variable {α : Type} (r : Renaming)

/-- The entries with new names. -/
def renameEntries (entries : List (String × α)) : List (String × α) :=
  entries.map fun e => (r e.1, e.2)

instance : Named (Table α) := ⟨fun r t => ⟨renameEntries r t.entries⟩⟩

theorem entries_rename (t : Table α) : (rename r t).entries = renameEntries r t.entries := rfl

@[simp] theorem rename_empty : rename r (∅ : Table α) = ∅ := rfl

theorem find?_rename (t : Table α) (name : String) :
    (rename r t).find? (r name) = t.find? name := by
  obtain ⟨entries⟩ := t
  show Table.lookup (r name) (renameEntries r entries) = Table.lookup name entries
  induction entries with
  | nil => rfl
  | cons e entries ih =>
    rw [renameEntries, List.map_cons, Table.lookup, Table.lookup, ← renameEntries, ih]
    simp only [r.injective.eq_iff]

theorem contains_rename (t : Table α) (name : String) :
    (rename r t).contains (r name) = t.contains name :=
  congrArg Option.isSome (find?_rename r t name)

theorem insert_rename (t : Table α) (name : String) (value : α) :
    (rename r t).insert (r name) value = rename r (t.insert name value) := by
  obtain ⟨entries⟩ := t
  refine congrArg Table.mk ?_
  show Table.put (r name) value (renameEntries r entries) =
    renameEntries r (Table.put name value entries)
  induction entries with
  | nil => rfl
  | cons e entries ih =>
    rw [renameEntries, List.map_cons, Table.put, Table.put, ← renameEntries, ih]
    simp only [r.injective.eq_iff]
    split <;> rfl

theorem erase_rename (t : Table α) (name : String) :
    (rename r t).erase (r name) = rename r (t.erase name) := by
  obtain ⟨entries⟩ := t
  refine congrArg Table.mk ?_
  show (renameEntries r entries).filter _ = renameEntries r (entries.filter _)
  rw [renameEntries, renameEntries, List.filter_map]
  simp only [Function.comp_def, ne_eq, r.injective.eq_iff]

theorem merge_rename (t u : Table α) :
    (rename r t).merge (rename r u) = rename r (t.merge u) := by
  obtain ⟨entries⟩ := u
  show (renameEntries r entries).foldl _ (rename r t) = rename r (entries.foldl _ t)
  induction entries generalizing t with
  | nil => rfl
  | cons e entries ih =>
    rw [renameEntries, List.map_cons, List.foldl_cons, List.foldl_cons, insert_rename,
      ← renameEntries, ih]

theorem sameAs_rename [DecidableEq α] (t u : Table α) :
    (rename r t).sameAs (rename r u) = t.sameAs u := by
  rw [Table.sameAs, Table.sameAs, Table.size, Table.size, entries_rename, entries_rename,
    renameEntries, renameEntries, List.length_map, List.length_map, List.all_map]
  -- every entry is looked up under its new name
  congr 2
  funext e
  exact congrArg (· == some e.2) (find?_rename r u e.1)

end tables

/-! ## Patterns and templates -/

mutual

/-- The node with new names for its captures. -/
def PatternNode.rename (r : Renaming) : PatternNode → PatternNode
  | .literal token => .literal token
  | .capture name fragment position => .capture (r name) fragment position
  | .repetition inner separator q => .repetition (Pattern.rename r inner) separator q
  | .choice variants position => .choice (Pattern.renameEach r variants) position
  | .lookahead inner => .lookahead (Pattern.rename r inner)
  | .escape escape => .escape escape

/-- The pattern with new names for its captures. -/
def Pattern.rename (r : Renaming) : Pattern → Pattern
  | [] => []
  | node :: nodes => node.rename r :: Pattern.rename r nodes

/-- The patterns with new names for their captures. -/
def Pattern.renameEach (r : Renaming) : List Pattern → List Pattern
  | [] => []
  | variant :: variants => Pattern.rename r variant :: Pattern.renameEach r variants

end

mutual

/-- The node with new names in its holes. -/
def TemplateNode.rename (r : Renaming) : TemplateNode → TemplateNode
  | .literal token => .literal token
  | .hole name position => .hole (r name) position
  | .repetition inner separator => .repetition (Template.rename r inner) separator
  | .escape escape => .escape escape

/-- The template with new names in its holes. -/
def Template.rename (r : Renaming) : Template → Template
  | [] => []
  | node :: nodes => node.rename r :: Template.rename r nodes

end

instance : Named PatternNode := ⟨PatternNode.rename⟩
instance : Named TemplateNode := ⟨TemplateNode.rename⟩

section nodes

variable (r : Renaming) (name : String) (fragment : Fragment) (position : Position)
  (token : Token) (separator : Option Token) (q : Quantifier) (escape : Escape)

theorem pattern_rename_eq (p : Pattern) : Pattern.rename r p = rename r p := by
  induction p with
  | nil => rfl
  | cons node nodes ih => rw [Pattern.rename, ih]; rfl

theorem renameEach_eq (variants : List Pattern) :
    Pattern.renameEach r variants = rename r variants := by
  induction variants with
  | nil => rfl
  | cons variant variants ih => rw [Pattern.renameEach, ih, pattern_rename_eq]; rfl

theorem template_rename_eq (t : Template) : Template.rename r t = rename r t := by
  induction t with
  | nil => rfl
  | cons node nodes ih => rw [Template.rename, ih]; rfl

@[simp] theorem rename_literal :
    rename r (PatternNode.literal token) = .literal token := rfl

@[simp] theorem rename_escape : rename r (PatternNode.escape escape) = .escape escape := rfl

@[simp] theorem rename_capture : rename r (PatternNode.capture name fragment position) =
    .capture (r name) fragment position := rfl

@[simp] theorem rename_repetition (inner : Pattern) :
    rename r (PatternNode.repetition inner separator q) =
      .repetition (rename r inner) separator q := by
  rw [← pattern_rename_eq]
  rfl

@[simp] theorem rename_choice (variants : List Pattern) :
    rename r (PatternNode.choice variants position) = .choice (rename r variants) position := by
  rw [← renameEach_eq]
  rfl

@[simp] theorem rename_lookahead (inner : Pattern) :
    rename r (PatternNode.lookahead inner) = .lookahead (rename r inner) := by
  rw [← pattern_rename_eq]
  rfl

@[simp] theorem rename_hole :
    rename r (TemplateNode.hole name position) = .hole (r name) position := rfl

@[simp] theorem rename_templateRepetition (inner : Template) :
    rename r (TemplateNode.repetition inner separator) =
      .repetition (rename r inner) separator := by
  rw [← template_rename_eq]
  rfl

end nodes

/-! ## Depths -/

section depths

variable (r : Renaming)

theorem add_rename (name : String) (depth : Nat) (position : Position) (seen : Depths) :
    Depths.add (r name) depth position (rename r seen) =
      rename r (seen.add name depth position) := by
  rw [Depths.add, Depths.add, contains_rename, insert_rename, rename_ite]
  rfl

theorem addAll_rename (position : Position) (entries : List (String × Nat)) (seen : Depths) :
    Depths.addAll position (renameEntries r entries) (rename r seen) =
      rename r (seen.addAll position entries) := by
  induction entries generalizing seen with
  | nil => rfl
  | cons e entries ih =>
    rw [renameEntries, List.map_cons, Depths.addAll, Depths.addAll, add_rename, ← renameEntries]
    cases seen.add e.1 e.2 position with
    | error e => rfl
    | ok seen => exact ih seen

end depths

mutual

theorem PatternNode.addDepths_rename (r : Renaming) :
    ∀ (depth : Nat) (node : PatternNode) (seen : Depths),
      (rename r node).addDepths depth (rename r seen) = rename r (node.addDepths depth seen)
  | depth, .literal _, seen | depth, .escape _, seen => rfl
  | depth, .capture name _ position, seen => add_rename r name depth position seen
  | depth, .repetition inner separator q, seen => by
    rw [rename_repetition, PatternNode.addDepths, PatternNode.addDepths, Pattern.addDepths_rename]
  | depth, .choice variants position, seen => by
    have hchoice := Pattern.choiceDepths_rename r depth position variants none
    rw [rename_none] at hchoice
    rw [rename_choice, PatternNode.addDepths, PatternNode.addDepths, hchoice]
    cases Pattern.choiceDepths depth position variants none with
    | error e => rfl
    | ok bound =>
      cases bound with
      | none => exact addAll_rename r position [] seen
      | some bound => exact addAll_rename r position bound.entries seen
  | depth, .lookahead inner, seen => by
    have hinner := Pattern.addDepths_rename r depth inner ∅
    rw [rename_empty] at hinner
    rw [rename_lookahead, PatternNode.addDepths, PatternNode.addDepths, hinner]
    cases Pattern.addDepths depth inner ∅ <;> rfl

theorem Pattern.addDepths_rename (r : Renaming) :
    ∀ (depth : Nat) (p : Pattern) (seen : Depths),
      Pattern.addDepths depth (rename r p) (rename r seen) =
        rename r (Pattern.addDepths depth p seen)
  | depth, [], seen => rfl
  | depth, node :: nodes, seen => by
    rw [rename_cons, Pattern.addDepths, Pattern.addDepths, PatternNode.addDepths_rename]
    cases node.addDepths depth seen with
    | error e => rfl
    | ok seen => exact Pattern.addDepths_rename r depth nodes seen

theorem Pattern.choiceDepths_rename (r : Renaming) :
    ∀ (depth : Nat) (position : Position) (variants : List Pattern) (expected : Option Depths),
      Pattern.choiceDepths depth position (rename r variants) (rename r expected) =
        rename r (Pattern.choiceDepths depth position variants expected)
  | depth, position, [], expected => rfl
  | depth, position, variant :: variants, expected => by
    have hvariant := Pattern.addDepths_rename r depth variant ∅
    rw [rename_empty] at hvariant
    rw [rename_cons, Pattern.choiceDepths, Pattern.choiceDepths, hvariant]
    cases Pattern.addDepths depth variant ∅ with
    | error e => rfl
    | ok bound =>
      cases expected with
      | none => exact Pattern.choiceDepths_rename r depth position variants (some bound)
      | some first =>
        have hvariants := Pattern.choiceDepths_rename r depth position variants (some first)
        rw [rename_some] at hvariants
        simp only [rename_ok, rename_some, sameAs_rename, hvariants, rename_ite]
        rfl

end

/-! ## Fitting -/

mutual

theorem TemplateNode.fit_rename (r : Renaming) (declared : Depths) :
    ∀ (depth : Nat) (node : TemplateNode), (rename r node).fit (rename r declared) depth =
      (node.fit declared depth).mapError (rename r)
  | depth, .literal _ | depth, .escape _ => rfl
  | depth, .hole name position => by
    rw [rename_hole, TemplateNode.fit, TemplateNode.fit, find?_rename]
    cases declared.find? name with
    | none => rfl
    | some d =>
      simp only
      split <;> rfl
  | depth, .repetition inner separator => by
    rw [rename_templateRepetition, TemplateNode.fit, TemplateNode.fit, Template.fit_rename]

theorem Template.fit_rename (r : Renaming) (declared : Depths) :
    ∀ (depth : Nat) (t : Template), Template.fit (rename r declared) depth (rename r t) =
      (t.fit declared depth).mapError (rename r)
  | depth, [] => rfl
  | depth, node :: nodes => by
    rw [rename_cons, Template.fit, Template.fit, TemplateNode.fit_rename]
    cases node.fit declared depth with
    | error e => rfl
    | ok _ => exact Template.fit_rename r declared depth nodes

end

section rules

variable (r : Renaming) (p : Pattern) (t : Template)

theorem rule_fit_rename :
    Rule.fit (rename r p) (rename r t) = (Rule.fit p t).mapError (rename r) := by
  have hdepths := Pattern.addDepths_rename r 0 p ∅
  rw [rename_empty] at hdepths
  rw [Rule.fit, Rule.fit, Pattern.depths, Pattern.depths, hdepths]
  cases p.addDepths 0 ∅ with
  | error e => rfl
  | ok declared => exact t.fit_rename r declared 0

/-- The rule fits with new names too. -/
def Rule.rename (r : Renaming) (rule : Rule) : Rule where
  pattern := Named.rename r rule.pattern
  template := Named.rename r rule.template
  fits := by
    rw [rule_fit_rename, rule.fits]
    rfl

instance : Named Rule := ⟨Rule.rename⟩

/-- The same rules are made of patterns and templates with new names. -/
theorem rule_make_rename :
    Rule.make (rename r p) (rename r t) = rename r (Rule.make p t) := by
  cases h : Rule.make p t with
  | ok rule =>
    obtain ⟨rfl, rfl⟩ := Rule.make_eq_ok_iff.1 h
    exact Rule.make_eq_ok_iff.2 ⟨rfl, rfl⟩
  | error e =>
    rw [Rule.make_eq_error_iff] at h
    exact Rule.make_eq_error_iff.2 (by rw [rule_fit_rename, h]; rfl)

end rules

end TokenMacros

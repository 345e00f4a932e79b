import TokenMacros.Expansion.Basic
import TokenMacros.Proofs.Source.Printing
import TokenMacros.Token.Printing
import TokenMacros.Token.Tree

/-!
# Taking positions off

`bare` takes the positions off any data that hold some. What looks at kinds and texts
alone commutes with it,

    f (bare x) = bare (f x)

so that it makes data that agree up to positions of data that agree (`Placed.congr`).
Here this is shown for the functions on tokens and tables.
-/

namespace TokenMacros

/-- Data that hold positions. -/
class Placed (α : Type) where
  /-- The data with all positions at 0:0. -/
  bare : α → α

export Placed (bare)

/-- A function that commutes with `bare` makes data that agree of data that agree. -/
theorem Placed.congr {α β : Type} [Placed α] [Placed β] {f : α → β}
    (hf : ∀ a, f (bare a) = bare (f a)) {a b : α} (h : bare a = bare b) :
    bare (f a) = bare (f b) := by
  rw [← hf, ← hf, h]

/-- A function that positions do not matter to has one value for data that agree. -/
theorem Placed.eq_of_agree {α β : Type} [Placed α] {f : α → β} (hf : ∀ a, f (bare a) = f a)
    {a b : α} (h : bare a = bare b) : f a = f b := by
  rw [← hf a, h, hf b]

/-! ## Containers -/

instance : Placed Unit := ⟨id⟩
instance : Placed Bool := ⟨id⟩
instance : Placed String := ⟨id⟩

@[simp] theorem bare_bool (b : Bool) : bare b = b := rfl

section containers

variable {α β : Type} [Placed α] [Placed β]

instance : Placed (Option α) := ⟨Option.map bare⟩
instance : Placed (List α) := ⟨List.map bare⟩
instance : Placed (α × β) := ⟨fun p => (bare p.1, bare p.2)⟩
instance : Placed (Table α) := ⟨fun t => ⟨t.entries.map fun e => (e.1, bare e.2)⟩⟩

@[simp] theorem bare_none : bare (none : Option α) = none := rfl
@[simp] theorem bare_some (a : α) : bare (some a) = some (bare a) := rfl
@[simp] theorem bare_nil : bare ([] : List α) = [] := rfl
@[simp] theorem bare_cons (a : α) (as : List α) : bare (a :: as) = bare a :: bare as := rfl
@[simp] theorem bare_mk (a : α) (b : β) : bare (a, b) = (bare a, bare b) := rfl

@[simp] theorem fst_bare (p : α × β) : (bare p).1 = bare p.1 := rfl
@[simp] theorem snd_bare (p : α × β) : (bare p).2 = bare p.2 := rfl

@[simp] theorem bare_append (as bs : List α) : bare (as ++ bs) = bare as ++ bare bs :=
  List.map_append

@[simp] theorem length_bare (as : List α) : (bare as).length = as.length :=
  List.length_map _

theorem bare_ite (c : Prop) [Decidable c] (a b : α) :
    bare (if c then a else b) = if c then bare a else bare b := apply_ite bare c a b

theorem drop_bare (n : Nat) (as : List α) : (bare as).drop n = bare (as.drop n) :=
  List.map_drop.symm

theorem getLast?_bare (as : List α) : (bare as).getLast? = bare as.getLast? := List.getLast?_map

/-- Of two options that agree none has a value, or both have values that agree. -/
theorem option_of_agree {o o' : Option α} (h : bare o = bare o') :
    (o = none ∧ o' = none) ∨ ∃ a a', o = some a ∧ o' = some a' ∧ bare a = bare a' := by
  cases o <;> cases o'
  · exact .inl ⟨rfl, rfl⟩
  · cases h
  · cases h
  · exact .inr ⟨_, _, rfl, rfl, Option.some.inj h⟩

end containers

/-! ## Tokens and faults -/

instance : Placed Token := ⟨Token.bare⟩

/-- The fault without the positions of its tokens. -/
def Imbalance.bare : Imbalance → Imbalance
  | .mismatched closer opener => .mismatched (Placed.bare closer) (Placed.bare opener)
  | .stray closer => .stray (Placed.bare closer)
  | .unclosed opener => .unclosed (Placed.bare opener)
  | .noTree => .noTree

/-- The fault without the position of its token. -/
def Malformed.bare : Malformed → Malformed
  | .afterDollar next => .afterDollar (Placed.bare next)
  | .badSeparator symbol => .badSeparator (Placed.bare symbol)
  | .badQuantifier found => .badQuantifier (Placed.bare found)
  | .unknownFragment word => .unknownFragment (Placed.bare word)
  | fault => fault

/-- The cause without positions. -/
def Cause.bare : Cause → Cause
  | .malformed fault => .malformed fault.bare
  | .imbalanced fault => .imbalanced fault.bare
  | cause => cause

/-- The fault without positions. -/
def Fault.bare (e : Fault) : Fault := ⟨e.cause.bare, {}⟩

instance : Placed Fault := ⟨Fault.bare⟩

section results

variable {α β : Type} [Placed α] [Placed β]

instance : Placed (Except Fault α) where
  bare
    | .ok a => .ok (bare a)
    | .error e => .error (bare e)

@[simp] theorem bare_ok (a : α) : bare (.ok a : Except Fault α) = .ok (bare a) := rfl

/-- What is done to a result commutes with `bare` if what is done to its value does. -/
theorem map_bare {f g : α → β} (h : ∀ a, g (bare a) = bare (f a)) (x : Except Fault α) :
    (bare x).map g = bare (x.map f) := by
  cases x with
  | ok a => exact congrArg Except.ok (h a)
  | error e => rfl

/-- Two results that agree are values that agree or faults that agree. -/
theorem result_of_agree {x y : Except Fault α} (h : bare x = bare y) :
    (∃ a b, x = .ok a ∧ y = .ok b ∧ bare a = bare b) ∨
      ∃ e e', x = .error e ∧ y = .error e' ∧ bare e = bare e' := by
  cases x <;> cases y
  · exact .inr ⟨_, _, rfl, rfl, Except.error.inj h⟩
  · cases h
  · cases h
  · exact .inl ⟨_, _, rfl, rfl, Except.ok.inj h⟩

end results

section tokens

variable (t u : Token) (text : String)

@[simp] theorem kind_bare : (bare t).kind = t.kind := rfl
@[simp] theorem text_bare : (bare t).text = t.text := rfl
@[simp] theorem position_bare : (bare t).position = {} := rfl
@[simp] theorem role_bare : (bare t).role = t.role := rfl
@[simp] theorem isDelimiter_bare : (bare t).isDelimiter = t.isDelimiter := rfl
@[simp] theorem isOperator_bare : (bare t).isOperator text = t.isOperator text := rfl
@[simp] theorem isWord_bare : (bare t).isWord text = t.isWord text := rfl
@[simp] theorem isOpener_bare : (bare t).isOpener text = t.isOpener text := rfl
@[simp] theorem isCloser_bare : (bare t).isCloser text = t.isCloser text := rfl
@[simp] theorem same_bare : (bare t).same (bare u) = t.same u := rfl

end tokens

/-! ## Trees -/

variable {ts : List Token}

theorem consFirst_bare (t : Token) (p : List Token × List Token) :
    consFirst (bare t) (bare p) = bare (consFirst t p) := rfl

theorem splitClosing_bare (opener : Token) (top : Delimiter) (below : List Delimiter)
    (ts : List Token) :
    splitClosing (bare opener) top below (bare ts) = bare (splitClosing opener top below ts) := by
  induction ts generalizing top below with
  | nil => rfl
  | cons t ts ih =>
    simp only [bare_cons, splitClosing, role_bare, ih]
    cases t.role with
    | plain => exact map_bare (consFirst_bare t) _
    | opens d => exact map_bare (consFirst_bare t) _
    | closes d =>
      by_cases h : top = d
      · cases below with
        | nil => simp only [if_pos h, bare_ok, bare_mk, bare_cons, bare_nil]
        | cons next below =>
          simp only [if_pos h]
          exact map_bare (consFirst_bare t) _
      · simp only [if_neg h]
        rfl

theorem splitTree_bare (ts : List Token) : splitTree (bare ts) = bare (splitTree ts) := by
  cases ts with
  | nil => rfl
  | cons t ts =>
    rw [bare_cons, splitTree, splitTree, role_bare]
    cases t.role with
    | plain => rfl
    | closes d => rfl
    | opens d =>
      simp only [splitClosing_bare]
      exact map_bare (consFirst_bare t) _

theorem splitTreesFrom_bare {p : Token → Bool} (hp : ∀ t, p (bare t) = p t) (fuel : Nat)
    (ts : List Token) : splitTreesFrom p fuel (bare ts) = bare (splitTreesFrom p fuel ts) := by
  induction fuel generalizing ts with
  | zero => rfl
  | succ fuel ih =>
    have hhead : (bare ts).head?.all p = ts.head?.all p := by
      cases ts with
      | nil => rfl
      | cons t ts => exact hp t
    rw [splitTreesFrom, splitTreesFrom, hhead, splitTree_bare]
    cases ts.head?.all p with
    | false => rfl
    | true =>
      cases splitTree ts with
      | error e => rfl
      | ok found => simp only [bare_ok, if_true, fst_bare, snd_bare, ih, bare_mk, bare_cons]

theorem splitTreesWhile_bare {p : Token → Bool} (hp : ∀ t, p (bare t) = p t) (ts : List Token) :
    splitTreesWhile p (bare ts) = bare (splitTreesWhile p ts) := by
  rw [splitTreesWhile, splitTreesWhile, length_bare, splitTreesFrom_bare hp]
  exact Prod.ext List.map_flatten.symm rfl

theorem interior_bare (tree : List Token) : interior (bare tree) = bare (interior tree) := by
  show (List.map bare tree).tail.dropLast = List.map bare tree.tail.dropLast
  rw [← List.map_tail, List.map_dropLast]

theorem splitGroup_bare (text : String) (ts : List Token) :
    splitGroup text (bare ts) = bare (splitGroup text ts) := by
  cases ts with
  | nil => rfl
  | cons t ts =>
    rw [bare_cons, splitGroup, splitGroup, isOpener_bare, ← bare_cons, splitTree_bare]
    cases t.isOpener text with
    | false => rfl
    | true =>
      cases splitTree (t :: ts) with
      | error e => rfl
      | ok found =>
        simp only [bare_ok, if_true, fst_bare, snd_bare, interior_bare, bare_some, bare_mk]

/-! ## Balance -/

instance : Placed Pending := ⟨fun p => { p with token := bare p.token }⟩
instance : Placed Nat := ⟨id⟩

theorem pairsFrom_bare (index : Nat) (stack : List Pending) (ts : List Token) :
    Pairing.pairsFrom index (bare stack) (bare ts) = bare (Pairing.pairsFrom index stack ts) := by
  induction ts generalizing index stack with
  | nil => cases stack <;> rfl
  | cons t ts ih =>
    simp only [bare_cons, Pairing.pairsFrom, role_bare, ih]
    cases t.role with
    | plain => rfl
    | opens d => exact ih (index + 1) (⟨d, index, t⟩ :: stack)
    | closes d =>
      cases stack with
      | nil => rfl
      | cons p below =>
        simp only [bare_cons, ih]
        by_cases h : p.delimiter = d
        · simp only [if_pos (show (bare p).delimiter = d from h), if_pos h]
          cases Pairing.pairsFrom (index + 1) below ts <;> rfl
        · simp only [if_neg (show ¬ (bare p).delimiter = d from h), if_neg h]
          rfl

theorem requireBalanced_bare (ts : List Token) :
    requireBalanced (bare ts) = bare (requireBalanced ts) := by
  have h : Pairing.pairsFrom 0 [] (bare ts) = bare (Pairing.pairsFrom 0 [] ts) :=
    pairsFrom_bare 0 [] ts
  rw [requireBalanced, requireBalanced, Pairing.ofTokens, Pairing.ofTokens, h]
  cases Pairing.pairsFrom 0 [] ts <;> rfl

/-! ## Texts -/

theorem print_bare (ts : List Token) : print (bare ts) = print ts :=
  congrArg String.ofList (Source.printFrom_map_bare none 0 true ts)

theorem textToQuote_bare (ts : List Token) : textToQuote (bare ts) = textToQuote ts := by
  match ts with
  | [] => rfl
  | [_] => rfl
  | t :: u :: ts => exact print_bare (t :: u :: ts)

theorem firstPosition_bare (ts : List Token) : firstPosition (bare ts) = {} := by
  cases ts <;> rfl

theorem quote_bare (ts : List Token) : quote (bare ts) = bare (quote ts) := by
  rw [quote, textToQuote_bare, firstPosition_bare]
  rfl

theorem sameTokens_bare (ts us : List Token) :
    sameTokens (bare ts) (bare us) = sameTokens ts us := by
  induction ts generalizing us with
  | nil => cases us <;> rfl
  | cons t ts ih =>
    cases us with
    | nil => rfl
    | cons u us => exact congrArg (t.same u && ·) (ih us)

end TokenMacros

import TokenMacros.Proofs.Source.Lexeme

/-!
# The grammar of lexemes

The lexemes of a source text as a parsing expression grammar (`Grammar.rules`): a choice
takes the first alternative that succeeds, a repetition takes as much as it can and gives
nothing back, and a literal puts its opening quotes on a stack to find them again at its
end. The readers of lexemes read what the grammar says:

    Grammar.lexeme? cs = (lexeme? cs).map fun x => (x.1, cs.drop x.2)
                                                           (grammar_lexeme?)

`Peg.Reads` says of an expression that a reader of lengths reads what it takes. It passes
from the parts of an expression to the whole, up to the repetitions, which the readers
replace by runs of characters (`starLength_single`), of digits (`starLength_digit`), and by
the tails of literals (`pop_longBody`, `pop_shortBody`).
-/

namespace TokenMacros.Source

/-! ## Parsing expressions -/

/-- Where an expression is tried: the texts that were put aside, the latest first, and the text
that is left. -/
structure PegState where
  stack : List (List Char)
  rest : List Char

/-- Takes a fixed text off the head of what is left. -/
def PegState.strip (s : PegState) (cs : List Char) : Option PegState :=
  if s.rest.take cs.length = cs then some { s with rest := s.rest.drop cs.length } else none

/-- A parsing expression. -/
inductive Peg
  /-- One character of a class. -/
  | char (p : Char → Bool)
  /-- A fixed text. -/
  | text (cs : List Char)
  /-- A fixed text, its letters in either case. -/
  | anyCase (cs : List Char)
  /-- One behind the other. -/
  | seq (first second : Peg)
  /-- The second one only where the first one fails. -/
  | choice (first second : Peg)
  /-- As often as it succeeds. -/
  | star (body : Peg)
  /-- Takes nothing, where the expression fails. -/
  | not (e : Peg)
  /-- Puts the text that the expression takes on the stack. -/
  | push (e : Peg)
  /-- The text on top of the stack. -/
  | peek
  /-- The text on top of the stack, which is taken off. -/
  | pop

namespace Peg

/-- Takes a step as often as it succeeds, but not more often than the bound. -/
def repeated (step : PegState → Option PegState) : Nat → PegState → PegState
  | 0, s => s
  | bound + 1, s =>
    match step s with
    | none => s
    | some s' => repeated step bound s'

/-- Where an expression ends, if it succeeds. No more repetitions that take anything fit into a
text than it has characters. -/
def run : Peg → PegState → Option PegState
  | char p, s =>
    match s.rest with
    | c :: cs => if p c then some { s with rest := cs } else none
    | [] => none
  | text cs, s => s.strip cs
  | anyCase cs, s =>
    if (s.rest.take cs.length).map Char.toLower = cs then
      some { s with rest := s.rest.drop cs.length }
    else none
  | seq first second, s => (first.run s).bind second.run
  | choice first second, s => first.run s <|> second.run s
  | star body, s => some (repeated body.run s.rest.length s)
  | not e, s => if (e.run s).isSome then none else some s
  | push e, s => (e.run s).map fun s' =>
      { s' with stack := s.rest.take (s.rest.length - s'.rest.length) :: s'.stack }
  | peek, s => s.stack.head?.bind s.strip
  | pop, s =>
    match s.stack with
    | [] => none
    | top :: below => (s.strip top).map fun s' => { s' with stack := below }

/-- The expression, or nothing. -/
def optional (e : Peg) : Peg := e.choice (text [])

/-- At least once. -/
def plus (e : Peg) : Peg := e.seq e.star

/-- Any character. -/
def any : Peg := char fun _ => true

/-- The first expression that succeeds. -/
def anyOf : List Peg → Peg
  | [] => not (text [])
  | e :: es => e.choice (anyOf es)

end Peg

/-! ## The rules -/

namespace Grammar

open Peg

def lineBreak : Peg := anyOf [text ['\r', '\n'], text ['\n'], text ['\r']]

def blank : Peg := plus (anyOf [text [' '], text ['\t'], text ['\x0c']])

def comment : Peg := (text ['#']).seq (star ((not lineBreak).seq any))

def continuation : Peg := (text ['\\']).seq lineBreak

def escape : Peg := (text ['\\']).seq any

/-- What a literal with three quotes holds. -/
def longBody : Peg := escape.choice ((not peek).seq any)

def longString : Peg :=
  (push (anyOf [text ['"', '"', '"'], text ['\'', '\'', '\'']])).seq (longBody.star.seq pop)

/-- What a literal with one quote holds. -/
def shortBody : Peg := escape.choice ((not (peek.choice lineBreak)).seq any)

def shortString : Peg := (push (anyOf [text ['"'], text ['\'']])).seq (shortBody.star.seq pop)

def mark : Peg :=
  anyOf [anyCase ['r', 'b'], anyCase ['b', 'r'], anyCase ['r', 'f'], anyCase ['f', 'r'],
    anyCase ['r'], anyCase ['b'], anyCase ['u'], anyCase ['f']]

def string : Peg := mark.optional.seq (longString.choice shortString)

/-- A digit, with an underscore before it or not. -/
def spacedDigit (digit : Char → Bool) : Peg := (text ['_']).optional.seq (char digit)

def based (letter : Char) (digit : Char → Bool) : Peg :=
  (text ['0']).seq ((anyCase [letter]).seq (spacedDigit digit).plus)

def digits : Peg := (char Char.isDigit).seq (spacedDigit Char.isDigit).star

def exponent : Peg :=
  (anyCase ['e']).seq ((anyOf [text ['+'], text ['-']]).optional.seq digits)

def decimal : Peg :=
  ((digits.seq ((text ['.']).seq digits.optional).optional).choice
    ((text ['.']).seq digits)).seq exponent.optional

def number : Peg :=
  (anyOf [based 'x' isHexDigit, based 'o' isOctalDigit, based 'b' isBinaryDigit, decimal]).seq
    (anyCase ['j']).optional

def name : Peg :=
  ((char Text.isIdentifierStart).choice (text ['_'])).seq (char Text.isIdentifierContinue).star

def opener : Peg := anyOf [text ['('], text ['['], text ['\x7b']]

def closer : Peg := anyOf [text [')'], text [']'], text ['\x7d']]

def dollar : Peg := text ['$']

def operator : Peg := anyOf (operators.map fun o => text o.toList)

/-- The alternatives for a lexeme, in the order in which they are tried. -/
def rules : List (LexemeKind × Peg) :=
  [(.lineBreak, lineBreak), (.blank, blank), (.comment, comment), (.continuation, continuation),
    (.string, string), (.number, number), (.name, name), (.opener, opener), (.closer, closer),
    (.dollar, dollar), (.operator, operator)]

/-- The kind of the first of some rules that succeeds, and what is left behind it. -/
def firstOf (rules : List (LexemeKind × Peg)) (cs : List Char) : Option (LexemeKind × List Char) :=
  rules.findSome? fun rule => (rule.2.run ⟨[], cs⟩).map fun s => (rule.1, s.rest)

/-- Kind of the lexeme at the head of a text, and what is left behind it. -/
def lexeme? : List Char → Option (LexemeKind × List Char) := firstOf rules

end Grammar

/-! ## Readers of lengths -/

namespace Peg

/-- With these texts on the stack, the expression takes as much as the reader says, and leaves the
stack as it is. -/
def Reads (stack : List (List Char)) (e : Peg) (f : List Char → Option Nat) : Prop :=
  ∀ cs, e.run ⟨stack, cs⟩ = (f cs).map fun n => ⟨stack, cs.drop n⟩

/-- A character of a class at the head. -/
def single (p : Char → Bool) : List Char → Option Nat
  | c :: _ => if p c then some 1 else none
  | [] => none

/-- A fixed text at the head. -/
def fixed (text cs : List Char) : Option Nat :=
  if cs.take text.length = text then some text.length else none

/-- A fixed text at the head, its letters in either case. -/
def inEitherCase (text cs : List Char) : Option Nat :=
  if (cs.take text.length).map Char.toLower = text then some text.length else none

/-- One part, and another behind it. -/
def both (f g : List Char → Option Nat) (cs : List Char) : Option Nat :=
  (f cs).bind fun n => (g (cs.drop n)).map (n + ·)

/-- As many parts as there are, but not more than the bound. -/
def starLength (f : List Char → Option Nat) : Nat → List Char → Nat
  | 0, _ => 0
  | bound + 1, cs =>
    match f cs with
    | none => 0
    | some n => n + starLength f bound (cs.drop n)

variable {stack : List (List Char)} {e e' : Peg} {f g : List Char → Option Nat}

theorem Reads.congr (h : Reads stack e f) (heq : ∀ cs, f cs = g cs) : Reads stack e g := by
  intro cs
  rw [h cs, heq cs]

theorem reads_char (p : Char → Bool) : Reads stack (char p) (single p) := by
  intro cs
  cases cs with
  | nil => rfl
  | cons c cs => by_cases hc : p c = true <;> simp [run, single, hc]

theorem reads_text (cs : List Char) : Reads stack (text cs) (fixed cs) := by
  intro rest
  by_cases h : rest.take cs.length = cs <;> simp [run, PegState.strip, fixed, h]

theorem reads_anyCase (cs : List Char) : Reads stack (anyCase cs) (inEitherCase cs) := by
  intro rest
  by_cases h : (rest.take cs.length).map Char.toLower = cs <;> simp [run, inEitherCase, h]

theorem Reads.seq (h : Reads stack e f) (h' : Reads stack e' g) :
    Reads stack (e.seq e') (both f g) := by
  intro cs
  rw [run, h cs, both]
  cases f cs with
  | none => rfl
  | some n =>
    rw [Option.map_some, Option.bind_some, Option.bind_some, h' (cs.drop n), Option.map_map]
    simp only [Function.comp_def, List.drop_drop]

theorem Reads.choice (h : Reads stack e f) (h' : Reads stack e' g) :
    Reads stack (e.choice e') fun cs => f cs <|> g cs := by
  intro cs
  rw [run, h cs, h' cs]
  cases hf : f cs <;> simp [hf]

theorem Reads.optional (h : Reads stack e f) :
    Reads stack e.optional fun cs => some ((f cs).getD 0) :=
  (h.choice (reads_text [])).congr fun cs => by cases f cs <;> simp [fixed]

theorem Reads.not (h : Reads stack e f) :
    Reads stack (Peg.not e) fun cs => if (f cs).isSome then none else some 0 := by
  intro cs
  rw [run, h cs]
  cases hf : f cs <;> simp [hf]

theorem reads_anyOf_nil : Reads stack (anyOf []) fun _ => none := fun _ => rfl

theorem repeated_run (h : Reads stack e f) (bound : Nat) (cs : List Char) :
    repeated e.run bound ⟨stack, cs⟩ = ⟨stack, cs.drop (starLength f bound cs)⟩ := by
  induction bound generalizing cs with
  | zero => rfl
  | succ bound ih =>
    rw [repeated, starLength, h cs]
    cases f cs with
    | none => rfl
    | some n =>
      simp only [Option.map_some]
      rw [ih, List.drop_drop]

theorem Reads.star (h : Reads stack e f) :
    Reads stack e.star fun cs => some (starLength f cs.length cs) := by
  intro cs
  rw [run, repeated_run h]
  rfl

/-! ## Runs of characters -/

theorem starLength_single (p : Char → Bool) {bound : Nat} {cs : List Char}
    (h : cs.length ≤ bound) : starLength (single p) bound cs = (cs.takeWhile p).length := by
  induction bound generalizing cs with
  | zero =>
    rw [List.eq_nil_of_length_eq_zero (Nat.le_zero.1 h)]
    rfl
  | succ bound ih =>
    cases cs with
    | nil => rfl
    | cons c cs =>
      rw [starLength, single, List.takeWhile_cons]
      split_ifs
      · simp only [List.drop_one, List.tail_cons, List.length_cons]
        rw [ih (Nat.le_of_succ_le_succ h), Nat.add_comm]
      · rfl

theorem Reads.star_single {p : Char → Bool} (h : Reads stack e (single p)) :
    Reads stack e.star fun cs => some (cs.takeWhile p).length :=
  h.star.congr fun _ => congrArg some (starLength_single p (Nat.le_refl _))

theorem Reads.plus_single {p : Char → Bool} (h : Reads stack e (single p)) :
    Reads stack e.plus (Source.run p) := by
  refine (h.seq h.star_single).congr fun cs => ?_
  cases cs with
  | nil => rfl
  | cons c cs => by_cases hc : p c = true <;> simp [both, single, Source.run, hc, Nat.add_comm]

/-- One character of a set, by a choice between the characters. -/
theorem reads_symbols (set : List Char) :
    Reads stack (anyOf (set.map fun c => text [c])) (single set.contains) := by
  induction set with
  | nil => exact reads_anyOf_nil.congr fun cs => by cases cs <;> rfl
  | cons d set ih =>
    refine ((reads_text [d]).choice ih).congr fun cs => ?_
    cases cs with
    | nil => rfl
    | cons c cs => by_cases hc : c = d <;> simp [fixed, single, hc]

/-- The first of some texts that stands at the head. -/
theorem reads_texts (ts : List (List Char)) : Reads stack (anyOf (ts.map text)) fun cs =>
    (ts.find? fun t => t.isPrefixOf cs).map List.length := by
  induction ts with
  | nil => exact reads_anyOf_nil
  | cons t ts ih =>
    refine ((reads_text t).choice ih).congr fun cs => ?_
    have hprefix : cs.take t.length = t ↔ t.isPrefixOf cs = true := by
      rw [List.isPrefixOf_iff_prefix, List.prefix_iff_eq_take, eq_comm]
    by_cases ht : t.isPrefixOf cs = true <;> simp [fixed, hprefix, ht]

/-- The first of some texts of one length, in either case. -/
theorem reads_marks {ts : List (List Char)} {n : Nat} (hts : ∀ t ∈ ts, t.length = n)
    (h : Reads stack e f) : Reads stack (ts.foldr (fun t e => (anyCase t).choice e) e) fun cs =>
      if ts.contains ((cs.take n).map Char.toLower) then some n else f cs := by
  induction ts with
  | nil => exact h.congr fun cs => by simp
  | cons t ts ih =>
    rw [List.forall_mem_cons] at hts
    refine ((reads_anyCase t).choice (ih hts.2)).congr fun cs => ?_
    rw [inEitherCase, hts.1, List.contains_cons]
    by_cases ht : (cs.take n).map Char.toLower = t
    · rw [if_pos ht, beq_iff_eq.2 ht]
      rfl
    · rw [if_neg ht, beq_eq_false_iff_ne.2 ht]
      rfl

end Peg

open Peg

variable {stack : List (List Char)}

/-! ## Layout -/

theorem isSome_lineBreak (c : Char) (cs : List Char) :
    (lineBreak (c :: cs)).isSome = isLineEnd c := by
  unfold lineBreak
  split <;> simp_all [isLineEnd]

theorem reads_lineBreak : Reads stack Grammar.lineBreak lineBreak := by
  refine ((reads_text _).choice ((reads_text _).choice
    ((reads_text _).choice reads_anyOf_nil))).congr fun cs => ?_
  cases cs with
  | nil => rfl
  | cons c cs =>
    by_cases hr : c = '\r'
    · subst hr
      cases cs with
      | nil => rfl
      | cons d cs => by_cases hn : d = '\n' <;> simp [fixed, lineBreak, hn]
    · by_cases hn : c = '\n' <;> simp [fixed, lineBreak, hr, hn]

theorem reads_blank : Reads stack Grammar.blank (run isBlank) := by
  have hclass : [' ', '\t', '\x0c'].contains = isBlank := by
    funext c
    rw [Bool.eq_iff_iff]
    simp [isBlank, or_assoc]
  exact hclass ▸ (reads_symbols [' ', '\t', '\x0c']).plus_single

/-- One character of a line. -/
theorem reads_notBreak :
    Reads stack ((Peg.not Grammar.lineBreak).seq any) (single fun c => !isLineEnd c) := by
  refine (reads_lineBreak.not.seq (reads_char _)).congr fun cs => ?_
  cases cs with
  | nil => rfl
  | cons c cs =>
    rw [both, isSome_lineBreak, single]
    cases isLineEnd c <;> rfl

theorem both_fixed_cons (c : Char) (g : List Char → Option Nat) (d : Char) (cs : List Char) :
    both (fixed [c]) g (d :: cs) = if d = c then (g cs).map (1 + ·) else none := by
  by_cases h : d = c <;> simp [both, fixed, h]

theorem reads_comment : Reads stack Grammar.comment comment := by
  refine ((reads_text _).seq reads_notBreak.star_single).congr fun cs => ?_
  unfold comment
  split
  · rw [both_fixed_cons, if_pos rfl, Option.map_some, Nat.add_comm]
  · next hne =>
    cases cs with
    | nil => rfl
    | cons c cs => rw [both_fixed_cons, if_neg fun hc => hne cs (by rw [hc])]

theorem reads_continuation : Reads stack Grammar.continuation continuation := by
  refine ((reads_text _).seq reads_lineBreak).congr fun cs => ?_
  unfold continuation
  split
  · rw [both_fixed_cons, if_pos rfl]
    simp only [Nat.add_comm]
  · next hne =>
    cases cs with
    | nil => rfl
    | cons c cs => rw [both_fixed_cons, if_neg fun hc => hne cs (by rw [hc])]

/-! ## Literals -/

theorem reads_peek (top : List Char) (below : List (List Char)) :
    Reads (top :: below) peek (fixed top) := reads_text top

/-- The rest of a literal: parts of its body, and then its opening quotes again. -/
theorem run_star_pop {top : List Char} {below : List (List Char)} {e : Peg}
    {f : List Char → Option Nat} (h : Reads (top :: below) e f) (cs : List Char) :
    (e.star.seq pop).run ⟨top :: below, cs⟩ =
      (both (fun cs => some (starLength f cs.length cs)) (fixed top) cs).map
        fun n => ⟨below, cs.drop n⟩ := by
  have hpop : ∀ cs, pop.run ⟨top :: below, cs⟩ =
      (fixed top cs).map fun n => ⟨below, cs.drop n⟩ := by
    intro cs
    by_cases ht : cs.take top.length = top <;> simp [Peg.run, PegState.strip, fixed, ht]
  rw [Peg.run, h.star cs, both, Option.map_some, Option.bind_some, Option.bind_some, hpop,
    Option.map_map]
  simp only [Function.comp_def, List.drop_drop]

/-- Length of a backslash with the character behind it. -/
def escapeLength : List Char → Option Nat
  | '\\' :: _ :: _ => some 2
  | _ => none

theorem escapeLength_cons {c : Char} {cs : List Char}
    (h : ∀ d ds, c = '\\' → cs = d :: ds → False) : escapeLength (c :: cs) = none := by
  unfold escapeLength
  split
  · next d ds heq =>
    cases heq
    exact (h d ds rfl rfl).elim
  · rfl

theorem reads_escape : Reads stack Grammar.escape escapeLength := by
  refine ((reads_text _).seq (reads_char _)).congr fun cs => ?_
  unfold escapeLength
  split
  · rfl
  · next hne =>
    cases cs with
    | nil => rfl
    | cons c cs =>
      rw [both_fixed_cons]
      split_ifs with hc
      · cases cs with
        | nil => rfl
        | cons d cs => exact (hne d cs (by rw [hc])).elim
      · rfl

/-- An escape, or else a character where a reader has nothing to read. -/
def bodyPart (f : List Char → Option Nat) (cs : List Char) : Option Nat :=
  escapeLength cs <|> both (fun cs => if (f cs).isSome then none else some 0)
    (single fun _ => true) cs

theorem Peg.Reads.body {e : Peg} {f : List Char → Option Nat} (h : Reads stack e f) :
    Reads stack (Grammar.escape.choice ((Peg.not e).seq any)) (bodyPart f) :=
  reads_escape.choice (h.not.seq (reads_char _))

variable {f : List Char → Option Nat} {c : Char} {cs : List Char} {bound : Nat}

/-- The parts of a literal's body up to its end, and the text that has to stand there. -/
def bodyThen (f : List Char → Option Nat) (close : List Char) (bound : Nat) (cs : List Char) :
    Option Nat :=
  both (fun cs => some (starLength (bodyPart f) bound cs)) (fixed close) cs

/-- One part of the body, and the others up to its end behind it. -/
theorem bodyThen_part (close : List Char) {n : Nat} (h : bodyPart f cs = some n) :
    bodyThen f close (bound + 1) cs = (bodyThen f close bound (cs.drop n)).map (n + ·) := by
  rw [bodyThen, bodyThen, both, both, starLength, h, Option.bind_some, Option.bind_some,
    Option.map_map, List.drop_drop]
  simp only [Function.comp_def, Nat.add_assoc]

theorem bodyThen_escape (close : List Char) (c : Char) (cs : List Char) :
    bodyThen f close (bound + 1) ('\\' :: c :: cs) =
      (bodyThen f close bound cs).map (· + 2) := by
  have hpart : bodyPart f ('\\' :: c :: cs) = some 2 := rfl
  rw [bodyThen_part close hpart, List.drop_succ_cons, List.drop_succ_cons, List.drop_zero]
  simp only [Nat.add_comm]

theorem bodyThen_stop (close : List Char) (h : ∀ d ds, c = '\\' → cs = d :: ds → False)
    (hf : (f (c :: cs)).isSome = true) :
    bodyThen f close (bound + 1) (c :: cs) = fixed close (c :: cs) := by
  have hlen : starLength (bodyPart f) (bound + 1) (c :: cs) = 0 := by
    simp [starLength, bodyPart, escapeLength_cons h, both, hf]
  simp [bodyThen, both, hlen]

theorem bodyThen_char (close : List Char) (h : ∀ d ds, c = '\\' → cs = d :: ds → False)
    (hf : f (c :: cs) = none) :
    bodyThen f close (bound + 1) (c :: cs) = (bodyThen f close bound cs).map (· + 1) := by
  have hpart : bodyPart f (c :: cs) = some 1 := by
    simp [bodyPart, escapeLength_cons h, both, hf, single]
  rw [bodyThen_part close hpart, List.drop_succ_cons, List.drop_zero]
  simp only [Nat.add_comm]

theorem fixed_triple (quote c : Char) (cs : List Char) :
    fixed [quote, quote, quote] (c :: cs) =
      if c = quote ∧ cs.take 2 = [quote, quote] then some 3 else none := by
  simp [fixed]

/-- The tail of a literal with three quotes. -/
theorem bodyThen_triple (quote : Char) (h : cs.length ≤ bound) :
    bodyThen (fixed [quote, quote, quote]) [quote, quote, quote] bound cs =
      longTail quote cs := by
  induction cs using longTail.induct quote generalizing bound with
  | case1 => cases bound <;> rfl
  | case2 c cs ih =>
    cases bound with
    | zero => cases h
    | succ bound =>
      rw [bodyThen_escape, ih (by simp only [List.length_cons] at h; omega), longTail]
  | case3 c cs hne hclose =>
    cases bound with
    | zero => cases h
    | succ bound =>
      have hf := fixed_triple quote c cs
      rw [if_pos hclose] at hf
      rw [bodyThen_stop _ hne (by rw [hf]; rfl), hf, longTail, if_pos hclose]
      exact hne
  | case4 c cs hne hclose ih =>
    cases bound with
    | zero => cases h
    | succ bound =>
      have hf := fixed_triple quote c cs
      rw [if_neg hclose] at hf
      rw [bodyThen_char _ hne hf, ih (Nat.le_of_succ_le_succ h), longTail, if_neg hclose]
      exact hne

/-- The tail of a literal with one quote, which a line break ends without success. -/
theorem bodyThen_single (quote : Char) (h : cs.length ≤ bound) :
    bodyThen (fun cs => fixed [quote] cs <|> lineBreak cs) [quote] bound cs =
      shortTail quote cs := by
  have hstop : ∀ c cs, fixed [quote] (c :: cs) = if c = quote then some 1 else none := by
    intro c cs
    simp [fixed]
  induction cs using shortTail.induct quote generalizing bound with
  | case1 => cases bound <;> rfl
  | case2 c cs ih =>
    cases bound with
    | zero => cases h
    | succ bound =>
      rw [bodyThen_escape, ih (by simp only [List.length_cons] at h; omega), shortTail]
  | case3 cs hne =>
    cases bound with
    | zero => cases h
    | succ bound =>
      rw [bodyThen_stop _ hne (by simp [hstop]), hstop, shortTail, if_pos rfl, if_pos rfl]
      exact hne
  | case4 c cs hne hquote hend =>
    cases bound with
    | zero => cases h
    | succ bound =>
      rw [bodyThen_stop _ hne (by simp [hstop, hquote, isSome_lineBreak, hend]), hstop, shortTail,
        if_neg hquote, if_neg hquote, if_pos hend]
      exact hne
  | case5 c cs hne hquote hend ih =>
    cases bound with
    | zero => cases h
    | succ bound =>
      have hbreak : lineBreak (c :: cs) = none := by
        rw [← Option.not_isSome_iff_eq_none, isSome_lineBreak]
        exact hend
      rw [bodyThen_char _ hne (by simp [hstop, hquote, hbreak]), ih (Nat.le_of_succ_le_succ h),
        shortTail, if_neg hquote, if_neg hend]
      exact hne

theorem run_push {e : Peg} {f : List Char → Option Nat} (h : Reads stack e f) (cs : List Char) :
    (push e).run ⟨stack, cs⟩ = (f cs).map fun n => ⟨cs.take n :: stack, cs.drop n⟩ := by
  have htake : ∀ n, cs.take (cs.length - (cs.length - n)) = cs.take n := by
    intro n
    rw [Nat.sub_sub_eq_min, Nat.min_comm, ← List.take_take, List.take_length]
  rw [Peg.run, h cs, Option.map_map]
  simp only [Function.comp_def, List.length_drop, htake]

/-- One of two opening texts, and the tail that belongs to it. -/
theorem reads_literal {e : Peg} {opening opening' : List Char} {tail tail' : List Char → Option Nat}
    (h : ∀ cs, e.run ⟨opening :: stack, cs⟩ = (tail cs).map fun n => ⟨stack, cs.drop n⟩)
    (h' : ∀ cs, e.run ⟨opening' :: stack, cs⟩ = (tail' cs).map fun n => ⟨stack, cs.drop n⟩) :
    Reads stack ((push (anyOf [text opening, text opening'])).seq e) fun cs =>
      if cs.take opening.length = opening then
        (tail (cs.drop opening.length)).map (opening.length + ·)
      else if cs.take opening'.length = opening' then
        (tail' (cs.drop opening'.length)).map (opening'.length + ·)
      else none := by
  intro cs
  have hopening : Reads stack (anyOf [text opening, text opening']) _ :=
    (reads_text _).choice ((reads_text _).choice reads_anyOf_nil)
  rw [Peg.run, run_push hopening]
  by_cases ho : cs.take opening.length = opening
  · simp [fixed, ho, h, Function.comp_def]
  · by_cases ho' : cs.take opening'.length = opening'
    · simp [fixed, ho, ho', h', Function.comp_def]
    · simp [fixed, ho, ho']

theorem reads_longString : Reads stack Grammar.longString fun cs =>
    if cs.take 3 = ['"', '"', '"'] then (longTail '"' (cs.drop 3)).map (3 + ·)
    else if cs.take 3 = ['\'', '\'', '\''] then (longTail '\'' (cs.drop 3)).map (3 + ·)
    else none := by
  have htail : ∀ quote cs,
      (Grammar.longBody.star.seq pop).run ⟨[quote, quote, quote] :: stack, cs⟩ =
        (longTail quote cs).map fun n => ⟨stack, cs.drop n⟩ := by
    intro quote cs
    have hbody : Reads ([quote, quote, quote] :: stack) Grammar.longBody _ := (reads_peek _ _).body
    rw [run_star_pop hbody]
    exact congrArg _ (bodyThen_triple quote (Nat.le_refl _))
  exact reads_literal (htail '"') (htail '\'')

theorem reads_shortString : Reads stack Grammar.shortString fun cs =>
    if cs.take 1 = ['"'] then (shortTail '"' (cs.drop 1)).map (1 + ·)
    else if cs.take 1 = ['\''] then (shortTail '\'' (cs.drop 1)).map (1 + ·)
    else none := by
  have htail : ∀ quote cs, (Grammar.shortBody.star.seq pop).run ⟨[quote] :: stack, cs⟩ =
      (shortTail quote cs).map fun n => ⟨stack, cs.drop n⟩ := by
    intro quote cs
    have hbody : Reads ([quote] :: stack) Grammar.shortBody _ :=
      ((reads_peek _ _).choice reads_lineBreak).body
    rw [run_star_pop hbody]
    exact congrArg _ (bodyThen_single quote (Nat.le_refl _))
  exact reads_literal (htail '"') (htail '\'')

/-- Three quotes of either kind are tried before one. -/
theorem reads_quoted : Reads stack (Grammar.longString.choice Grammar.shortString)
    fun cs => quotedBy '"' cs <|> quotedBy '\'' cs := by
  refine (reads_longString.choice reads_shortString).congr fun cs => ?_
  cases cs with
  | nil => rfl
  | cons c cs =>
    by_cases hd : c = '"'
    · subst hd
      simp [quotedBy, Nat.add_comm]
    · by_cases hs : c = '\'' <;> simp [quotedBy, hd, hs, Nat.add_comm]

theorem reads_mark : Reads stack Grammar.mark.optional fun cs => some (markLength cs) := by
  have hdouble : ∀ t ∈ doubleMarks, t.length = 2 := by decide
  have hsingle : ∀ t ∈ singleMarks, t.length = 1 := by decide
  have hmarks : Reads stack Grammar.mark fun cs =>
      if doubleMarks.contains ((cs.take 2).map Char.toLower) then some 2
      else if singleMarks.contains ((cs.take 1).map Char.toLower) then some 1 else none :=
    reads_marks hdouble (reads_marks hsingle reads_anyOf_nil)
  refine hmarks.optional.congr fun cs => ?_
  unfold markLength
  split_ifs <;> rfl

theorem reads_string : Reads stack Grammar.string stringLiteral :=
  reads_mark.seq reads_quoted

/-! ## Numbers -/

/-- A length that is none if nothing is read. -/
def positive (n : Nat) : Option Nat := if n = 0 then none else some n

theorem getD_positive (n : Nat) : (positive n).getD 0 = n := by
  unfold positive
  split_ifs with h
  · exact h.symm
  · rfl

variable {digit : Char → Bool}

/-- Length of a digit, with an underscore before it or not. -/
def spacedDigitLength (digit : Char → Bool) : List Char → Option Nat
  | '_' :: c :: _ => if digit c then some 2 else none
  | c :: _ => if digit c then some 1 else none
  | [] => none

theorem reads_spacedDigit (hd : DigitClass digit) :
    Reads stack (Grammar.spacedDigit digit) (spacedDigitLength digit) := by
  refine ((reads_text _).optional.seq (reads_char _)).congr fun cs => ?_
  unfold spacedDigitLength
  split
  · next c cs => cases hc : digit c <;> simp [both, fixed, single, hc]
  · next c cs hne =>
    by_cases hu : c = '_'
    · subst hu
      cases cs with
      | nil => simp [both, fixed, single, hd.underscore]
      | cons d cs => exact (hne d cs rfl rfl).elim
    · cases hc : digit c <;> simp [both, fixed, single, hu, hc]
  · rfl

theorem digitRun_eq (hd : DigitClass digit) (cs : List Char) : digitRun digit cs =
    (spacedDigitLength digit cs).elim 0 fun n => n + digitRun digit (cs.drop n) := by
  unfold spacedDigitLength
  split
  · next c cs => cases hc : digit c <;> simp [digitRun, hc, Nat.add_comm]
  · next c cs hne =>
    by_cases hu : c = '_'
    · subst hu
      cases cs with
      | nil => simp [digitRun, hd.underscore]
      | cons d cs => exact (hne d cs rfl rfl).elim
    · cases hc : digit c <;> simp [digitRun_cons hu, hc, Nat.add_comm]
  · rfl

theorem spacedDigitLength_pos {n : Nat} (h : spacedDigitLength digit cs = some n) : 0 < n := by
  unfold spacedDigitLength at h
  split at h <;> simp at h <;> omega

theorem starLength_spacedDigit (hd : DigitClass digit) (h : cs.length ≤ bound) :
    starLength (spacedDigitLength digit) bound cs = digitRun digit cs := by
  induction bound generalizing cs with
  | zero =>
    rw [List.eq_nil_of_length_eq_zero (Nat.le_zero.1 h)]
    rfl
  | succ bound ih =>
    rw [starLength, digitRun_eq hd]
    cases hn : spacedDigitLength digit cs with
    | none => rfl
    | some n =>
      have hpos := spacedDigitLength_pos hn
      simp only [Option.elim_some]
      rw [ih (by rw [List.length_drop]; omega)]

theorem reads_digitRun (hd : DigitClass digit) :
    Reads stack (Grammar.spacedDigit digit).star fun cs => some (digitRun digit cs) :=
  (reads_spacedDigit hd).star.congr fun _ =>
    congrArg some (starLength_spacedDigit hd (Nat.le_refl _))

theorem reads_digitRun_plus (hd : DigitClass digit) :
    Reads stack (Grammar.spacedDigit digit).plus fun cs => positive (digitRun digit cs) := by
  refine ((reads_spacedDigit hd).seq (reads_digitRun hd)).congr fun cs => ?_
  rw [both, digitRun_eq hd cs]
  cases hn : spacedDigitLength digit cs with
  | none => rfl
  | some n =>
    have hpos := spacedDigitLength_pos hn
    rw [Option.elim_some, positive, if_neg (by omega)]
    rfl

theorem reads_digits : Reads stack Grammar.digits fun cs => positive (digits cs) := by
  refine ((reads_char _).seq (reads_digitRun digitClass_isDigit)).congr fun cs => ?_
  cases cs with
  | nil => rfl
  | cons c cs =>
    by_cases hc : c.isDigit = true <;> simp [both, single, digits, positive, hc, Nat.add_comm]

theorem both_fixed_of_ne {g : List Char → Option Nat} (h : ∀ d ∈ cs.head?, d ≠ c) :
    both (fixed [c]) g cs = none := by
  cases cs with
  | nil => rfl
  | cons d cs => rw [both_fixed_cons, if_neg (h d rfl)]

theorem both_inEitherCase_cons (letter : Char) (g : List Char → Option Nat) (c : Char)
    (cs : List Char) : both (inEitherCase [letter]) g (c :: cs) =
      if isLetter letter c then (g cs).map (1 + ·) else none := by
  by_cases h : c.toLower = letter <;> simp [both, inEitherCase, isLetter, h]

theorem reads_based (hd : DigitClass digit) (letter : Char) :
    Reads stack (Grammar.based letter digit) (basedNumber letter digit) := by
  refine ((reads_text _).seq ((reads_anyCase _).seq (reads_digitRun_plus hd))).congr fun cs => ?_
  cases cs with
  | nil => rfl
  | cons z cs =>
    rw [both_fixed_cons]
    split_ifs with hz
    · subst hz
      cases cs with
      | nil => rfl
      | cons c cs =>
        rw [both_inEitherCase_cons, basedNumber]
        cases isLetter letter c with
        | false => rfl
        | true =>
          by_cases hrun : digitRun digit cs = 0 <;> simp [positive, hrun]
          omega
    · unfold basedNumber
      split
      · next heq =>
        cases heq
        contradiction
      · rfl

theorem reads_sign : Reads stack (anyOf [text ['+'], text ['-']]).optional
    fun cs => some (signLength cs) := by
  refine (reads_symbols ['+', '-']).optional.congr fun cs => ?_
  unfold signLength
  split
  · rfl
  · rfl
  · next hplus hminus =>
    cases cs with
    | nil => rfl
    | cons c cs =>
      have hp : c ≠ '+' := fun h => hplus cs (by rw [h])
      have hm : c ≠ '-' := fun h => hminus cs (by rw [h])
      simp [single, hp, hm]

theorem reads_exponent : Reads stack Grammar.exponent fun cs => positive (exponent cs) := by
  refine ((reads_anyCase _).seq (reads_sign.seq reads_digits)).congr fun cs => ?_
  cases cs with
  | nil => rfl
  | cons c cs =>
    rw [both_inEitherCase_cons, exponent_cons]
    cases isLetter 'e' c with
    | false => rfl
    | true =>
      by_cases hn : digits (cs.drop (signLength cs)) = 0 <;> simp [both, positive, hn]
      omega

/-- Digits with a point and more digits behind them or not, or else a point with digits. -/
theorem reads_mantissa : Reads stack
    ((Grammar.digits.seq ((text ['.']).seq Grammar.digits.optional).optional).choice
      ((text ['.']).seq Grammar.digits)) mantissa := by
  refine ((reads_digits.seq ((reads_text _).seq reads_digits.optional).optional).choice
    ((reads_text _).seq reads_digits)).congr fun cs => ?_
  simp only [getD_positive]
  rw [mantissa_eq, both]
  by_cases hzero : digits cs = 0
  · rw [hzero, List.drop_zero, positive, if_pos rfl, Option.bind_none]
    change both (fixed ['.']) (fun cs => positive (digits cs)) cs = _
    rcases point_or_ne cs with ⟨rest, rfl⟩ | hne
    · rw [both_fixed_cons, if_pos rfl, behindDigits_point]
      by_cases hrest : digits rest = 0 <;> simp [positive, hrest]
    · rw [both_fixed_of_ne hne, behindDigits_of_ne hne, if_pos rfl]
  · rw [positive, if_neg hzero, Option.bind_some]
    rcases point_or_ne (cs.drop (digits cs)) with ⟨rest, hrest⟩ | hne
    · rw [hrest, both_fixed_cons, if_pos rfl, behindDigits_point, if_neg fun h => hzero h.1]
      simp [Nat.add_assoc]
    · rw [both_fixed_of_ne hne, behindDigits_of_ne hne, if_neg hzero]
      rfl

theorem reads_decimal : Reads stack Grammar.decimal decimalNumber := by
  refine (reads_mantissa.seq reads_exponent.optional).congr fun cs => ?_
  simp only [getD_positive]
  rw [both, decimalNumber]
  cases mantissa cs <;> rfl

theorem reads_imaginaryMark : Reads stack (anyCase ['j']).optional
    fun cs => some (imaginaryMark cs) := by
  refine (reads_anyCase _).optional.congr fun cs => ?_
  cases cs with
  | nil => rfl
  | cons c cs =>
    by_cases hc : c.toLower = 'j' <;> simp [inEitherCase, imaginaryMark, isLetter, hc]

theorem reads_number : Reads stack Grammar.number number := by
  have hreal : Reads stack (anyOf [Grammar.based 'x' isHexDigit, Grammar.based 'o' isOctalDigit,
      Grammar.based 'b' isBinaryDigit, Grammar.decimal]) realNumber := by
    refine ((reads_based ⟨rfl, rfl, rfl⟩ _).choice ((reads_based ⟨rfl, rfl, rfl⟩ _).choice
      ((reads_based ⟨rfl, rfl, rfl⟩ _).choice
        (reads_decimal.choice reads_anyOf_nil)))).congr fun cs => ?_
    simp [realNumber]
  refine (hreal.seq reads_imaginaryMark).congr fun cs => ?_
  simp only [number_eq, both]
  cases realNumber cs <;> rfl

/-! ## Names and symbols -/

theorem reads_name : Reads stack Grammar.name name := by
  have hfirst : Reads stack ((char Text.isIdentifierStart).choice (text ['_']))
      (single Text.isNameStart) := by
    refine ((reads_char _).choice (reads_text _)).congr fun cs => ?_
    cases cs with
    | nil => rfl
    | cons c cs =>
      by_cases hu : c = '_'
      · subst hu
        rfl
      · cases hc : Text.isIdentifierStart c <;> simp [single, fixed, Text.isNameStart, hu, hc]
  refine (hfirst.seq (reads_char _).star_single).congr fun cs => ?_
  cases cs with
  | nil => rfl
  | cons c cs =>
    by_cases hc : Text.isNameStart c = true <;> simp [both, single, name, hc, Nat.add_comm]

theorem reads_oneOf (set : List Char) :
    Reads stack (anyOf (set.map fun c => text [c])) (oneOf set) :=
  (reads_symbols set).congr fun cs => by cases cs <;> rfl

theorem reads_dollar : Reads stack Grammar.dollar (oneOf ['$']) := by
  refine (reads_text _).congr fun cs => ?_
  cases cs with
  | nil => rfl
  | cons c cs => by_cases hc : c = '$' <;> simp [fixed, oneOf, hc]

theorem reads_operator : Reads stack Grammar.operator operator := by
  have htexts : Reads stack Grammar.operator _ := reads_texts (operators.map String.toList)
  refine htexts.congr fun cs => ?_
  rw [operator, List.find?_map, Option.map_map]
  simp only [Function.comp_def, String.length_toList]

/-- A rule in front of others, and its reader in front of theirs. -/
theorem Peg.Reads.rule {e : Peg} {rules : List (LexemeKind × Peg)}
    {others : Option (LexemeKind × Nat)} (h : Reads [] e f) (kind : LexemeKind)
    (hothers : Grammar.firstOf rules cs = others.map fun x => (x.1, cs.drop x.2)) :
    Grammar.firstOf ((kind, e) :: rules) cs =
      ((f cs).map (kind, ·) <|> others).map fun x => (x.1, cs.drop x.2) := by
  rw [Grammar.firstOf, List.findSome?_cons, h cs]
  cases f cs with
  | none => exact hothers
  | some n => rfl

/-- The readers of lexemes read what the grammar says. -/
theorem grammar_lexeme? (cs : List Char) :
    Grammar.lexeme? cs = (lexeme? cs).map fun x => (x.1, cs.drop x.2) := by
  have hopener : Reads [] Grammar.opener _ := reads_oneOf ['(', '[', '\x7b']
  have hcloser : Reads [] Grammar.closer _ := reads_oneOf [')', ']', '\x7d']
  have hoperator : Grammar.firstOf [(.operator, Grammar.operator)] cs =
      ((operator cs).map (LexemeKind.operator, ·)).map fun x => (x.1, cs.drop x.2) := by
    rw [Grammar.firstOf, List.findSome?_singleton, reads_operator cs]
    cases operator cs <;> rfl
  exact reads_lineBreak.rule .lineBreak <| reads_blank.rule .blank <|
    reads_comment.rule .comment <| reads_continuation.rule .continuation <|
    reads_string.rule .string <| reads_number.rule .number <| reads_name.rule .name <|
    hopener.rule .opener <| hcloser.rule .closer <| reads_dollar.rule .dollar hoperator

end TokenMacros.Source

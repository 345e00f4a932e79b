import TokenMacros.Expansion.Run
import TokenMacros.Proofs.Source.Lexeme

/-!
# Quoted text

What `stringify` writes can be read back, in both senses: the escapes between the quotes
can be undone, and as a source text the whole is one string literal:

    decode (quoteFor text) (text.flatMap (escape (quoteFor text))) = some text
                                                           (decode_flatMap_escape)
    tokenize (String.ofList (encode text)) = .ok [⟨.string, String.ofList (encode text), ⟨1, 1⟩⟩]
                                                           (tokenize_encode)

Both rest on what an escape can be (`escape_cases`): a character that means nothing within
the quotes, or a backslash and a letter that stands for the character. So no quote and no
line break is met before the closing quote.
-/

namespace TokenMacros

namespace Text.Quoted

/-- The character that is meant by a backslash with this one behind it. -/
def unescape (quote c : Char) : Option Char :=
  if c = '\\' then some '\\'
  else if c = 'n' then some '\n'
  else if c = 't' then some '\t'
  else if c = 'r' then some '\r'
  else if c = quote then some quote
  else none

/-- The text that is meant by what stands between quotes. -/
def decode (quote : Char) : List Char → Option (List Char)
  | [] => some []
  | '\\' :: c :: cs => (unescape quote c).bind fun d => (decode quote cs).map (d :: ·)
  | c :: cs => if c = '\\' ∨ c = quote then none else (decode quote cs).map (c :: ·)

variable {quote : Char}

theorem quoteFor_cases (text : List Char) : quoteFor text = '\'' ∨ quoteFor text = '"' := by
  unfold quoteFor
  split_ifs
  · exact .inr rfl
  · exact .inl rfl

/-- A character stays as it is, or it is escaped by a letter that stands for it. -/
theorem escape_cases (hq : quote = '\'' ∨ quote = '"') (c : Char) :
    (escape quote c = [c] ∧ c ≠ '\\' ∧ c ≠ quote ∧ Source.isLineEnd c = false) ∨
      ∃ d, escape quote c = ['\\', d] ∧ unescape quote d = some c := by
  unfold escape
  split_ifs with hback hfeed htab hreturn hquote
  · exact .inr ⟨'\\', rfl, by rw [hback]; rfl⟩
  · exact .inr ⟨'n', rfl, by rw [hfeed]; rfl⟩
  · exact .inr ⟨'t', rfl, by rw [htab]; rfl⟩
  · exact .inr ⟨'r', rfl, by rw [hreturn]; rfl⟩
  · subst hquote
    exact .inr ⟨c, rfl, by rcases hq with rfl | rfl <;> rfl⟩
  · exact .inl ⟨rfl, hback, hquote, by simp [Source.isLineEnd, hfeed, hreturn]⟩

theorem decode_cons (c : Char) (hback : c ≠ '\\') (hquote : c ≠ quote) (cs : List Char) :
    decode quote (c :: cs) = (decode quote cs).map (c :: ·) := by
  cases cs <;> simp [decode, hback, hquote]

/-- Undoing the escapes gives back the text. -/
theorem decode_flatMap_escape (hq : quote = '\'' ∨ quote = '"') (text : List Char) :
    decode quote (text.flatMap (escape quote)) = some text := by
  induction text with
  | nil => rfl
  | cons c text ih =>
    rw [List.flatMap_cons]
    rcases escape_cases hq c with ⟨hescape, hback, hquote, -⟩ | ⟨d, hescape, hd⟩
    · rw [hescape, List.singleton_append, decode_cons c hback hquote, ih]
      rfl
    · rw [hescape, List.cons_append, List.singleton_append, decode, hd, ih]
      rfl

end Text.Quoted

namespace Source

open Text.Quoted

variable {quote : Char}

/-- A literal with one quote ends with the first quote behind an escaped text. -/
theorem shortTail_flatMap_escape (hq : quote = '\'' ∨ quote = '"') (text rest : List Char) :
    shortTail quote (text.flatMap (escape quote) ++ quote :: rest) =
      some ((text.flatMap (escape quote)).length + 1) := by
  have hback : quote ≠ '\\' := by rcases hq with rfl | rfl <;> decide
  induction text with
  | nil => rw [List.flatMap_nil, List.nil_append, shortTail_cons hback, if_pos rfl]; rfl
  | cons c text ih =>
    rw [List.flatMap_cons]
    rcases escape_cases hq c with ⟨hescape, hc, hquote, hend⟩ | ⟨d, hescape, -⟩
    · rw [hescape, List.singleton_append, List.cons_append, shortTail_cons hc, if_neg hquote,
        hend, if_neg Bool.false_ne_true, ih]
      rfl
    · rw [hescape, List.cons_append, List.singleton_append, List.cons_append, List.cons_append,
        shortTail, ih]
      rfl

/-- An escaped text does not start like the opening of a literal with three quotes. -/
theorem take_two_ne_quotes (hq : quote = '\'' ∨ quote = '"') (text : List Char) :
    (text.flatMap (escape quote) ++ [quote]).take 2 ≠ [quote, quote] := by
  cases text with
  | nil => simp
  | cons c text =>
    rw [List.flatMap_cons]
    rcases escape_cases hq c with ⟨hescape, -, hquote, -⟩ | ⟨d, hescape, -⟩
    · simp [hescape, hquote]
    · rcases hq with rfl | rfl <;> simp [hescape]

theorem stringLiteral_of_quotedBy (hq : quote = '\'' ∨ quote = '"') {cs : List Char} {n : Nat}
    (h : quotedBy quote (quote :: cs) = some n) : stringLiteral (quote :: cs) = some n := by
  have hmark : markLength (quote :: cs) = 0 := by
    rcases hq with rfl | rfl <;> simp [markLength, doubleMarks, singleMarks]
  rw [stringLiteral, hmark, List.drop_zero, quoted_eq_some_iff.2 ⟨quote, hq.symm, h⟩]
  simp

/-- A quoted text is one lexeme. -/
theorem lexeme?_encode (text : List Char) :
    lexeme? (encode text) = some (.string, (encode text).length) := by
  have hq := quoteFor_cases text
  have hlayout : isLayout (quoteFor text) = false := by
    rcases hq with hquote | hquote <;> rw [hquote] <;> rfl
  have hliteral := stringLiteral_of_quotedBy hq
    (quotedBy_short (take_two_ne_quotes hq text) (shortTail_flatMap_escape hq text []))
  rw [encode, List.cons_append, lexeme?_of_not_isLayout hlayout, hliteral]
  simp

/-- A quoted text is one string literal. -/
theorem tokenize_encode (text : List Char) : tokenize (String.ofList (encode text)) =
    .ok [⟨.string, String.ofList (encode text), ⟨1, 1⟩⟩] := by
  have hlexemes : lexemes (encode text) =
      .ok ([⟨.string, encode text, ⟨1, 1⟩⟩], Place.start.advance (encode text)) := by
    have hne : encode text ≠ [] := List.cons_ne_nil _ _
    obtain ⟨fuel, hfuel⟩ := Nat.exists_eq_succ_of_ne_zero (mt List.length_eq_zero_iff.1 hne)
    rw [lexemes, hfuel, lexemesFrom_whole (lexeme?_encode text) hne]
    rfl
  rw [tokenize, String.toList_ofList, hlexemes]
  rfl

end Source

theorem textToQuote_of_ne {ts : List Token} (h : ∀ t, ts ≠ [t]) : textToQuote ts = print ts := by
  cases ts with
  | nil => rfl
  | cons t ts =>
    cases ts with
    | nil => exact absurd rfl (h t)
    | cons u ts => rfl

/-- What `stringify` writes is a literal for the text of its argument: for the text of its token
if it has only one, and else for what the tokens are printed as. -/
theorem stringify_faithful (nesting : Nat) (ts : List Token) (w : Workspace) :
    ∃ q delimiter body, Macro.runWithin nesting .stringify ts w = .ok (some [q]) w ∧
      q.kind = .string ∧ (delimiter = '\'' ∨ delimiter = '"') ∧
      q.text.toList = delimiter :: body ++ [delimiter] ∧
      (∀ t, ts = [t] → Text.Quoted.decode delimiter body = some t.text.toList) ∧
      ((∀ t, ts ≠ [t]) → Text.Quoted.decode delimiter body = some (print ts).toList) ∧
      tokenize q.text = .ok [⟨.string, q.text, ⟨1, 1⟩⟩] := by
  have hrun : Macro.runWithin nesting .stringify ts w = .ok (some [quote ts]) w := by
    cases nesting <;> rw [Macro.runWithin, Macro.runWith] <;> rfl
  let text := (textToQuote ts).toList
  have hquote := Text.Quoted.quoteFor_cases text
  have hdecode := Text.Quoted.decode_flatMap_escape hquote text
  refine ⟨quote ts, Text.Quoted.quoteFor text,
    text.flatMap (Text.Quoted.escape (Text.Quoted.quoteFor text)), hrun, rfl, hquote, ?_,
    fun t ht => ?_, fun hne => ?_, Source.tokenize_encode text⟩
  · rw [quote, String.toList_ofList]
    rfl
  · subst ht
    exact hdecode
  · rw [← textToQuote_of_ne hne]
    exact hdecode

end TokenMacros

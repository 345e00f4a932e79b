import Mathlib.Data.List.Induction
import TokenMacros.Proofs.Source.Content
import TokenMacros.Proofs.Source.Grammar
import TokenMacros.Proofs.Source.Printing

/-!
# Places of tokens

Reading a source loses nothing of it, and tells of each token where it stands:

    tokenize source = .ok ts → ∃ places,
      Spells [] source.toList (ts.filter Token.isContent) places
                                                           (tokenize_spells)

`Spells` goes through a source lexeme by lexeme, as the grammar cuts it. A lexeme is the
text of the next token, whose place is the one behind all that was read before it, or it is
a gap: blanks, a comment, a line break or a continuation. So the tokens stand in the order
of their places (`Spells.pairwise_before`), and the text of a token is found again at its
place (`Spells.standsAt`).

The position of a token holds its place modulo `2 ^ 32`. Where all places fit into that, as
they do in every source of less than `2 ^ 32` characters, positions are as good as places
(`Place.Fits.place_position`); beyond, two tokens may have one position
(`tokenize_spacedPair`).
-/

namespace TokenMacros

open Source (Place)

namespace Position

/-- The order of positions: by lines, and in a line by columns. -/
def Before (p q : Position) : Prop := p.line < q.line ∨ p.line = q.line ∧ p.column < q.column

/-- The place with that line and column. -/
def place (p : Position) : Place := ⟨p.line.toNat, p.column.toNat⟩

end Position

namespace Source

namespace Place

/-- The order of places: by lines, and in a line by columns. -/
def Before (p q : Place) : Prop := p.line < q.line ∨ p.line = q.line ∧ p.column < q.column

/-- The place behind a text. The line is the number of line feeds, the column the number of
characters behind the last one, both counted from 1. -/
def behind (text : List Char) : Place :=
  ⟨text.count '\n' + 1, (text.reverse.takeWhile (· ≠ '\n')).length + 1⟩

theorem Before.trans {p q r : Place} (h : p.Before q) (h' : q.Before r) : p.Before r := by
  unfold Before at *
  omega

theorem before_next (p : Place) (c : Char) : p.Before (p.next c) := by
  unfold next
  split_ifs
  · exact .inl (Nat.lt_succ_self _)
  · exact .inr ⟨rfl, Nat.lt_succ_self _⟩

theorem behind_concat (text : List Char) (c : Char) :
    behind (text ++ [c]) = (behind text).next c := by
  by_cases hc : c = '\n' <;> simp [behind, next, hc]

theorem advance_behind (front text : List Char) :
    (behind front).advance text = behind (front ++ text) := by
  induction text generalizing front with
  | nil => rw [List.append_nil]; rfl
  | cons c text ih =>
    rw [advance, List.foldl_cons, ← behind_concat, ← advance, ih, List.append_assoc,
      List.singleton_append]

theorem before_behind_append (front : List Char) {text : List Char} (h : text ≠ []) :
    (behind front).Before (behind (front ++ text)) := by
  induction text generalizing front with
  | nil => contradiction
  | cons c text ih =>
    have hnext : (behind front).Before (behind (front ++ [c])) :=
      behind_concat front c ▸ before_next _ _
    cases text with
    | nil => exact hnext
    | cons d text =>
      have hrest := ih (front ++ [c]) (List.cons_ne_nil d text)
      rw [List.append_assoc, List.singleton_append] at hrest
      exact hnext.trans hrest

theorem advance_of_no_linefeed {text : List Char} (h : '\n' ∉ text) (p : Place) :
    p.advance text = ⟨p.line, p.column + text.length⟩ := by
  induction text generalizing p with
  | nil => rfl
  | cons c text ih =>
    rw [List.mem_cons, not_or] at h
    rw [advance, List.foldl_cons, ← advance, ih h.2, next, if_neg (Ne.symm h.1), List.length_cons,
      Nat.add_assoc, Nat.add_comm 1]

/-! ### Places in 32 bits -/

/-- Does a position hold the whole of the place? -/
def Fits (p : Place) : Prop := p.line < UInt32.size ∧ p.column < UInt32.size

variable {p q : Place}

theorem Fits.place_position (h : p.Fits) : p.position.place = p := by
  have hline : p.line.toUInt32.toNat = p.line := UInt32.toNat_ofNat_of_lt' h.1
  have hcolumn : p.column.toUInt32.toNat = p.column := UInt32.toNat_ofNat_of_lt' h.2
  rw [position, Position.place, hline, hcolumn]

theorem before_place {p q : Position} : p.place.Before q.place ↔ p.Before q := by
  rw [Position.Before, Before, UInt32.lt_iff_toNat_lt, UInt32.lt_iff_toNat_lt,
    ← UInt32.toNat_inj]
  rfl

theorem Before.position (h : p.Before q) (hp : p.Fits) (hq : q.Fits) :
    p.position.Before q.position := by
  rwa [← before_place, hp.place_position, hq.place_position]

/-- No place in a source goes beyond the number of its characters. -/
theorem fits_behind {front rest : List Char} (hlength : (front ++ rest).length < UInt32.size)
    (hrest : rest ≠ []) : (behind front).Fits := by
  have hpos := List.length_pos_iff.2 hrest
  have hline := List.count_le_length (a := '\n') (l := front)
  have hcolumn := (List.takeWhile_prefix (l := front.reverse) fun c => decide (c ≠ '\n')).length_le
  rw [List.length_append] at hlength
  rw [List.length_reverse] at hcolumn
  constructor <;> simp only [behind] <;> omega

end Place

/-! ## The text at a place -/

/-- The text behind that many line feeds. -/
def behindLines : Nat → List Char → List Char
  | 0, cs => cs
  | _ + 1, [] => []
  | n + 1, c :: cs => if c = '\n' then behindLines n cs else behindLines (n + 1) cs

/-- The text of a source from a place on. -/
def textAt (p : Place) (source : List Char) : List Char :=
  (behindLines (p.line - 1) source).drop (p.column - 1)

theorem behindLines_succ (n : Nat) (cs : List Char) :
    behindLines (n + 1) cs = behindLines 1 (behindLines n cs) := by
  induction n generalizing cs with
  | zero => simp [behindLines]
  | succ n ih =>
    induction cs with
    | nil => rfl
    | cons c cs ihText =>
      rw [behindLines, behindLines]
      split_ifs
      · exact ih cs
      · exact ihText

theorem behindLines_one {line : List Char} (h : ∀ c ∈ line, c ≠ '\n') (rest : List Char) :
    behindLines 1 (line ++ '\n' :: rest) = rest := by
  induction line with
  | nil => simp [behindLines]
  | cons c line ih =>
    rw [List.forall_mem_cons] at h
    rw [List.cons_append, behindLines, if_neg h.1, ih h.2]

/-- What is left of a text behind its line feeds is its last line. -/
theorem behindLines_append (front rest : List Char) :
    behindLines (front.count '\n') (front ++ rest) =
      (front.reverse.takeWhile (· ≠ '\n')).reverse ++ rest := by
  induction front using List.reverseRecOn generalizing rest with
  | nil => simp [behindLines]
  | append_singleton front c ih =>
    rw [List.append_assoc, List.singleton_append, List.count_append]
    by_cases hc : c = '\n'
    · subst hc
      rw [List.count_singleton_self, behindLines_succ, ih, behindLines_one]
      · simp
      · intro d hd
        simpa using List.mem_takeWhile_imp (List.mem_reverse.1 hd)
    · rw [List.count_singleton, if_neg (by simpa using hc), Nat.add_zero, ih]
      simp [hc]

theorem textAt_behind (front rest : List Char) : textAt (.behind front) (front ++ rest) = rest := by
  rw [textAt, Place.behind]
  simp only [Nat.add_sub_cancel]
  rw [behindLines_append, ← List.length_reverse, List.drop_left]

theorem textAt_start (source : List Char) : textAt .start source = source :=
  textAt_behind [] source

/-! ## Gaps -/

/-- A line feed, a carriage return, or both. -/
def IsLineBreak (cs : List Char) : Prop := cs = ['\r', '\n'] ∨ cs = ['\n'] ∨ cs = ['\r']

/-- A text of which no token is made, in front of the text that follows it. -/
inductive Gap : List Char → List Char → Prop
  | blanks {cs rest : List Char} : cs ≠ [] → (∀ c ∈ cs, c = ' ' ∨ c = '\t' ∨ c = '\x0c') →
      Gap cs rest
  /-- A comment goes on up to the end of its line. -/
  | comment {cs rest : List Char} : (∀ c ∈ cs, c ≠ '\n' ∧ c ≠ '\r') →
      (∀ c ∈ rest.head?, c = '\n' ∨ c = '\r') → Gap ('#' :: cs) rest
  | lineBreak {cs rest : List Char} : IsLineBreak cs → Gap cs rest
  | continuation {cs rest : List Char} : IsLineBreak cs → Gap ('\\' :: cs) rest

variable {cs : List Char} {kind : LexemeKind} {n : Nat}

theorem isLineBreak_of_lineBreak (h : lineBreak cs = some n) : IsLineBreak (cs.take n) := by
  unfold lineBreak at h
  split at h <;> cases h
  · exact .inl rfl
  · exact .inr (.inl rfl)
  · exact .inr (.inr rfl)

theorem take_length_takeWhile (p : Char → Bool) (cs : List Char) :
    cs.take (cs.takeWhile p).length = cs.takeWhile p :=
  (List.prefix_iff_eq_take.1 (List.takeWhile_prefix p)).symm

theorem drop_length_takeWhile (p : Char → Bool) (cs : List Char) :
    cs.drop (cs.takeWhile p).length = cs.dropWhile p := by
  have hdrop : (cs.takeWhile p ++ cs.dropWhile p).drop (cs.takeWhile p).length =
      cs.dropWhile p := List.drop_left
  rwa [List.takeWhile_append_dropWhile] at hdrop

theorem gap_of_run (h : run isBlank cs = some n) (rest : List Char) : Gap (cs.take n) rest := by
  unfold run at h
  split at h
  · cases h
  · next hlen =>
    cases h
    rw [take_length_takeWhile]
    refine .blanks (fun hnil => hlen (by rw [hnil]; rfl)) fun c hc => ?_
    simpa [isBlank, or_assoc] using List.mem_takeWhile_imp hc

theorem gap_of_comment (h : comment cs = some n) : Gap (cs.take n) (cs.drop n) := by
  unfold comment at h
  split at h
  · next cs =>
    cases h
    rw [List.take_succ_cons, List.drop_succ_cons, take_length_takeWhile, drop_length_takeWhile]
    refine .comment (fun c hc => ?_) fun c hc => ?_
    · simpa [isLineEnd] using List.mem_takeWhile_imp hc
    · have hend := List.head?_dropWhile_not (fun c => !isLineEnd c) cs
      rw [Option.mem_def.1 hc] at hend
      simpa [isLineEnd, Decidable.or_iff_not_imp_left] using hend
  · cases h

theorem gap_of_continuation (h : continuation cs = some n) (rest : List Char) :
    Gap (cs.take n) rest := by
  unfold continuation at h
  split at h
  · obtain ⟨m, hm, rfl⟩ := Option.map_eq_some_iff.1 h
    exact .continuation (isLineBreak_of_lineBreak hm)
  · cases h

theorem isSome_token?_of_plainWord (h : plainWord cs = some (kind, n)) :
    kind.token?.isSome = true := by
  simp only [plainWord, Option.orElse_eq_some, Option.map_eq_some_iff, Prod.mk.injEq] at h
  rcases h with ⟨-, -, rfl, -⟩ | ⟨-, ⟨-, -, rfl, -⟩ | ⟨-, ⟨-, -, rfl, -⟩ | ⟨-, ⟨-, -, rfl, -⟩ |
    ⟨-, ⟨-, -, rfl, -⟩ | ⟨-, -, -, rfl, -⟩⟩⟩⟩⟩ <;> rfl

/-- A lexeme that becomes no token is a gap. -/
theorem gap_of_lexeme? (h : lexeme? cs = some (kind, n)) (hk : kind.token? = none) :
    Gap (cs.take n) (cs.drop n) := by
  rw [lexeme?_eq] at h
  simp only [Option.orElse_eq_some, Option.map_eq_some_iff, Prod.mk.injEq] at h
  rcases h with ⟨_, hn, -, rfl⟩ | ⟨-, ⟨_, hn, -, rfl⟩ | ⟨-, ⟨_, hn, -, rfl⟩ | ⟨-, ⟨_, hn, -, rfl⟩ |
    ⟨-, ⟨-, -, rfl, -⟩ | ⟨-, hn⟩⟩⟩⟩⟩
  · exact .lineBreak (isLineBreak_of_lineBreak hn)
  · exact gap_of_run hn _
  · exact gap_of_comment hn
  · exact gap_of_continuation hn _
  · cases hk
  · have hsome := isSome_token?_of_plainWord hn
    rw [hk] at hsome
    cases hsome

/-! ## Sources lexeme by lexeme -/

/-- The token has the position of the place, and its text is the text there. -/
def StandsAt (source : List Char) (t : Token) (p : Place) : Prop :=
  t.position = p.position ∧ t.text.toList <+: textAt p source

/-- Behind `front`, the text is cut by the grammar into these tokens, which stand at these places,
and the gaps between them. -/
inductive Spells : List Char → List Char → List Token → List Place → Prop
  | done (front : List Char) : Spells front [] [] []
  | gap {front text rest : List Char} {kind : LexemeKind} {ts : List Token} {ps : List Place} :
      Grammar.lexeme? (text ++ rest) = some (kind, rest) → kind.token? = none → Gap text rest →
      Spells (front ++ text) rest ts ps → Spells front (text ++ rest) ts ps
  | token {front text rest : List Char} {lexemeKind : LexemeKind} {kind : Token.Kind}
      {ts : List Token} {ps : List Place} :
      Grammar.lexeme? (text ++ rest) = some (lexemeKind, rest) →
      lexemeKind.token? = some kind → text ≠ [] → Spells (front ++ text) rest ts ps →
      Spells front (text ++ rest)
        (⟨kind, String.ofList text, (Place.behind front).position⟩ :: ts) (.behind front :: ps)

variable {front rest : List Char} {ts : List Token} {ps : List Place}

/-- A token stands behind what was read before it. -/
theorem Spells.exists_mid (h : Spells front rest ts ps) :
    ∀ p ∈ ps, ∃ mid tail, rest = mid ++ tail ∧ tail ≠ [] ∧ p = .behind (front ++ mid) := by
  induction h with
  | done => simp
  | @gap front text rest kind ts ps _ _ _ _ ih =>
    intro p hp
    obtain ⟨mid, tail, rfl, htail, rfl⟩ := ih p hp
    exact ⟨text ++ mid, tail, by rw [List.append_assoc], htail, by rw [List.append_assoc]⟩
  | @token front text rest lexemeKind kind ts ps _ _ htext _ ih =>
    refine List.forall_mem_cons.2 ⟨⟨[], text ++ rest, rfl, ?_, ?_⟩, fun p hp => ?_⟩
    · exact List.append_ne_nil_of_left_ne_nil htext rest
    · rw [List.append_nil]
    · obtain ⟨mid, tail, rfl, htail, rfl⟩ := ih p hp
      exact ⟨text ++ mid, tail, by rw [List.append_assoc], htail, by rw [List.append_assoc]⟩

/-- The text of a token is found at its place. -/
theorem Spells.standsAt (h : Spells front rest ts ps) :
    List.Forall₂ (StandsAt (front ++ rest)) ts ps := by
  induction h with
  | done => exact .nil
  | gap _ _ _ _ ih => rwa [List.append_assoc] at ih
  | @token front text rest lexemeKind kind ts ps _ _ _ _ ih =>
    rw [List.append_assoc] at ih
    refine .cons ⟨rfl, ?_⟩ ih
    rw [textAt_behind, String.toList_ofList]
    exact List.prefix_append _ _

/-- The tokens stand in the order of their places. -/
theorem Spells.pairwise_before (h : Spells front rest ts ps) : ps.Pairwise Place.Before := by
  induction h with
  | done => exact .nil
  | gap _ _ _ _ ih => exact ih
  | @token front text rest lexemeKind kind ts ps _ _ htext hrest ih =>
    refine List.Pairwise.cons (fun p hp => ?_) ih
    obtain ⟨mid, -, -, -, rfl⟩ := hrest.exists_mid p hp
    rw [List.append_assoc]
    exact Place.before_behind_append front (List.append_ne_nil_of_left_ne_nil htext mid)

/-- All places of a source of less than `2 ^ 32` characters fit. -/
theorem Spells.fits (h : Spells front rest ts ps) (hlength : (front ++ rest).length < UInt32.size) :
    ∀ p ∈ ps, p.Fits := by
  intro p hp
  obtain ⟨mid, tail, rfl, htail, rfl⟩ := h.exists_mid p hp
  exact Place.fits_behind (List.append_assoc front mid tail ▸ hlength) htail

theorem spells_of_lexemesFrom {fuel : Nat} {q : Place} {xs : List Lexeme}
    (h : lexemesFrom fuel (.behind front) cs = .ok (xs, q)) :
    ∃ ps, Spells front cs (xs.filterMap Lexeme.token?) ps := by
  induction xs generalizing fuel front cs with
  | nil =>
    rw [eq_nil_of_lexemesFrom h]
    exact ⟨[], .done front⟩
  | cons x xs ih =>
    obtain ⟨kind, n, fuel', hlexeme, rfl, hrest⟩ := lexemesFrom_cons h
    rw [Place.advance_behind] at hrest
    obtain ⟨ps, hspells⟩ := ih hrest
    have hgrammar : Grammar.lexeme? (cs.take n ++ cs.drop n) = some (kind, cs.drop n) := by
      rw [List.take_append_drop, grammar_lexeme?, hlexeme]
      rfl
    rw [List.filterMap_cons, Lexeme.token?]
    cases hkind : kind.token? with
    | none =>
      have hgap := Spells.gap hgrammar hkind (gap_of_lexeme? hlexeme hkind) hspells
      rw [List.take_append_drop] at hgap
      exact ⟨ps, hgap⟩
    | some tokenKind =>
      have htext := (wordText_of_lexeme? hlexeme (by rw [hkind]; rfl)).ne_nil
      have htoken := Spells.token hgrammar hkind htext hspells
      rw [List.take_append_drop] at htoken
      exact ⟨_, htoken⟩

/-! ## Positions -/

variable {source : List Char}

theorem map_position (h : List.Forall₂ (StandsAt source) ts ps) :
    ts.map Token.position = ps.map Place.position := by
  induction h with
  | nil => rfl
  | cons hstands _ ih => rw [List.map_cons, List.map_cons, hstands.1, ih]

/-- Where all places fit, the positions are in order. -/
theorem pairwise_position (h : List.Forall₂ (StandsAt source) ts ps)
    (hbefore : ps.Pairwise Place.Before) (hfits : ∀ p ∈ ps, p.Fits) :
    (ts.map Token.position).Pairwise Position.Before := by
  rw [map_position h, List.pairwise_map]
  exact hbefore.imp_of_mem fun hp hq hpq => hpq.position (hfits _ hp) (hfits _ hq)

/-- Where all places fit, the text of a token is found at its position. -/
theorem prefix_textAt (h : List.Forall₂ (StandsAt source) ts ps) (hfits : ∀ p ∈ ps, p.Fits) :
    ∀ t ∈ ts, t.text.toList <+: textAt t.position.place source := by
  induction h with
  | nil => simp
  | @cons t p ts ps hstands _ ih =>
    rw [List.forall_mem_cons] at hfits
    refine List.forall_mem_cons.2 ⟨?_, ih hfits.2⟩
    rw [hstands.1, hfits.1.place_position]
    exact hstands.2

end Source

/-- The content of a source stands in the order of its places, each token with the text that is
there, and between the tokens there are only gaps. Where the places fit into positions, the order
and the texts are those of the positions; in a source of less than `2 ^ 32` characters they do. -/
theorem tokenize_spells {source : String} {ts : List Token} (h : tokenize source = .ok ts) :
    ∃ places, Source.Spells [] source.toList (ts.filter Token.isContent) places ∧
      List.Forall₂ (Source.StandsAt source.toList) (ts.filter Token.isContent) places ∧
      places.Pairwise Place.Before ∧
      ((∀ p ∈ places, p.Fits) →
        ((ts.filter Token.isContent).map Token.position).Pairwise Position.Before ∧
          ∀ t ∈ ts.filter Token.isContent,
            t.text.toList <+: Source.textAt t.position.place source.toList) ∧
      (source.length < UInt32.size → ∀ p ∈ places, p.Fits) := by
  obtain ⟨xs, p, hxs, hcontent⟩ := Source.exists_content h
  obtain ⟨places, hspells⟩ :
      ∃ places, Source.Spells [] source.toList (ts.filter Token.isContent) places := by
    rw [hcontent]
    exact Source.spells_of_lexemesFrom hxs
  have hstands := hspells.standsAt
  have hbefore := hspells.pairwise_before
  refine ⟨places, hspells, hstands, hbefore, fun hfits => ⟨?_, ?_⟩, fun hlength => ?_⟩
  · exact Source.pairwise_position hstands hbefore hfits
  · exact Source.prefix_textAt hstands hfits
  · exact hspells.fits hlength

/-- A literal over two lines, a comment and a continued line, with each kind of line break. -/
def gappedSource : String := "a\r\n\t'''x\ny''' # c\rb\\\n  c"

theorem tokenize_spells_gapped :
    ∃ ts places, tokenize gappedSource = .ok ts ∧
      (ts.filter Token.isContent).map (fun t => (t.text, t.position)) =
        [("a", ⟨1, 1⟩), ("'''x\ny'''", ⟨2, 2⟩), ("b", ⟨3, 10⟩), ("c", ⟨4, 3⟩)] ∧
      Source.Spells [] gappedSource.toList (ts.filter Token.isContent) places ∧
      ((ts.filter Token.isContent).map Token.position).Pairwise Position.Before ∧
      ∀ t ∈ ts.filter Token.isContent,
        t.text.toList <+: Source.textAt t.position.place gappedSource.toList := by
  have hplaces : (tokenize gappedSource).map
      (fun ts => (ts.filter Token.isContent).map fun t => (t.text, t.position)) =
        .ok [("a", ⟨1, 1⟩), ("'''x\ny'''", ⟨2, 2⟩), ("b", ⟨3, 10⟩), ("c", ⟨4, 3⟩)] := rfl
  obtain ⟨ts, hts, hcontent⟩ := map_eq_ok_iff.1 hplaces
  obtain ⟨places, hspells, -, -, hpositions, hfits⟩ := tokenize_spells hts
  exact ⟨ts, places, hts, hcontent, hspells, hpositions (hfits (by decide))⟩

/-! ## A wide source -/

/-- Two names with that many blanks between them. -/
def spacedPair (blanks : Nat) : String :=
  String.ofList (['a'] ++ (List.replicate blanks ' ' ++ ['b']))

section spacedPair

variable {blanks : Nat} (h : blanks ≠ 0)

include h

theorem lexemes_spacedPair : Source.lexemes (spacedPair blanks).toList =
    .ok ([⟨.name, ['a'], ⟨1, 1⟩⟩, ⟨.blank, List.replicate blanks ' ', ⟨1, 2⟩⟩,
      ⟨.name, ['b'], ⟨1, (blanks + 2).toUInt32⟩⟩], ⟨1, blanks + 3⟩) := by
  have hname : Source.lexeme? ['a'] = some (.name, 1) := rfl
  have hword : Source.WordText .name ['a'] := Source.wordText_of_lexeme? hname rfl
  have hspaces : Source.Separated (List.replicate blanks ' ' ++ ['b']) := by
    intro c hc
    rw [List.head?_append, List.head?_replicate, if_neg h] at hc
    exact .inl (Option.some.inj hc).symm
  have hplace : (Source.Place.mk 1 2).advance (List.replicate blanks ' ') = ⟨1, blanks + 2⟩ := by
    rw [Source.Place.advance_of_no_linefeed (by simp), List.length_replicate, Nat.add_comm]
  have hlength : (['a'] ++ (List.replicate blanks ' ' ++ ['b'])).length = blanks + 1 + 1 := by
    simp
  obtain ⟨n, rfl⟩ := Nat.exists_eq_succ_of_ne_zero h
  have hlast : Source.lexeme? ['b'] = some (.name, 1) := rfl
  rw [spacedPair, String.toList_ofList, Source.lexemes, hlength,
    Source.lexemesFrom_append (hword.reads hspaces) (List.cons_ne_nil _ _),
    Source.lexemesFrom_append (Source.lexeme?_blanks (c := 'b') rfl h [])
      (mt (List.replicate_eq_nil_iff _).1 h)]
  -- the name in front has put the blanks at column 2
  show Except.map _ (Except.map _ (Source.lexemesFrom (n + 1)
    ((Source.Place.mk 1 2).advance (List.replicate (n + 1) ' ')) ['b'])) = _
  rw [hplace, Source.lexemesFrom_whole hlast (List.cons_ne_nil _ _)]
  rfl

/-- The second name is behind the blanks, as far as its column shows that. -/
theorem tokenize_spacedPair : tokenize (spacedPair blanks) =
    .ok [⟨.name, "a", ⟨1, 1⟩⟩, ⟨.name, "b", ⟨1, (blanks + 2).toUInt32⟩⟩] := by
  rw [tokenize, lexemes_spacedPair h]
  rfl

/-- Where the blanks fill up the columns, both names have one position, and the text there is that
of the first name alone. -/
theorem positions_spacedPair (hcolumn : (blanks + 2).toUInt32 = 1) :
    ∃ ts, tokenize (spacedPair blanks) = .ok ts ∧
      ¬ ((ts.filter Token.isContent).map Token.position).Pairwise Position.Before ∧
      ¬ ∀ t ∈ ts.filter Token.isContent,
        t.text.toList <+: Source.textAt t.position.place (spacedPair blanks).toList := by
  have htokens := tokenize_spacedPair h
  rw [hcolumn] at htokens
  refine ⟨_, htokens, fun hbefore => ?_, fun htexts => ?_⟩
  · have hsame : Position.Before ⟨1, 1⟩ ⟨1, 1⟩ :=
      List.rel_of_pairwise_cons hbefore (List.mem_singleton_self _)
    rcases hsame with hline | ⟨-, hcolumn⟩
    · exact absurd hline (by decide)
    · exact absurd hcolumn (by decide)
  · have hprefix : ['b'] <+: Source.textAt .start (spacedPair blanks).toList :=
      htexts ⟨.name, "b", ⟨1, 1⟩⟩ (List.mem_cons_of_mem _ (List.mem_singleton_self _))
    rw [Source.textAt_start, spacedPair, String.toList_ofList] at hprefix
    exact absurd (List.cons_prefix_cons.1 hprefix).1 (by decide)

end spacedPair

/-- With that many blanks both names stand at 1:1, though the second one is at column `2 ^ 32 + 1`. -/
theorem positions_spacedPair_wide : ∃ ts, tokenize (spacedPair (UInt32.size - 1)) = .ok ts ∧
    ¬ ((ts.filter Token.isContent).map Token.position).Pairwise Position.Before ∧
    ¬ ∀ t ∈ ts.filter Token.isContent,
      t.text.toList <+: Source.textAt t.position.place (spacedPair (UInt32.size - 1)).toList :=
  positions_spacedPair (by decide) (by decide)

end TokenMacros

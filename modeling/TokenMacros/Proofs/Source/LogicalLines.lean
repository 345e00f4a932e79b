import Mathlib.Data.List.Chain
import TokenMacros.Proofs.Source.Content

/-!
# Logical lines and newlines

A logical line ends where a line break is read with no bracket open (`logicalLines`). What
stands together in the tokens of a source are its logical lines:

    tokenize source = .ok ts → contentRuns ts = contentLines xs
                                   for the lexemes xs of the source
                                                           (newlines_tokenize)

The reader of lines emits a newline only behind content, and so it is still when the idle
newlines are gone (`NewlineBehindContent`); those that are not idle stand in front of
content (`content_behind_newline`). An idle newline stands beside other layout, or at the end,
so that no two lines are joined where it is dropped (`sameLines_dropIdleNewlines`).
-/

namespace TokenMacros.Source

/-! ## Lines of lexemes -/

/-- The count of open brackets behind a lexeme. -/
def countAfter (count : Nat) (x : Lexeme) : Nat :=
  match x.kind with
  | .opener => count + 1
  | .closer => count - 1
  | _ => count

/-- The logical lines of lexemes, with that many brackets open: a line break ends a line if none
is. -/
def logicalLines (count : Nat) : List Lexeme → List (List Lexeme)
  | [] => [[]]
  | x :: xs =>
    if x.kind = .lineBreak ∧ count = 0 then [] :: logicalLines count xs
    else (logicalLines (countAfter count x) xs).modifyHead (x :: ·)

/-- The lines that are not empty. -/
def filled (lines : List (List Token)) : List (List Token) :=
  lines.filter fun line => !line.isEmpty

/-- The tokens of logical lines. -/
def lineTokens (count : Nat) (xs : List Lexeme) : List (List Token) :=
  (logicalLines count xs).map fun line => line.filterMap Lexeme.token?

/-- The tokens of a source's logical lines, as far as these have any. -/
def contentLines (xs : List Lexeme) : List (List Token) := filled (lineTokens 0 xs)

/-- The parts of a stream between its layout tokens. -/
def runs (ts : List Token) : List (List Token) := ts.splitOnP fun t => !t.isContent

/-- The content tokens of a stream, those that no layout token separates together. -/
def contentRuns (ts : List Token) : List (List Token) := filled (runs ts)

variable {count level depth : Nat} {x : Lexeme} {t : Token} {layout ts : List Token}
  {lines lines' : List (List Token)}

theorem filled_nil_cons (lines : List (List Token)) : filled ([] :: lines) = filled lines := rfl

theorem runs_cons_of_content (h : t.isContent = true) (ts : List Token) :
    runs (t :: ts) = (runs ts).modifyHead (t :: ·) := by
  rw [runs, List.splitOnP_cons_eq_if_modifyHead, if_neg (by simp [h]), ← runs]

theorem runs_cons_of_layout (h : t.isContent = false) (ts : List Token) :
    runs (t :: ts) = [] :: runs ts := by
  rw [runs, List.splitOnP_cons_eq_if_modifyHead, if_pos (by simp [h]), ← runs]

theorem contentRuns_append_of_layout (h : ∀ t ∈ layout, t.isContent = false) (ts : List Token) :
    contentRuns (layout ++ ts) = contentRuns ts := by
  induction layout with
  | nil => rfl
  | cons t layout ih =>
    rw [List.forall_mem_cons] at h
    rw [List.cons_append, contentRuns, runs_cons_of_layout h.1, filled_nil_cons, ← contentRuns,
      ih h.2]

theorem lineTokens_cons_of_break (h : x.kind = .lineBreak) (xs : List Lexeme) :
    lineTokens 0 (x :: xs) = [] :: lineTokens 0 xs := by
  rw [lineTokens, logicalLines, if_pos ⟨h, rfl⟩]
  rfl

/-- A lexeme that ends no line adds its token to the first one. -/
theorem lineTokens_cons (h : ¬(x.kind = .lineBreak ∧ count = 0)) (xs : List Lexeme) :
    lineTokens count (x :: xs) =
      (lineTokens (countAfter count x) xs).modifyHead (x.token?.toList ++ ·) := by
  rw [lineTokens, logicalLines, if_neg h, lineTokens]
  cases logicalLines (countAfter count x) xs with
  | nil => rfl
  | cons line lines =>
    rw [List.modifyHead_cons, List.map_cons, List.map_cons, List.modifyHead_cons,
      List.filterMap_cons]
    cases x.token? <;> rfl

theorem lineTokens_cons_of_token {kind : Token.Kind} (h : x.kind.token? = some kind)
    (count : Nat) (xs : List Lexeme) : lineTokens count (x :: xs) =
      (lineTokens (LineState.depthAfter count kind) xs).modifyHead
        (⟨kind, String.ofList x.text, x.position⟩ :: ·) := by
  have hbreak : x.kind ≠ .lineBreak := by
    intro hbreak
    rw [hbreak] at h
    cases h
  have hcount : countAfter count x = LineState.depthAfter count kind := by
    unfold countAfter
    cases hx : x.kind <;> rw [hx] at h <;> cases h <;> rfl
  rw [lineTokens_cons fun hand => hbreak hand.1, hcount, Lexeme.token?, h]
  rfl

theorem lineTokens_cons_of_none (h : x.kind.token? = none)
    (hbreak : ¬(x.kind = .lineBreak ∧ count = 0)) (xs : List Lexeme) :
    lineTokens count (x :: xs) = lineTokens count xs := by
  have hcount : countAfter count x = count := by
    unfold countAfter
    cases hx : x.kind <;> rw [hx] at h <;> cases h
  rw [lineTokens_cons hbreak, hcount, Lexeme.token?, h]
  exact congrFun List.modifyHead_id _

/-! ## Lines that agree -/

/-- The first lines are the same, and the others up to empty ones. -/
def SameLines (lines lines' : List (List Token)) : Prop :=
  ∃ line rest rest', lines = line :: rest ∧ lines' = line :: rest' ∧ filled rest = filled rest'

namespace SameLines

theorem modifyHead (h : SameLines lines lines') (f : List Token → List Token) :
    SameLines (lines.modifyHead f) (lines'.modifyHead f) := by
  obtain ⟨line, rest, rest', rfl, rfl, hrest⟩ := h
  exact ⟨f line, rest, rest', rfl, rfl, hrest⟩

theorem nil_cons (h : filled lines = filled lines') : SameLines ([] :: lines) ([] :: lines') :=
  ⟨[], lines, lines', rfl, rfl, h⟩

theorem filled_eq (h : SameLines lines lines') : filled lines = filled lines' := by
  obtain ⟨line, rest, rest', rfl, rfl, hrest⟩ := h
  unfold filled at *
  rw [List.filter_cons, List.filter_cons, hrest]

end SameLines

/-- What the reader of lines leaves of logical lines: within a line, its rest comes first. -/
theorem sameLines_of_tokens {p : Position} {xs : List Lexeme} {s : LineState} {ts : List Token}
    (h : s.tokens p xs = .ok ts) :
    (s.AtStart → contentRuns ts = contentLines xs) ∧
      (s.Within → SameLines (runs ts) (lineTokens s.depth xs)) := by
  induction xs generalizing s ts with
  | nil =>
    cases h
    have hclosing : contentRuns (s.closing p) = [] := by
      rw [← List.append_nil (s.closing p), contentRuns_append_of_layout (isContent_closing s p)]
      rfl
    refine ⟨fun _ => hclosing, fun hwithin => ?_⟩
    rw [LineState.closing, if_pos hwithin.hasTokens, List.singleton_append] at hclosing ⊢
    rw [contentRuns] at hclosing
    rw [runs_cons_of_layout rfl] at hclosing ⊢
    exact .nil_cons hclosing
  | cons x xs ih =>
    rw [LineState.tokens] at h
    split at h
    · cases h
    · next new s' hstep =>
      obtain ⟨ts, hts, rfl⟩ := map_eq_ok_iff.1 h
      obtain ⟨hstart, hline⟩ := ih hts
      rcases LineState.step_cases hstep with ⟨kind, layout, hkind, hwithin, hdepth, hlaid, rfl⟩ |
        ⟨hbreak, hdepth, rfl, rfl⟩ | ⟨hnone, hbreak, rfl, width, rfl⟩
      · -- a token: the rest of its line follows
        have hcontent : Token.isContent ⟨kind, String.ofList x.text, x.position⟩ = true :=
          isContent_of_token? (x := x) (by rw [Lexeme.token?, hkind]; rfl)
        have hrest : SameLines (runs (⟨kind, String.ofList x.text, x.position⟩ :: ts))
            (lineTokens s.depth (x :: xs)) := by
          rw [runs_cons_of_content hcontent, lineTokens_cons_of_token hkind, ← hdepth]
          exact (hline hwithin).modifyHead _
        rw [List.append_assoc, List.singleton_append]
        constructor
        · rintro ⟨hline, -, hzero⟩
          rw [if_pos hline] at hlaid
          rw [contentRuns_append_of_layout fun t ht =>
            isContent_of_isBlock (isBlock_of_layoutBefore hlaid t ht)]
          rw [hzero] at hrest
          exact hrest.filled_eq
        · rintro ⟨hline, -⟩
          rw [if_neg (by simp [hline]), Except.ok.injEq, Prod.mk.injEq] at hlaid
          rw [← hlaid.1]
          exact hrest
      · -- a line break: a line may start
        have hrest := hstart ⟨rfl, rfl, hdepth⟩
        constructor
        · rintro ⟨-, htokens, -⟩
          rw [htokens, contentLines, lineTokens_cons_of_break hbreak]
          exact hrest
        · rintro ⟨-, htokens⟩
          rw [htokens, hdepth, lineTokens_cons_of_break hbreak]
          exact runs_cons_of_layout (t := .newline x.position) rfl ts ▸ .nil_cons hrest
      · rw [List.nil_append]
        constructor
        · rintro ⟨hline, htokens, hzero⟩
          rw [contentLines, lineTokens_cons_of_none hnone (hzero ▸ hbreak)]
          exact hstart ⟨hline, htokens, hzero⟩
        · rintro ⟨hline', htokens⟩
          rw [lineTokens_cons_of_none hnone hbreak]
          exact hline ⟨hline', htokens⟩

/-- No two lines are joined where an idle newline is dropped. -/
theorem sameLines_dropIdleNewlines (ts : List Token) :
    SameLines (runs (dropIdleNewlines ts)) (runs ts) := by
  induction ts with
  | nil => exact ⟨[], [], [], rfl, rfl, rfl⟩
  | cons t ts ih =>
    rw [dropIdleNewlines]
    split_ifs with hidle
    · rw [runs_cons_of_layout (isContent_of_newline hidle.1)]
      cases ts with
      | nil => exact ⟨[], [], [[]], rfl, rfl, rfl⟩
      | cons u ts =>
        have hblock : u.isBlock = true := by simpa [Token.isBlock] using hidle.2
        obtain ⟨line, rest, rest', hleft, hright, hrest⟩ := ih
        rw [runs_cons_of_layout (isContent_of_isBlock hblock)] at hright ⊢
        cases hright
        rw [hleft]
        exact .nil_cons hrest
    · by_cases hcontent : t.isContent = true
      · rw [runs_cons_of_content hcontent, runs_cons_of_content hcontent]
        exact ih.modifyHead _
      · rw [Bool.not_eq_true] at hcontent
        rw [runs_cons_of_layout hcontent, runs_cons_of_layout hcontent]
        exact .nil_cons ih.filled_eq

/-! ## Newlines -/

/-- What may stand behind a token: a newline only behind content. -/
def NewlineBehindContent (t u : Token) : Prop := u.kind = .newline → t.isContent = true

/-- The list may stand behind any token. -/
def Standalone (ts : List Token) : Prop := ∀ t, (t :: ts).IsChain NewlineBehindContent

theorem standalone_of_layout (hlayout : ∀ t ∈ layout, t.isBlock = true) (h : Standalone ts) :
    Standalone (layout ++ ts) := by
  induction layout with
  | nil => exact h
  | cons u layout ih =>
    rw [List.forall_mem_cons] at hlayout
    intro t
    refine .cons_cons (fun hnewline => ?_) (ih hlayout.2 u)
    simp [Token.isBlock, hnewline] at hlayout

theorem standalone_nil : Standalone [] := List.isChain_singleton

theorem Word.standalone_cons (ht : Word t)
    (h : ∀ u : Token, u.isContent = true → (u :: ts).IsChain NewlineBehindContent) :
    Standalone (t :: ts) :=
  fun _ => .cons_cons
    (fun hnewline => absurd ht.isContent (by simp [isContent_of_newline hnewline]))
    (h t ht.isContent)

theorem Line.isChain (h : Line level depth ts) :
    ∀ t : Token, t.isContent = true → (t :: ts).IsChain NewlineBehindContent := by
  induction h with
  | word ht _ ih => exact fun u _ => ht.standalone_cons ih u
  | next hshift ht _ ih =>
    intro u hu
    exact .cons_cons (fun _ => hu)
      (standalone_of_layout hshift.isBlock (ht.standalone_cons ih) _)
  | last level depth =>
    intro u hu
    have hdedents := standalone_of_layout (Shift.back 0 level).isBlock standalone_nil
    rw [List.append_nil] at hdedents
    exact .cons_cons (fun _ => hu) (hdedents _)

theorem Lines.standalone (h : Lines level ts) : Standalone ts := by
  cases h with
  | done =>
    have hdedents := standalone_of_layout (Shift.back 0 level).isBlock standalone_nil
    rwa [List.append_nil] at hdedents
  | line hshift ht hline =>
    exact standalone_of_layout hshift.isBlock (ht.standalone_cons hline.isChain)

theorem standalone_of_bare (h : Standalone (ts.map Token.bare)) : Standalone ts := by
  intro t
  have hbare := h t.bare
  rw [← List.map_cons, List.isChain_map] at hbare
  exact hbare

/-- The token behind a dropped newline comes behind the content that stood before that one. -/
theorem isChain_dropIdleNewlines (h : (t :: ts).IsChain NewlineBehindContent) :
    (t :: dropIdleNewlines ts).IsChain NewlineBehindContent := by
  induction ts generalizing t with
  | nil => exact h
  | cons u ts ih =>
    rw [List.isChain_cons_cons] at h
    rw [dropIdleNewlines]
    split_ifs with hidle
    · exact List.isChain_cons.2 ⟨fun _ _ _ => h.1 hidle.1, (ih h.2).tail⟩
    · exact .cons_cons h.1 (ih h.2)

/-- A newline that is not dropped stands in front of content. -/
theorem content_behind_newline (h : ts.IsChain NewlineBehindContent) {before after : List Token}
    {n : Token} (hts : dropIdleNewlines ts = before ++ n :: after) (hn : n.kind = .newline) :
    ∃ t ∈ after.head?, t.isContent = true := by
  induction ts generalizing before with
  | nil => simp [dropIdleNewlines] at hts
  | cons t ts ih =>
    rw [dropIdleNewlines] at hts
    split_ifs at hts with hidle
    · exact ih h.tail hts
    · cases before with
      | cons b before =>
        rw [List.cons_append, List.cons.injEq] at hts
        exact ih h.tail hts.2
      | nil =>
        rw [List.nil_append, List.cons.injEq] at hts
        obtain ⟨rfl, rfl⟩ := hts
        cases ts with
        | nil => simp [hn] at hidle
        | cons u ts =>
          have hblock : u.isBlock = false := by simpa [hn, Token.isBlock] using hidle
          have hnewline : u.kind ≠ .newline := fun hu => by
            have hcontent := (List.isChain_cons_cons.1 h).1 hu
            rw [isContent_of_newline hn] at hcontent
            cases hcontent
          refine ⟨u, ?_, ?_⟩
          · rw [dropIdleNewlines, if_neg fun hu => hnewline hu.1]
            rfl
          · rw [isContent_eq, hblock, beq_eq_false_iff_ne.2 hnewline]
            rfl

/-- A newline stands behind content. -/
theorem Standalone.content_before_newline (h : Standalone ts) {before after : List Token}
    {n : Token} (hts : ts = before ++ n :: after) (hn : n.kind = .newline) :
    ∃ t ∈ before.getLast?, t.isContent = true := by
  subst hts
  rcases List.eq_nil_or_concat before with rfl | ⟨before, t, rfl⟩
  · have hcontent := (List.isChain_cons_cons.1 (h n)).1 hn
    rw [isContent_of_newline hn] at hcontent
    cases hcontent
  · have hchain := (h t).tail
    rw [List.concat_eq_append, List.append_assoc, List.singleton_append,
      List.tail_cons, List.isChain_append_cons_cons] at hchain
    exact ⟨t, by rw [List.concat_eq_append, List.getLast?_concat]; rfl, hchain.2.1 hn⟩

end TokenMacros.Source

namespace TokenMacros

open Source

/-- A newline has content on both sides. What no layout token separates is the content of one
logical line, and what one separates is not. -/
theorem newlines_tokenize {source : String} {ts : List Token} (h : tokenize source = .ok ts) :
    (∀ before n after, ts = before ++ n :: after → n.kind = .newline →
      (∃ t ∈ before.getLast?, t.isContent = true) ∧ ∃ t ∈ after.head?, t.isContent = true) ∧
      ∃ xs p, lexemes source.toList = .ok (xs, p) ∧ contentRuns ts = contentLines xs := by
  obtain ⟨xs, p, raw, hxs, hraw, rfl⟩ := tokenize_eq_ok_iff.1 h
  have hstand : Standalone raw :=
    standalone_of_bare (lines_of_tokens (wordsOnly_of_lexemesFrom hxs) hraw).standalone
  refine ⟨fun before n after hts hn => ⟨?_, ?_⟩, xs, p, hxs, ?_⟩
  · exact Standalone.content_before_newline (fun t => isChain_dropIdleNewlines (hstand t)) hts hn
  · exact content_behind_newline (hstand n).tail hts hn
  · rw [contentRuns, (sameLines_dropIdleNewlines raw).filled_eq]
    exact (sameLines_of_tokens hraw).1 ⟨rfl, rfl, rfl⟩

/-- Line breaks in brackets, behind a comment, a backslash and nothing, a stray closer, and a
bracket that is left open. -/
def brokenSource : String := "\n  a(\n b) # c\n\n  d\\\n e\n   \n) f\ng(\nh\n"

theorem newlines_tokenize_broken :
    ∃ ts, tokenize brokenSource = .ok ts ∧
      (contentRuns ts).map (fun line => line.map Token.text) =
        [["a", "(", "b", ")"], ["d", "e"], [")", "f"], ["g", "(", "h"]] ∧
      (∀ before n after, ts = before ++ n :: after → n.kind = .newline →
        (∃ t ∈ before.getLast?, t.isContent = true) ∧ ∃ t ∈ after.head?, t.isContent = true) ∧
      ∃ xs p, lexemes brokenSource.toList = .ok (xs, p) ∧ contentRuns ts = contentLines xs := by
  have hruns : (tokenize brokenSource).map
      (fun ts => (contentRuns ts).map fun line => line.map Token.text) =
        .ok [["a", "(", "b", ")"], ["d", "e"], [")", "f"], ["g", "(", "h"]] := rfl
  obtain ⟨ts, hts, htexts⟩ := map_eq_ok_iff.1 hruns
  exact ⟨ts, hts, htexts, newlines_tokenize hts⟩

end TokenMacros

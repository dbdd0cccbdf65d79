import StanHighlight.Document
import StanHighlight.Proofs.Lines
import StanHighlight.Proofs.Tiling

/-!
Rebuilding a text from its tokens. A lexeme stands for its own text and a line break for
some terminator. Every text that does not end in `\r` can be rebuilt so. A `\r` at the very
end is the terminator of a line that no other line follows: no token stands for it, so a
text that ends in one cannot be rebuilt.
-/

namespace StanHighlight

/-- Tokens can be written as a text: each lexeme as its own text, and each line break as one
of the terminators. -/
inductive Rebuilds : List Token → Text → Prop
  | nil : Rebuilds [] []
  | newline {w : Text} {ts : List Token} {t : Text} (h : w ∈ Text.terminators)
      (more : Rebuilds ts t) : Rebuilds (.newline :: ts) (w ++ t)
  | lexeme (l : Lexeme) (p : Position) {ts : List Token} {t : Text} (more : Rebuilds ts t) :
      Rebuilds (.lexeme l p :: ts) (l.text ++ t)

namespace Rebuilds

@[simp] theorem nil_iff {t : Text} : Rebuilds [] t ↔ t = [] := by
  constructor
  · rintro ⟨⟩
    rfl
  · rintro rfl
    exact .nil

theorem newline_iff {ts : List Token} {t : Text} :
    Rebuilds (.newline :: ts) t ↔ ∃ w ∈ Text.terminators, ∃ r, t = w ++ r ∧ Rebuilds ts r := by
  constructor
  · intro h
    cases h with
    | newline h more => exact ⟨_, h, _, rfl, more⟩
  · rintro ⟨w, h, r, rfl, more⟩
    exact .newline h more

/-- Lexemes in a row are written as their texts in a row. -/
theorem lexemes_iff {place : Lexeme → Position} {ls : List Lexeme} {ts : List Token} {t : Text} :
    Rebuilds (ls.map (fun l => .lexeme l (place l)) ++ ts) t ↔
      ∃ r, t = ls.flatMap (fun l => l.text) ++ r ∧ Rebuilds ts r := by
  induction ls generalizing t with
  | nil => simp
  | cons l ls ih =>
    constructor
    · intro h
      cases h with
      | lexeme _ _ more =>
        obtain ⟨r, rfl, rest⟩ := ih.1 more
        exact ⟨r, by simp, rest⟩
    · rintro ⟨r, rfl, rest⟩
      have more := ih.2 ⟨r, rfl, rest⟩
      simpa using Rebuilds.lexeme l (place l) more

end Rebuilds

namespace TokenStream

/-- A stream gives out the lexemes of its current line and then, if a line is ahead, a line
break and the tokens of the lines ahead. -/
theorem tokens_eq (s : TokenStream) :
    s.tokens = s.pending.map (fun l => .lexeme l ⟨s.line, l.offset⟩) ++
      match s.ahead with
      | [] => []
      | line :: ahead =>
        .newline :: (enterLine s.lexer (s.line + 1) line s.state ahead).tokens := by
  obtain ⟨lexer, pending, number, state, ahead⟩ := s
  induction pending with
  | nil =>
    cases ahead with
    | nil =>
      rw [tokens, trace_of_next_none rfl]
      rfl
    | cons line ahead =>
      rw [tokens, trace_of_next_some rfl]
      rfl
  | cons l pending ih =>
    rw [tokens, trace_of_next_some rfl, List.map_cons, ← tokens, ih]
    rfl

end TokenStream

variable {lexer : Lexer} {number : Nat} {before : LineState}

theorem texts_tokenizeLine (lexer : Lexer) (line : Text) (before : LineState) :
    (lexer.tokenizeLine line before).lexemes.flatMap (fun l => l.text) = line :=
  (tiles_cutLine lexer line before).whole

/-- The tokens of a last line are written as that line without its terminator. -/
theorem rebuilds_last_iff {line t : Text} :
    Rebuilds (TokenStream.enterLine lexer number line before []).tokens t ↔
      t = Text.stripTerminator line := by
  rw [TokenStream.tokens_eq, TokenStream.enterLine, Rebuilds.lexemes_iff, texts_tokenizeLine]
  simp

/-- The tokens of a line and those ahead are written as the line without its terminator, any
terminator, and what the tokens ahead are written as. -/
theorem rebuilds_ahead_iff {line other t : Text} {ahead : List Text} :
    Rebuilds (TokenStream.enterLine lexer number line before (other :: ahead)).tokens t ↔
      ∃ w ∈ Text.terminators, ∃ r, t = Text.stripTerminator line ++ (w ++ r) ∧
        Rebuilds (TokenStream.enterLine lexer (number + 1) other
          (TokenStream.enterLine lexer number line before (other :: ahead)).state ahead).tokens r := by
  rw [TokenStream.tokens_eq, TokenStream.enterLine, Rebuilds.lexemes_iff, texts_tokenizeLine]
  simp only [Rebuilds.newline_iff]
  constructor
  · rintro ⟨_, rfl, w, h, r, rfl, more⟩
    exact ⟨w, h, r, rfl, more⟩
  · rintro ⟨w, h, r, rfl, more⟩
    exact ⟨_, rfl, w, h, r, rfl, more⟩

/-- Every text that does not end in `\r` can be rebuilt, whatever state it is read in. -/
theorem rebuilds_of_getLast? {t line : Text} {ahead : List Text} (h : t.lines = line :: ahead)
    (ends : t.getLast? ≠ some '\r') :
    Rebuilds (TokenStream.enterLine lexer number line before ahead).tokens t := by
  induction t using Text.lines_induction generalizing number before line ahead with
  | last t clean =>
    rw [Text.lines_of_notMem clean] at h
    cases h
    exact rebuilds_last_iff.2 ((Text.stripTerminator_eq_self_iff clean).2 ends).symm
  | line s t clean ih =>
    rw [Text.lines_append_newline clean] at h
    obtain ⟨other, more, found⟩ := Text.exists_lines_eq_cons t
    rw [found] at h
    cases h
    have rest := Text.stripTerminator_append_terminator (s ++ ['\n'])
    refine rebuilds_ahead_iff.2 ⟨_, Text.terminator_newline_mem s, t, ?_, ih found fun e => ?_⟩
    · rw [← List.append_assoc, rest]
      simp
    · exact ends (by simp [List.getLast?_append, List.getLast?_cons, e])

/-- A text that can be rebuilt with as many line breaks ends in the last line without its
terminator. -/
theorem lastLine_of_rebuilds {u t line : Text} {ahead : List Text} (h : u.lines = line :: ahead)
    (rebuilds : Rebuilds (TokenStream.enterLine lexer number line before ahead).tokens t) :
    t.count '\n' ≤ u.count '\n' ∧
      (t.count '\n' = u.count '\n' → t.lastLine = Text.stripTerminator u.lastLine) := by
  induction u using Text.lines_induction generalizing number before line ahead t with
  | last u clean =>
    rw [Text.lines_of_notMem clean] at h
    cases h
    rw [rebuilds_last_iff.1 rebuilds, Text.lastLine_of_notMem clean]
    have stripped : '\n' ∉ Text.stripTerminator u :=
      fun mem => clean ((Text.stripTerminator_isInitial u).subset mem)
    rw [List.count_eq_zero_of_not_mem stripped, Text.lastLine_of_notMem stripped]
    exact ⟨Nat.zero_le _, fun _ => rfl⟩
  | line s u clean ih =>
    obtain ⟨other, more, found⟩ := Text.exists_lines_eq_cons u
    rw [Text.lines_append_newline clean, found] at h
    cases h
    obtain ⟨w, hw, r, rfl, rest⟩ := rebuilds_ahead_iff.1 rebuilds
    obtain ⟨fewer, same⟩ := ih found rest
    have stripped := Text.newline_notMem_stripTerminator clean
    rw [Text.lastLine_append_newline clean]
    rw [List.count_append, List.count_eq_zero_of_not_mem stripped, List.count_append,
      List.count_append, List.count_eq_zero_of_not_mem clean, List.count_cons_self]
    -- A break written as `\r` alone costs a `\n`, and then the counts can no longer agree.
    rcases Text.newline_of_mem_terminators hw with ⟨front, hfront, rfl⟩ | none
    · have both : '\n' ∉ Text.stripTerminator (s ++ ['\n']) ++ front := by simp [stripped, hfront]
      have one : (front ++ ['\n']).count '\n' = 1 := by
        simp [List.count_eq_zero_of_not_mem hfront]
      refine ⟨by omega, fun e => ?_⟩
      have last := Text.lastLine_append_newline (t := r) both
      rw [← same (by omega), ← last]
      simp
    · have zero : w.count '\n' = 0 := List.count_eq_zero_of_not_mem none
      exact ⟨by omega, fun e => by omega⟩

/-- The tokens of a document can be written as its text exactly when that does not end in `\r`. -/
theorem rebuilds_tokens_iff (lexer : Lexer) (d : Document) :
    Rebuilds (d.stream lexer).tokens d.text ↔ d.text.getLast? ≠ some '\r' := by
  obtain ⟨line, ahead, found⟩ := Text.exists_lines_eq_cons d.text
  rw [Document.stream, found]
  constructor
  · intro rebuilds ends
    have same := (lastLine_of_rebuilds found rebuilds).2 rfl
    have clean := Text.newline_notMem_lastLine d.text
    exact (Text.stripTerminator_eq_self_iff clean).1 same.symm
      (Text.getLast?_lastLine ends (by decide))
  · intro ends
    exact rebuilds_of_getLast? found ends

/-- Of the text `a\r` only the `a` becomes a token. -/
theorem not_rebuilds_final_return :
    ¬ Rebuilds ((Document.ofText ['a', '\r']).stream ⟨{}, by decide, .prepending⟩).tokens
      ['a', '\r'] := by
  intro rebuilds
  have whole : ['a', '\r'] = Text.stripTerminator ['a', '\r'] := rebuilds_last_iff.1 rebuilds
  exact absurd whole (by decide)

end StanHighlight

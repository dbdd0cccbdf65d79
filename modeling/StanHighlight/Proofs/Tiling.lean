import Mathlib.Data.List.Chain
import StanHighlight.Lexeme

/-!
The lexemes of a line tile it. Whatever the state, the lexer and the line, its
terminators included, cutting the content ends after at most as many turns as there are
characters, no lexeme is empty, each begins at the byte where the one before it ends,
and the texts of all lexemes in a row are the line.
-/

namespace StanHighlight

namespace Text

/-- The count of bytes is the size of the string that has these characters. -/
theorem byteLength_eq_utf8ByteSize (t : Text) : byteLength t = (String.ofList t).utf8ByteSize := by
  induction t with
  | nil => rfl
  | cons c t ih => rw [byteLength_cons, ih, String.ofList_cons]; simp

/-- The end of an initial part of a text is a character boundary. -/
theorem isValid_byteLength (s t : Text) :
    (⟨byteLength s⟩ : String.Pos.Raw).IsValid (String.ofList (s ++ t)) := by
  rw [String.Pos.Raw.isValid_ofList]
  exact ⟨s.length, by simp [byteLength_eq_utf8ByteSize]⟩

end Text

/-- Cutting a text takes exactly `n` turns of the loop: at each turn one step is taken on what is
left, and the loop ends when nothing is left. -/
inductive Turns (lexer : Lexer) : Nat → Bool → LineState → Text → List Piece → LineState → Prop
  | done (assigned : Bool) (here : LineState) : Turns lexer 0 assigned here [] [] here
  | turn {n : Nat} {assigned : Bool} {here there : LineState} {t : Text} {ps : List Piece} {s : Step}
      (h : t ≠ []) (hs : s = Step.take lexer assigned here t)
      (more : Turns lexer n (s.assigns assigned) s.after s.rest ps there) :
      Turns lexer (n + 1) assigned here t (s.pieces ++ ps) there

/-- The loop ends on every text, after at most one turn for each character. -/
theorem turns_cut (lexer : Lexer) (assigned : Bool) (here : LineState) (t : Text) :
    ∃ n, n ≤ t.length ∧
      Turns lexer n assigned here t (cut lexer assigned here t).1 (cut lexer assigned here t).2 := by
  induction assigned, here, t using cut_induction lexer with
  | nil assigned here => exact ⟨0, by simp, by simpa using Turns.done assigned here⟩
  | step assigned here t s nonempty taken covers ih =>
    obtain ⟨n, hn, turns⟩ := ih
    have shorter := covers.rest_length_lt
    refine ⟨n + 1, by omega, ?_⟩
    rw [cut_eq nonempty, ← taken]
    exact .turn nonempty taken turns

theorem text_ne_nil_of_mem_cut {lexer : Lexer} {assigned : Bool} {here : LineState} {t : Text}
    {p : Piece} (h : p ∈ (cut lexer assigned here t).1) : p.text ≠ [] := by
  induction assigned, here, t using cut_induction lexer with
  | nil => simp at h
  | step assigned here t s nonempty taken covers ih =>
    rw [cut_eq nonempty, ← taken] at h
    rcases List.mem_append.1 h with hp | hp
    · exact covers.visible p hp
    · exact ih hp

namespace Piece

theorem text_ne_nil_of_mem_join {p q : Piece} {ps : List Piece} (h : q ∈ join p ps)
    (hp : p.text ≠ []) (hps : ∀ r ∈ ps, r.text ≠ []) : q.text ≠ [] := by
  cases ps with
  | nil => rw [List.mem_singleton.1 h]; exact hp
  | cons r rs =>
    rw [join] at h
    split at h
    · rcases List.mem_cons.1 h with rfl | hq
      · simp [hp]
      · exact hps q (List.mem_cons_of_mem r hq)
    · rcases List.mem_cons.1 h with rfl | hq
      · exact hp
      · exact hps q hq

theorem text_ne_nil_of_mem_joinPlain {q : Piece} {ps : List Piece} (h : q ∈ joinPlain ps)
    (hps : ∀ r ∈ ps, r.text ≠ []) : q.text ≠ [] := by
  induction ps generalizing q with
  | nil => cases h
  | cons p ps ih =>
    exact text_ne_nil_of_mem_join h (hps p List.mem_cons_self)
      fun r hr => ih hr fun r' hr' => hps r' (List.mem_cons_of_mem p hr')

end Piece

theorem texts_cutLine (lexer : Lexer) (line : Text) (here : LineState) :
    Piece.texts (cutLine lexer line here).1 = line := by
  simp [cutLine]

theorem text_ne_nil_of_mem_cutLine {lexer : Lexer} {line : Text} {here : LineState} {p : Piece}
    (h : p ∈ (cutLine lexer line here).1) : p.text ≠ [] := by
  refine Piece.text_ne_nil_of_mem_joinPlain h fun q hq => ?_
  rcases List.mem_append.1 hq with hq | hq
  · exact text_ne_nil_of_mem_cut hq
  · exact Piece.text_ne_nil_of_mem_ofText hq

namespace Lexeme

@[simp] theorem map_toPiece_place (n : Nat) (ps : List Piece) :
    (place n ps).map Lexeme.toPiece = ps := by
  induction ps generalizing n with
  | nil => rfl
  | cons p ps ih => rw [place_cons, List.map_cons, ih]

theorem offset_of_mem_head?_place {n : Nat} {ps : List Piece} {l : Lexeme}
    (h : l ∈ (place n ps).head?) : l.offset = n := by
  cases ps with
  | nil => cases h
  | cons p ps =>
    rw [place_cons] at h
    cases h
    rfl

/-- Each placed lexeme begins where the one before it ends. -/
theorem isChain_place (n : Nat) (ps : List Piece) :
    (place n ps).IsChain fun l m => m.offset = l.offset + Text.byteLength l.text := by
  induction ps generalizing n with
  | nil => exact .nil
  | cons p ps ih =>
    rw [place_cons, List.isChain_cons]
    exact ⟨fun m hm => offset_of_mem_head?_place hm, ih _⟩

/-- A placed lexeme stands for a piece, and its offset counts the bytes of those in front. -/
theorem exists_of_mem_place {n : Nat} {ps : List Piece} {l : Lexeme} (h : l ∈ place n ps) :
    ∃ front back, ps = front ++ l.toPiece :: back ∧
      l.offset = n + Text.byteLength (Piece.texts front) := by
  induction ps generalizing n with
  | nil => cases h
  | cons p ps ih =>
    rw [place_cons] at h
    rcases List.mem_cons.1 h with rfl | mem
    · exact ⟨[], ps, rfl, rfl⟩
    · obtain ⟨front, back, rfl, offset⟩ := ih mem
      refine ⟨p :: front, back, rfl, ?_⟩
      rw [offset, Piece.texts_cons, Text.byteLength_append, Nat.add_assoc]

/-- The offset of a placed lexeme counts the bytes of the text in front of it. -/
theorem offset_of_mem_place {n : Nat} {ps : List Piece} {l : Lexeme} (h : l ∈ place n ps) :
    ∃ before after, Piece.texts ps = before ++ (l.text ++ after) ∧
      l.offset = n + Text.byteLength before := by
  obtain ⟨front, back, rfl, offset⟩ := exists_of_mem_place h
  exact ⟨Piece.texts front, Piece.texts back, by simp, offset⟩

end Lexeme

/-- Lexemes that tile a line: none is empty, the first begins at its start and each of the others
where the one before it ends, always between two characters, and their texts make up the line. -/
structure Tiles (line : Text) (ls : List Lexeme) : Prop where
  visible : ∀ l ∈ ls, l.text ≠ []
  first : ∀ l ∈ ls.head?, l.offset = 0
  adjacent : ls.IsChain fun l m => m.offset = l.offset + Text.byteLength l.text
  boundary : ∀ l ∈ ls,
    (⟨l.offset⟩ : String.Pos.Raw).IsValid (String.ofList line) ∧
      (⟨l.offset + Text.byteLength l.text⟩ : String.Pos.Raw).IsValid (String.ofList line)
  whole : ls.flatMap (fun l => l.text) = line

/-- Pieces without an empty one, placed from the start on, tile the text that they make up. -/
theorem tiles_place {ps : List Piece} (h : ∀ p ∈ ps, p.text ≠ []) :
    Tiles (Piece.texts ps) (Lexeme.place 0 ps) where
  visible := by
    intro l hl
    have mem := List.mem_map_of_mem (f := Lexeme.toPiece) hl
    rw [Lexeme.map_toPiece_place] at mem
    exact h l.toPiece mem
  first l hl := Lexeme.offset_of_mem_head?_place hl
  adjacent := Lexeme.isChain_place 0 ps
  boundary := by
    intro l hl
    obtain ⟨before, after, whole, offset⟩ := Lexeme.offset_of_mem_place hl
    rw [Nat.zero_add] at offset
    constructor
    · rw [offset, whole]
      exact Text.isValid_byteLength before (l.text ++ after)
    · rw [offset, whole, ← Text.byteLength_append, ← List.append_assoc]
      exact Text.isValid_byteLength (before ++ l.text) after
  whole := by
    rw [← List.flatMap_map Lexeme.toPiece Piece.text, Lexeme.map_toPiece_place]
    rfl

/-- The placed pieces of a line tile it. -/
theorem tiles_cutLine (lexer : Lexer) (line : Text) (here : LineState) :
    Tiles line (Lexeme.place 0 (cutLine lexer line here).1) := by
  have tiles := tiles_place fun p => @text_ne_nil_of_mem_cutLine lexer line here p
  rwa [texts_cutLine] at tiles

/-- Tokenizing ends on every line in every state, and the lexemes tile the whole line. -/
theorem tokenizeLine_tiles (lexer : Lexer) (line : Text) (state : LineState) :
    Tiles line (lexer.tokenizeLine line state).lexemes ∧
      ∃ n ps there, n ≤ line.length ∧
        Turns lexer n false state (Text.stripTerminator line) ps there ∧
        lexer.tokenizeLine line state =
          ⟨Lexeme.place 0 (Piece.joinPlain (ps ++ Piece.ofText (Text.terminator line) there [])),
            there⟩ := by
  constructor
  · exact tiles_cutLine lexer line state
  · obtain ⟨n, hn, turns⟩ := turns_cut lexer false state (Text.stripTerminator line)
    have shorter := (Text.stripTerminator_isInitial line).length_le
    exact ⟨n, _, _, by omega, turns, rfl⟩

end StanHighlight

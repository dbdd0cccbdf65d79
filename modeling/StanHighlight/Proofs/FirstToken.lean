import StanHighlight.Proofs.Comment
import StanHighlight.Proofs.Word

/-!
A token at the start of a line. One that is cut in a single piece, and is no assignment, parts the
line: what follows it is read like a line of its own, from the state that the token leaves.
-/

namespace StanHighlight

namespace Text

variable {w : Text}

/-- Nothing of a terminator reaches into visible text. -/
theorem stripTerminator_append_of_visible (visible : ∀ c ∈ w, isSpace c = false) (t : Text) :
    stripTerminator (w ++ t) = w ++ stripTerminator t := by
  cases last : w.getLast? with
  | none =>
    obtain rfl := List.getLast?_eq_none_iff.1 last
    rfl
  | some c =>
    have shown := visible c (List.mem_of_getLast? last)
    refine stripTerminator_append_of_getLast? last ⟨?_, ?_⟩ t
    · rintro rfl
      cases shown
    · rintro rfl
      cases shown

theorem stripTerminator_append_of_word (chars : w.all isWordChar = true) (t : Text) :
    stripTerminator (w ++ t) = w ++ stripTerminator t :=
  stripTerminator_append_of_visible
    (fun c mem => isSpace_of_isWordChar (List.all_eq_true.1 chars c mem)) t

end Text

variable (lexer : Lexer) {s there : LineState}

theorem tokenizeLine_nil (s : LineState) : lexer.tokenizeLine [] s = ⟨[], s⟩ := by
  simp [tokenizeLine_eq, linePieces, Text.stripTerminator, Text.terminator, Piece.ofText]
  rfl

/-- What a line gives where its first step ends with a token that is not an assignment. -/
theorem tokenizeLine_of_take_row (ps : List Piece) {p : Piece} {front rest : Text}
    (labelled : p.isPlain = false) (assigns : p.own.getLast? ≠ some .assignmentOperator)
    (some_text : front ≠ [])
    (strips : Text.stripTerminator (front ++ rest) = front ++ Text.stripTerminator rest)
    (taken : Step.take lexer false s (front ++ Text.stripTerminator rest) =
      ⟨ps ++ [p], there, Text.stripTerminator rest⟩) :
    lexer.tokenizeLine (front ++ rest) s = (lexer.tokenizeLine rest there).behind
      (Lexeme.place 0 (Piece.joinPlain ps ++ [p])) (Text.byteLength front) := by
  have some_rest : front ++ Text.stripTerminator rest ≠ [] := by simp [some_text]
  have unassigned : (p.own.getLast? == some .assignmentOperator) = false := by simpa using assigns
  refine tokenizeLine_append ps labelled strips ?_
  rw [cut_eq some_rest, taken]
  simp [Step.assigns, labelled, unassigned]

/-- What a line gives where its first step cuts one token that is not an assignment. -/
theorem tokenizeLine_of_take (p : Piece) {rest : Text} (labelled : p.isPlain = false)
    (assigns : p.own.getLast? ≠ some .assignmentOperator) (visible : p.text ≠ [])
    (strips : Text.stripTerminator (p.text ++ rest) = p.text ++ Text.stripTerminator rest)
    (taken : Step.take lexer false s (p.text ++ Text.stripTerminator rest) =
      ⟨[p], there, Text.stripTerminator rest⟩) :
    lexer.tokenizeLine (p.text ++ rest) s =
      (lexer.tokenizeLine rest there).behind [⟨p, 0⟩] (Text.byteLength p.text) :=
  tokenizeLine_of_take_row lexer [] labelled assigns visible strips taken

end StanHighlight

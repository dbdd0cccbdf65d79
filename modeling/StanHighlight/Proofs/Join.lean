import StanHighlight.Proofs.Run
import StanHighlight.Proofs.StepActs
import StanHighlight.Proofs.Tiling

/-!
From pieces to lexemes. A line is a row of acts, and its lexemes are the pieces that these cut,
with neighbouring plain ones joined. Joining invents nothing: every joined piece stands where some
piece stood, the labelled pieces are the same as before, and they part what is joined on either
side.
-/

namespace StanHighlight

/-- The pieces of a line in front of joining. -/
def linePieces (lexer : Lexer) (line : Text) (before : LineState) : List Piece :=
  let content := cut lexer false before (Text.stripTerminator line)
  content.1 ++ Piece.ofText (Text.terminator line) content.2 []

section Lines

variable (lexer : Lexer) (line : Text) (before : LineState)

@[simp] theorem texts_linePieces : Piece.texts (linePieces lexer line before) = line := by
  simp [linePieces]

theorem tokenizeLine_eq : lexer.tokenizeLine line before =
    ⟨Lexeme.place 0 (Piece.joinPlain (linePieces lexer line before)),
      (cut lexer false before (Text.stripTerminator line)).2⟩ := rfl

theorem toPiece_tokenizeLine : (lexer.tokenizeLine line before).lexemes.map Lexeme.toPiece =
    Piece.joinPlain (linePieces lexer line before) :=
  Lexeme.map_toPiece_place 0 _

@[simp] theorem texts_toPiece_tokenizeLine :
    Piece.texts ((lexer.tokenizeLine line before).lexemes.map Lexeme.toPiece) = line := by
  rw [toPiece_tokenizeLine, Piece.texts_joinPlain, texts_linePieces]

/-- Every line is a row of acts. -/
theorem acts_linePieces {before : LineState} (rooted : Rooted before) :
    Acts before (linePieces lexer line before) (lexer.tokenizeLine line before).state := by
  rw [state_tokenizeLine]
  exact (acts_cut rooted).append (.tokens fun p hp => Piece.isLoose_of_mem_ofText rfl hp)

end Lines

namespace Piece

theorem joinPlain_cons (p : Piece) (ps : List Piece) :
    joinPlain (p :: ps) = join p (joinPlain ps) := rfl

theorem join_of_labelled {p : Piece} (labelled : p.isPlain = false) (ps : List Piece) :
    join p ps = p :: ps := by
  cases ps with
  | nil => rfl
  | cons q qs => simp [join, labelled]

theorem join_append {p : Piece} {ps : List Piece} (some_piece : ps ≠ []) (qs : List Piece) :
    join p (ps ++ qs) = join p ps ++ qs := by
  cases ps with
  | nil => exact absurd rfl some_piece
  | cons q ps =>
    rw [List.cons_append, join, join]
    split <;> rfl

theorem joinPlain_ne_nil {ps : List Piece} (h : ps ≠ []) : joinPlain ps ≠ [] := by
  cases ps with
  | nil => exact absurd rfl h
  | cons p ps =>
    rw [joinPlain_cons]
    cases joinPlain ps with
    | nil => exact List.cons_ne_nil _ _
    | cons q qs =>
      rw [join]
      split <;> exact List.cons_ne_nil _ _

/-- A labelled piece parts what is joined in front of it from what is joined behind it. -/
theorem joinPlain_append_cons {p : Piece} (labelled : p.isPlain = false) (ps qs : List Piece) :
    joinPlain (ps ++ p :: qs) = joinPlain ps ++ p :: joinPlain qs := by
  induction ps with
  | nil => rw [List.nil_append, joinPlain_cons, join_of_labelled labelled]; rfl
  | cons q ps ih =>
    rw [List.cons_append, joinPlain_cons, ih, joinPlain_cons]
    by_cases none : ps = []
    · subst none
      simp [joinPlain, join, labelled]
    · exact join_append (joinPlain_ne_nil none) _

/-- Joining leaves the labelled pieces as they are. -/
theorem filter_joinPlain (ps : List Piece) :
    (joinPlain ps).filter (fun p => !p.isPlain) = ps.filter fun p => !p.isPlain := by
  induction ps with
  | nil => rfl
  | cons p ps ih =>
    rw [joinPlain_cons, List.filter_cons, ← ih]
    cases plain : p.isPlain with
    | false => simp [join_of_labelled plain, plain]
    | true =>
      cases joinPlain ps with
      | nil => simp [join, plain]
      | cons q qs =>
        rw [join]
        split
        · next both =>
          have second : q.isPlain = true := by simpa [plain] using both
          have joined : (⟨p.text ++ q.text, p.around, []⟩ : Piece).isPlain = true := rfl
          simp [second, joined]
        · simp [plain]

/-- A terminator is not labelled. -/
theorem filter_linePieces (lexer : Lexer) (line : Text) (before : LineState) :
    (linePieces lexer line before).filter (fun p => !p.isPlain) =
      (cut lexer false before (Text.stripTerminator line)).1.filter fun p => !p.isPlain := by
  have terminator : (ofText (Text.terminator line)
      (cut lexer false before (Text.stripTerminator line)).2 []).filter (fun p => !p.isPlain) =
        [] := by
    rw [ofText]
    split <;> rfl
  rw [linePieces, List.filter_append, terminator, List.append_nil]

/-- A joined piece stands where one of the pieces stood. -/
theorem exists_around_of_mem_joinPlain {ps : List Piece} {q : Piece} (h : q ∈ joinPlain ps) :
    ∃ p ∈ ps, p.around = q.around := by
  induction ps generalizing q with
  | nil => cases h
  | cons p ps ih =>
    have later : q ∈ joinPlain ps → ∃ r ∈ p :: ps, r.around = q.around := fun mem =>
      let ⟨r, hr, same⟩ := ih mem
      ⟨r, List.mem_cons_of_mem p hr, same⟩
    rw [joinPlain_cons] at h
    cases joined : joinPlain ps with
    | nil =>
      rw [joined, join, List.mem_singleton] at h
      exact ⟨p, List.mem_cons_self, congrArg around h.symm⟩
    | cons r rs =>
      rw [joined] at later
      rw [joined, join] at h
      split at h
      · rcases List.mem_cons.1 h with rfl | mem
        · exact ⟨p, List.mem_cons_self, rfl⟩
        · exact later (List.mem_cons_of_mem r mem)
      · rcases List.mem_cons.1 h with rfl | mem
        · exact ⟨q, List.mem_cons_self, rfl⟩
        · exact later mem

end Piece

namespace Lexeme

def shift (n : Nat) (l : Lexeme) : Lexeme := { l with offset := n + l.offset }

@[simp] theorem toPiece_shift (n : Nat) (l : Lexeme) : (shift n l).toPiece = l.toPiece := rfl

@[simp] theorem shift_shift (n m : Nat) (l : Lexeme) : shift n (shift m l) = shift (n + m) l := by
  simp [shift, Nat.add_assoc]

theorem place_add (n m : Nat) (ps : List Piece) :
    place (n + m) ps = (place m ps).map (shift n) := by
  induction ps generalizing m with
  | nil => rfl
  | cons p ps ih =>
    rw [place_cons, place_cons, Nat.add_assoc, ih]
    rfl

theorem place_append (n : Nat) (ps qs : List Piece) :
    place n (ps ++ qs) = place n ps ++ place (n + Text.byteLength (Piece.texts ps)) qs := by
  induction ps generalizing n with
  | nil => rfl
  | cons p ps ih =>
    rw [List.cons_append, place_cons, place_cons, ih, Piece.texts_cons, Text.byteLength_append,
      Nat.add_assoc]
    rfl

end Lexeme

namespace LineTokens

/-- What a line gives where it stands behind some lexemes, a number of bytes further on. -/
def behind (ls : List Lexeme) (n : Nat) (line : LineTokens) : LineTokens :=
  ⟨ls ++ line.lexemes.map (Lexeme.shift n), line.state⟩

@[simp] theorem lexemes_behind (ls : List Lexeme) (n : Nat) (line : LineTokens) :
    (line.behind ls n).lexemes = ls ++ line.lexemes.map (Lexeme.shift n) := rfl

@[simp] theorem state_behind (ls : List Lexeme) (n : Nat) (line : LineTokens) :
    (line.behind ls n).state = line.state := rfl

theorem behind_behind (ls ms : List Lexeme) (n m : Nat) (line : LineTokens) :
    (line.behind ms m).behind ls n = line.behind (ls ++ ms.map (Lexeme.shift n)) (n + m) := by
  simp [behind, Function.comp_def]

end LineTokens

/-- What does not reach into a terminator leaves it as it is. -/
theorem Text.terminator_append {front rest : Text}
    (strips : stripTerminator (front ++ rest) = front ++ stripTerminator rest) :
    terminator (front ++ rest) = terminator rest := by
  rw [terminator, terminator, strips, List.length_append, List.drop_append]
  simp

/-- A lexeme with labels of its own is as the rules cut it: joining makes plain pieces only. -/
theorem mem_cut_of_mem_lexemes {lexer : Lexer} {line : Text} {s : LineState} {l : Lexeme}
    (mem : l ∈ (lexer.tokenizeLine line s).lexemes) (labelled : l.own ≠ []) :
    l.toPiece ∈ (cut lexer false s (Text.stripTerminator line)).1 := by
  have joined : l.toPiece ∈ Piece.joinPlain (linePieces lexer line s) :=
    toPiece_tokenizeLine lexer line s ▸ List.mem_map_of_mem mem
  have kept : l.toPiece ∈ (Piece.joinPlain (linePieces lexer line s)).filter
      fun p => !p.isPlain := List.mem_filter.2 ⟨joined, by simpa [Piece.isPlain] using labelled⟩
  rw [Piece.filter_joinPlain, Piece.filter_linePieces] at kept
  exact List.mem_of_mem_filter kept

/-- Behind a labelled piece a line is read like a line of its own. -/
theorem tokenizeLine_append {lexer : Lexer} {front rest : Text} {before there : LineState}
    (ps : List Piece) {p : Piece} (labelled : p.isPlain = false)
    (strips : Text.stripTerminator (front ++ rest) = front ++ Text.stripTerminator rest)
    (cuts : cut lexer false before (front ++ Text.stripTerminator rest) =
      (ps ++ p :: (cut lexer false there (Text.stripTerminator rest)).1,
        (cut lexer false there (Text.stripTerminator rest)).2)) :
    lexer.tokenizeLine (front ++ rest) before = (lexer.tokenizeLine rest there).behind
      (Lexeme.place 0 (Piece.joinPlain ps ++ [p])) (Text.byteLength front) := by
  have pieces : linePieces lexer (front ++ rest) before =
      ps ++ p :: linePieces lexer rest there := by
    simp only [linePieces, strips, cuts, Text.terminator_append strips]
    rw [List.append_assoc, List.cons_append]
  have texts : front = Piece.texts (Piece.joinPlain ps ++ [p]) := by
    have whole := texts_linePieces lexer (front ++ rest) before
    rw [pieces, Piece.texts_append, Piece.texts_cons, texts_linePieces,
      ← List.append_assoc] at whole
    rw [Piece.texts_append, Piece.texts_joinPlain, ← List.append_cancel_right whole]
    simp
  have state : (cut lexer false before (Text.stripTerminator (front ++ rest))).2 =
      (cut lexer false there (Text.stripTerminator rest)).2 := by
    rw [strips, cuts]
  have placed := Lexeme.place_add (Text.byteLength front) 0
    (Piece.joinPlain (linePieces lexer rest there))
  rw [Nat.add_zero] at placed
  rw [tokenizeLine_eq, tokenizeLine_eq, pieces, state, Piece.joinPlain_append_cons labelled,
    ← List.singleton_append, ← List.append_assoc, Lexeme.place_append, ← texts, Nat.zero_add,
    placed]
  rfl

end StanHighlight

import StanHighlight.Cut
import StanHighlight.Text.Line

/-!
The lexemes of a line: its pieces with their places. The terminator of the line is
plain text in the state that its content ends in. Neighbouring plain pieces are made
one lexeme, since nothing happened between them.
-/

namespace StanHighlight

namespace Piece

/-- Puts a piece in front of others, as one with the first of them if both are plain. -/
def join (p : Piece) : List Piece → List Piece
  | [] => [p]
  | q :: qs =>
    if p.isPlain && q.isPlain then ⟨p.text ++ q.text, p.around, []⟩ :: qs else p :: q :: qs

def joinPlain (ps : List Piece) : List Piece := ps.foldr join []

@[simp] theorem texts_join (p : Piece) (ps : List Piece) :
    texts (join p ps) = p.text ++ texts ps := by
  cases ps with
  | nil => rfl
  | cons q qs =>
    rw [join]
    split <;> simp

@[simp] theorem texts_joinPlain (ps : List Piece) : texts (joinPlain ps) = texts ps := by
  induction ps with
  | nil => rfl
  | cons p ps ih =>
    rw [joinPlain, List.foldr_cons, texts_join]
    exact congrArg _ ih

end Piece

structure Lexeme extends Piece where
  offset : Nat
  deriving DecidableEq, Repr

namespace Lexeme

/-- Pieces placed one after the other from a distance on, behind lexemes placed before them,
latest first. -/
def placeAfter (done : List Lexeme) (offset : Nat) : List Piece → List Lexeme
  | [] => done.reverse
  | p :: ps => placeAfter (⟨p, offset⟩ :: done) (offset + Text.byteLength p.text) ps

def place (offset : Nat) (ps : List Piece) : List Lexeme := placeAfter [] offset ps

theorem placeAfter_eq (done : List Lexeme) (offset : Nat) (ps : List Piece) :
    placeAfter done offset ps = done.reverse ++ place offset ps := by
  induction ps generalizing done offset with
  | nil => simp [place, placeAfter]
  | cons p ps ih =>
    rw [place, placeAfter, placeAfter, ih, ih [_]]
    simp

@[simp] theorem place_nil (offset : Nat) : place offset [] = [] := rfl

@[simp] theorem place_cons (offset : Nat) (p : Piece) (ps : List Piece) :
    place offset (p :: ps) = ⟨p, offset⟩ :: place (offset + Text.byteLength p.text) ps := by
  rw [place, placeAfter, placeAfter_eq]
  rfl

end Lexeme

structure LineTokens where
  lexemes : List Lexeme
  state : LineState
  deriving DecidableEq, Repr

/-- All pieces of a line, its terminator included, and the state after it. -/
def cutLine (lexer : Lexer) (line : Text) (here : LineState) : List Piece × LineState :=
  let content := cut lexer false here (Text.stripTerminator line)
  (Piece.joinPlain (content.1 ++ Piece.ofText (Text.terminator line) content.2 []), content.2)

/-- The lexemes of a line, which may carry its terminator, and the state after it. Tokenizing
always succeeds and depends only on the lexer, the line and the state that the line before it
ended in. -/
def Lexer.tokenizeLine (lexer : Lexer) (line : Text) (state : LineState) : LineTokens :=
  let pieces := cutLine lexer line state
  ⟨Lexeme.place 0 pieces.1, pieces.2⟩

end StanHighlight

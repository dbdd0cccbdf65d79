import StanHighlight.Proofs.Reachable

/-!
Runs over lines. A run reads the first line in some state and every other line in the state
that the line before it ends in. What it gives is kept line by line: the lexemes of each line
and the state after it.
-/

namespace StanHighlight

/-- What each of some lines gives, the first of them read in a state and every other one in the
state after the line before it. -/
def Lexer.tokenizeLines (lexer : Lexer) (before : LineState) : List Text → List LineTokens
  | [] => []
  | line :: lines =>
    let tokens := lexer.tokenizeLine line before
    tokens :: lexer.tokenizeLines tokens.state lines

namespace Lexer

variable (lexer : Lexer) (before : LineState)

@[simp] theorem tokenizeLines_nil : lexer.tokenizeLines before [] = [] := rfl

@[simp] theorem tokenizeLines_cons (line : Text) (lines : List Text) :
    lexer.tokenizeLines before (line :: lines) = lexer.tokenizeLine line before ::
      lexer.tokenizeLines (lexer.tokenizeLine line before).state lines := rfl

@[simp] theorem stateAfter_nil : lexer.stateAfter before [] = before := rfl

@[simp] theorem stateAfter_cons (line : Text) (lines : List Text) :
    lexer.stateAfter before (line :: lines) =
      lexer.stateAfter (lexer.tokenizeLine line before).state lines := rfl

/-- A line is read in the state after all lines before it. -/
theorem getElem?_tokenizeLines (lines : List Text) (k : Nat) :
    (lexer.tokenizeLines before lines)[k]? = lines[k]?.map fun line =>
      lexer.tokenizeLine line (lexer.stateAfter before (lines.take k)) := by
  induction lines generalizing before k with
  | nil => rfl
  | cons line lines ih =>
    cases k with
    | zero => rfl
    | succ k => simp [ih]

@[simp] theorem length_tokenizeLines (lines : List Text) :
    (lexer.tokenizeLines before lines).length = lines.length := by
  induction lines generalizing before with
  | nil => rfl
  | cons line lines ih => simp [ih]

theorem reachable_stateAfter (parts : lexer.clusters.PartsAscii) {before : LineState}
    (h : before.Reachable) (lines : List Text) : (lexer.stateAfter before lines).Reachable := by
  induction lines generalizing before with
  | nil => exact h
  | cons line lines ih => exact ih (.line lexer parts line h)

def lexemes (lines : List Text) : List Lexeme :=
  (lexer.tokenizeLines before lines).flatMap LineTokens.lexemes

@[simp] theorem lexemes_nil : lexer.lexemes before [] = [] := rfl

@[simp] theorem lexemes_cons (line : Text) (lines : List Text) :
    lexer.lexemes before (line :: lines) = (lexer.tokenizeLine line before).lexemes ++
      lexer.lexemes (lexer.tokenizeLine line before).state lines := rfl

end Lexer

end StanHighlight

import StanHighlight.Lexeme

/-!
States that tokenizing can reach. A run over lines starts in the initial state and hands
the state after each line to the next. What every step of the cutting loop preserves holds
at the end of a line, and what every line preserves holds of every reachable state.
-/

namespace StanHighlight

def Lexer.stateAfter (lexer : Lexer) (before : LineState) (lines : List Text) : LineState :=
  lines.foldl (fun s line => (lexer.tokenizeLine line s).state) before

/-- States that some lines lead to from the state before the first line, each line read by
any lexer whose clusters keep ASCII characters apart. -/
inductive LineState.Reachable : LineState → Prop
  | initial : Reachable .initial
  | line (lexer : Lexer) (parts : lexer.clusters.PartsAscii) (t : Text) {s : LineState}
      (h : Reachable s) : Reachable (lexer.tokenizeLine t s).state

/-- What holds of a state and the text left to read, and is preserved by every step, holds at
the end of the text. -/
theorem cut_preserves (Holds : LineState → Text → Prop) (lexer : Lexer)
    (step : ∀ assigned here t, t ≠ [] → Holds here t →
      Holds (Step.take lexer assigned here t).after (Step.take lexer assigned here t).rest)
    (assigned : Bool) {here : LineState} {t : Text} (h : Holds here t) :
    Holds (cut lexer assigned here t).2 [] := by
  induction assigned, here, t using cut_induction lexer with
  | nil assigned here =>
    rw [cut_nil]
    exact h
  | step assigned here t s nonempty taken covers ih =>
    rw [cut_eq nonempty, ← taken]
    apply ih
    rw [taken]
    exact step assigned here t nonempty h

theorem state_tokenizeLine (lexer : Lexer) (line : Text) (before : LineState) :
    (lexer.tokenizeLine line before).state =
      (cut lexer false before (Text.stripTerminator line)).2 := rfl

end StanHighlight

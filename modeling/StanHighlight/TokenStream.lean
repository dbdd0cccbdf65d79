import StanHighlight.Lexeme
import StanHighlight.Position

/-!
The stream of tokens of a whole text. Its lines are tokenized one after the other, each
in the state that the line before it ended in, and a line break stands for whatever
terminator a line had. The stream works one line ahead: the state that it shows is the
one that the current line ends in.
-/

namespace StanHighlight

inductive Token where
  | newline
  | lexeme (l : Lexeme) (position : Position)
  deriving DecidableEq, Repr

structure TokenStream where
  lexer : Lexer
  /-- Lexemes of the current line that have not been given out. -/
  pending : List Lexeme
  /-- The number of the current line. -/
  line : Nat
  /-- The state that the current line ends in. -/
  state : LineState
  /-- The lines after the current one. -/
  ahead : List Text

namespace TokenStream

/-- The stream once a line has become the current one. -/
def enterLine (lexer : Lexer) (number : Nat) (line : Text) (before : LineState)
    (ahead : List Text) : TokenStream :=
  let tokens := lexer.tokenizeLine (Text.stripTerminator line) before
  ⟨lexer, tokens.lexemes, number, tokens.state, ahead⟩

def next (s : TokenStream) : Option Token × TokenStream :=
  match s.pending with
  | l :: pending => (some (.lexeme l ⟨s.line, l.offset⟩), { s with pending })
  | [] =>
    match s.ahead with
    | line :: ahead => (some .newline, enterLine s.lexer (s.line + 1) line s.state ahead)
    | [] => (none, s)

/-- A token that is given out leaves fewer lines, or as many lines and fewer lexemes. -/
theorem next_shrinks {s s' : TokenStream} {token : Token} (h : s.next = (some token, s')) :
    Prod.Lex (· < ·) (· < ·) (s'.ahead.length, s'.pending.length)
      (s.ahead.length, s.pending.length) := by
  unfold next at h
  split at h
  · next pending =>
    cases h
    exact .right _ (by simp [pending])
  · split at h
    · next ahead =>
      cases h
      exact .left _ _ (by simp [ahead, enterLine])
    · cases h

/-- The tokens that are left, each with the stream after it, behind some given out before,
latest first. -/
def traceAfter (done : List (Token × TokenStream)) (s : TokenStream) :
    List (Token × TokenStream) :=
  match _given : s.next with
  | (none, _) => done.reverse
  | (some token, s') => traceAfter ((token, s') :: done) s'
termination_by (s.ahead.length, s.pending.length)
decreasing_by exact next_shrinks _given

def trace (s : TokenStream) : List (Token × TokenStream) := traceAfter [] s

theorem traceAfter_eq (done : List (Token × TokenStream)) (s : TokenStream) :
    traceAfter done s = done.reverse ++ trace s := by
  match given : s.next with
  | (none, _) =>
    rw [trace, traceAfter, traceAfter]
    split <;> simp_all
  | (some token, s') =>
    rw [trace, traceAfter, traceAfter]
    split
    · simp_all
    · next found =>
      obtain ⟨rfl, rfl⟩ : token = _ ∧ s' = _ := by simpa [given] using found
      rw [traceAfter_eq (_ :: done), traceAfter_eq [_]]
      simp
termination_by (s.ahead.length, s.pending.length)
decreasing_by all_goals exact next_shrinks given

theorem trace_of_next_none {s s' : TokenStream} (h : s.next = (none, s')) : trace s = [] := by
  rw [trace, traceAfter]
  split <;> simp_all

theorem trace_of_next_some {s s' : TokenStream} {token : Token} (h : s.next = (some token, s')) :
    trace s = (token, s') :: trace s' := by
  rw [trace, traceAfter]
  split
  · simp_all
  · next found =>
    obtain ⟨rfl, rfl⟩ : token = _ ∧ s' = _ := by simpa [h] using found
    rw [traceAfter_eq]
    rfl

def tokens (s : TokenStream) : List Token := s.trace.map Prod.fst

end TokenStream

end StanHighlight

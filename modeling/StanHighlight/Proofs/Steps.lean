import StanHighlight.Proofs.Join

/-!
The steps of a run. Cutting a text keeps the pieces of its steps and the state after the last one.
Where it matters what was open in between, the steps themselves are kept, one after the other over
all lines of a run.
-/

namespace StanHighlight

/-- The steps in which a text is cut. -/
def steps (lexer : Lexer) (assigned : Bool) (here : LineState) (t : Text) : List Step :=
  if nonempty : t ≠ [] then
    let s := Step.take lexer assigned here t
    have : s.rest.length < t.length := (Step.take_covers nonempty).rest_length_lt
    s :: steps lexer (s.assigns assigned) s.after s.rest
  else []
termination_by t.length

/-- Steps that have a property, each in the state after the one before it. -/
inductive StepRow (P : LineState → Step → Prop) : LineState → List Step → LineState → Prop
  | nil (here : LineState) : StepRow P here [] here
  | cons {here there : LineState} {s : Step} {ss : List Step} (first : P here s)
      (more : StepRow P s.after ss there) : StepRow P here (s :: ss) there

namespace StepRow

variable {P : LineState → Step → Prop} {here there last : LineState} {ss more : List Step}

theorem append (h : StepRow P here ss there) (h' : StepRow P there more last) :
    StepRow P here (ss ++ more) last := by
  induction h with
  | nil => exact h'
  | cons first _ ih => exact .cons first (ih h')

theorem of_append (h : StepRow P here (ss ++ more) last) :
    ∃ there, StepRow P here ss there ∧ StepRow P there more last := by
  induction ss generalizing here with
  | nil => exact ⟨here, .nil here, h⟩
  | cons s ss ih =>
    cases h with
    | cons first rest =>
      obtain ⟨there, front, back⟩ := ih rest
      exact ⟨there, .cons first front, back⟩

theorem exists_of_mem (h : StepRow P here ss there) {s : Step} (mem : s ∈ ss) :
    ∃ before, P before s := by
  induction h with
  | nil => cases mem
  | cons first _ ih =>
    rcases List.mem_cons.1 mem with rfl | later
    · exact ⟨_, first⟩
    · exact ih later

end StepRow

section Cut

variable {lexer : Lexer} {assigned : Bool} {here : LineState} {t : Text} {s : Step}

@[simp] theorem steps_nil : steps lexer assigned here [] = [] := by
  rw [steps]
  simp

theorem steps_eq (nonempty : t ≠ []) (taken : s = Step.take lexer assigned here t) :
    steps lexer assigned here t = s :: steps lexer (s.assigns assigned) s.after s.rest := by
  rw [steps, dif_pos nonempty, taken]

theorem flatMap_pieces_steps :
    (steps lexer assigned here t).flatMap Step.pieces = (cut lexer assigned here t).1 := by
  induction assigned, here, t using cut_induction lexer with
  | nil => simp
  | step assigned here t s nonempty taken covers ih =>
    rw [steps_eq nonempty taken, List.flatMap_cons, ih, cut_eq nonempty, ← taken]

/-- What holds of every step holds of the steps of a text, which lead to the state after it. -/
theorem stepRow_steps {P : LineState → Step → Prop}
    (each : ∀ assigned here t, t ≠ [] → P here (Step.take lexer assigned here t)) :
    StepRow P here (steps lexer assigned here t) (cut lexer assigned here t).2 := by
  induction assigned, here, t using cut_induction lexer with
  | nil assigned here =>
    rw [steps_nil, cut_nil]
    exact .nil here
  | step assigned here t s nonempty taken covers ih =>
    rw [steps_eq nonempty taken, cut_eq nonempty, ← taken]
    exact .cons (taken ▸ each assigned here t nonempty) ih

end Cut

namespace Lexer

variable (lexer : Lexer) (before : LineState)

/-- The steps of a run over lines, in which each line is read without its terminator. -/
def steps (before : LineState) : List Text → List Step
  | [] => []
  | line :: lines =>
    StanHighlight.steps lexer false before (Text.stripTerminator line) ++
      steps (lexer.tokenizeLine line before).state lines

/-- The labelled lexemes of a run are the labelled pieces of its steps. -/
theorem labelled_lexemes (lines : List Text) :
    ((lexer.lexemes before lines).map Lexeme.toPiece).filter (fun p => !p.isPlain) =
      ((lexer.steps before lines).flatMap Step.pieces).filter fun p => !p.isPlain := by
  induction lines generalizing before with
  | nil => rfl
  | cons line lines ih =>
    rw [lexemes_cons, List.map_append, List.filter_append, ih, toPiece_tokenizeLine,
      Piece.filter_joinPlain, Piece.filter_linePieces, steps, List.flatMap_append,
      List.filter_append, flatMap_pieces_steps]

theorem stepRow_steps {P : LineState → Step → Prop}
    (each : ∀ assigned here t, t ≠ [] → P here (Step.take lexer assigned here t))
    (lines : List Text) :
    StepRow P before (lexer.steps before lines) (lexer.stateAfter before lines) := by
  induction lines generalizing before with
  | nil => exact .nil before
  | cons line lines ih =>
    have first : StepRow P before (StanHighlight.steps lexer false before
        (Text.stripTerminator line)) (lexer.tokenizeLine line before).state :=
      StanHighlight.stepRow_steps each
    exact first.append (ih _)

end Lexer

end StanHighlight

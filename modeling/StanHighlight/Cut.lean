import StanHighlight.Lexer
import StanHighlight.Rule

/-!
Cutting a text into pieces. At each place the first rule that applies takes a step,
and where none does, one cluster is skipped as plain text. Every step makes the rest
of the text shorter, and the pieces put together are the text that was cut.
-/

namespace StanHighlight

namespace Step

/-- The step over text that no rule recognises. -/
def skip (clusters : Segmentation) (here : LineState) (t : Text) : Step :=
  ⟨[⟨clusters.cluster t, here, []⟩], here, t.drop (clusters.first t)⟩

def take (lexer : Lexer) (assigned : Bool) (here : LineState) (t : Text) : Step :=
  (here.innermost.rules.findSome? (Rule.step? lexer.config assigned here t)).getD
    (skip lexer.clusters here t)

theorem skip_covers {clusters : Segmentation} {here : LineState} {t : Text} (h : t ≠ []) :
    (skip clusters here t).Covers t := by
  refine ⟨by simp [skip, Segmentation.cluster], by simp [skip], ?_⟩
  simpa [skip] using clusters.cluster_ne_nil h

theorem take_covers {lexer : Lexer} {assigned : Bool} {here : LineState} {t : Text}
    (h : t ≠ []) : (take lexer assigned here t).Covers t := by
  unfold take
  cases found : here.innermost.rules.findSome? (Rule.step? lexer.config assigned here t) with
  | none => exact skip_covers h
  | some s =>
    obtain ⟨_, _, applies⟩ := List.exists_of_findSome?_eq_some found
    exact Rule.step?_covers applies

/-- Whether the latest token is an assignment operator once a step is taken. Plain text is
not a token, so it leaves the answer as it was. -/
def assigns (s : Step) (before : Bool) : Bool :=
  match s.pieces.getLast? with
  | none => before
  | some p => if p.isPlain then before else p.own.getLast? == some .assignmentOperator

end Step

/-- The pieces of a text and the state after it, with pieces cut before, latest first. -/
def cutAfter (lexer : Lexer) (done : List Piece) (assigned : Bool) (here : LineState)
    (t : Text) : List Piece × LineState :=
  if nonempty : t ≠ [] then
    let s := Step.take lexer assigned here t
    have : s.rest.length < t.length := (Step.take_covers nonempty).rest_length_lt
    cutAfter lexer (s.pieces.reverse ++ done) (s.assigns assigned) s.after s.rest
  else (done.reverse, here)
termination_by t.length

def cut (lexer : Lexer) (assigned : Bool) (here : LineState) (t : Text) :
    List Piece × LineState :=
  cutAfter lexer [] assigned here t

theorem cutAfter_eq (lexer : Lexer) (done : List Piece) (assigned : Bool) (here : LineState)
    (t : Text) : cutAfter lexer done assigned here t =
      (done.reverse ++ (cut lexer assigned here t).1, (cut lexer assigned here t).2) := by
  by_cases nonempty : t ≠ []
  · have : (Step.take lexer assigned here t).rest.length < t.length :=
      (Step.take_covers nonempty).rest_length_lt
    rw [cut, cutAfter, cutAfter, dif_pos nonempty, dif_pos nonempty]
    rw [cutAfter_eq lexer (_ ++ done), cutAfter_eq lexer (_ ++ [])]
    simp
  · rw [cut, cutAfter, cutAfter, dif_neg nonempty, dif_neg nonempty]
    simp
termination_by t.length

@[simp] theorem cut_nil (lexer : Lexer) (assigned : Bool) (here : LineState) :
    cut lexer assigned here [] = ([], here) := by
  rw [cut, cutAfter]
  simp

/-- A text is cut by one step and then like the rest that the step leaves. -/
theorem cut_eq {lexer : Lexer} {assigned : Bool} {here : LineState} {t : Text} (h : t ≠ []) :
    cut lexer assigned here t =
      let s := Step.take lexer assigned here t
      let more := cut lexer (s.assigns assigned) s.after s.rest
      (s.pieces ++ more.1, more.2) := by
  rw [cut, cutAfter, dif_pos h, cutAfter_eq]
  simp

/-- What holds at the end of a text, and before a step whenever it holds after it, holds of
every text. -/
@[elab_as_elim]
theorem cut_induction (lexer : Lexer) {motive : Bool → LineState → Text → Prop}
    (nil : ∀ assigned here, motive assigned here [])
    (step : ∀ assigned here t s, t ≠ [] → s = Step.take lexer assigned here t → s.Covers t →
      motive (s.assigns assigned) s.after s.rest → motive assigned here t)
    (assigned : Bool) (here : LineState) (t : Text) : motive assigned here t := by
  by_cases nonempty : t = []
  · exact nonempty ▸ nil assigned here
  · have covers : (Step.take lexer assigned here t).Covers t := Step.take_covers nonempty
    have := covers.rest_length_lt
    exact step assigned here t _ nonempty rfl covers (cut_induction lexer nil step _ _ _)
termination_by t.length

@[simp] theorem texts_cut (lexer : Lexer) (assigned : Bool) (here : LineState) (t : Text) :
    Piece.texts (cut lexer assigned here t).1 = t := by
  induction assigned, here, t using cut_induction lexer with
  | nil => simp
  | step assigned here t s nonempty taken covers ih =>
    rw [cut_eq nonempty, ← taken]
    simpa [ih] using covers.whole

end StanHighlight

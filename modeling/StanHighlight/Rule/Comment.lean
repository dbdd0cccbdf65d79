import StanHighlight.Step
import StanHighlight.Text.Word

/-!
Comments. A line comment runs to the end of the line. A block comment is a region,
so that it can span lines; inside it only its end and, in documentation, tags such as
`@param` are recognised.
-/

namespace StanHighlight.Rule

def remark (here : LineState) (delimiter : Text) (kind : Label) (body : Text) : Step :=
  ⟨⟨delimiter, here, [kind, .commentDelimiter]⟩ :: Piece.ofText body here [kind], here, []⟩

def lineComment? (here : LineState) : Text → Option Step
  | '/' :: '/' :: body => some (remark here ['/', '/'] .slashComment body)
  | '#' :: body => some (remark here ['#'] .hashComment body)
  | _ => none

/-- The beginning of a block comment. One that begins with two stars is documentation,
unless the second star already belongs to its end. -/
def blockCommentBegin? (here : LineState) : Text → Option Step
  | '/' :: '*' :: rest =>
    match rest with
    | '*' :: body =>
      if body.head? = some '/' then
        some (.single (here.enter (.blockComment false)) [.commentDelimiter] ['/', '*'] rest)
      else
        some (.single (here.enter (.blockComment true)) [.commentDelimiter] ['/', '*', '*'] body)
    | _ => some (.single (here.enter (.blockComment false)) [.commentDelimiter] ['/', '*'] rest)
  | _ => none

def blockCommentEnd? (here : LineState) : Text → Option Step
  | '*' :: '/' :: rest => some ⟨[⟨['*', '/'], here, [.commentDelimiter]⟩], here.leave, rest⟩
  | _ => none

/-- A tag inside documentation: `@` and the word after it. -/
def documentationTag? (here : LineState) : Text → Option Step
  | '@' :: rest =>
    if here.innermost = .blockComment true ∧ Text.word rest ≠ [] then
      some (.single here [.documentationTag] ('@' :: Text.word rest) (Text.afterWord rest))
    else none
  | _ => none

variable {here : LineState} {t : Text} {s : Step}

theorem remark_covers {delimiter : Text} {kind : Label} {body : Text} (h : delimiter ≠ []) :
    (remark here delimiter kind body).Covers (delimiter ++ body) := by
  refine ⟨by simp [remark], by simp [remark], fun p hp => ?_⟩
  rcases List.mem_cons.1 hp with rfl | hp
  · exact h
  · exact Piece.text_ne_nil_of_mem_ofText hp

theorem lineComment?_covers (h : lineComment? here t = some s) : s.Covers t := by
  unfold lineComment? at h
  split at h
  · obtain rfl := Option.some.inj h
    exact remark_covers (List.cons_ne_nil _ _)
  · obtain rfl := Option.some.inj h
    exact remark_covers (List.cons_ne_nil _ _)
  · cases h

theorem blockCommentBegin?_covers (h : blockCommentBegin? here t = some s) : s.Covers t := by
  unfold blockCommentBegin? at h
  split at h
  · split at h
    · split at h <;> obtain rfl := Option.some.inj h <;>
        exact Step.single_covers (List.cons_ne_nil _ _) rfl
    · obtain rfl := Option.some.inj h
      exact Step.single_covers (List.cons_ne_nil _ _) rfl
  · cases h

theorem blockCommentEnd?_covers (h : blockCommentEnd? here t = some s) : s.Covers t := by
  unfold blockCommentEnd? at h
  split at h
  · obtain rfl := Option.some.inj h
    exact ⟨rfl, by simp, by simp⟩
  · cases h

theorem documentationTag?_covers (h : documentationTag? here t = some s) : s.Covers t := by
  unfold documentationTag? at h
  split at h
  · next rest =>
    split at h
    · obtain rfl := Option.some.inj h
      exact Step.single_covers (List.cons_ne_nil _ _) (by simp)
    · cases h
  · cases h

end StanHighlight.Rule

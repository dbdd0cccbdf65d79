import StanHighlight.Config
import StanHighlight.Step
import StanHighlight.Text.Numeral

/-!
String and number literals. A string ends at the next quote or, without one, at the
end of the line; nothing escapes a quote. Inside a string each illegal character is a
piece of its own and the characters between them are kept together. Digits that run
into letters make one malformed name.
-/

namespace StanHighlight.Rule

/-- Puts one more character in front of a string body that is already cut into runs. -/
def addToRuns (config : Config) (c : Char) : List Text → List Text
  | (d :: run) :: runs =>
    if config.isIllegal c || config.isIllegal d then [c] :: (d :: run) :: runs
    else (c :: d :: run) :: runs
  | runs => [c] :: runs

/-- The body of a string cut before and after each illegal character. -/
def stringRuns (config : Config) (body : Text) : List Text := body.foldr (addToRuns config) []

def runLabels (config : Config) (run : Text) : List Label :=
  if run.any config.isIllegal then [.string, .illegalCharacter] else [.string]

def bodyPieces (config : Config) (here : LineState) (body : Text) : List Piece :=
  (stringRuns config body).map fun run => ⟨run, here, runLabels config run⟩

def string? (config : Config) (here : LineState) : Text → Option Step
  | '"' :: t =>
    let front := ⟨['"'], here, [.string, .begins .string]⟩ ::
      bodyPieces config here (t.takeWhile (· != '"'))
    match t.dropWhile (· != '"') with
    | [] => some ⟨front, here, []⟩
    | quote :: rest => some ⟨front ++ [⟨[quote], here, [.string, .ends .string]⟩], here, rest⟩
  | _ => none

/-- A number, or a malformed name that begins with one. -/
def number? (here : LineState) (t : Text) : Option Step :=
  match Text.numeral? t with
  | none => none
  | some (kind, taken, rest) =>
    if Text.word rest = [] then
      some (.single here [if kind = .real then .real else .integer] taken rest)
    else some (.single here [.malformed] (taken ++ Text.word rest) (Text.afterWord rest))

theorem addToRuns_flatten (config : Config) (c : Char) (runs : List Text) :
    (addToRuns config c runs).flatten = c :: runs.flatten := by
  unfold addToRuns
  split
  · split <;> rfl
  · rfl

theorem addToRuns_ne_nil {config : Config} {c : Char} {runs : List Text}
    (h : ∀ run ∈ runs, run ≠ []) : ∀ run ∈ addToRuns config c runs, run ≠ [] := by
  unfold addToRuns
  split
  · split <;> simp_all
  · simpa using h

@[simp] theorem stringRuns_flatten (config : Config) (body : Text) :
    (stringRuns config body).flatten = body := by
  induction body with
  | nil => rfl
  | cons c body ih =>
    rw [stringRuns, List.foldr_cons, addToRuns_flatten]
    exact congrArg _ ih

theorem stringRuns_ne_nil (config : Config) (body : Text) :
    ∀ run ∈ stringRuns config body, run ≠ [] := by
  induction body with
  | nil => simp [stringRuns]
  | cons c body ih => exact addToRuns_ne_nil ih

@[simp] theorem texts_bodyPieces (config : Config) (here : LineState) (body : Text) :
    Piece.texts (bodyPieces config here body) = body := by
  rw [Piece.texts, bodyPieces, List.flatMap_map]
  exact List.flatMap_id'.trans (stringRuns_flatten config body)

theorem text_ne_nil_of_mem_bodyPieces {config : Config} {here : LineState} {body : Text}
    {p : Piece} (h : p ∈ bodyPieces config here body) : p.text ≠ [] := by
  obtain ⟨run, mem, rfl⟩ := List.mem_map.1 h
  exact stringRuns_ne_nil config body run mem

variable {here : LineState} {t : Text} {s : Step}

theorem string?_covers {config : Config} (h : string? config here t = some s) : s.Covers t := by
  unfold string? at h
  split at h
  · next t =>
    have whole := t.takeWhile_append_dropWhile (p := (· != '"'))
    split at h
    · next none =>
      obtain rfl := Option.some.inj h
      refine ⟨by simpa [none] using whole, by simp, fun p hp => ?_⟩
      rcases List.mem_cons.1 hp with rfl | hp
      · simp
      · exact text_ne_nil_of_mem_bodyPieces hp
    · next quote rest found =>
      obtain rfl := Option.some.inj h
      refine ⟨by simpa [found] using whole, by simp, fun p hp => ?_⟩
      simp only [List.mem_cons, List.mem_append, List.not_mem_nil, or_false] at hp
      rcases hp with (rfl | hp) | rfl
      · simp
      · exact text_ne_nil_of_mem_bodyPieces hp
      · simp
  · cases h

theorem number?_covers (h : number? here t = some s) : s.Covers t := by
  unfold number? at h
  split at h
  · cases h
  · next kind taken rest found =>
    have visible := Text.numeral?_ne_nil found
    split at h
    · obtain rfl := Option.some.inj h
      exact Step.single_covers visible (Text.numeral?_append found)
    · obtain rfl := Option.some.inj h
      exact Step.single_covers (by simp [visible]) (by simp [Text.numeral?_append found])

end StanHighlight.Rule

import StanHighlight.Step
import StanHighlight.Text.Space
import StanHighlight.Text.Word
import StanHighlight.Vocabulary.Keyword

/-!
Declarations. A statement that begins with a type declares a variable, unless what
follows the type is a name and a parenthesis, which declare a function. Between the
type and the name of a variable there may be constraints in angle brackets, and after
the name an initializer.
-/

namespace StanHighlight.Rule

/-- Whether a character may stand between the brackets of dimensions that are left open. -/
def isOpenDimension (c : Char) : Bool := Text.isSpace c || c == ','

/-- Brackets around nothing but blanks and commas, with the blanks in front of them, and the
text after them. -/
def openDimensions? (t : Text) : Option (Text × Text) :=
  match Text.trimStart t with
  | '[' :: inside =>
    match inside.dropWhile isOpenDimension with
    | ']' :: rest =>
      some (Text.gap t ++ '[' :: (inside.takeWhile isOpenDimension ++ [']']), rest)
    | _ => none
  | _ => none

def arrayWord : Text := "array".toList

/-- The word `array` with its dimensions and the blanks after them, which are empty if a
text does not start so, and the text after them. -/
def arrayOf (t : Text) : Text × Text :=
  match (t.after? arrayWord).bind openDimensions? with
  | some (dimensions, rest) => (arrayWord ++ dimensions ++ Text.gap rest, Text.trimStart rest)
  | none => ([], t)

def dimensions (t : Text) : Text × Text := (openDimensions? t).getD ([], t)

def returnType? (t : Text) : Option (Text × Text) :=
  let element := (arrayOf t).2
  if Vocabulary.returnTypes.contains (String.ofList (Text.word element)) then
    let suffix := dimensions (Text.afterWord element)
    some ((arrayOf t).1 ++ Text.word element ++ suffix.1, suffix.2)
  else none

/-- Whether a text starts with blanks, a name and an opening parenthesis, which may have
blanks in front of it. -/
def startsSignature (t : Text) : Bool :=
  let name := Text.trimStart t
  !(Text.gap t).isEmpty && name.head?.any Char.isAlpha &&
    (Text.trimStart (Text.afterWord name)).head? == some '('

/-- The return type of a declared function. -/
def functionDeclaration? (here : LineState) (t : Text) : Option Step :=
  match returnType? t with
  | none => none
  | some (type, rest) =>
    if startsSignature rest then
      some (.single (here.enter (.functionDeclaration false false)) [.returnType] type rest)
    else none

def variableDeclaration? (here : LineState) (t : Text) : Option Step :=
  if Vocabulary.isStorageType (String.ofList (Text.word t)) then
    some (.single (here.enter (.declaration false)) [.declaredType] (Text.word t)
      (Text.afterWord t))
  else none

/-- The bracket that begins the constraints of a variable whose name is still to come. -/
def constraintsBegin? (here : LineState) : Text → Option Step
  | '<' :: rest =>
    if here.innermost = .declaration false ∧ rest.head? ≠ some '=' ∧ rest.head? ≠ some '-' then
      some (.single (here.enter .constraints) [.begins .constraints] ['<'] rest)
    else none
  | _ => none

/-- The text after an equals sign that is not doubled. -/
def afterEquals? : Text → Option Text
  | '=' :: rest => if rest.head? = some '=' then none else some rest
  | _ => none

def initializer? (here : LineState) (t : Text) : Option Step :=
  (afterEquals? t).map fun rest => .single (here.enter .initializer) [.initializerSign] ['='] rest

/-- The equals sign between a range keyword and its bound. -/
def constraintEquals? (here : LineState) (t : Text) : Option Step :=
  (afterEquals? t).map fun rest => .single here [.equals] ['='] rest

def constraintsEnd? (here : LineState) : Text → Option Step
  | '>' :: rest =>
    if rest.head? = some '=' then none
    else some ⟨[⟨['>'], here, [.ends .constraints]⟩], here.leave, rest⟩
  | _ => none

theorem openDimensions?_append {t taken rest : Text} (h : openDimensions? t = some (taken, rest)) :
    taken ++ rest = t := by
  unfold openDimensions? at h
  split at h
  · next inside opened =>
    have blanks : Text.gap t ++ '[' :: inside = t := opened ▸ Text.gap_append_trimStart t
    have whole := inside.takeWhile_append_dropWhile (p := isOpenDimension)
    split at h
    · next closed =>
      cases h
      refine Eq.trans ?_ blanks
      simpa [closed] using whole
    · cases h
  · cases h

@[simp] theorem arrayOf_append (t : Text) : (arrayOf t).1 ++ (arrayOf t).2 = t := by
  unfold arrayOf
  split
  · next sizes rest found =>
    obtain ⟨after, word, found⟩ := Option.bind_eq_some_iff.1 found
    rw [Text.after?_eq_some_iff.1 word, ← openDimensions?_append found]
    simp
  · rfl

@[simp] theorem dimensions_append (t : Text) : (dimensions t).1 ++ (dimensions t).2 = t := by
  unfold dimensions
  cases found : openDimensions? t with
  | none => rfl
  | some split => exact openDimensions?_append found

theorem returnType?_append {t type rest : Text} (h : returnType? t = some (type, rest)) :
    type ++ rest = t := by
  simp only [returnType?] at h
  split at h
  · cases h
    simp
  · cases h

theorem returnType?_ne_nil {t type rest : Text} (h : returnType? t = some (type, rest)) :
    type ≠ [] := by
  simp only [returnType?] at h
  split at h
  · next known =>
    cases h
    intro none
    simp only [List.append_eq_nil_iff] at none
    rw [none.1.2] at known
    exact absurd known (by decide)
  · cases h

variable {here : LineState} {t : Text} {s : Step}

theorem functionDeclaration?_covers (h : functionDeclaration? here t = some s) : s.Covers t := by
  unfold functionDeclaration? at h
  split at h
  · cases h
  · next found =>
    split at h
    · obtain rfl := Option.some.inj h
      exact Step.single_covers (returnType?_ne_nil found) (returnType?_append found)
    · cases h

theorem variableDeclaration?_covers (h : variableDeclaration? here t = some s) : s.Covers t := by
  unfold variableDeclaration? at h
  split at h
  · next known =>
    obtain rfl := Option.some.inj h
    have visible : Text.word t ≠ [] := fun none => by
      rw [none] at known
      exact absurd known (by decide)
    exact Step.single_covers visible (Text.word_append_afterWord t)
  · cases h

theorem constraintsBegin?_covers (h : constraintsBegin? here t = some s) : s.Covers t := by
  unfold constraintsBegin? at h
  split at h
  · split at h
    · obtain rfl := Option.some.inj h
      exact Step.single_covers (List.cons_ne_nil _ _) rfl
    · cases h
  · cases h

theorem afterEquals?_eq_some {rest : Text} (h : afterEquals? t = some rest) : t = '=' :: rest := by
  unfold afterEquals? at h
  split at h
  · split at h
    · cases h
    · cases h
      rfl
  · cases h

theorem initializer?_covers (h : initializer? here t = some s) : s.Covers t := by
  obtain ⟨rest, found, rfl⟩ := Option.map_eq_some_iff.1 h
  rw [afterEquals?_eq_some found]
  exact Step.single_covers (List.cons_ne_nil _ _) rfl

theorem constraintEquals?_covers (h : constraintEquals? here t = some s) : s.Covers t := by
  obtain ⟨rest, found, rfl⟩ := Option.map_eq_some_iff.1 h
  rw [afterEquals?_eq_some found]
  exact Step.single_covers (List.cons_ne_nil _ _) rfl

theorem constraintsEnd?_covers (h : constraintsEnd? here t = some s) : s.Covers t := by
  unfold constraintsEnd? at h
  split at h
  · split at h
    · cases h
    · obtain rfl := Option.some.inj h
      exact ⟨rfl, by simp, by simp⟩
  · cases h

end StanHighlight.Rule

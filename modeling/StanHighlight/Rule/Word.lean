import StanHighlight.Rule.Declaration
import StanHighlight.Vocabulary.Function

/-!
Words. A malformed or reserved word is flagged wherever it stands. Any other word may
fill the place that the innermost region keeps for a name; failing that it is a keyword
if it is spelled like one, and otherwise an identifier. Only a name whose parenthesis
follows at once is called, while keywords and distributions allow blanks in between.
-/

namespace StanHighlight.Rule

open Vocabulary

/-- Whether a word is not allowed as a name because of its underscores. -/
def isMalformed (w : Text) : Bool := w.head? == some '_' || ['_', '_'].isSuffixOf w

def parenAfterGap? (t : Text) : Option (Text × Text) :=
  match Text.trimStart t with
  | '(' :: rest => some (Text.gap t, rest)
  | _ => none

/-- A head that opens a region in parentheses if these follow it, perhaps after blanks. -/
def heads (head : Piece) (inside : LineState) (e : Enclosure) (after : Text) : Step :=
  match parenAfterGap? after with
  | some (gap, rest) => .opening head gap '(' inside e rest
  | none => ⟨[head], head.around, after⟩

/-- A word in the place that the innermost region keeps for a name. -/
def nameSlot? (here : LineState) (w after : Text) : Option Step :=
  let word := String.ofList w
  match here.innermost with
  | .declaration false =>
    if isStorageType word then some (.single here [.declaredType] w after)
    else if isKeyword word then none
    else some (.single (here.become (.declaration true)) [.declaredVariable] w after)
  | .functionDeclaration false false =>
    if isKeyword word then none
    else some (.single (here.become (.functionDeclaration true false)) [.declaredFunction] w after)
  | .functionDeclaration _ true =>
    if word = "data" then some (.single here [.dataModifier] w after)
    else if isStorageType word then
      let sizes := dimensions after
      some (.single here [.parameterType] (w ++ sizes.1) sizes.2)
    else if isKeyword word then none
    else some (.single here [.parameter] w after)
  | .control .forLoop true false =>
    if isKeyword word then none
    else some (.single (here.become (.control .forLoop true true)) [.loopVariable] w after)
  | .constraints =>
    if isRangeKeyword word ∧ (afterEquals? (Text.trimStart after)).isSome then
      some (.single here [.rangeKeyword] w after)
    else none
  | .sampling false =>
    if isKeyword word then none else
    let here := here.become (.sampling true)
    let name := if isDistribution word then .knownDistribution else .distributionName
    some (heads ⟨w, here, [.distributionCall, name]⟩ (here.enter (.call .distribution)) .arguments
      after)
  | _ => none

/-- The state in which the place of a distribution's name counts as filled. -/
def passDistribution (here : LineState) : LineState :=
  match here.innermost with
  | .sampling false => here.become (.sampling true)
  | _ => here

/-- A keyword. A control statement opens only in front of its header. -/
def keyword? (here : LineState) (w after : Text) : Option Step :=
  let word := String.ofList w
  match Control.ofKeyword? word with
  | some kind =>
    let around := if (parenAfterGap? after).isSome then here.enter (.control kind false false)
      else here
    some (.single around [.controlKeyword] w after)
  | none =>
    if isControlKeyword word then some (.single here [.controlKeyword] w after) else
    match word with
    | "T" =>
      match after with
      | '[' :: rest =>
        some (.opening ⟨w, here, [.truncation]⟩ [] '[' (here.enter .truncation) .truncation rest)
      | _ => none
    | "return" => some (.single here [.returnKeyword] w after)
    | "print" =>
      some (heads ⟨w, here, [.printKeyword]⟩ (here.enter .printArguments) .printArguments after)
    | "reject" =>
      some (heads ⟨w, here, [.rejectKeyword]⟩ (here.enter .printArguments) .printArguments after)
    | "target" => some (.single here [.target] w after)
    | "void" => some (.single here [.storageType] w after)
    | _ => if isStorageType word then some (.single here [.storageType] w after) else none

/-- The label of the name in front of an argument list. Densities are known as such only in
what is added to the target. -/
def calledName (here : LineState) (word : String) : Label :=
  match builtin? word with
  | some family => .builtin family
  | none => if here.within .accumulation && isDensity word then .knownDistribution
    else .functionName

/-- A name that has no other meaning: called if a parenthesis follows at once. -/
def identifier (here : LineState) (w after : Text) : Step :=
  let word := String.ofList w
  match after with
  | '(' :: rest =>
    .opening ⟨w, here, [.functionCall, calledName here word]⟩ [] '(' (here.enter (.call .function))
      .arguments rest
  | _ => .single here [(builtin? word).elim .identifier .builtin] w after

def wordStep (here : LineState) (w after : Text) : Step :=
  if isMalformed w then .single here [.malformed] w after
  else if isReserved (String.ofList w) then .single here [.reserved] w after
  else match nameSlot? here w after with
    | some s => s
    | none => (keyword? (passDistribution here) w after).getD
        (identifier (passDistribution here) w after)

def word? (here : LineState) (t : Text) : Option Step :=
  if t.head?.any Text.startsWord then some (wordStep here (Text.word t) (Text.afterWord t))
  else none

theorem parenAfterGap?_append {t gap rest : Text} (h : parenAfterGap? t = some (gap, rest)) :
    gap ++ '(' :: rest = t := by
  unfold parenAfterGap? at h
  split at h
  · next opened =>
    cases h
    exact opened ▸ Text.gap_append_trimStart t
  · cases h

variable {here : LineState} {w after : Text} {s : Step}

theorem heads_covers {head : Piece} {inside : LineState} {e : Enclosure} (h : head.text ≠ []) :
    (heads head inside e after).Covers (head.text ++ after) := by
  unfold heads
  split
  · next found =>
    exact Step.opening_covers h (by simp [parenAfterGap?_append found])
  · exact ⟨by simp, by simp, by simpa using h⟩

theorem nameSlot?_covers (visible : w ≠ []) (h : nameSlot? here w after = some s) :
    s.Covers (w ++ after) := by
  simp only [nameSlot?] at h
  repeat' split at h
  all_goals first
    | cases h; done
    | obtain rfl := Option.some.inj h; exact Step.single_covers visible rfl
    | obtain rfl := Option.some.inj h; exact heads_covers visible
    | skip
  obtain rfl := Option.some.inj h
  exact Step.single_covers (by simp [visible]) (by simp)

theorem keyword?_covers (visible : w ≠ []) (h : keyword? here w after = some s) :
    s.Covers (w ++ after) := by
  simp only [keyword?] at h
  split at h
  · obtain rfl := Option.some.inj h
    exact Step.single_covers visible rfl
  · repeat' split at h
    all_goals first
      | cases h; done
      | obtain rfl := Option.some.inj h; exact Step.single_covers visible rfl
      | obtain rfl := Option.some.inj h; exact heads_covers visible
      | skip
    obtain rfl := Option.some.inj h
    exact Step.opening_covers visible (by simp)

theorem identifier_covers (visible : w ≠ []) : (identifier here w after).Covers (w ++ after) := by
  unfold identifier
  split
  · exact Step.opening_covers visible (by simp)
  · exact Step.single_covers visible rfl

theorem wordStep_covers (visible : w ≠ []) : (wordStep here w after).Covers (w ++ after) := by
  unfold wordStep
  split
  · exact Step.single_covers visible rfl
  · split
    · exact Step.single_covers visible rfl
    · split
      · next found => exact nameSlot?_covers visible found
      · cases found : keyword? (passDistribution here) w after with
        | none => exact identifier_covers visible
        | some s => exact keyword?_covers visible found

theorem word?_covers {t : Text} (h : word? here t = some s) : s.Covers t := by
  unfold word? at h
  split at h
  · next starts =>
    obtain rfl := Option.some.inj h
    have visible : Text.word t ≠ [] := by
      cases t with
      | nil => cases starts
      | cons c t => simp [Text.word, Text.isWordChar_of_startsWord (by simpa using starts)]
    have covers : (wordStep here _ _).Covers (_ ++ Text.afterWord t) := wordStep_covers visible
    rwa [Text.word_append_afterWord] at covers
  · cases h

end StanHighlight.Rule

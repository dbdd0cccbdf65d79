import StanHighlight.Proofs.WholeWords

/-!
Labels that say more than they show. Which functions the language provides and which words it
keeps from use is looked up, and only words are; operators are spelled without any. And a keyword
that steers which statement runs next is a step of its own.
-/

namespace StanHighlight

/-- What a label says about the words of its token, and about the step that cuts it. A word is
looked up, an operator has no words, and a control keyword is read alone. -/
@[simp] def Label.Suits (s : Step) (p : Piece) : Label → Prop
  | .reserved => ∃ w, Text.runs p.text = [w] ∧ Vocabulary.isReserved (String.ofList w) = true
  | .builtin family =>
    ∃ w, Text.runs p.text = [w] ∧ Vocabulary.builtin? (String.ofList w) = some family
  | .samplingOperator | .logicalOperator | .arithmeticOperator | .ternaryOperator
  | .colonOperator | .assignmentOperator | .deprecatedAssignment | .initializerSign =>
    Text.runs p.text = []
  | .controlKeyword => s = .single p.around [.controlKeyword] p.text s.rest
  | _ => True

def Piece.Suited (s : Step) (p : Piece) : Prop := ∀ l ∈ p.own, l.Suits s p

def Step.Suited (s : Step) : Prop := ∀ p ∈ s.pieces, p.Suited s

theorem Piece.suited_ofText {s : Step} {t : Text} {around : LineState} {own : List Label}
    (suits : ∀ l ∈ own, l.Suits s ⟨t, around, own⟩) :
    ∀ p ∈ Piece.ofText t around own, p.Suited s := by
  intro p mem
  unfold Piece.ofText at mem
  split at mem
  · cases mem
  · rw [List.mem_singleton.1 mem]
    exact suits

namespace Rule

variable {config : Config} {assigned : Bool} {here : LineState} {t w after rest : Text} {s : Step}

theorem suited_one {text : Text} {around there : LineState} {l : Label}
    (suits : l.Suits ⟨[⟨text, around, [l]⟩], there, rest⟩ ⟨text, around, [l]⟩) :
    Step.Suited ⟨[⟨text, around, [l]⟩], there, rest⟩ :=
  List.forall_mem_singleton.2 (List.forall_mem_singleton.2 suits)

/-- A head and the bracket behind it are suited if the head is. -/
theorem suited_opening {head : Piece} {gap : Text} {bracket : Char} {inside : LineState}
    {e : Enclosure} (first : ∀ s, head.Suited s) :
    (Step.opening head gap bracket inside e rest).Suited :=
  List.forall_mem_cons.2 ⟨first _, List.forall_mem_append.2 ⟨Piece.suited_ofText nofun,
    List.forall_mem_singleton.2 (List.forall_mem_singleton.2 trivial)⟩⟩

theorem suited_heads {head : Piece} {inside : LineState} {e : Enclosure}
    (first : ∀ s, head.Suited s) : (heads head inside e after).Suited := by
  unfold heads
  split
  · exact suited_opening first
  · exact List.forall_mem_singleton.2 (first _)

theorem suited_nameSlot (found : nameSlot? here w after = some s) : s.Suited := by
  simp only [nameSlot?] at found
  repeat' split at found
  all_goals cases found
  all_goals first
    | exact suited_one trivial
    | exact suited_heads (by simp [Piece.Suited])

theorem suited_keyword (found : keyword? here w after = some s) : s.Suited := by
  simp only [keyword?] at found
  split at found
  · cases found
    exact suited_one rfl
  · repeat' split at found
    all_goals cases found
    all_goals first
      | exact suited_one trivial
      | exact suited_one rfl
      | exact suited_heads (by simp [Piece.Suited])
      | exact suited_opening (by simp [Piece.Suited])

/-- A name is labelled as a function of the language if the language provides it. -/
theorem suited_identifier (one : Text.runs w = [w]) : (identifier here w after).Suited := by
  unfold identifier
  split
  · refine suited_opening fun s =>
      List.forall_mem_cons.2 ⟨trivial, List.forall_mem_singleton.2 ?_⟩
    unfold calledName
    split
    · next family known => exact ⟨w, one, known⟩
    · split <;> trivial
  · refine suited_one ?_
    cases known : Vocabulary.builtin? (String.ofList w) with
    | none => trivial
    | some family => exact ⟨w, one, known⟩

theorem suited_wordStep (one : Text.runs w = [w]) : (wordStep here w after).Suited := by
  unfold wordStep
  split
  · exact suited_one trivial
  · split
    · next listed => exact suited_one ⟨w, one, listed⟩
    · split
      · next found => exact suited_nameSlot found
      · cases found : keyword? (passDistribution here) w after with
        | none => exact suited_identifier one
        | some s => exact suited_keyword found

theorem suited_inclusion (found : include? here t = some s) : s.Suited := by
  have delimited : ∀ (start close : Char) (style : FileName) (t : Text),
      ∀ p ∈ (delimitedName here start close style t).1, p.Suited s := by
    intro start close style t
    have front : ∀ p ∈ (⟨[start], here, [.inclusion, .fileName style, .begins .string]⟩ : Piece) ::
        Piece.ofText (t.takeWhile (· != close)) here [.inclusion, .fileName style], p.Suited s :=
      List.forall_mem_cons.2 ⟨by simp [Piece.Suited], Piece.suited_ofText (by simp)⟩
    unfold delimitedName
    split
    · exact front
    · exact List.forall_mem_append.2
        ⟨front, List.forall_mem_singleton.2 (by simp [Piece.Suited])⟩
  have name : ∀ t, ∀ p ∈ (fileName here t).1, p.Suited s := by
    intro t
    unfold fileName
    split
    · exact nofun
    · exact delimited _ _ _ _
    · exact delimited _ _ _ _
    · exact delimited _ _ _ _
    · exact Piece.suited_ofText (by simp)
  unfold include? at found
  split at found
  · cases found
  · split at found <;> cases found
    refine List.forall_mem_cons.2 ⟨by simp [Piece.Suited], List.forall_mem_append.2 ⟨?_, name _⟩⟩
    exact Piece.suited_ofText (by simp)

theorem suited_lineComment (found : lineComment? here t = some s) : s.Suited := by
  unfold lineComment? at found
  split at found <;> cases found <;>
    exact List.forall_mem_cons.2 ⟨by simp [Piece.Suited], Piece.suited_ofText (by simp)⟩

theorem suited_string (found : string? config here t = some s) : s.Suited := by
  have body : ∀ t, ∀ p ∈ bodyPieces config here t, p.Suited s := by
    intro t p mem
    obtain ⟨run, _, rfl⟩ := List.mem_map.1 mem
    simp only [Piece.Suited, runLabels]
    split <;> simp
  have front : ∀ t, ∀ p ∈ (⟨['"'], here, [.string, .begins .string]⟩ : Piece) ::
      bodyPieces config here t, p.Suited s := fun t =>
    List.forall_mem_cons.2 ⟨by simp [Piece.Suited], body t⟩
  unfold string? at found
  split at found
  · split at found <;> cases found
    · exact front _
    · exact List.forall_mem_append.2
        ⟨front _, List.forall_mem_singleton.2 (by simp [Piece.Suited])⟩
  · cases found

theorem suited_operator (found : operator? here t = some s) : s.Suited := by
  unfold operator? at found
  split at found
  · cases found
    exact suited_one (by trivial)
  · split at found <;> cases found <;> exact suited_one (by trivial)
  · obtain ⟨entry, mem, spelled⟩ := List.exists_of_findSome?_eq_some found
    obtain ⟨rest, _, rfl⟩ := Option.map_eq_some_iff.1 spelled
    have signs : ∀ e ∈ operators, e.1.any Text.isWordChar = false ∧
        e.2 ∈ [Label.assignmentOperator, .arithmeticOperator, .deprecatedAssignment,
          .logicalOperator] := by
      decide
    obtain ⟨other, label⟩ := signs entry mem
    have none : Text.runs entry.1 = [] := Text.runs_eq_nil (by simpa using other)
    refine suited_one ?_
    simp only [List.mem_cons, List.not_mem_nil, or_false] at label
    rcases label with label | label | label | label <;> rw [label] <;> exact none

/-- The tokens that any rule cuts suit their labels. -/
theorem suited_step? {rule : Rule} (found : step? config assigned here t rule = some s) :
    s.Suited := by
  cases rule with
  | word =>
    simp only [step?, word?] at found
    split at found <;> cases found
    next starts =>
    refine suited_wordStep (Text.runs_of_word ?_ List.all_takeWhile)
    cases t with
    | nil => cases starts
    | cons c t => simp [Text.word, Text.isWordChar_of_startsWord (by simpa using starts)]
  | inclusion => exact suited_inclusion found
  | lineComment => exact suited_lineComment found
  | string => exact suited_string found
  | operator => exact suited_operator found
  | sectionHeader =>
    simp only [step?, sectionHeader?] at found
    repeat' split at found
    all_goals cases found
    exact suited_opening (by simp [Piece.Suited])
  | initializer =>
    obtain ⟨rest, _, rfl⟩ := Option.map_eq_some_iff.1 found
    exact suited_one (by trivial)
  | sampling =>
    simp only [step?, sampling?] at found
    split at found <;> cases found
    exact suited_one (by trivial)
  | _ =>
    obtain ⟨w, around, l, pieces, suits⟩ := exists_sole (fun l => ∀ p, l.Suits s p) found
      (by decide) (by simp [soleLabels]) (by simp)
    exact fun p mem => by
      obtain rfl := List.mem_singleton.1 (pieces ▸ mem)
      exact List.forall_mem_singleton.2 (suits _)

end Rule

/-- The tokens of every step suit their labels. -/
theorem suited_take {lexer : Lexer} {assigned : Bool} {here : LineState} {t : Text} :
    (Step.take lexer assigned here t).Suited := by
  obtain ⟨s, taken⟩ : ∃ s, s = Step.take lexer assigned here t := ⟨_, rfl⟩
  rw [← taken]
  rcases Step.take_cases taken with ⟨rule, found⟩ | ⟨_, skip⟩
  · exact Rule.suited_step? found
  · rw [skip]
    exact List.forall_mem_singleton.2 nofun

section Lines

variable {lexer : Lexer} {assigned : Bool} {here s : LineState} {t line : Text}

theorem suited_of_mem_cut {p : Piece} (mem : p ∈ (cut lexer assigned here t).1) :
    ∃ s, p.Suited s := by
  rcases exists_step_of_mem_cut mem with ⟨rule, _, _, _, s, found, inside⟩ | plain
  · exact ⟨s, Rule.suited_step? found p inside⟩
  · exact ⟨⟨[], here, []⟩, by simp [Piece.Suited, plain]⟩

end Lines

end StanHighlight

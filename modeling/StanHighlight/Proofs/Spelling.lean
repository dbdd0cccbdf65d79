import StanHighlight.Proofs.WordRuns

/-!
Words of the language. Some labels stand only on tokens that are spelled with certain words: those
of keywords, types, headers and modifiers, and the tags of documentation. Besides these words such
a token holds at most blanks and signs.
-/

namespace StanHighlight

/-- The words that a token with a label is spelled with, where the language fixes them. -/
def Label.spellings? : Label → Option (List (List String))
  | controlKeyword => some (Vocabulary.controlKeywords.map fun w => [w])
  | returnKeyword => some [["return"]]
  | printKeyword => some [["print"]]
  | rejectKeyword => some [["reject"]]
  | truncation => some [["T"]]
  | target => some [["target"]]
  | storageType => some (("void" :: Vocabulary.storageTypes).map fun w => [w])
  | declaredType | parameterType => some (Vocabulary.storageTypes.map fun w => [w])
  | returnType => some (Vocabulary.returnTypes.map (fun w => [w]) ++
      Vocabulary.returnTypes.map fun w => ["array", w])
  | dataModifier => some [["data"]]
  | rangeKeyword => some (Vocabulary.rangeKeywords.map fun w => [w])
  | sectionName sec => some [sec.words]
  | includeDirective => some [["include"]]
  | _ => none

def Label.isWorded (l : Label) : Bool := l.spellings?.isSome || l == .documentationTag

/-- A piece whose text has the runs of word characters that its labels ask for. -/
structure Piece.Spelled (p : Piece) : Prop where
  words : ∀ l ∈ p.own, ∀ vs, l.spellings? = some vs →
    ∃ ws ∈ vs, Text.runs p.text = ws.map String.toList
  tag : .documentationTag ∈ p.own → ∃ w, p.text = '@' :: w ∧ Text.runs p.text = [w]

namespace Piece.Spelled

variable {around : LineState} {own : List Label} {w t : Text} {l : Label}

theorem of_free (free : ∀ l ∈ own, l.isWorded = false) : Spelled ⟨t, around, own⟩ where
  words l mem vs spelling := by
    have none := free l mem
    simp [Label.isWorded, spelling] at none
  tag mem := absurd (free _ mem) (by decide)

theorem of_spelling {vs : List (List String)} {ws : List String}
    (spelling : l.spellings? = some vs) (mem : ws ∈ vs)
    (runs : Text.runs t = ws.map String.toList) : Spelled ⟨t, around, [l]⟩ where
  words m only us other := by
    obtain rfl := List.mem_singleton.1 only
    obtain rfl := Option.some.inj (spelling.symm.trans other)
    exact ⟨ws, mem, runs⟩
  tag only := by
    obtain rfl := List.mem_singleton.1 only
    cases spelling

theorem ofText (free : ∀ l ∈ own, l.isWorded = false) :
    ∀ p ∈ Piece.ofText t around own, p.Spelled := by
  intro p mem
  unfold Piece.ofText at mem
  split at mem
  · cases mem
  · rw [List.mem_singleton.1 mem]
    exact of_free free

/-- A token that is one of the words itself. -/
theorem of_word {vs : List (List String)} (spelling : l.spellings? = some vs)
    (one : Text.runs w = [w]) (mem : [String.ofList w] ∈ vs) : Spelled ⟨w, around, [l]⟩ :=
  of_spelling spelling mem (by simpa using one)

end Piece.Spelled

namespace Rule

variable {config : Config} {assigned : Bool} {here : LineState} {t w after rest : Text} {s : Step}

/-- A head and the bracket behind it are spelled if the head is. -/
theorem spelled_opening {head : Piece} {gap : Text} {bracket : Char} {inside : LineState}
    {e : Enclosure} (first : head.Spelled) :
    ∀ p ∈ (Step.opening head gap bracket inside e rest).pieces, p.Spelled := by
  refine List.forall_mem_cons.2 ⟨first, List.forall_mem_append.2 ⟨.ofText nofun, ?_⟩⟩
  exact List.forall_mem_singleton.2 (.of_free (List.forall_mem_singleton.2 rfl))

theorem spelled_heads {head : Piece} {inside : LineState} {e : Enclosure} (first : head.Spelled) :
    ∀ p ∈ (heads head inside e after).pieces, p.Spelled := by
  unfold heads
  split
  · exact spelled_opening first
  · exact List.forall_mem_singleton.2 first

theorem spelled_single {own : List Label} (spelled : Piece.Spelled ⟨w, here, own⟩) :
    ∀ p ∈ (Step.single here own w rest).pieces, p.Spelled :=
  List.forall_mem_singleton.2 spelled

/-- Dimensions add no word to a type. -/
theorem runs_append_dimensions (w t : Text) : Text.runs (w ++ (dimensions t).1) = Text.runs w := by
  refine Text.runs_append_of_forall (fun c mem => ?_) w
  unfold dimensions at mem
  cases found : openDimensions? t with
  | none =>
    rw [found] at mem
    cases mem
  | some split =>
    rw [found] at mem
    obtain ⟨_, _, other⟩ := openDimensions?_eq_some found
    exact other c mem

theorem spelled_nameSlot (one : Text.runs w = [w]) (found : nameSlot? here w after = some s) :
    ∀ p ∈ s.pieces, p.Spelled := by
  have type : Vocabulary.isStorageType (String.ofList w) = true →
      [String.ofList w] ∈ Vocabulary.storageTypes.map fun w => [w] := fun known =>
    List.mem_map_of_mem (List.contains_iff_mem.1 known)
  simp only [nameSlot?] at found
  split at found
  · split at found
    · next known =>
      cases found
      exact spelled_single (.of_word rfl one (type known))
    · split at found <;> cases found
      exact spelled_single (.of_free (by decide))
  · split at found <;> cases found
    exact spelled_single (.of_free (by decide))
  · split at found
    · next data =>
      cases found
      exact spelled_single (.of_word rfl one (by rw [data]; decide))
    · split at found
      · next known =>
        cases found
        refine spelled_single (.of_spelling rfl (type known) ?_)
        rw [runs_append_dimensions, one]
        simp
      · split at found <;> cases found
        exact spelled_single (.of_free (by decide))
  · split at found <;> cases found
    exact spelled_single (.of_free (by decide))
  · split at found
    · next range =>
      cases found
      refine spelled_single (.of_word rfl one ?_)
      exact List.mem_map_of_mem (List.contains_iff_mem.1 range.1)
    · cases found
  · split at found <;> cases found
    refine spelled_heads (.of_free ?_)
    split <;> decide
  · cases found

theorem spelled_keyword (one : Text.runs w = [w]) (found : keyword? here w after = some s) :
    ∀ p ∈ s.pieces, p.Spelled := by
  have known : ∀ {l : Label} {vs : List String}, l.spellings? = some (vs.map fun v => [v]) →
      vs.contains (String.ofList w) = true → ∀ around : LineState, Piece.Spelled ⟨w, around, [l]⟩ :=
    fun spelling mem around =>
      .of_word spelling one (List.mem_map_of_mem (List.contains_iff_mem.1 mem))
  simp only [keyword?] at found
  split at found
  · next kind control =>
    cases found
    have keyword : Vocabulary.controlKeywords.contains (String.ofList w) = true := by
      rw [← Control.keyword_of_ofKeyword? control]
      cases kind <;> decide
    exact List.forall_mem_singleton.2 (known rfl keyword _)
  · split at found
    · next keyword =>
      cases found
      exact spelled_single (known rfl keyword here)
    · split at found
      · next word =>
        split at found <;> cases found
        exact spelled_opening (.of_word rfl one (by rw [word]; decide))
      · next word =>
        cases found
        exact spelled_single (.of_word rfl one (by rw [word]; decide))
      · next word =>
        cases found
        exact spelled_heads (.of_word rfl one (by rw [word]; decide))
      · next word =>
        cases found
        exact spelled_heads (.of_word rfl one (by rw [word]; decide))
      · next word =>
        cases found
        exact spelled_single (.of_word rfl one (by rw [word]; decide))
      · next word =>
        cases found
        exact spelled_single (.of_word rfl one (by rw [word]; decide))
      · split at found
        · next type =>
          cases found
          have mem := List.mem_map_of_mem (f := fun w => [w]) (List.contains_iff_mem.1 type)
          exact spelled_single (.of_word rfl one (List.mem_cons_of_mem _ mem))
        · cases found

theorem isWorded_calledName (word : String) : (calledName here word).isWorded = false := by
  unfold calledName
  split
  · rfl
  · split <;> rfl

theorem spelled_identifier : ∀ p ∈ (identifier here w after).pieces, p.Spelled := by
  unfold identifier
  split
  · refine spelled_opening (.of_free ?_)
    exact List.forall_mem_cons.2 ⟨rfl, List.forall_mem_singleton.2 (isWorded_calledName _)⟩
  · refine spelled_single (.of_free (List.forall_mem_singleton.2 ?_))
    cases Vocabulary.builtin? (String.ofList w) <;> rfl

theorem spelled_wordStep (one : Text.runs w = [w]) :
    ∀ p ∈ (wordStep here w after).pieces, p.Spelled := by
  unfold wordStep
  split
  · exact spelled_single (.of_free (by decide))
  · split
    · exact spelled_single (.of_free (by decide))
    · split
      · next found => exact spelled_nameSlot one found
      · cases found : keyword? (passDistribution here) w after with
        | none => exact spelled_identifier
        | some s => exact spelled_keyword one found

/-- Words with blanks between them are the runs of their text. -/
theorem runs_of_spacedWords? {ws : List Text} {taken left : Text}
    (words : ∀ v ∈ ws, Text.runs v = [v]) (h : spacedWords? ws t = some (taken, left)) :
    Text.runs taken = ws := by
  induction ws generalizing t taken with
  | nil =>
    cases h
    rfl
  | cons v vs ih =>
    have first := words v List.mem_cons_self
    cases vs with
    | nil =>
      obtain ⟨after, _, same⟩ := Option.map_eq_some_iff.1 h
      cases same
      exact first
    | cons u us =>
      simp only [spacedWords?] at h
      split at h
      · cases h
      · next after opened =>
        split at h
        · cases h
        · next some_blank =>
          obtain ⟨found, more, same⟩ := Option.map_eq_some_iff.1 h
          cases same
          rw [Text.runs_append (Text.not_splits_of_tail some_blank isWordChar_of_mem_gap v _),
            Text.runs_append_of_forall isWordChar_of_mem_gap, first,
            ih (fun w mem => words w (List.mem_cons_of_mem v mem)) more]
          rfl

theorem spelled_sectionHeader (found : sectionHeader? here t = some s) :
    ∀ p ∈ s.pieces, p.Spelled := by
  have words : ∀ sec : Section, ∀ v ∈ sec.words.map String.toList,
      v ≠ [] ∧ v.all Text.isWordChar = true := by
    intro sec
    cases sec <;> decide
  unfold sectionHeader? at found
  split at found
  · split at found
    · cases found
    · next sec header gap body head =>
      cases found
      have of := headerOf?_of_header? head
      unfold headerOf? at of
      split at of
      · cases of
      · next taken left spaced =>
        split at of <;> cases of
        refine spelled_opening (.of_spelling rfl (List.mem_singleton.2 rfl) ?_)
        exact runs_of_spacedWords? (fun v mem => Text.runs_of_word (words sec v mem).1
          (words sec v mem).2) spaced
  · cases found

/-- The type of an array begins with its word, with signs and blanks behind it. -/
theorem arrayOf_cases (t : Text) : arrayOf t = ([], t) ∨ ∃ signs, signs ≠ [] ∧
    (∀ c ∈ signs, Text.isWordChar c = false) ∧ (arrayOf t).1 = arrayWord ++ signs := by
  unfold arrayOf
  split
  · next sizes rest found =>
    obtain ⟨after, _, dimensions⟩ := Option.bind_eq_some_iff.1 found
    obtain ⟨body, closed, other⟩ := openDimensions?_eq_some dimensions
    refine .inr ⟨sizes ++ Text.gap rest, ?_, fun c mem => ?_, by simp⟩
    · have some_sign : sizes ≠ [] := by simp [show sizes = _ from closed]
      simp [some_sign]
    · rcases List.mem_append.1 mem with mem | mem
      · exact other c mem
      · exact isWordChar_of_mem_gap c mem
  · exact .inl rfl

theorem spelled_functionDeclaration (found : functionDeclaration? here t = some s) :
    ∀ p ∈ s.pieces, p.Spelled := by
  unfold functionDeclaration? at found
  split at found
  · cases found
  · next type rest returned =>
    simp only [returnType?] at returned
    split at returned <;> cases returned
    split at found <;> cases found
    next known _ =>
    have one : Text.runs (Text.word (arrayOf t).2) = [Text.word (arrayOf t).2] := by
      refine Text.runs_of_word (fun none => ?_) List.all_takeWhile
      rw [none] at known
      exact absurd known (by decide)
    have type := List.contains_iff_mem.1 known
    rcases arrayOf_cases t with plain | ⟨signs, some_sign, other, array⟩
    · refine spelled_single (.of_spelling rfl
        (List.mem_append_left _ (List.mem_map_of_mem type)) ?_)
      rw [runs_append_dimensions, plain]
      rw [plain] at one
      simpa using one
    · refine spelled_single (.of_spelling rfl
        (List.mem_append_right _ (List.mem_map_of_mem type)) ?_)
      have word : Text.runs arrayWord = [arrayWord] := Text.runs_of_word (by decide) (by decide)
      rw [runs_append_dimensions, array,
        Text.runs_append (Text.not_splits_of_tail some_sign other arrayWord _),
        Text.runs_append_of_forall other, one, word]
      simp [arrayWord]

theorem spelled_variableDeclaration (found : variableDeclaration? here t = some s) :
    ∀ p ∈ s.pieces, p.Spelled := by
  unfold variableDeclaration? at found
  split at found <;> cases found
  next known =>
  have one : Text.runs (Text.word t) = [Text.word t] := by
    refine Text.runs_of_word (fun none => ?_) List.all_takeWhile
    rw [none] at known
    exact absurd known (by decide)
  exact spelled_single (.of_word rfl one (List.mem_map_of_mem (List.contains_iff_mem.1 known)))

theorem spelled_accumulator (found : accumulator? here t = some s) :
    ∀ p ∈ s.pieces, p.Spelled := by
  unfold accumulator? at found
  split at found
  · cases found
  · next rest _ =>
    split at found <;> cases found
    refine List.forall_mem_singleton.2 (.of_spelling rfl (List.mem_singleton.2 rfl) ?_)
    have word : Text.runs targetWord = [targetWord] := Text.runs_of_word (by decide) (by decide)
    have sign : ∀ c ∈ ['+', '='], Text.isWordChar c = false :=
      List.forall_mem_cons.2 ⟨by decide, List.forall_mem_singleton.2 (by decide)⟩
    have signs : ∀ c ∈ Text.gap rest ++ ['+', '='], Text.isWordChar c = false :=
      List.forall_mem_append.2 ⟨isWordChar_of_mem_gap, sign⟩
    rw [List.append_assoc, Text.runs_append_of_forall signs, word]
    rfl

theorem spelled_documentationTag (found : documentationTag? here t = some s) :
    ∀ p ∈ s.pieces, p.Spelled := by
  unfold documentationTag? at found
  split at found
  · next rest =>
    split at found <;> cases found
    next tagged =>
    have one := Text.runs_append_cons (c := '@') (by decide) [] (Text.word rest)
    rw [List.nil_append, Text.runs_nil, List.nil_append,
      Text.runs_of_word tagged.2 List.all_takeWhile] at one
    refine List.forall_mem_singleton.2 ⟨fun l mem vs spelling => ?_, fun _ => ⟨_, rfl, one⟩⟩
    rw [List.mem_singleton.1 mem] at spelling
    cases spelling
  · cases found

theorem spelled_fileName : ∀ p ∈ (fileName here t).1, p.Spelled := by
  have delimited : ∀ (start close : Char) (style : FileName) (t : Text),
      ∀ p ∈ (delimitedName here start close style t).1, p.Spelled := by
    intro start close style t
    have front : ∀ p ∈ (⟨[start], here, [.inclusion, .fileName style, .begins .string]⟩ : Piece) ::
        Piece.ofText (t.takeWhile (· != close)) here [.inclusion, .fileName style], p.Spelled :=
      List.forall_mem_cons.2 ⟨.of_free (by simp [Label.isWorded, Label.spellings?]),
        .ofText (by simp [Label.isWorded, Label.spellings?])⟩
    unfold delimitedName
    split
    · exact front
    · refine List.forall_mem_append.2 ⟨front, List.forall_mem_singleton.2 (.of_free ?_)⟩
      simp [Label.isWorded, Label.spellings?]
  unfold fileName
  split
  · exact nofun
  · exact delimited _ _ _ _
  · exact delimited _ _ _ _
  · exact delimited _ _ _ _
  · exact .ofText (by decide)

theorem spelled_inclusion (found : include? here t = some s) : ∀ p ∈ s.pieces, p.Spelled := by
  unfold include? at found
  split at found
  · cases found
  · split at found <;> cases found
    have spelled : Piece.Spelled ⟨directive, here, [.inclusion, .includeDirective]⟩ := by
      have word : Text.runs directive = ["include".toList] := by decide
      refine ⟨fun l mem vs spelling => ?_, fun tag => ?_⟩
      · simp only [List.mem_cons, List.not_mem_nil, or_false] at mem
        rcases mem with rfl | rfl <;> cases spelling
        exact ⟨_, List.mem_singleton.2 rfl, word⟩
      · simp at tag
    refine List.forall_mem_cons.2 ⟨spelled, List.forall_mem_append.2 ⟨?_, ?_⟩⟩
    · exact .ofText (by decide)
    · exact spelled_fileName

theorem spelled_lineComment (found : lineComment? here t = some s) : ∀ p ∈ s.pieces, p.Spelled := by
  unfold lineComment? at found
  split at found <;> cases found <;>
    exact List.forall_mem_cons.2 ⟨.of_free (by decide), .ofText (by decide)⟩

/-- No part of a literal has a label that asks for certain words. -/
theorem unworded_string (found : string? config here t = some s) :
    ∀ p ∈ s.pieces, ∀ l ∈ p.own, l.isWorded = false := by
  have body : ∀ t, ∀ p ∈ bodyPieces config here t, ∀ l ∈ p.own, l.isWorded = false := by
    intro t p mem
    obtain ⟨run, _, rfl⟩ := List.mem_map.1 mem
    simp only [runLabels]
    split <;> decide
  have first : ∀ l ∈ [Label.string, .begins .string], l.isWorded = false := by decide
  have last : ∀ l ∈ [Label.string, .ends .string], l.isWorded = false := by decide
  unfold string? at found
  split at found
  · split at found <;> cases found
    · exact List.forall_mem_cons.2 ⟨first, body _⟩
    · refine List.forall_mem_append.2 ⟨List.forall_mem_cons.2 ⟨first, body _⟩, ?_⟩
      exact List.forall_mem_singleton.2 last
  · cases found

theorem spelled_operator (found : operator? here t = some s) : ∀ p ∈ s.pieces, p.Spelled := by
  unfold operator? at found
  split at found
  · cases found
    exact spelled_single (.of_free (by decide))
  · split at found <;> cases found <;> exact spelled_single (.of_free (by decide))
  · obtain ⟨entry, mem, spelled⟩ := List.exists_of_findSome?_eq_some found
    obtain ⟨rest, _, rfl⟩ := Option.map_eq_some_iff.1 spelled
    have free : ∀ e ∈ operators, e.2.isWorded = false := by decide
    exact spelled_single (.of_free (List.forall_mem_singleton.2 (free entry mem)))

/-- The tokens that any rule cuts are spelled with the words that their labels ask for. -/
theorem spelled_step? {rule : Rule} (found : step? config assigned here t rule = some s) :
    ∀ p ∈ s.pieces, p.Spelled := by
  cases rule with
  | documentationTag => exact spelled_documentationTag found
  | sectionHeader => exact spelled_sectionHeader found
  | functionDeclaration => exact spelled_functionDeclaration found
  | variableDeclaration => exact spelled_variableDeclaration found
  | accumulator => exact spelled_accumulator found
  | word =>
    simp only [step?, word?] at found
    split at found <;> cases found
    next starts =>
    refine spelled_wordStep (Text.runs_of_word ?_ List.all_takeWhile)
    cases t with
    | nil => cases starts
    | cons c t => simp [Text.word, Text.isWordChar_of_startsWord (by simpa using starts)]
  | inclusion => exact spelled_inclusion found
  | lineComment => exact spelled_lineComment found
  | string => exact fun p mem => .of_free (unworded_string found p mem)
  | operator => exact spelled_operator found
  | _ =>
    obtain ⟨w, around, l, pieces, free⟩ := exists_sole (fun l => l.isWorded = false) found
      (by decide) (by decide) fun _ => ⟨rfl, rfl⟩
    exact pieces ▸ List.forall_mem_singleton.2 (.of_free (List.forall_mem_singleton.2 free))

end Rule

end StanHighlight

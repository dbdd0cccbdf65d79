import StanHighlight.Proofs.FirstToken
import StanHighlight.Proofs.Reachable
import StanHighlight.Proofs.Word

/-!
Words that no program may use. A word with an underscore in front or two at its end and a word
that the language reserves are labelled as such wherever code stands. None of them can be the
first word of a header, a type or the target, so no other rule decides about them, and they
fill no place that a region keeps for a name.
-/

namespace StanHighlight

variable {lexer : Lexer} {assigned : Bool} {here s : LineState} {w t rest : Text}

namespace Text

theorem word_append_of_all {v : Text} (chars : v.all isWordChar = true)
    (ends : word rest = []) : word (v ++ rest) = v := by
  rw [word_append_of_word_eq_nil ends, word, List.takeWhile_eq_self_iff]
  exact List.all_eq_true.1 chars

end Text

section Headers

def headerWords : List Text := Section.all.filterMap fun sec => sec.words.head?.map String.toList

/-- The first of some words with a brace behind them is the first word of the text. -/
theorem word_of_spacedWords? {v : Text} {ws : List Text} {taken left : Text}
    (chars : v.all Text.isWordChar = true)
    (found : Rule.spacedWords? (v :: ws) t = some (taken, left)) (ends : Text.word left = []) :
    Text.word t = v := by
  cases ws with
  | nil =>
    obtain ⟨after, opened, same⟩ := Option.map_eq_some_iff.1 found
    cases same
    rw [Text.after?_eq_some_iff.1 opened]
    exact Text.word_append_of_all chars ends
  | cons u us =>
    simp only [Rule.spacedWords?] at found
    split at found
    · cases found
    · next after opened =>
      split at found
      · cases found
      · next blank =>
        rw [Text.after?_eq_some_iff.1 opened]
        exact Text.word_append_of_all chars (endsWord_iff.1 (endsWord_of_gap blank))

/-- A header begins with the first word of a block. -/
theorem word_of_header? {found : Section × Text × Text × Text} (h : Rule.header? t = some found) :
    Text.word t ∈ headerWords := by
  obtain ⟨sec, header, gap, body⟩ := found
  have head := Rule.headerOf?_of_header? h
  have first : ∃ v vs, sec.words.map String.toList = v :: vs ∧ v.all Text.isWordChar = true ∧
      v ∈ headerWords := by
    cases sec <;> exact ⟨_, _, rfl, by decide, by decide⟩
  obtain ⟨v, vs, words, chars, mem⟩ := first
  unfold Rule.headerOf? at head
  rw [words] at head
  split at head
  · cases head
  · next taken left found =>
    split at head
    · next body brace =>
      rw [word_of_spacedWords? chars found (word_eq_nil brace (by decide))]
      exact mem
    · cases head

theorem sectionHeader?_of_notMem (h : Text.word t ∉ headerWords) :
    Rule.sectionHeader? here t = none := by
  unfold Rule.sectionHeader?
  split
  · split
    · rfl
    · next found => exact absurd (word_of_header? found) h
  · rfl

end Headers

inductive Refused : Text → Label → Prop
  | leading {w : Text} (chars : w.all Text.isWordChar = true) (underscore : w.head? = some '_') :
      Refused w .malformed
  | trailing {w : Text} (word : IsWord w) (underscores : ['_', '_'] <:+ w) : Refused w .malformed
  | reserved {w : Text} (listed : Vocabulary.isReserved (String.ofList w) = true) :
      Refused w .reserved

def leadingWords : List Text := headerWords ++ typeWords ++ [Rule.targetWord]

theorem facts_of_mem_leadingWords : ∀ w ∈ leadingWords, Rule.isMalformed w = false ∧
    Vocabulary.isReserved (String.ofList w) = false := by
  decide +kernel

theorem facts_of_mem_reservedWords : ∀ w ∈ Vocabulary.reservedWords.map String.toList,
    IsWord w ∧ Rule.isMalformed w = false := by
  decide +kernel

namespace Refused

variable {l : Label}

theorem isWord_of_reserved (listed : Vocabulary.isReserved (String.ofList w) = true) :
    IsWord w ∧ Rule.isMalformed w = false :=
  facts_of_mem_reservedWords w (Vocabulary.mem_map_toList listed)

theorem all_isWordChar (refused : Refused w l) : w.all Text.isWordChar = true := by
  cases refused with
  | leading chars _ => exact chars
  | trailing word _ => exact word.chars
  | reserved listed => exact (isWord_of_reserved listed).1.chars

theorem ne_nil (refused : Refused w l) : w ≠ [] := by
  rintro rfl
  cases refused with
  | leading _ underscore => cases underscore
  | trailing word _ => cases word.letter
  | reserved listed => cases (isWord_of_reserved listed).1.letter

/-- A refused word is labelled before its meaning is looked up. -/
theorem wordStep_eq (refused : Refused w l) (here : LineState) (rest : Text) :
    Rule.wordStep here w rest = .single here [l] w rest := by
  cases refused with
  | leading _ underscore => simp [Rule.wordStep, Rule.isMalformed, underscore]
  | trailing _ underscores =>
    have malformed : Rule.isMalformed w = true := by
      simp [Rule.isMalformed, List.isSuffixOf_iff_suffix.2 underscores]
    simp [Rule.wordStep, malformed]
  | reserved listed => simp [Rule.wordStep, (isWord_of_reserved listed).2, listed]

theorem notMem_leadingWords (refused : Refused w l) : w ∉ leadingWords := by
  intro mem
  obtain ⟨formed, free⟩ := facts_of_mem_leadingWords w mem
  cases refused with
  | leading _ underscore => simp [Rule.isMalformed, underscore] at formed
  | trailing _ underscores =>
    simp [Rule.isMalformed, List.isSuffixOf_iff_suffix.2 underscores] at formed
  | reserved listed => simp [listed] at free

/-- Outside comments a refused word is cut alone and changes nothing. -/
theorem take_eq (refused : Refused w l) (code : here.innermost.isBlockComment = false)
    (ends : EndsWord rest) :
    Step.take lexer assigned here (w ++ rest) = .single here [l] w rest := by
  rw [← refused.wordStep_eq]
  have other := refused.notMem_leadingWords
  simp only [leadingWords, List.mem_append, not_or, List.mem_singleton] at other
  have worded : IsWord w → Step.take lexer assigned here (w ++ rest) = Rule.wordStep here w rest := by
    intro word
    have first := word_append word ends
    refine take_word word ends code (sectionHeader?_of_notMem ?_) (fun _ => ?_)
      (fun _ => isStorageType_of_notMem other.1.2) (accumulator?_eq_none ?_)
    · rw [first]
      exact other.1.1
    · refine functionDeclaration?_of_notMem ?_
      rw [first]
      exact other.1.2
    · rw [first]
      exact other.2
  cases refused with
  | leading chars underscore =>
    obtain ⟨t, rfl⟩ := List.head?_eq_some_iff.1 underscore
    have applies : Rule.word? here ('_' :: t ++ rest) =
        some (Rule.wordStep here ('_' :: t) rest) := by
      have first := Text.word_append_of_all chars (endsWord_iff.1 ends)
      have whole := Text.word_append_afterWord ('_' :: t ++ rest)
      rw [first] at whole
      rw [Rule.word?, first, List.append_cancel_left whole]
      rfl
    have first : ∀ table ∈ Rule.tables,
        (table.filter fun rule => rule.startsAt '_').head? = some .word := by decide
    exact Step.take_mark code first applies
  | trailing word _ => exact worded word
  | reserved listed => exact worded (isWord_of_reserved listed).1

end Refused

/-- Refused words are labelled wherever code stands: such a word is one token, with no labels but
those of the regions around it and the one that says why it is refused. It opens nothing, fills no
place for a name and leaves no trace in what follows. -/
theorem tokenizeLine_refused (lexer : Lexer) {l : Label} (code : s.inBlockComment = false)
    (refused : Refused w l) (ends : EndsWord rest) :
    lexer.tokenizeLine (w ++ rest) s =
      (lexer.tokenizeLine rest s).behind [⟨⟨w, s, [l]⟩, 0⟩] (Text.byteLength w) := by
  have unassigned : l ≠ .assignmentOperator := by
    rintro rfl
    cases refused
  exact tokenizeLine_of_take lexer ⟨w, s, [l]⟩ rfl (by simpa using unassigned)
    refused.ne_nil (Text.stripTerminator_append_of_word refused.all_isWordChar rest)
    (refused.take_eq code (ends.of_prefix (Text.stripTerminator_isInitial rest)))

/-- A malformed name leaves the place for a variable's name to the next word. -/
theorem malformed_name_declares_nothing :
    let lexer : Lexer := ⟨{}, by decide, .prepending⟩
    let s := (lexer.tokenizeLine "model \x7b real<lower=0> ".toList .initial).state
    let w := "x__".toList
    let rest := " y;".toList
    (s.Reachable ∧ s.innermost = .declaration false ∧ s.inBlockComment = false ∧
      Refused w .malformed ∧ EndsWord rest) ∧
      lexer.tokenizeLine (w ++ rest) s =
        (lexer.tokenizeLine rest s).behind [⟨⟨w, s, [.malformed]⟩, 0⟩] (Text.byteLength w) := by
  intro lexer s w rest
  have code : s.inBlockComment = false := by decide +kernel
  have refused : Refused w .malformed := .trailing (by decide) (by decide)
  have ends : EndsWord rest := by
    rintro c ⟨⟩
    decide
  exact ⟨⟨.line _ Segmentation.prepending_partsAscii _ .initial, by decide +kernel, code, refused,
    ends⟩, tokenizeLine_refused lexer code refused ends⟩

end StanHighlight

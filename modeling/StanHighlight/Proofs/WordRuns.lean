import StanHighlight.Proofs.StepPieces
import StanHighlight.Proofs.Word

/-!
Runs of word characters. A text that is cut where no word goes on has the runs of its two parts.
Every rule but the one of string literals cuts its pieces in such places only, and ends its last
one in such a place.
-/

namespace StanHighlight

namespace Text

variable {s t u : Text} {c : Char}

def Splits (s t : Text) : Prop :=
  (∃ c ∈ s.getLast?, isWordChar c = true) ∧ ∃ d ∈ t.head?, isWordChar d = true

def runs (t : Text) : List Text :=
  (t.splitOnP fun c => !isWordChar c).filter fun w => !w.isEmpty

theorem not_splits_nil (t : Text) : ¬Splits [] t := by
  rintro ⟨⟨c, last, _⟩, _⟩
  cases last

/-- No word goes on behind another character. -/
theorem not_splits_of_last (other : isWordChar c = false) (s t : Text) : ¬Splits (s ++ [c]) t := by
  rintro ⟨⟨d, last, word⟩, _⟩
  obtain rfl : c = d := by simpa using last
  rw [other] at word
  cases word

theorem not_splits_of_endsWord (h : EndsWord t) (s : Text) : ¬Splits s t := by
  rintro ⟨_, d, first, word⟩
  rw [h d first] at word
  cases word

theorem not_splits_of_forall (other : ∀ c ∈ s, isWordChar c = false) (t : Text) : ¬Splits s t := by
  rintro ⟨⟨c, last, word⟩, _⟩
  rw [other c (List.mem_of_getLast? last)] at word
  cases word

/-- No word goes on behind other characters. -/
theorem not_splits_of_tail (some_char : u ≠ []) (other : ∀ c ∈ u, isWordChar c = false)
    (s t : Text) : ¬Splits (s ++ u) t := by
  obtain ⟨u, c, rfl⟩ := (List.eq_nil_or_concat u).resolve_left some_char
  rw [List.concat_eq_append, ← List.append_assoc]
  exact not_splits_of_last (other c (by simp)) _ t

/-- Only the first character of the second text matters. -/
theorem splits_append_iff (visible : t ≠ []) (u : Text) : Splits s (t ++ u) ↔ Splits s t := by
  obtain ⟨d, t, rfl⟩ := List.exists_cons_of_ne_nil visible
  rfl

@[simp] theorem runs_nil : runs [] = [] := by
  simp [runs, List.splitOnP_nil]

/-- A character that belongs to no word parts the runs. -/
theorem runs_append_cons (other : isWordChar c = false) (s t : Text) :
    runs (s ++ c :: t) = runs s ++ runs t := by
  rw [runs, List.splitOnP_append_cons s t (by simp [other]), List.filter_append]
  rfl

theorem runs_of_word (some_char : s ≠ []) (word : s.all isWordChar = true) : runs s = [s] := by
  rw [runs, List.splitOnP_eq_singleton fun c mem => by
    simpa using List.all_eq_true.1 word c mem]
  simp [some_char]

/-- A text that is cut where no word goes on has the runs of both parts. -/
theorem runs_append (apart : ¬Splits s t) : runs (s ++ t) = runs s ++ runs t := by
  cases t with
  | nil => simp
  | cons d t =>
    rcases List.eq_nil_or_concat s with rfl | ⟨s, c, rfl⟩
    · simp
    · cases second : isWordChar d with
      | false =>
        have alone := runs_append_cons second [] t
        rw [List.nil_append, runs_nil, List.nil_append] at alone
        rw [runs_append_cons second, alone]
      | true =>
        have first : isWordChar c = false := by
          rw [Bool.eq_false_iff]
          exact fun word => apart ⟨⟨c, by simp, word⟩, d, rfl, second⟩
        have alone := runs_append_cons first s []
        rw [runs_nil, List.append_nil] at alone
        rw [List.concat_eq_append, List.append_assoc, List.singleton_append,
          runs_append_cons first, alone]

/-- There are no runs without word characters. -/
theorem runs_eq_nil (h : ∀ c ∈ t, isWordChar c = false) : runs t = [] := by
  induction t with
  | nil => rfl
  | cons c t ih =>
    obtain ⟨first, others⟩ := List.forall_mem_cons.1 h
    have alone := runs_append_cons first [] t
    rw [List.nil_append, runs_nil, List.nil_append] at alone
    rw [alone, ih others]

/-- Characters of no word add no runs. -/
theorem runs_append_of_forall (other : ∀ c ∈ t, isWordChar c = false) (s : Text) :
    runs (s ++ t) = runs s := by
  have ends : EndsWord t := fun c first => other c (List.mem_of_mem_head? first)
  rw [runs_append (not_splits_of_endsWord ends s), runs_eq_nil other, List.append_nil]

end Text

/-- Pieces in front of a text, each of which ends where no word goes on. -/
inductive Unsplit (rest : Text) : List Piece → Prop
  | nil : Unsplit rest []
  | cons {p : Piece} {ps : List Piece} (apart : ¬Text.Splits p.text (Piece.texts ps ++ rest))
      (more : Unsplit rest ps) : Unsplit rest (p :: ps)

namespace Unsplit

variable {rest t : Text} {p : Piece} {ps qs : List Piece} {around : LineState} {own : List Label}

theorem single (apart : ¬Text.Splits p.text rest) : Unsplit rest [p] := .cons apart .nil

theorem endsWord (h : EndsWord rest) : Unsplit rest [p] :=
  .single (Text.not_splits_of_endsWord h p.text)

/-- A token whose last character belongs to no word. -/
theorem closed {w : Text} {c : Char} (other : Text.isWordChar c = false) :
    Unsplit rest [⟨w ++ [c], around, own⟩] :=
  .single (Text.not_splits_of_last other w rest)

theorem mark {c : Char} (other : Text.isWordChar c = false) : Unsplit rest [⟨[c], around, own⟩] :=
  closed (w := []) other

theorem append (front : Unsplit (Piece.texts qs ++ rest) ps) (back : Unsplit rest qs) :
    Unsplit rest (ps ++ qs) := by
  induction front with
  | nil => exact back
  | cons apart _ ih => exact .cons (by simpa using apart) ih

theorem ofText (apart : ¬Text.Splits t rest) : Unsplit rest (Piece.ofText t around own) := by
  unfold Piece.ofText
  split
  · exact .nil
  · exact .single apart

/-- Blanks between a head and the bracket behind it part the head from all that follows. -/
theorem opening {gap : Text} {bracket : Char} {inside : LineState} {e : Enclosure}
    (blank : ∀ c ∈ gap, Text.isSpace c = true) (other : Text.isWordChar bracket = false) :
    Unsplit rest (p :: (Piece.ofText gap around [] ++ [⟨[bracket], inside, [.begins e]⟩])) := by
  have unworded : ∀ c ∈ gap, Text.isWordChar c = false := fun c mem =>
    isWordChar_of_isSpace (blank c mem)
  refine .cons (Text.not_splits_of_endsWord ?_ _)
    (.append (.ofText (Text.not_splits_of_forall unworded _)) (.mark other))
  cases gap with
  | nil =>
    rintro c ⟨⟩
    exact other
  | cons d gap =>
    rintro c ⟨⟩
    exact unworded d List.mem_cons_self

end Unsplit

namespace Rule

theorem isWordChar_of_mem_gap {t : Text} : ∀ c ∈ Text.gap t, Text.isWordChar c = false :=
  fun c mem => isWordChar_of_isSpace (isSpace_of_mem_gap c mem)

variable {config : Config} {assigned : Bool} {here : LineState} {t w after : Text} {s : Step}

theorem unsplit_delimitedName {start close : Char} {style : FileName}
    (opens : Text.isWordChar start = false) (closes : Text.isWordChar close = false) :
    Unsplit (delimitedName here start close style t).2
      (delimitedName here start close style t).1 := by
  unfold delimitedName
  split
  · exact .cons (Text.not_splits_of_last opens [] _)
      (.ofText (Text.not_splits_of_endsWord (endsWord_iff.2 rfl) _))
  · next c rest found =>
    have first := List.head?_dropWhile_not (· != close) t
    rw [found] at first
    obtain rfl : c = close := by simpa using first
    refine .append (.cons (Text.not_splits_of_last opens [] _) (.ofText ?_)) (.mark closes)
    refine Text.not_splits_of_endsWord ?_ _
    rintro d ⟨⟩
    exact closes

theorem unsplit_fileName : Unsplit (fileName here t).2 (fileName here t).1 := by
  unfold fileName
  split
  · exact .nil
  · exact unsplit_delimitedName (by decide) (by decide)
  · exact unsplit_delimitedName (by decide) (by decide)
  · exact unsplit_delimitedName (by decide) (by decide)
  · next c t _ _ _ =>
    refine .ofText (Text.not_splits_of_endsWord (fun d first => ?_) _)
    have stop := List.head?_dropWhile_not (fun d => !Text.isSpace d) (c :: t)
    rw [first] at stop
    exact isWordChar_of_isSpace (by simpa using stop)

theorem unsplit_inclusion (found : include? here t = some s) : Unsplit s.rest s.pieces := by
  unfold include? at found
  split at found
  · cases found
  · next rest opened =>
    split at found
    · next none =>
      cases found
      refine .cons (Text.not_splits_of_endsWord ?_ _) (.append (.ofText ?_) unsplit_fileName)
      · simpa [fileName_whole] using endsWord_iff.2 none
      · exact Text.not_splits_of_forall isWordChar_of_mem_gap _
    · cases found

theorem unsplit_lineComment (found : lineComment? here t = some s) : Unsplit s.rest s.pieces := by
  unfold lineComment? at found
  split at found <;> cases found
  · exact .cons (Text.not_splits_of_last (s := ['/']) (by decide) _)
      (.ofText (Text.not_splits_of_endsWord (endsWord_iff.2 rfl) _))
  · exact .cons (Text.not_splits_of_last (s := []) (by decide) _)
      (.ofText (Text.not_splits_of_endsWord (endsWord_iff.2 rfl) _))

theorem unsplit_sectionHeader (found : sectionHeader? here t = some s) :
    Unsplit s.rest s.pieces := by
  unfold sectionHeader? at found
  split at found
  · split at found
    · cases found
    · next header =>
      cases found
      exact .opening (blank_of_headerOf? (headerOf?_of_header? header)) (by decide)
  · cases found

theorem unsplit_heads {head : Piece} {inside : LineState} {e : Enclosure} (ends : EndsWord after) :
    Unsplit (heads head inside e after).rest (heads head inside e after).pieces := by
  unfold heads
  split
  · next gap rest found =>
    have blank : gap = Text.gap after := by
      unfold parenAfterGap? at found
      split at found <;> cases found
      rfl
    exact .opening (blank ▸ isSpace_of_mem_gap) (by decide)
  · exact .endsWord ends

/-- Open dimensions hold no word characters and end with their bracket. -/
theorem openDimensions?_eq_some {found : Text × Text} (h : openDimensions? t = some found) :
    ∃ body, found.1 = body ++ [']'] ∧ ∀ c ∈ found.1, Text.isWordChar c = false := by
  have open_ : ∀ c, isOpenDimension c = true → Text.isWordChar c = false := by
    intro c inside
    simp only [isOpenDimension, Bool.or_eq_true, beq_iff_eq] at inside
    rcases inside with blank | rfl
    · exact isWordChar_of_isSpace blank
    · decide
  unfold openDimensions? at h
  split at h
  · next inside _ =>
    split at h <;> cases h
    refine ⟨Text.gap t ++ '[' :: inside.takeWhile isOpenDimension, by simp, fun c mem => ?_⟩
    simp only [List.mem_append, List.mem_cons, List.not_mem_nil, or_false] at mem
    rcases mem with mem | rfl | mem | rfl
    · exact isWordChar_of_mem_gap c mem
    · decide
    · exact open_ c (List.all_eq_true.1 List.all_takeWhile c mem)
    · decide
  · cases h

theorem unsplit_dimensions (ends : EndsWord after) {own : List Label} :
    Unsplit (dimensions after).2 [⟨w ++ (dimensions after).1, here, own⟩] := by
  unfold dimensions
  cases found : openDimensions? after with
  | none => exact .endsWord ends
  | some split =>
    obtain ⟨body, closed, _⟩ := openDimensions?_eq_some found
    rw [Option.getD_some, closed, ← List.append_assoc]
    exact .closed (by decide)

theorem unsplit_nameSlot (ends : EndsWord after) (found : nameSlot? here w after = some s) :
    Unsplit s.rest s.pieces := by
  simp only [nameSlot?] at found
  repeat' split at found
  all_goals cases found
  all_goals first
    | exact .endsWord ends
    | exact unsplit_heads ends
    | exact unsplit_dimensions ends

theorem unsplit_keyword (ends : EndsWord after) (found : keyword? here w after = some s) :
    Unsplit s.rest s.pieces := by
  simp only [keyword?] at found
  split at found
  · cases found
    exact .endsWord ends
  · repeat' split at found
    all_goals cases found
    all_goals first
      | exact .endsWord ends
      | exact unsplit_heads ends
      | exact .opening nofun (by decide)

theorem unsplit_wordStep (ends : EndsWord after) :
    Unsplit (wordStep here w after).rest (wordStep here w after).pieces := by
  have named : ∀ here, Unsplit (identifier here w after).rest (identifier here w after).pieces := by
    intro here
    unfold identifier
    split
    · exact .opening nofun (by decide)
    · exact .endsWord ends
  unfold wordStep
  split
  · exact .endsWord ends
  · split
    · exact .endsWord ends
    · split
      · next found => exact unsplit_nameSlot ends found
      · cases found : keyword? (passDistribution here) w after with
        | none => exact named _
        | some s => exact unsplit_keyword ends found

theorem unsplit_close {c : Char} {stray : Enclosure} {rest : Text}
    (other : Text.isWordChar c = false) :
    Unsplit (close here c stray rest).rest (close here c stray rest).pieces := by
  unfold close
  split
  · split <;> exact .mark other
  · exact .mark other

theorem unsplit_operator (found : operator? here t = some s) : Unsplit s.rest s.pieces := by
  unfold operator? at found
  split at found
  · cases found
    exact .mark (by decide)
  · split at found <;> cases found <;> exact .mark (by decide)
  · obtain ⟨entry, mem, spelled⟩ := List.exists_of_findSome?_eq_some found
    obtain ⟨rest, _, rfl⟩ := Option.map_eq_some_iff.1 spelled
    have signs : ∀ e ∈ operators, e.1.any Text.isWordChar = false := by decide
    have other : ∀ c ∈ entry.1, Text.isWordChar c = false := by simpa using signs entry mem
    exact .single (Text.not_splits_of_forall other _)

/-- Every rule but the one of string literals cuts where no word goes on. -/
theorem unsplit_step? {rule : Rule} (other : rule ≠ .string)
    (found : step? config assigned here t rule = some s) : Unsplit s.rest s.pieces := by
  cases rule with
  | string => exact absurd rfl other
  | inclusion => exact unsplit_inclusion found
  | lineComment => exact unsplit_lineComment found
  | sectionHeader => exact unsplit_sectionHeader found
  | operator => exact unsplit_operator found
  | word =>
    simp only [step?, word?] at found
    split at found <;> cases found
    exact unsplit_wordStep (endsWord_afterWord t)
  | number =>
    simp only [step?, number?] at found
    split at found
    · cases found
    · split at found
      · next none =>
        cases found
        exact .endsWord (endsWord_iff.2 none)
      · cases found
        exact .endsWord (endsWord_afterWord _)
  | functionDeclaration =>
    simp only [step?, functionDeclaration?] at found
    split at found
    · cases found
    · next type rest _ =>
      split at found
      · next signature =>
        cases found
        refine .endsWord (endsWord_of_gap ?_)
        simp only [startsSignature, Bool.and_eq_true, Bool.not_eq_true', List.isEmpty_eq_false_iff]
          at signature
        exact signature.1.1
      · cases found
  | variableDeclaration =>
    simp only [step?, variableDeclaration?] at found
    split at found <;> cases found
    exact .endsWord (endsWord_afterWord t)
  | accumulator =>
    simp only [step?, accumulator?] at found
    split at found
    · cases found
    · next rest _ =>
      split at found <;> cases found
      have sign : targetWord ++ Text.gap rest ++ ['+', '='] =
          targetWord ++ Text.gap rest ++ ['+'] ++ ['='] := by simp
      rw [sign]
      exact .closed (by decide)
  | documentationTag =>
    simp only [step?, documentationTag?] at found
    split at found
    · split at found <;> cases found
      exact .endsWord (endsWord_afterWord _)
    · cases found
  | blockCommentBegin =>
    simp only [step?, blockCommentBegin?] at found
    split at found
    · split at found
      · split at found <;> cases found
        · exact .closed (w := ['/']) (by decide)
        · exact .closed (w := ['/', '*']) (by decide)
      · cases found
        exact .closed (w := ['/']) (by decide)
    · cases found
  | blockCommentEnd =>
    simp only [step?, blockCommentEnd?] at found
    split at found <;> cases found
    exact .closed (w := ['*']) (by decide)
  | closer =>
    simp only [step?, closer?] at found
    split at found <;> cases found <;> exact unsplit_close (by decide)
  | initializer | constraintEquals =>
    obtain ⟨rest, _, rfl⟩ := Option.map_eq_some_iff.1 found
    exact .mark (by decide)
  | constraintsBegin | constraintsEnd | sampling | terminator | delimiter | opener =>
    simp only [step?] at found
    first
      | unfold constraintsBegin? at found
      | unfold constraintsEnd? at found
      | unfold sampling? at found
      | unfold terminator? at found
      | unfold delimiter? at found
      | unfold opener? at found
    repeat' split at found
    all_goals cases found
    all_goals exact .mark (by decide)

end Rule

end StanHighlight

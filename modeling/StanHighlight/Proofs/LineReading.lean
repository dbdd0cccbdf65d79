import StanHighlight.Proofs.Stream
import StanHighlight.Text.LineReader

/-!
The lines that a reader gives out. Between two calls the reader stands behind the lines that
it has given, so its offset is a character's and no call fails. The lines come numbered, each
once, and then nothing for ever. They are the only way to cut the text behind its line breaks,
and each line loses the longest terminator that it ends in.
-/

namespace StanHighlight

namespace Text

/-- What stands behind a text starts at its length in bytes. -/
@[simp] theorem from?_append (s t : Text) : from? (s ++ t) (byteLength s) = some t := by
  induction s with
  | nil => simp [from?]
  | cons c s ih =>
    obtain ⟨n, width⟩ := Nat.exists_eq_add_one.2 (c.utf8Size_pos.trans_le
      (Nat.le_add_right _ (byteLength s)))
    have behind : n + 1 - c.utf8Size = byteLength s := by omega
    rw [byteLength_cons, width, List.cons_append, from?, if_pos (by omega), behind, ih]

structure CutAtBreaks (cut : List Text) (t : Text) : Prop where
  whole : cut.flatten = t
  broken : ∀ line ∈ cut.dropLast, ∃ content, '\n' ∉ content ∧ line = content ++ ['\n']
  last : ∃ line, cut.getLast? = some line ∧ '\n' ∉ line

theorem cutAtBreaks_lines (t : Text) : CutAtBreaks (lines t) t := by
  induction t using lines_induction with
  | last t clean =>
    rw [lines_of_notMem clean]
    exact ⟨by simp, by simp, t, rfl, clean⟩
  | line s t clean ih =>
    obtain ⟨next, others, found⟩ := exists_lines_eq_cons t
    rw [lines_append_newline clean]
    refine ⟨?_, fun line mem => ?_, ?_⟩
    · rw [List.flatten_cons, ih.whole, List.append_assoc, List.singleton_append]
    · rw [List.dropLast_cons_of_ne_nil (by simp [found]), List.mem_cons] at mem
      rcases mem with rfl | later
      · exact ⟨s, clean, rfl⟩
      · exact ih.broken line later
    · obtain ⟨line, atEnd, free⟩ := ih.last
      refine ⟨line, ?_, free⟩
      rwa [found, List.getLast?_cons_cons, ← found]

/-- There is one way only to cut a text behind its line breaks. -/
theorem CutAtBreaks.eq_lines {cut : List Text} {t : Text} (h : CutAtBreaks cut t) :
    cut = lines t := by
  induction cut generalizing t with
  | nil =>
    obtain ⟨line, atEnd, _⟩ := h.last
    cases atEnd
  | cons first others ih =>
    cases others with
    | nil =>
      obtain ⟨line, atEnd, clean⟩ := h.last
      obtain rfl : first = line := Option.some.inj atEnd
      rw [← h.whole, List.flatten_singleton, lines_of_notMem clean]
    | cons next others =>
      obtain ⟨content, clean, rfl⟩ := h.broken first (by simp)
      have below : CutAtBreaks (next :: others) (next :: others).flatten :=
        ⟨rfl, fun line mem => h.broken line (by
          rw [List.dropLast_cons_of_ne_nil (by simp)]
          exact List.mem_cons_of_mem _ mem), h.last⟩
      rw [← h.whole, List.flatten_cons, List.append_assoc, List.singleton_append,
        lines_append_newline clean, ← ih below]

/-- What a line loses is nothing or one of the terminators. -/
theorem terminator_eq_nil_or_mem (line : Text) :
    terminator line = [] ∨ terminator line ∈ terminators := by
  rcases List.eq_nil_or_concat line with rfl | ⟨s, c, rfl⟩
  · exact .inl rfl
  · by_cases newline : c = '\n'
    · exact .inr (by simpa [newline] using terminator_newline_mem s)
    · by_cases return_ : c = '\r'
      · right
        simp [return_, terminator, stripTerminator, terminators]
      · left
        simp [terminator, stripTerminator, newline, return_]

/-- No terminator that a line ends in is longer than the one that it loses. -/
theorem suffix_terminator {line w : Text} (h : w ∈ terminators) (ends : w <:+ line) :
    w <:+ terminator line := by
  obtain ⟨s, rfl⟩ := ends
  simp only [terminators, List.mem_cons, List.not_mem_nil, or_false] at h
  rcases h with rfl | rfl | rfl
  · rcases terminator_of_newline s with ⟨_, lost⟩ | ⟨_, lost⟩
    · simp [lost]
    · simp only [lost]
      decide
  · simp [terminator, stripTerminator]
  · simp [terminator, stripTerminator]

end Text

namespace LineReader

open Text (byteLength lines stripTerminator terminators CutAtBreaks)

/-- The answer to the call behind some number of others, if none of them fails. -/
def answer : Nat → LineReader → Option (Option (Nat × Text))
  | 0, r => r.next.map Prod.fst
  | n + 1, r => r.next.bind fun given => answer n given.2

/-- A reader behind some of its text, with the rest of the text in front of it. -/
def behind (passed ahead : Text) (number : Nat) : LineReader :=
  ⟨passed ++ ahead, number, byteLength passed, false⟩

theorem next_last {passed ahead : Text} (number : Nat) (clean : '\n' ∉ ahead) :
    (behind passed ahead number).next =
      some (some (number, ahead),
        ⟨passed ++ ahead, number + 1, byteLength (passed ++ ahead), true⟩) := by
  have unfound : ahead.idxOf? '\n' = none := List.idxOf?_eq_none_iff.2 clean
  simp [next, behind, unfound]

theorem next_line {passed content : Text} (ahead : Text) (number : Nat) (clean : '\n' ∉ content) :
    (behind passed (content ++ '\n' :: ahead) number).next =
      some (some (number, content ++ ['\n']),
        behind (passed ++ (content ++ ['\n'])) ahead (number + 1)) := by
  have before : content.findIdx? (· == '\n') = none := List.idxOf?_eq_none_iff.2 clean
  have found : (content ++ '\n' :: ahead).idxOf? '\n' = some content.length := by
    simp [List.idxOf?, List.findIdx?_append, List.findIdx?_cons, before]
  have line : (content ++ '\n' :: ahead).take (content.length + 1) = content ++ ['\n'] := by
    rw [List.take_append, List.take_of_length_le (Nat.le_succ _)]
    simp
  simp [next, behind, found, line]

/-- A reader that is done stays so. -/
theorem answer_of_done {r : LineReader} (h : r.done = true) (n : Nat) :
    r.answer n = some none := by
  have given : r.next = some (none, r) := by rw [next, if_pos h]
  induction n with
  | zero => rw [answer, given]; rfl
  | succ n ih => rw [answer, given]; exact ih

/-- A reader gives out the lines in front of it, numbered, and then nothing. -/
theorem answer_behind (passed ahead : Text) (number n : Nat) :
    (behind passed ahead number).answer n =
      some (((lines ahead).zipIdx number)[n]?.map Prod.swap) := by
  induction ahead using Text.lines_induction generalizing passed number n with
  | last ahead clean =>
    rw [Text.lines_of_notMem clean]
    cases n with
    | zero => rw [answer, next_last number clean]; rfl
    | succ n =>
      rw [answer, next_last number clean]
      exact answer_of_done rfl n
  | line content ahead clean ih =>
    rw [Text.lines_append_newline clean]
    cases n with
    | zero => rw [answer, next_line ahead number clean]; rfl
    | succ n =>
      rw [answer, next_line ahead number clean]
      exact ih _ (number + 1) n

/-- The answers of a text's reader are its numbered lines, in order. -/
theorem answer_ofText (t : Text) (n : Nat) :
    (ofText t).answer n = some ((Text.numberedLines t)[n]?.map Prod.swap) :=
  answer_behind [] t 0 n

/-- For every text, the lines are the only way to cut it behind its line breaks, one line more
than there are line breaks; a reader gives them out numbered from zero and then nothing,
whenever it is asked, and no call fails. For every line, what it loses is nothing or a
terminator, and every terminator that it ends in is part of what it loses. -/
theorem reads_lines (t : Text) :
    (CutAtBreaks (lines t) t ∧ ∀ cut, CutAtBreaks cut t → cut = lines t) ∧
      (lines t).length = t.count '\n' + 1 ∧
      (∀ n, (ofText t).answer n = some ((lines t)[n]?.map fun line => (n, line))) ∧
      ∀ line, ∃ removed, line = stripTerminator line ++ removed ∧
        (removed = [] ∨ removed ∈ terminators) ∧
        ∀ w ∈ terminators, w <:+ line → w <:+ removed := by
  refine ⟨⟨Text.cutAtBreaks_lines t, fun cut h => h.eq_lines⟩, Text.length_lines t, fun n => ?_,
    fun line => ⟨Text.terminator line, (Text.stripTerminator_append_terminator line).symm,
      Text.terminator_eq_nil_or_mem line, fun w h => Text.suffix_terminator h⟩⟩
  rw [answer_ofText, Text.numberedLines, List.getElem?_zipIdx, Option.map_map]
  simp [Function.comp_def]

end LineReader

end StanHighlight

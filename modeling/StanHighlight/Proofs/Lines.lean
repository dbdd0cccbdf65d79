import StanHighlight.Text.Line

/-!
How a text falls into lines. A text is a last line or else a line, a line break and a
shorter text, and the lines of the text follow these two cases. What remains of a line
without its terminator holds no line break.
-/

namespace StanHighlight.Text

theorem lines_of_notMem {t : Text} (h : '\n' ∉ t) : lines t = [t] := by
  induction t with
  | nil => rfl
  | cons c t ih =>
    rw [List.mem_cons, not_or] at h
    rw [lines_cons, ih h.2, addToLines, if_neg (Ne.symm h.1)]

theorem lines_append_newline {s t : Text} (h : '\n' ∉ s) :
    lines (s ++ '\n' :: t) = (s ++ ['\n']) :: lines t := by
  induction s with
  | nil => simp [addToLines]
  | cons c s ih =>
    rw [List.mem_cons, not_or] at h
    rw [List.cons_append, lines_cons, ih h.2, addToLines, if_neg (Ne.symm h.1)]
    rfl

/-- What holds of every text without a line break, and of a text whenever it holds of what
follows the first line, holds of every text. -/
@[elab_as_elim]
theorem lines_induction {motive : Text → Prop} (last : ∀ t, '\n' ∉ t → motive t)
    (line : ∀ s t, '\n' ∉ s → motive t → motive (s ++ '\n' :: t)) (t : Text) : motive t := by
  by_cases h : '\n' ∈ t
  · obtain ⟨s, rest, whole, first⟩ := List.eq_append_cons_of_mem h
    have shorter : rest.length < t.length := by simp [whole]; omega
    exact whole ▸ line s rest first (lines_induction last line rest)
  · exact last t h
termination_by t.length

/-- Even the empty text has a line. -/
theorem exists_lines_eq_cons (t : Text) : ∃ line others, lines t = line :: others := by
  induction t using lines_induction with
  | last t h => exact ⟨t, [], lines_of_notMem h⟩
  | line s t h _ => exact ⟨s ++ ['\n'], lines t, lines_append_newline h⟩

/-- The last line of a text, which is empty after a line break. -/
def lastLine (t : Text) : Text := t.lines.getLastD []

theorem lastLine_of_notMem {t : Text} (h : '\n' ∉ t) : lastLine t = t := by
  rw [lastLine, lines_of_notMem h]
  rfl

theorem lastLine_append_newline {s t : Text} (h : '\n' ∉ s) :
    lastLine (s ++ '\n' :: t) = lastLine t := by
  obtain ⟨line, others, found⟩ := exists_lines_eq_cons t
  rw [lastLine, lines_append_newline h, lastLine, found]
  rfl

theorem newline_notMem_lastLine (t : Text) : '\n' ∉ lastLine t := by
  induction t using lines_induction with
  | last t h => rwa [lastLine_of_notMem h]
  | line s t h ih => rwa [lastLine_append_newline h]

/-- A text ends like its last line, unless that is empty. -/
theorem getLast?_lastLine {t : Text} {c : Char} (h : t.getLast? = some c) (hc : c ≠ '\n') :
    (lastLine t).getLast? = some c := by
  induction t using lines_induction with
  | last t last => rwa [lastLine_of_notMem last]
  | line s t first ih =>
    rw [lastLine_append_newline first]
    apply ih
    cases t with
    | nil =>
      rw [List.getLast?_concat] at h
      exact absurd (Option.some.inj h).symm hc
    | cons d t => simpa [List.getLast?_append, List.getLast?_cons] using h

def terminators : List Text := [['\n'], ['\r', '\n'], ['\r']]

/-- A terminator ends in its line break or has none. -/
theorem newline_of_mem_terminators {w : Text} (h : w ∈ terminators) :
    (∃ s, '\n' ∉ s ∧ w = s ++ ['\n']) ∨ '\n' ∉ w := by
  simp only [terminators, List.mem_cons, List.not_mem_nil, or_false] at h
  rcases h with rfl | rfl | rfl
  · exact .inl ⟨[], by decide, rfl⟩
  · exact .inl ⟨['\r'], by decide, rfl⟩
  · exact .inr (by decide)

/-- A line that ends in a line break has it, alone or behind a `\r`, as its terminator. -/
theorem terminator_of_newline (s : Text) :
    stripTerminator (s ++ ['\n']) = s ∧ terminator (s ++ ['\n']) = ['\n'] ∨
      s = stripTerminator (s ++ ['\n']) ++ ['\r'] ∧ terminator (s ++ ['\n']) = ['\r', '\n'] := by
  by_cases h : s.getLast? = some '\r'
  · obtain ⟨content, rfl⟩ := List.getLast?_eq_some_iff.1 h
    right
    have strip : stripTerminator (content ++ ['\r'] ++ ['\n']) = content := by
      simp [stripTerminator]
    rw [terminator, strip]
    exact ⟨rfl, by simp⟩
  · left
    have strip : stripTerminator (s ++ ['\n']) = s := by
      rw [stripTerminator, List.reverse_append]
      rw [← List.head?_reverse] at h
      cases reversed : s.reverse with
      | nil => simpa using reversed.symm
      | cons c content =>
        rw [reversed] at h
        have hc : c ≠ '\r' := fun e => h (by simp [e])
        simpa [hc] using (congrArg List.reverse reversed).symm
    rw [terminator, strip]
    exact ⟨rfl, by simp⟩

theorem terminator_newline_mem (s : Text) : terminator (s ++ ['\n']) ∈ terminators := by
  rcases terminator_of_newline s with ⟨_, h⟩ | ⟨_, h⟩
  · rw [h]
    decide
  · rw [h]
    decide

theorem newline_notMem_stripTerminator {s : Text} (h : '\n' ∉ s) :
    '\n' ∉ stripTerminator (s ++ ['\n']) := by
  intro mem
  rcases terminator_of_newline s with ⟨strip, _⟩ | ⟨strip, _⟩
  · exact h (strip ▸ mem)
  · exact h (strip ▸ List.mem_append_left _ mem)

/-- A line without a line break keeps all its characters exactly when it does not end in `\r`. -/
theorem stripTerminator_eq_self_iff {t : Text} (h : '\n' ∉ t) :
    stripTerminator t = t ↔ t.getLast? ≠ some '\r' := by
  constructor
  · intro strip ends
    obtain ⟨content, rfl⟩ := List.getLast?_eq_some_iff.1 ends
    have : stripTerminator (content ++ ['\r']) = content := by simp [stripTerminator]
    rw [this] at strip
    exact absurd (congrArg List.length strip) (by simp)
  · intro ends
    rw [← List.head?_reverse] at ends
    have clean : '\n' ∉ t.reverse := by simpa using h
    unfold stripTerminator
    split
    · next found => simp [found] at clean
    · next found => simp [found] at clean
    · next found => simp [found] at ends
    · rfl

end StanHighlight.Text

import StanHighlight.Text.Basic

/-!
Lines and their terminators. A text is cut after each `\n`, so it has one line more
than it has such characters and the last line may be empty. A line may end in
`\n`, `\r\n` or `\r`; the longest of these that it ends in is its terminator.
-/

namespace StanHighlight.Text

/-- Puts one more character in front of a text that is already cut into lines. -/
def addToLines (c : Char) (lines : List Text) : List Text :=
  if c = '\n' then [c] :: lines else
  match lines with
  | [] => [[c]]
  | line :: others => (c :: line) :: others

/-- The lines of a text, each with its terminator. -/
def lines (t : Text) : List Text := t.foldr addToLines [[]]

@[simp] theorem lines_nil : lines [] = [[]] := rfl

@[simp] theorem lines_cons (c : Char) (t : Text) : lines (c :: t) = addToLines c (lines t) := rfl

def numberedLines (t : Text) : List (Text × Nat) := (lines t).zipIdx

def stripTerminator (line : Text) : Text :=
  match line.reverse with
  | '\n' :: '\r' :: content => content.reverse
  | '\n' :: content => content.reverse
  | '\r' :: content => content.reverse
  | _ => line

/-- The terminator of a line, empty when it has none. -/
def terminator (line : Text) : Text := line.drop (stripTerminator line).length

theorem stripTerminator_isInitial (line : Text) : stripTerminator line <+: line := by
  unfold stripTerminator
  split
  · next content h => exact ⟨['\r', '\n'], by simpa using congrArg List.reverse h.symm⟩
  · next content _ h => exact ⟨['\n'], by simpa using congrArg List.reverse h.symm⟩
  · next content h => exact ⟨['\r'], by simpa using congrArg List.reverse h.symm⟩
  · exact List.prefix_rfl

@[simp] theorem stripTerminator_append_terminator (line : Text) :
    stripTerminator line ++ terminator line = line :=
  List.prefix_iff_eq_append.1 (stripTerminator_isInitial line)

end StanHighlight.Text

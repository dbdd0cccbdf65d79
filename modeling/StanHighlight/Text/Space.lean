import StanHighlight.Text.Basic

/-!
Blank characters and the words between them. A character is blank exactly when
Unicode gives it the property `White_Space`, so the blanks of ASCII are among them.
-/

namespace StanHighlight.Text

/-- First and last character of each range that has the property `White_Space`. -/
def spaceRanges : List (Char × Char) :=
  [('\x09', '\x0d'), (' ', ' '), ('\u0085', '\u0085'), ('\u00a0', '\u00a0'),
   ('\u1680', '\u1680'), ('\u2000', '\u200a'), ('\u2028', '\u2029'), ('\u202f', '\u202f'),
   ('\u205f', '\u205f'), ('\u3000', '\u3000')]

def isSpace (c : Char) : Bool :=
  spaceRanges.any fun range => range.1 ≤ c && c ≤ range.2

/-- The blanks that a text starts with. -/
def gap (t : Text) : Text := t.takeWhile isSpace

def trimStart (t : Text) : Text := t.dropWhile isSpace

@[simp] theorem gap_append_trimStart (t : Text) : gap t ++ trimStart t = t :=
  List.takeWhile_append_dropWhile

theorem length_trimStart_le (t : Text) : (trimStart t).length ≤ t.length :=
  (List.dropWhile_sublist isSpace).length_le

/-- The maximal runs of characters that are not blank. -/
def words (t : Text) : List Text :=
  match _h : trimStart t with
  | [] => []
  | c :: rest =>
    (c :: rest).takeWhile (fun d => !isSpace d) :: words (rest.dropWhile fun d => !isSpace d)
termination_by t.length
decreasing_by
  have shorter := length_trimStart_le t
  have dropped := (List.dropWhile_sublist (fun d => !isSpace d) (l := rest)).length_le
  rw [_h, List.length_cons] at shorter
  omega

end StanHighlight.Text

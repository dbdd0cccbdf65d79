import StanHighlight.Text.Basic

/-!
Letters, digits and the words made of them. All three classes are ASCII: a letter
with an accent neither starts nor continues a word.
-/

namespace StanHighlight.Text

def isWordChar (c : Char) : Bool := c.isAlphanum || c == '_'

def startsWord (c : Char) : Bool := c.isAlpha || c == '_'

theorem isWordChar_of_startsWord {c : Char} (h : startsWord c = true) : isWordChar c = true := by
  simp only [startsWord, isWordChar, Char.isAlphanum, Bool.or_eq_true] at h ⊢
  exact h.imp_left .inl

/-- The word characters that a text starts with. -/
def word (t : Text) : Text := t.takeWhile isWordChar

def afterWord (t : Text) : Text := t.dropWhile isWordChar

@[simp] theorem word_append_afterWord (t : Text) : word t ++ afterWord t = t :=
  List.takeWhile_append_dropWhile

def digits (t : Text) : Text := t.takeWhile Char.isDigit

def afterDigits (t : Text) : Text := t.dropWhile Char.isDigit

@[simp] theorem digits_append_afterDigits (t : Text) : digits t ++ afterDigits t = t :=
  List.takeWhile_append_dropWhile

end StanHighlight.Text

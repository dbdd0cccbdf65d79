/-!
Source text as a list of characters. Offsets into a line count the bytes of its
UTF-8 form, so a character weighs between one and four. A fixed spelling at the
start of a text is read by `after?`, which succeeds exactly when it is there.
-/

namespace StanHighlight

abbrev Text := List Char

namespace Text

def byteLength : Text → Nat
  | [] => 0
  | c :: t => c.utf8Size + byteLength t

@[simp] theorem byteLength_nil : byteLength [] = 0 := rfl

@[simp] theorem byteLength_cons (c : Char) (t : Text) :
    byteLength (c :: t) = c.utf8Size + byteLength t := rfl

@[simp] theorem byteLength_append (s t : Text) :
    byteLength (s ++ t) = byteLength s + byteLength t := by
  induction s with
  | nil => simp
  | cons c s ih => simp [ih, Nat.add_assoc]

theorem byteLength_pos {t : Text} (h : t ≠ []) : 0 < byteLength t := by
  cases t with
  | nil => exact absurd rfl h
  | cons c t =>
    rw [byteLength_cons]
    exact Nat.add_pos_left c.utf8Size_pos _

/-- What follows `opening` in a text that starts with it. -/
def after? : (t opening : Text) → Option Text
  | t, [] => some t
  | [], _ :: _ => none
  | c :: t, o :: opening => if c = o then after? t opening else none

theorem after?_eq_some_iff {t opening rest : Text} :
    t.after? opening = some rest ↔ t = opening ++ rest := by
  induction opening generalizing t with
  | nil => simp [after?]
  | cons o opening ih =>
    cases t with
    | nil => simp [after?]
    | cons c t =>
      by_cases h : c = o
      · simp [after?, h, ih]
      · simp [after?, h]

@[simp] theorem after?_append (opening rest : Text) :
    after? (opening ++ rest) opening = some rest :=
  after?_eq_some_iff.2 rfl

end Text

end StanHighlight

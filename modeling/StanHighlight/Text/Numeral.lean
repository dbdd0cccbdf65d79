import StanHighlight.Text.Word

/-!
Numerals. An integer is a run of digits. A real has a point with a digit on at least
one side, or an exponent, or both; a sign belongs to a numeral only inside the
exponent. The longest numeral at the start of a text is taken.
-/

namespace StanHighlight.Text

inductive Numeral where
  | integer | real
  deriving DecidableEq, Repr

def sign : Text → Text
  | '+' :: _ => ['+']
  | '-' :: _ => ['-']
  | _ => []

def afterSign : Text → Text
  | '+' :: t => t
  | '-' :: t => t
  | t => t

@[simp] theorem sign_append_afterSign (t : Text) : sign t ++ afterSign t = t := by
  unfold sign afterSign
  split <;> simp_all

/-- The exponent at the start of a text, with the text after it. There is none without
a digit. -/
def exponent? : Text → Option (Text × Text)
  | [] => none
  | c :: t =>
    if (c = 'e' ∨ c = 'E') ∧ digits (afterSign t) ≠ [] then
      some (c :: (sign t ++ digits (afterSign t)), afterDigits (afterSign t))
    else none

theorem exponent?_append {t taken rest : Text} (h : exponent? t = some (taken, rest)) :
    taken ++ rest = t := by
  unfold exponent? at h
  split at h
  · cases h
  · split at h
    · cases h
      simp
    · cases h

def numeral? (t : Text) : Option (Numeral × Text × Text) :=
  match afterDigits t with
  | '.' :: fraction =>
    if digits t = [] ∧ digits fraction = [] then none else
    let mantissa := digits t ++ '.' :: digits fraction
    match exponent? (afterDigits fraction) with
    | some (power, rest) => some (.real, mantissa ++ power, rest)
    | none => some (.real, mantissa, afterDigits fraction)
  | after =>
    if digits t = [] then none else
    match exponent? after with
    | some (power, rest) => some (.real, digits t ++ power, rest)
    | none => some (.integer, digits t, after)

theorem numeral?_append {t taken rest : Text} {kind : Numeral}
    (h : numeral? t = some (kind, taken, rest)) : taken ++ rest = t := by
  unfold numeral? at h
  split at h
  · next fraction point =>
    have whole : digits t ++ '.' :: fraction = t := point ▸ digits_append_afterDigits t
    split at h
    · cases h
    · split at h
      · next found =>
        cases h
        simpa [exponent?_append found] using whole
      · cases h
        simpa using whole
  · split at h
    · cases h
    · split at h
      · next found =>
        cases h
        simp [exponent?_append found]
      · cases h
        simp

theorem numeral?_ne_nil {t taken rest : Text} {kind : Numeral}
    (h : numeral? t = some (kind, taken, rest)) : taken ≠ [] := by
  unfold numeral? at h
  split at h
  · split at h
    · cases h
    · split at h <;> cases h <;> simp
  · split at h
    · cases h
    · split at h <;> cases h <;> simp_all

end StanHighlight.Text

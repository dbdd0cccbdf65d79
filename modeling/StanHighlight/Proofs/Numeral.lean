import StanHighlight.Proofs.FirstToken
import StanHighlight.Proofs.Literal
import StanHighlight.Proofs.Reachable
import StanHighlight.Proofs.Trailing

/-!
Numerals at the start of a line. A grammar says which texts are numerals; the scanner takes the
longest of them that the line begins with, although it looks for a point and for an exponent only
once. With the word characters that follow it, if there are any, the numeral is one token, which
leaves no trace in what is read behind it.
-/

namespace StanHighlight

namespace Text

variable {t u v w : Text} {c : Char}

/-- A text whose first characters make a numeral begin there: a digit, or a point with a digit. -/
def StartsNumeral (t : Text) : Prop :=
  t.head?.any Char.isDigit = true ∨ ∃ u, t = '.' :: u ∧ u.head?.any Char.isDigit = true

structure IsDigits (t : Text) : Prop where
  visible : t ≠ []
  digits : ∀ c ∈ t, c.isDigit = true

inductive SpellsExponent : Text → Prop
  | scaled {e : Char} {sign ds : Text} (letter : e = 'e' ∨ e = 'E')
      (signed : sign = [] ∨ sign = ['+'] ∨ sign = ['-']) (digits : IsDigits ds) :
      SpellsExponent (e :: (sign ++ ds))

/-- A numeral is an integer, or digits with a point, in front of which or behind which there may be
none, and perhaps an exponent, or digits with an exponent. -/
inductive SpellsNumeral : Text → Prop
  | integer {w : Text} (whole : IsDigits w) : SpellsNumeral w
  | point {w f p : Text} (whole : IsDigits w) (fraction : f = [] ∨ IsDigits f)
      (power : p = [] ∨ SpellsExponent p) : SpellsNumeral (w ++ '.' :: (f ++ p))
  | fraction {f p : Text} (fraction : IsDigits f) (power : p = [] ∨ SpellsExponent p) :
      SpellsNumeral ('.' :: (f ++ p))
  | scientific {w p : Text} (whole : IsDigits w) (power : SpellsExponent p) :
      SpellsNumeral (w ++ p)

structure LongestNumeral (w t : Text) : Prop where
  spelled : SpellsNumeral w
  front : w <+: t
  longest : ∀ v, SpellsNumeral v → v <+: t → v.length ≤ w.length

def hasRealMark (w : Text) : Bool := w.any fun c => c == '.' || c == 'e' || c == 'E'

/-- The exponent that a text begins with, if it begins with one. -/
def power (t : Text) : Text := ((exponent? t).map Prod.fst).getD []

section Digits

theorem isDigits_digits (h : digits t ≠ []) : IsDigits (digits t) :=
  ⟨h, List.all_eq_true.1 List.all_takeWhile⟩

/-- Digits at the start of a text are among those that are taken there. -/
theorem isPrefix_digits (all : ∀ c ∈ w, c.isDigit = true) (front : w <+: t) : w <+: digits t := by
  obtain ⟨more, rfl⟩ := front
  rw [digits, List.takeWhile_append_of_pos all]
  exact List.prefix_append _ _

/-- Digits with something else behind them are all that are taken. -/
theorem digits_of_cons (all : ∀ c ∈ w, c.isDigit = true) (stop : c.isDigit = false)
    (front : w ++ c :: v <+: t) : digits t = w ∧ c :: v <+: afterDigits t := by
  obtain ⟨more, rfl⟩ := front
  rw [List.append_assoc, digits, afterDigits, List.takeWhile_append_of_pos all,
    List.dropWhile_append_of_pos all]
  simp [stop]

theorem digits_eq_nil_of_cons (stop : c.isDigit = false) (t : Text) :
    digits (c :: t) = [] ∧ afterDigits (c :: t) = c :: t := by
  simp [digits, afterDigits, stop]

end Digits

section Powers

theorem power_eq_nil_or (t : Text) : power t = [] ∨ SpellsExponent (power t) := by
  cases t with
  | nil => exact .inl rfl
  | cons e t =>
    by_cases scaled : (e = 'e' ∨ e = 'E') ∧ digits (afterSign t) ≠ []
    · have signed : sign t = [] ∨ sign t = ['+'] ∨ sign t = ['-'] := by
        unfold sign
        split <;> simp
      simp only [power, exponent?, if_pos scaled]
      exact .inr (.scaled scaled.1 signed (isDigits_digits scaled.2))
    · simp [power, exponent?, scaled]

theorem SpellsExponent.hasRealMark (spelled : SpellsExponent w) : hasRealMark w = true := by
  cases spelled with
  | scaled letter _ _ => rcases letter with rfl | rfl <;> rfl

theorem exponent?_ne_nil {p rest : Text} (h : exponent? t = some (p, rest)) : p ≠ [] := by
  unfold exponent? at h
  split at h
  · cases h
  · split at h <;> cases h
    exact List.cons_ne_nil _ _

/-- An exponent at the start of a text is in front of the one that is taken there. -/
theorem SpellsExponent.isPrefix_power (spelled : SpellsExponent w) (front : w <+: t) :
    w <+: power t := by
  cases spelled with
  | @scaled e sign' ds letter signed number =>
    obtain ⟨more, rfl⟩ := front
    have split : sign (sign' ++ ds ++ more) = sign' ∧
        afterSign (sign' ++ ds ++ more) = ds ++ more := by
      rcases signed with rfl | rfl | rfl
      · obtain ⟨d, ds, rfl⟩ := List.exists_cons_of_ne_nil number.visible
        have digit := number.digits d List.mem_cons_self
        have plus : d ≠ '+' := by
          rintro rfl
          cases digit
        have minus : d ≠ '-' := by
          rintro rfl
          cases digit
        simp [sign, afterSign, plus, minus]
      · exact ⟨rfl, rfl⟩
      · exact ⟨rfl, rfl⟩
    have inside : ds <+: digits (ds ++ more) := isPrefix_digits number.digits (List.prefix_append _ _)
    have some_digit : digits (ds ++ more) ≠ [] := by
      intro none
      rw [none] at inside
      exact number.visible (List.prefix_nil.1 inside)
    simp only [List.cons_append, power, exponent?, split.1, split.2, letter, some_digit, ne_eq,
      not_false_eq_true, and_self, if_true, Option.map_some, Option.getD_some]
    rw [List.prefix_cons_inj]
    exact (List.prefix_append_right_inj _).2 inside

/-- Digits and an exponent behind them are no longer than those that are taken. -/
theorem length_le_of_ending (digit : ∀ c ∈ v, c.isDigit = true) (ends : w = [] ∨ SpellsExponent w)
    (front : v ++ w <+: t) : (v ++ w).length ≤ (digits t ++ power (afterDigits t)).length := by
  rcases ends with rfl | spelled
  · rw [List.append_nil] at front ⊢
    exact (isPrefix_digits digit front).length_le.trans (by simp)
  · have marked : ∃ e p, w = e :: p ∧ e.isDigit = false := by
      cases spelled with
      | scaled letter _ _ => exact ⟨_, _, rfl, by rcases letter with rfl | rfl <;> rfl⟩
    obtain ⟨e, p, rfl, stop⟩ := marked
    obtain ⟨taken, later⟩ := digits_of_cons digit stop front
    have short := (spelled.isPrefix_power later).length_le
    rw [taken, List.length_append, List.length_append]
    omega

end Powers

section Scanner

variable {kind : Numeral} {rest : Text}

/-- What the scanner takes where a point follows the digits. -/
theorem taken_of_point (point : afterDigits t = '.' :: u) (h : numeral? t = some (kind, w, rest)) :
    kind = .real ∧ w = digits t ++ '.' :: (digits u ++ power (afterDigits u)) ∧
      (digits t ≠ [] ∨ digits u ≠ []) := by
  unfold numeral? at h
  rw [point] at h
  simp only at h
  split at h
  · cases h
  · next some_digit =>
    rw [not_and_or] at some_digit
    split at h
    · next found =>
      cases h
      exact ⟨rfl, by simp [power, found], some_digit⟩
    · next none =>
      cases h
      exact ⟨rfl, by simp [power, none], some_digit⟩

theorem taken_of_no_point (other : (afterDigits t).head? ≠ some '.')
    (h : numeral? t = some (kind, w, rest)) : digits t ≠ [] ∧
      w = digits t ++ power (afterDigits t) ∧
      (kind = .real ↔ power (afterDigits t) ≠ []) := by
  rw [numeral?_of_no_point other] at h
  split at h
  · cases h
  · next some_digit =>
    split at h
    · next found =>
      cases h
      exact ⟨some_digit, by simp [power, found], by simp [power, found, exponent?_ne_nil found]⟩
    · next none =>
      cases h
      exact ⟨some_digit, by simp [power, none], by simp [power, none]⟩

/-- What is taken is a numeral. -/
theorem spelled_of_numeral? (h : numeral? t = some (kind, w, rest)) : SpellsNumeral w := by
  by_cases point : (afterDigits t).head? = some '.'
  · obtain ⟨u, point⟩ := List.head?_eq_some_iff.1 point
    obtain ⟨_, rfl, some_digit⟩ := taken_of_point point h
    have ends := power_eq_nil_or (afterDigits u)
    by_cases whole : digits t = []
    · rw [whole, List.nil_append]
      exact .fraction (isDigits_digits (some_digit.resolve_left fun other => other whole)) ends
    · refine .point (isDigits_digits whole) ?_ ends
      by_cases fraction : digits u = []
      · exact .inl fraction
      · exact .inr (isDigits_digits fraction)
  · obtain ⟨whole, rfl, _⟩ := taken_of_no_point point h
    rcases power_eq_nil_or (afterDigits t) with none | spelled
    · rw [none, List.append_nil]
      exact .integer (isDigits_digits whole)
    · exact .scientific (isDigits_digits whole) spelled

/-- A numeral is digits with an ending, or has a point between digits and more of them. -/
theorem SpellsNumeral.parts (spelled : SpellsNumeral v) :
    (∃ w p, v = w ++ p ∧ (∀ c ∈ w, c.isDigit = true) ∧ (p = [] ∨ SpellsExponent p)) ∨
      ∃ w f p, v = w ++ '.' :: (f ++ p) ∧ (∀ c ∈ w, c.isDigit = true) ∧
        (∀ c ∈ f, c.isDigit = true) ∧ (p = [] ∨ SpellsExponent p) := by
  cases spelled with
  | integer whole => exact .inl ⟨v, [], by simp, whole.digits, .inl rfl⟩
  | @point w f p whole fraction power =>
    refine .inr ⟨w, f, p, rfl, whole.digits, ?_, power⟩
    rcases fraction with rfl | fraction
    · exact nofun
    · exact fraction.digits
  | @fraction f p fraction power => exact .inr ⟨[], f, p, rfl, nofun, fraction.digits, power⟩
  | @scientific w p whole power => exact .inl ⟨w, p, rfl, whole.digits, .inr power⟩

/-- No numeral that the text begins with is longer: a point or an exponent can only stand where the
scanner looks for it, behind all the digits in front of it. -/
theorem length_le_of_numeral? (h : numeral? t = some (kind, w, rest)) (spelled : SpellsNumeral v)
    (front : v <+: t) : v.length ≤ w.length := by
  by_cases point : (afterDigits t).head? = some '.'
  · obtain ⟨u, point⟩ := List.head?_eq_some_iff.1 point
    obtain ⟨_, rfl, _⟩ := taken_of_point point h
    rcases spelled.parts with ⟨w, p, rfl, whole, ends⟩ | ⟨w, f, p, rfl, whole, fraction, ends⟩
    · have short := length_le_of_ending whole ends front
      have none : power ('.' :: u) = [] := by simp [power, exponent?]
      rw [point, none, List.append_nil] at short
      exact short.trans (by simp)
    · obtain ⟨rfl, later⟩ := digits_of_cons whole (by decide) front
      rw [point, List.prefix_cons_inj] at later
      simpa using length_le_of_ending fraction ends later
  · obtain ⟨_, rfl, _⟩ := taken_of_no_point point h
    rcases spelled.parts with ⟨w, p, rfl, whole, ends⟩ | ⟨w, f, p, rfl, whole, _⟩
    · exact length_le_of_ending whole ends front
    · obtain ⟨more, later⟩ := (digits_of_cons whole (by decide) front).2
      rw [← later] at point
      exact absurd rfl point

theorem longest_of_numeral? (h : numeral? t = some (kind, w, rest)) : LongestNumeral w t :=
  ⟨spelled_of_numeral? h, ⟨rest, numeral?_append h⟩, fun _ => length_le_of_numeral? h⟩

/-- A numeral is real if a point or an exponent marks it. -/
theorem real_iff_of_numeral? (h : numeral? t = some (kind, w, rest)) :
    kind = .real ↔ hasRealMark w = true := by
  by_cases point : (afterDigits t).head? = some '.'
  · obtain ⟨u, point⟩ := List.head?_eq_some_iff.1 point
    obtain ⟨rfl, rfl, _⟩ := taken_of_point point h
    simp [hasRealMark]
  · obtain ⟨_, rfl, real⟩ := taken_of_no_point point h
    have unmarked : hasRealMark (digits t) = false := by
      refine List.any_eq_false.2 fun c mem => ?_
      have digit : c.isDigit = true := List.all_eq_true.1 List.all_takeWhile c mem
      simp only [Bool.or_eq_true, beq_iff_eq, not_or]
      refine ⟨⟨?_, ?_⟩, ?_⟩ <;> rintro rfl <;> cases digit
    rw [real, hasRealMark, List.any_append, ← hasRealMark, unmarked, Bool.false_or]
    rcases power_eq_nil_or (afterDigits t) with none | spelled
    · simp [none]
    · have marked := spelled.hasRealMark
      generalize power (afterDigits t) = p at marked
      have some_char : p ≠ [] := by
        rintro rfl
        cases marked
      exact ⟨fun _ => marked, fun _ => some_char⟩

/-- Where a digit stands, or a point with a digit, a numeral is taken. -/
theorem exists_numeral? (starts : StartsNumeral t) :
    ∃ kind w rest, numeral? t = some (kind, w, rest) := by
  have some_digit : ∀ u : Text, u.head?.any Char.isDigit = true → digits u ≠ [] := by
    intro u digit
    cases u with
    | nil => cases digit
    | cons c u =>
      have first : c.isDigit = true := digit
      simp [digits, first]
  by_cases point : (afterDigits t).head? = some '.'
  · obtain ⟨u, point⟩ := List.head?_eq_some_iff.1 point
    have present : ¬(digits t = [] ∧ digits u = []) := by
      rcases starts with digit | ⟨u', rfl, digit⟩
      · exact fun none => some_digit t digit none.1
      · rw [(digits_eq_nil_of_cons rfl u').2] at point
        obtain rfl := (List.cons.inj point).2
        exact fun none => some_digit u' digit none.2
    unfold numeral?
    rw [point]
    simp only [if_neg present]
    split <;> exact ⟨_, _, _, rfl⟩
  · rcases starts with digit | ⟨u, rfl, _⟩
    · rw [numeral?_of_no_point point, if_neg (some_digit t digit)]
      split <;> exact ⟨_, _, _, rfl⟩
    · rw [(digits_eq_nil_of_cons rfl u).2] at point
      exact absurd rfl point

end Scanner

end Text

variable {s : LineState} {t w rest : Text} {kind : Text.Numeral}

/-- Outside comments a numeral is cut where it begins, whatever the region. -/
theorem take_numeral (lexer : Lexer) (assigned : Bool) (code : s.innermost.isBlockComment = false)
    (h : Text.numeral? t = some (kind, w, rest)) :
    Step.take lexer assigned s t =
      if Text.word rest = [] then .single s [if kind = .real then .real else .integer] w rest
      else .single s [.malformed] (w ++ Text.word rest) (Text.afterWord rest) := by
  obtain ⟨c, t, rfl, starts⟩ := Text.head_of_numeral? h
  have first : ∀ table ∈ Rule.tables,
      (table.filter fun rule => rule.startsAt c).head? = some .number := by
    simp only [Bool.or_eq_true, beq_iff_eq] at starts
    rcases starts with digit | rfl
    · simp only [startsAt_of_isDigit digit]
      decide
    · decide
  refine Step.take_mark code first ?_
  simp only [Rule.step?, Rule.number?, h]
  split <;> rfl

/-- A terminator is no part of a word, and so has no part in what stands behind one. -/
theorem Text.word_stripTerminator (t : Text) : word (stripTerminator t) = word t ∧
    stripTerminator (afterWord t) = afterWord (stripTerminator t) := by
  have blank : word (terminator t) = [] := by
    cases found : terminator t with
    | nil => rfl
    | cons c rest =>
      have space : isSpace c = true := isSpace_of_mem_terminator c (by rw [found]; simp)
      simp [word, isWordChar_of_isSpace space]
  have same : word (stripTerminator t) = word t := by
    rw [← word_append_of_word_eq_nil blank, stripTerminator_append_terminator]
  have strips := stripTerminator_append_of_word (w := word t) List.all_takeWhile (afterWord t)
  rw [word_append_afterWord, ← word_append_afterWord (stripTerminator t), same] at strips
  exact ⟨same, (List.append_cancel_left strips).symm⟩

theorem Text.isSpace_of_isDigit {c : Char} (h : c.isDigit = true) : isSpace c = false :=
  isSpace_of_isWordChar (by simp [isWordChar, Char.isAlphanum, h])

/-- A numeral is visible text. -/
theorem Text.SpellsNumeral.visible (spelled : SpellsNumeral w) : ∀ c ∈ w, isSpace c = false := by
  have ending : ∀ {p : Text}, p = [] ∨ SpellsExponent p → ∀ c ∈ p, isSpace c = false := by
    rintro p (rfl | spelled) c mem
    · cases mem
    · cases spelled with
      | scaled letter signed digits =>
        simp only [List.mem_cons, List.mem_append] at mem
        rcases mem with rfl | mem | mem
        · rcases letter with rfl | rfl <;> rfl
        · rcases signed with rfl | rfl | rfl
          · cases mem
          · rw [List.mem_singleton.1 mem]
            rfl
          · rw [List.mem_singleton.1 mem]
            rfl
        · exact isSpace_of_isDigit (digits.digits c mem)
  rcases spelled.parts with ⟨w, p, rfl, whole, ends⟩ | ⟨w, f, p, rfl, whole, fraction, ends⟩
  · intro c mem
    rcases List.mem_append.1 mem with mem | mem
    · exact isSpace_of_isDigit (whole c mem)
    · exact ending ends c mem
  · intro c mem
    simp only [List.mem_append, List.mem_cons] at mem
    rcases mem with mem | rfl | mem | mem
    · exact isSpace_of_isDigit (whole c mem)
    · rfl
    · exact isSpace_of_isDigit (fraction c mem)
    · exact ending ends c mem

theorem Text.StartsNumeral.stripTerminator {line : Text} (starts : StartsNumeral line) :
    StartsNumeral (stripTerminator line) := by
  rcases starts with first | ⟨u, rfl, first⟩
  · cases line with
    | nil => cases first
    | cons c t =>
      have strips := stripTerminator_append_of_visible (w := [c])
        (by simpa using isSpace_of_isDigit first) t
      rw [List.singleton_append] at strips
      rw [strips]
      exact .inl first
  · cases u with
    | nil => cases first
    | cons d t =>
      have strips := stripTerminator_append_of_visible (w := ['.', d])
        (by simpa using ⟨by decide, isSpace_of_isDigit first⟩) t
      rw [List.cons_append, List.singleton_append] at strips
      rw [strips]
      exact .inr ⟨_, rfl, first⟩

structure ReadsNumeral (lexer : Lexer) (s : LineState) (line w rest : Text) : Prop where
  whole : line = w ++ rest
  longest : Text.LongestNumeral w (Text.stripTerminator line)
  /-- A numeral that no word goes on behind is a number, real if it has a point or an exponent. -/
  number : EndsWord rest → lexer.tokenizeLine line s = (lexer.tokenizeLine rest s).behind
    [⟨⟨w, s, [if Text.hasRealMark w then .real else .integer]⟩, 0⟩] (Text.byteLength w)
  /-- Any other one is a malformed name, with the rest of the word. -/
  malformed : ¬EndsWord rest → lexer.tokenizeLine line s =
    (lexer.tokenizeLine (Text.afterWord rest) s).behind
      [⟨⟨w ++ Text.word rest, s, [.malformed]⟩, 0⟩] (Text.byteLength (w ++ Text.word rest))

/-- Wherever code stands, a line where a numeral begins is read from the longest one on. Behind its
token the rest is read as if the line began there. -/
theorem tokenizeLine_numeral (lexer : Lexer) (code : s.inBlockComment = false) {line : Text}
    (starts : Text.StartsNumeral line) : ∃ w rest, ReadsNumeral lexer s line w rest := by
  obtain ⟨kind, w, left, found⟩ := Text.exists_numeral? starts.stripTerminator
  have longest := Text.longest_of_numeral? found
  obtain ⟨rest, rfl⟩ := longest.front.trans (Text.stripTerminator_isInitial line)
  have strips := Text.stripTerminator_append_of_visible longest.spelled.visible rest
  obtain rfl : left = Text.stripTerminator rest := by
    have whole := Text.numeral?_append found
    rw [strips] at whole
    exact List.append_cancel_left whole
  rw [strips] at found
  have visible : w ≠ [] := Text.numeral?_ne_nil found
  have taken := take_numeral lexer false code found
  obtain ⟨word, afterWord⟩ := Text.word_stripTerminator rest
  refine ⟨w, rest, rfl, longest, fun ends => ?_, fun goes => ?_⟩
  · have label : (if kind = .real then Label.real else .integer) =
        if Text.hasRealMark w then .real else .integer := by
      simp only [Text.real_iff_of_numeral? found]
    rw [word, if_pos (endsWord_iff.1 ends), label] at taken
    refine tokenizeLine_of_take lexer ⟨w, s, [_]⟩ rfl ?_ visible strips taken
    split <;> simp
  · -- The token takes the rest of the word with it, so the line parts behind both.
    rw [word, ← afterWord, if_neg fun ends => goes (endsWord_iff.2 ends)] at taken
    have whole : w ++ rest = w ++ Text.word rest ++ Text.afterWord rest := by simp
    have whole_content : w ++ Text.stripTerminator rest =
        w ++ Text.word rest ++ Text.stripTerminator (Text.afterWord rest) := by
      rw [afterWord, ← word]
      simp
    rw [whole_content] at taken strips
    rw [whole] at strips ⊢
    exact tokenizeLine_of_take lexer ⟨w ++ Text.word rest, s, [.malformed]⟩ rfl (by simp)
      (by simp [visible]) strips taken

/-- In constraints the number ends where a second point begins another one. -/
theorem numeral_in_constraints :
    let lexer : Lexer := ⟨{}, by decide, .prepending⟩
    let s := (lexer.tokenizeLine "model \x7b real<lower=".toList .initial).state
    let line := "1.e5.3".toList
    (s.Reachable ∧ s.inBlockComment = false ∧ Text.StartsNumeral line) ∧
      ∃ w rest, ReadsNumeral lexer s line w rest := by
  intro lexer s line
  have code : s.inBlockComment = false := by decide +kernel
  have starts : Text.StartsNumeral line := .inl (by decide)
  exact ⟨⟨.line _ Segmentation.prepending_partsAscii _ .initial, code, starts⟩,
    tokenizeLine_numeral lexer code starts⟩

end StanHighlight

import StanHighlight.Proofs.Spacing
import StanHighlight.Proofs.StepPieces
import StanHighlight.Proofs.Word

/-!
Literals and operators. A numeral, a string or an operator that fills its token is read as a
whole where the token ends, and changes nothing. Only `=` and `>` have another meaning in
some regions.
-/

namespace StanHighlight

variable {lexer : Lexer} {assigned : Bool} {here : LineState} {w t rest : Text} {c : Char}

/-- A text in which no token goes on, as it starts with a blank or a quote if it starts at all. -/
def Edge (t : Text) : Prop := ∀ c ∈ t.head?, c = '"' ∨ Text.isSpace c = true

theorem Edge.head_ne (h : Edge rest) {c : Char} (visible : Text.isSpace c = false)
    (other : c ≠ '"') : rest.head? ≠ some c := by
  intro first
  rcases h c first with quote | blank
  · exact other quote
  · simp [visible] at blank

theorem Edge.not_isWordChar (h : Edge rest) : ∀ c ∈ rest.head?, Text.isWordChar c = false := by
  intro c first
  rcases h c first with rfl | blank
  · decide
  · exact isWordChar_of_isSpace blank

theorem Text.not_isDigit_of_not_isWordChar (h : isWordChar c = false) : c.isDigit = false := by
  rw [Bool.eq_false_iff]
  intro digit
  simp [isWordChar, Char.isAlphanum, digit] at h

theorem Edge.not_isDigit (h : Edge rest) : ∀ c ∈ rest.head?, c.isDigit = false :=
  fun c first => Text.not_isDigit_of_not_isWordChar (h.not_isWordChar c first)

namespace Text

/-- What a text starts with stays the same when something else follows it. -/
theorem takeWhile_append_of_head {p : Char → Bool} (h : ∀ c ∈ rest.head?, p c = false) (t : Text) :
    (t ++ rest).takeWhile p = t.takeWhile p ∧ (t ++ rest).dropWhile p = t.dropWhile p ++ rest := by
  induction t with
  | nil =>
    cases rest with
    | nil => exact ⟨rfl, rfl⟩
    | cons c rest => simp [h c rfl]
  | cons c t ih =>
    by_cases hc : p c = true
    · simp [hc, ih]
    · simp [hc]

theorem digits_append (h : Edge rest) (t : Text) : digits (t ++ rest) = digits t :=
  (takeWhile_append_of_head h.not_isDigit t).1

theorem afterDigits_append (h : Edge rest) (t : Text) :
    afterDigits (t ++ rest) = afterDigits t ++ rest :=
  (takeWhile_append_of_head h.not_isDigit t).2

theorem sign_append (h : Edge rest) (t : Text) :
    sign (t ++ rest) = sign t ∧ afterSign (t ++ rest) = afterSign t ++ rest := by
  cases t with
  | nil =>
    cases rest with
    | nil => exact ⟨rfl, rfl⟩
    | cons c rest =>
      have plus : c ≠ '+' := fun same => h.head_ne (by decide) (by decide) (congrArg some same)
      have minus : c ≠ '-' := fun same => h.head_ne (by decide) (by decide) (congrArg some same)
      simp [sign, afterSign, plus, minus]
  | cons c t =>
    by_cases plus : c = '+'
    · subst plus
      exact ⟨rfl, rfl⟩
    · by_cases minus : c = '-'
      · subst minus
        exact ⟨rfl, rfl⟩
      · simp [sign, afterSign, plus, minus]

theorem exponent?_append_of_edge (h : Edge rest) (t : Text) :
    exponent? (t ++ rest) = (exponent? t).map fun found => (found.1, found.2 ++ rest) := by
  cases t with
  | nil =>
    cases rest with
    | nil => rfl
    | cons c rest =>
      have small : c ≠ 'e' := fun same => h.head_ne (by decide) (by decide) (congrArg some same)
      have large : c ≠ 'E' := fun same => h.head_ne (by decide) (by decide) (congrArg some same)
      simp [exponent?, small, large]
  | cons c t =>
    have signs := sign_append h t
    simp only [List.cons_append, exponent?, signs.1, signs.2, digits_append h, afterDigits_append h]
    split <;> rfl

/-- A numeral whose digits no point follows. -/
theorem numeral?_of_no_point (h : (afterDigits t).head? ≠ some '.') :
    numeral? t = if digits t = [] then none else
      match exponent? (afterDigits t) with
      | some (power, rest) => some (.real, digits t ++ power, rest)
      | none => some (.integer, digits t, afterDigits t) := by
  unfold numeral?
  split
  · next point => simp [point] at h
  · rfl

theorem numeral?_append_of_edge (h : Edge rest) (t : Text) :
    numeral? (t ++ rest) =
      (numeral? t).map fun found => (found.1, found.2.1, found.2.2 ++ rest) := by
  by_cases point : (afterDigits t).head? = some '.'
  · obtain ⟨fraction, after⟩ := List.head?_eq_some_iff.1 point
    have more : afterDigits (t ++ rest) = '.' :: (fraction ++ rest) := by
      rw [afterDigits_append h, after]
      rfl
    unfold numeral?
    rw [more, after]
    simp only [digits_append h, afterDigits_append h, exponent?_append_of_edge h]
    split
    · rfl
    · cases exponent? (afterDigits fraction) <;> rfl
  · have other : (afterDigits (t ++ rest)).head? ≠ some '.' := by
      rw [afterDigits_append h]
      cases after : afterDigits t with
      | nil => exact h.head_ne (by decide) (by decide)
      | cons c fraction => simpa [after] using point
    rw [numeral?_of_no_point point, numeral?_of_no_point other, digits_append h,
      afterDigits_append h, exponent?_append_of_edge h]
    split
    · rfl
    · cases exponent? (afterDigits t) <;> rfl

/-- No exponent begins where no word goes on. -/
theorem exponent?_eq_none (ends : ∀ c ∈ rest.head?, isWordChar c = false) :
    exponent? rest = none := by
  cases rest with
  | nil => rfl
  | cons c rest =>
    have other := ends c rfl
    have small : c ≠ 'e' := by
      rintro rfl
      exact absurd other (by decide)
    have large : c ≠ 'E' := by
      rintro rfl
      exact absurd other (by decide)
    simp [exponent?, small, large]

/-- A text that is an exponent is one in front of anything but a word. -/
theorem exponent?_append_of_whole {power : Text} (whole : exponent? t = some (power, []))
    (ends : ∀ c ∈ rest.head?, c.isDigit = false) : exponent? (t ++ rest) = some (power, rest) := by
  cases t with
  | nil => cases whole
  | cons c t =>
    simp only [exponent?] at whole
    split at whole
    · next digit =>
      have some_char : t ≠ [] := by
        rintro rfl
        exact digit.2 rfl
      have signs : sign (t ++ rest) = sign t ∧ afterSign (t ++ rest) = afterSign t ++ rest := by
        obtain ⟨d, t, rfl⟩ := List.exists_cons_of_ne_nil some_char
        unfold sign afterSign
        by_cases plus : d = '+'
        · simp [plus]
        · by_cases minus : d = '-'
          · simp [minus]
          · simp [plus, minus]
      have taken : digits (afterSign t ++ rest) = digits (afterSign t) :=
        (takeWhile_append_of_head ends (afterSign t)).1
      have spent : afterDigits (afterSign t ++ rest) = afterDigits (afterSign t) ++ rest :=
        (takeWhile_append_of_head ends (afterSign t)).2
      obtain ⟨same, none⟩ := Prod.mk.inj (Option.some.inj whole)
      rw [List.cons_append, exponent?, signs.1, signs.2, taken, spent, if_pos digit, none, same]
      rfl
    · cases whole

/-- The end of a numeral, with an exponent or without one, is the same in front of anything but a
word. -/
theorem ending_append_of_whole {kind other : Numeral} {mantissa : Text}
    (whole : (match exponent? t with
      | some (power, left) => some (Numeral.real, mantissa ++ power, left)
      | none => some (other, mantissa, t)) = some (kind, w, []))
    (ends : ∀ c ∈ rest.head?, isWordChar c = false) :
    (match exponent? (t ++ rest) with
      | some (power, left) => some (Numeral.real, mantissa ++ power, left)
      | none => some (other, mantissa, t ++ rest)) = some (kind, w, rest) := by
  cases found : exponent? t with
  | some split =>
    obtain ⟨power, left⟩ := split
    rw [found] at whole
    cases whole
    rw [exponent?_append_of_whole found fun c first => not_isDigit_of_not_isWordChar (ends c first)]
  | none =>
    rw [found] at whole
    cases whole
    rw [List.nil_append, exponent?_eq_none ends]

/-- A numeral that runs into nothing is read as a whole. -/
theorem numeral?_append_of_whole {kind : Numeral} (whole : numeral? w = some (kind, w, []))
    (ends : ∀ c ∈ rest.head?, isWordChar c = false)
    (point : w.all Char.isDigit = true → rest.head? ≠ some '.') :
    numeral? (w ++ rest) = some (kind, w, rest) := by
  have stops : ∀ c ∈ rest.head?, c.isDigit = false :=
    fun c first => not_isDigit_of_not_isWordChar (ends c first)
  have taken : ∀ t : Text, digits (t ++ rest) = digits t :=
    fun t => (takeWhile_append_of_head stops t).1
  have spent : ∀ t : Text, afterDigits (t ++ rest) = afterDigits t ++ rest :=
    fun t => (takeWhile_append_of_head stops t).2
  by_cases dot : (afterDigits w).head? = some '.'
  · obtain ⟨fraction, after⟩ := List.head?_eq_some_iff.1 dot
    have more : afterDigits (w ++ rest) = '.' :: (fraction ++ rest) := by
      rw [spent, after]
      rfl
    unfold numeral? at whole ⊢
    rw [after] at whole
    simp only [more, taken, spent] at whole ⊢
    split at whole
    · cases whole
    · next some_digit =>
      rw [if_neg some_digit]
      exact ending_append_of_whole whole ends
  · have other : (afterDigits (w ++ rest)).head? ≠ some '.' := by
      rw [spent]
      cases after : afterDigits w with
      | nil => exact point (List.all_eq_true.2 (List.dropWhile_eq_nil_iff.1 after))
      | cons c more => simpa [after] using dot
    rw [numeral?_of_no_point dot] at whole
    rw [numeral?_of_no_point other, taken, spent]
    split at whole
    · cases whole
    · next some_digit =>
      rw [if_neg some_digit]
      exact ending_append_of_whole whole ends

end Text

theorem startsAt_of_isDigit {rule : Rule} (h : c.isDigit = true) :
    rule.startsAt c = (rule == .number) := by
  have marks : rule.marks.all (fun d => !d.isDigit) = true := by cases rule <;> decide
  have mark : c ∉ rule.marks := by
    intro mem
    have other := List.all_eq_true.1 marks c mem
    simp [h] at other
  have letter : c.isAlpha = false := by
    rw [Bool.eq_false_iff]
    intro letter
    simp [isDigit_of_isAlpha letter] at h
  simp [Rule.startsAt, mark, letter, h]

structure IsNumber (w : Text) : Prop where
  clean : Clean w
  whole : ∃ kind, Text.numeral? w = some (kind, w, [])

structure IsString (w : Text) : Prop where
  clean : Clean w
  quoted : ∃ body, w = '"' :: (body ++ ['"']) ∧ '"' ∉ body

section Literals

variable (comment : here.innermost.isBlockComment = false)
include comment

theorem IsNumber.take (number : IsNumber w) (ends : Text.runsInto w rest = false) :
    ∃ l, Step.take lexer assigned here (w ++ rest) = .single here [l] w rest := by
  obtain ⟨kind, whole⟩ := number.whole
  have numeric : Text.isNumeral w = true := by simp [Text.isNumeral, whole]
  have alone := Text.not_isWordChar_of_runsInto (by simp [numeric]) ends
  have point := Text.ne_point_of_runsInto ends
  have numeral := Text.numeral?_append_of_whole whole alone point
  have none : Text.word rest = [] := by
    cases rest with
    | nil => rfl
    | cons c rest => simp [Text.word, alone c rfl]
  obtain ⟨c, t, rfl, starts⟩ := Text.head_of_numeral? whole
  have first : ∀ table ∈ Rule.tables,
      (table.filter fun rule => rule.startsAt c).head? = some .number := by
    simp only [Bool.or_eq_true, beq_iff_eq] at starts
    rcases starts with digit | rfl
    · simp only [startsAt_of_isDigit digit]
      decide
    · decide
  have applies : Rule.number? here (c :: (t ++ rest)) =
      some (.single here [if kind = .real then .real else .integer] (c :: t) rest) := by
    rw [List.cons_append] at numeral
    simp only [Rule.number?, numeral, none, if_true]
  exact ⟨_, Step.take_mark comment first applies⟩

/-- A literal is cut into labelled pieces. -/
theorem IsString.take (string : IsString w) (assigned : Bool) (rest : Text) :
    ∃ ps, Step.take lexer assigned here (w ++ rest) = ⟨ps, here, rest⟩ ∧
      Piece.labelled ps = ps ∧ Piece.texts ps = w := by
  obtain ⟨body, rfl, unquoted⟩ := string.quoted
  have first : ∀ table ∈ Rule.tables,
      (table.filter fun rule => rule.startsAt '"').head? = some .string := by decide
  have inside : ∀ c ∈ body, (c != '"') = true := fun c mem =>
    bne_iff_ne.2 fun quote => unquoted (quote ▸ mem)
  have whole : '"' :: (body ++ ['"']) ++ rest = '"' :: (body ++ '"' :: rest) := by simp
  have applies : ∃ ps, Rule.string? lexer.config here ('"' :: (body ++ '"' :: rest)) =
      some ⟨ps, here, rest⟩ := by
    simp only [Rule.string?, List.takeWhile_append_of_pos inside,
      List.dropWhile_append_of_pos inside]
    exact ⟨_, rfl⟩
  obtain ⟨ps, applies⟩ := applies
  refine ⟨ps, ?_, ?_, ?_⟩
  · rw [whole]
    exact Step.take_mark comment first applies
  · refine List.filter_eq_self.2 fun p mem => ?_
    simp [Rule.labelled_string applies p mem]
  · have covers := (Rule.string?_covers applies).whole
    rw [← whole] at covers
    exact List.append_cancel_right covers

end Literals

theorem IsNumber.leads (number : IsNumber w) (comment : here.innermost.isBlockComment = false) :
    Leads lexer here [w] (fun there => there = here) := by
  refine .token number.clean fun assigned rest parted => ?_
  obtain ⟨l, step⟩ := number.take comment (parted.runsInto w)
  rw [step]
  exact ⟨rfl, rfl⟩

theorem IsString.leads (string : IsString w) (comment : here.innermost.isBlockComment = false) :
    Leads lexer here [w] (fun there => there = here) := by
  refine .token string.clean fun assigned rest _ => ?_
  obtain ⟨ps, step, _⟩ := string.take comment assigned rest
  rw [step]
  exact ⟨rfl, rfl⟩

/-- The longest spelling is read. -/
theorem operator?_of_longest (here : LineState) {entry : Text × Label}
    (mem : entry ∈ Rule.operators) (ends : Text.runsInto entry.1 rest = false) :
    Rule.operator? here (entry.1 ++ rest) = some (.single here [entry.2] entry.1 rest) := by
  have spelled : Rule.spelledOperator? here (entry.1 ++ rest) =
      some (.single here [entry.2] entry.1 rest) := by
    obtain ⟨before, after, split⟩ := List.append_of_mem mem
    refine List.findSome?_eq_some_iff.2
      ⟨before, entry, after, split, by simp, fun other first => ?_⟩
    -- An operator earlier in the table is no longer, and none of those is the start of a later one.
    have apart : Rule.operators.Pairwise fun e f => ¬e.1 <+: f.1 := by decide
    rw [split, List.pairwise_append] at apart
    cases found : (entry.1 ++ rest).after? other.1 with
    | none => rfl
    | some left =>
      have front : other.1 <+: entry.1 ++ rest := ⟨left, (Text.after?_eq_some_iff.1 found).symm⟩
      have sign : other.1 ∈ Text.signs := by
        refine List.mem_append_left _ (List.mem_map_of_mem ?_)
        rw [split]
        exact List.mem_append_left _ first
      have short := Text.length_le_of_runsInto sign ends front
      have inside := List.prefix_of_prefix_length_le front (List.prefix_append entry.1 rest) short
      exact absurd inside (apart.2.2 other first entry List.mem_cons_self)
  have heads : ∀ e ∈ Rule.operators, ∃ c t, e.1 = c :: t ∧ c ≠ '?' ∧ c ≠ ':' := by
    intro e inside
    have facts : ∀ e ∈ Rule.operators, e.1 ≠ [] ∧ e.1.head? ≠ some '?' ∧ e.1.head? ≠ some ':' := by
      decide
    obtain ⟨visible, question, colon⟩ := facts e inside
    obtain ⟨c, t, whole⟩ := List.exists_cons_of_ne_nil visible
    exact ⟨c, t, whole, by simpa [whole] using question, by simpa [whole] using colon⟩
  obtain ⟨c, t, whole, question, colon⟩ := heads entry mem
  rw [whole, List.cons_append] at spelled ⊢
  unfold Rule.operator?
  split
  · next same => exact absurd (List.cons.inj same).1 question
  · next same => exact absurd (List.cons.inj same).1 colon
  · exact spelled

theorem lineComment?_eq_none (slashes : ¬['/', '/'] <+: t) (hash : t.head? ≠ some '#') :
    Rule.lineComment? here t = none := by
  unfold Rule.lineComment?
  split
  · next body => exact absurd ⟨body, rfl⟩ slashes
  · simp at hash
  · rfl

theorem blockCommentBegin?_eq_none (star : ¬['/', '*'] <+: t) :
    Rule.blockCommentBegin? here t = none := by
  unfold Rule.blockCommentBegin?
  split
  · next rest => exact absurd ⟨rest, rfl⟩ star
  · rfl

/-- No operator that runs into nothing begins a comment. -/
theorem not_comment_of_longest {entry : Text × Label} (mem : entry ∈ Rule.operators)
    (ends : Text.runsInto entry.1 rest = false) {sign : Text}
    (delimiter : sign ∈ [['/', '/'], ['/', '*']]) : ¬sign <+: entry.1 ++ rest := by
  intro front
  have short := Text.length_le_of_runsInto (List.mem_append_right _ delimiter) ends front
  have inside := List.prefix_of_prefix_length_le front (List.prefix_append entry.1 rest) short
  have apart : ∀ sign ∈ [['/', '/'], ['/', '*']], ∀ e ∈ Rule.operators, ¬sign <+: e.1 := by decide
  exact apart sign delimiter entry mem inside

/-- The rules that may start like an operator. -/
theorem mem_of_startsAt_operator (operator : Rule.operator.startsAt c = true) {rule : Rule}
    (starts : rule.startsAt c = true) :
    rule ∈ [Rule.lineComment, .blockCommentBegin, .blockCommentEnd, .number, .delimiter,
      .constraintsBegin, .initializer, .constraintEquals, .constraintsEnd, .operator] := by
  have mark : c ∈ Rule.operator.marks := by
    simpa [Rule.startsAt, Rule.startsAtLetters] using operator
  have shared : Rule.operator.marks.all (fun d => rule.startsAt d → rule ∈
      [Rule.lineComment, .blockCommentBegin, .blockCommentEnd, .number, .delimiter,
        .constraintsBegin, .initializer, .constraintEquals, .constraintsEnd, .operator]) = true := by
    cases rule <;> decide
  exact of_decide_eq_true (List.all_eq_true.1 shared c mark) starts

def Region.assigns (r : Region) : Bool :=
  !r.rules.contains .initializer && !r.rules.contains .constraintEquals

/-- Signs that other rules than the one for operators may begin with are still operators. -/
theorem not_other_of_mem (here : LineState) (rest : Text) : ∀ entry ∈ Rule.operators,
    Rule.number? here (entry.1 ++ rest) = none ∧ Rule.delimiter? here (entry.1 ++ rest) = none ∧
      (entry.1 = ['='] ∨ Rule.afterEquals? (entry.1 ++ rest) = none) := by
  have bars : ∀ t : Text, Rule.delimiter? here ('|' :: '|' :: t) = none := by
    intro t
    cases e : here.innermost <;> simp [Rule.delimiter?, e]
  simp only [Rule.operators, List.map_cons, List.map_nil, List.forall_mem_cons, List.not_mem_nil,
    false_imp_iff, implies_true, and_true]
  and_intros <;> first
    | exact bars _
    | exact .inl rfl
    | exact .inr rfl
    | rfl

/-- Only the sign itself may end constraints. -/
theorem constraintsEnd?_of_mem (here : LineState) (rest : Text) : ∀ entry ∈ Rule.operators,
    entry.1 = ['>'] ∨ Rule.constraintsEnd? here (entry.1 ++ rest) = none := by
  simp only [Rule.operators, List.map_cons, List.map_nil, List.forall_mem_cons, List.not_mem_nil,
    false_imp_iff, implies_true, and_true]
  and_intros <;> first
    | exact .inl rfl
    | exact .inr rfl

/-- What an operator is read as, except for the signs that begin or end something. -/
theorem take_operator {entry : Text × Label} (mem : entry ∈ Rule.operators)
    (comment : here.innermost.isBlockComment = false) (named : here.innermost ≠ .declaration false)
    (equals : entry.1 = ['='] → here.innermost.assigns = true)
    (angle : entry.1 = ['>'] → here.innermost ≠ .constraints)
    (ends : Text.runsInto entry.1 rest = false) :
    Step.take lexer assigned here (entry.1 ++ rest) = .single here [entry.2] entry.1 rest := by
  have applies := operator?_of_longest here mem ends
  obtain ⟨number, delimiter, sign⟩ := not_other_of_mem here rest entry mem
  have closes := constraintsEnd?_of_mem here rest entry mem
  have slashes : ¬['/', '/'] <+: entry.1 ++ rest := not_comment_of_longest mem ends (by decide)
  have star : ¬['/', '*'] <+: entry.1 ++ rest := not_comment_of_longest mem ends (by decide)
  have heads : ∀ e ∈ Rule.operators, e.1 ≠ [] ∧ e.1.head?.any Rule.operator.startsAt = true ∧
      e.1.head? ≠ some '#' := by decide
  obtain ⟨visible, operator, hash⟩ := heads entry mem
  obtain ⟨c, t, whole⟩ := List.exists_cons_of_ne_nil visible
  rw [whole] at applies number delimiter sign closes equals angle slashes star operator hash ⊢
  have inside := Region.mem_rules_of_mem_expression comment (by decide : Rule.operator ∈ _)
  refine Step.take_of_rule .operator inside applies fun other table starts different => ?_
  have kinds := mem_of_startsAt_operator (by simpa using operator) starts
  simp only [List.mem_cons, List.not_mem_nil, or_false] at kinds
  rcases kinds with rfl | rfl | rfl | rfl | rfl | rfl | rfl | rfl | rfl | rfl
  · exact lineComment?_eq_none slashes hash
  · exact blockCommentBegin?_eq_none star
  · rw [Region.isBlockComment_of_blockCommentEnd_mem table] at comment
    cases comment
  · exact number
  · exact delimiter
  · simp only [Rule.step?, Rule.constraintsBegin?]
    split
    · simp [named]
    · rfl
  · refine Option.map_eq_none_iff.2 (sign.resolve_left fun same => ?_)
    have assigns := equals same
    simp [Region.assigns, table] at assigns
  · refine Option.map_eq_none_iff.2 (sign.resolve_left fun same => ?_)
    have assigns := equals same
    simp [Region.assigns, table] at assigns
  · have only := Region.eq_constraints_of_constraintsEnd_mem table
    exact closes.resolve_left fun same => angle same only
  · exact absurd rfl different

/-- An operator changes nothing, except for the signs that begin or end something. -/
theorem leads_operator (spelled : w ∈ Rule.operators.map Prod.fst)
    (calm : here.innermost.isCalm = true) (equals : w = ['='] → here.innermost.assigns = true)
    (angle : w = ['>'] → here.innermost ≠ .constraints) :
    Leads lexer here [w] (fun there => there = here) := by
  obtain ⟨entry, mem, rfl⟩ := List.mem_map.1 spelled
  have clean : ∀ entry ∈ Rule.operators, Clean entry.1 := by decide
  have named : here.innermost ≠ .declaration false := by
    intro waits
    simp [waits, Region.isCalm] at calm
  refine .token (clean entry mem) fun assigned rest parted => ?_
  rw [take_operator mem (Region.isBlockComment_of_isCalm calm) named equals angle
    (parted.runsInto entry.1)]
  exact ⟨rfl, rfl⟩

end StanHighlight

import StanHighlight.Cut

/-!
Where tokens start. A rule applies only to a text that starts with one of a few visible
ASCII characters, so most rules of a region's table can be left out of account once the
first character is known, and a cluster that begins with a blank is always skipped.
-/

namespace StanHighlight

namespace Text

theorem head_of_digits {t : Text} (h : digits t ≠ []) :
    ∃ c rest, t = c :: rest ∧ c.isDigit = true := by
  cases t with
  | nil => exact absurd rfl h
  | cons c t =>
    by_cases hc : c.isDigit = true
    · exact ⟨c, t, rfl, hc⟩
    · exact absurd (by simp [digits, hc]) h

/-- A numeral starts with a digit or with a point. -/
theorem head_of_numeral? {t : Text} {found : Numeral × Text × Text} (h : numeral? t = some found) :
    ∃ c rest, t = c :: rest ∧ (c.isDigit || c == '.') = true := by
  by_cases none : digits t = []
  · have after : afterDigits t = t := by simpa [none] using digits_append_afterDigits t
    unfold numeral? at h
    rw [after] at h
    split at h
    · exact ⟨'.', _, rfl, by decide⟩
    · rw [if_pos none] at h
      cases h
  · obtain ⟨c, rest, rfl, hc⟩ := head_of_digits none
    exact ⟨c, rest, rfl, by simp [hc]⟩

theorem isSpace_cases {c : Char} (h : isSpace c = true) :
    (9 ≤ c.toNat ∧ c.toNat ≤ 32) ∨ c.toNat = 0x85 ∨ c.toNat = 0xa0 ∨ c.toNat = 0x1680 ∨
      (0x2000 ≤ c.toNat ∧ c.toNat ≤ 0x3000) := by
  have point : ∀ d : Char, d.val.toNat = d.toNat := fun _ => rfl
  simp only [isSpace, spaceRanges, List.any_cons, List.any_nil, Bool.or_eq_true, Bool.and_eq_true,
    decide_eq_true_eq, Bool.or_false, Char.le_def, UInt32.le_iff_toNat_le, point] at h
  change (9 ≤ c.toNat ∧ c.toNat ≤ 13) ∨ (32 ≤ c.toNat ∧ c.toNat ≤ 32) ∨
    (0x85 ≤ c.toNat ∧ c.toNat ≤ 0x85) ∨ (0xa0 ≤ c.toNat ∧ c.toNat ≤ 0xa0) ∨
    (0x1680 ≤ c.toNat ∧ c.toNat ≤ 0x1680) ∨ (0x2000 ≤ c.toNat ∧ c.toNat ≤ 0x200a) ∨
    (0x2028 ≤ c.toNat ∧ c.toNat ≤ 0x2029) ∨ (0x202f ≤ c.toNat ∧ c.toNat ≤ 0x202f) ∨
    (0x205f ≤ c.toNat ∧ c.toNat ≤ 0x205f) ∨ (0x3000 ≤ c.toNat ∧ c.toNat ≤ 0x3000) at h
  omega

theorem isAlpha_cases {c : Char} (h : c.isAlpha = true) :
    (65 ≤ c.toNat ∧ c.toNat ≤ 90) ∨ (97 ≤ c.toNat ∧ c.toNat ≤ 122) := by
  change (decide (c.val ≥ 'A'.val ∧ c.val ≤ 'Z'.val) ||
    (decide (c.val ≥ 'a'.val) && decide (c.val ≤ 'z'.val))) = true at h
  simp only [Bool.or_eq_true, Bool.and_eq_true, decide_eq_true_eq, ge_iff_le,
    UInt32.le_iff_toNat_le] at h
  exact h

theorem trimStart_cons_of_isSpace {c : Char} (h : isSpace c = true) (t : Text) :
    trimStart (c :: t) = trimStart t :=
  List.dropWhile_cons_of_pos h

theorem trimStart_cons_of_not_isSpace {c : Char} (h : isSpace c = false) (t : Text) :
    trimStart (c :: t) = c :: t :=
  List.dropWhile_cons_of_neg (by simp [h])

/-- What a text starts with up to the first character of another kind. -/
theorem takeWhile_append_cons {p : Char → Bool} {front : Text} (kind : ∀ c ∈ front, p c = true)
    {c : Char} (other : p c = false) (t : Text) :
    (front ++ c :: t).takeWhile p = front ∧ (front ++ c :: t).dropWhile p = c :: t := by
  rw [List.takeWhile_append_of_pos kind, List.dropWhile_append_of_pos kind]
  simp [other]

/-- Blanks in front of a visible character, and the text from there. -/
theorem gap_append_cons {blanks : Text} (blank : ∀ c ∈ blanks, isSpace c = true) {c : Char}
    (visible : isSpace c = false) (t : Text) :
    gap (blanks ++ c :: t) = blanks ∧ trimStart (blanks ++ c :: t) = c :: t :=
  takeWhile_append_cons blank visible t

end Text

namespace Segmentation

variable {g : Segmentation} {c d : Char} {t rest : Text}

/-- An ASCII character belongs to the cluster of a character in front of it only if that is a
prepended mark, except for the `\n` of `\r\n`. -/
def PartsAtMarks (g : Segmentation) : Prop :=
  ∀ (t before after : Text) (c d : Char), g.cluster t = before ++ c :: d :: after →
    d.toNat < 128 → d ≠ '\n' → isPrepended c = true

theorem PartsAtMarks.partsAscii (h : g.PartsAtMarks) : g.PartsAscii := by
  intro t before after c d split ascii feed
  have marked := h t before after c d split ascii feed
  simp only [isPrepended, prependedRanges, List.any_cons, List.any_nil, Bool.or_eq_true,
    Bool.and_eq_true, decide_eq_true_eq, Bool.or_false] at marked
  refine ⟨by omega, Bool.eq_false_iff.2 fun blank => ?_⟩
  have point := Text.isSpace_cases blank
  omega

theorem prepending_partsAtMarks : prepending.PartsAtMarks := by
  intro t before after c d split _ _
  have front : before ++ [c] <+: t := by
    refine List.IsPrefix.trans ⟨d :: after, ?_⟩ (List.take_prefix (prepending.first t) t)
    simpa [cluster] using split.symm
  have within : (before ++ [c]).length ≤ (t.takeWhile isPrepended).length := by
    have size := congrArg List.length split
    simp only [cluster, prepending, List.length_take, List.length_append, List.length_cons] at size
    simp only [List.length_append, List.length_cons, List.length_nil]
    omega
  have marks := List.prefix_of_prefix_length_le front (List.takeWhile_prefix isPrepended) within
  exact List.all_eq_true.1 List.all_takeWhile c (marks.subset (by simp))

theorem prepending_partsAscii : prepending.PartsAscii := prepending_partsAtMarks.partsAscii

/-- A first cluster that is longer than the start of a text holds its last character and the next
one. -/
theorem exists_cluster_of_lt_first {front : Text} (some_front : front ≠ [])
    (beyond : front.length < g.first (front ++ d :: rest)) :
    ∃ before c after, front.getLast? = some c ∧
      g.cluster (front ++ d :: rest) = before ++ c :: d :: after := by
  obtain ⟨before, c, rfl⟩ := List.eq_nil_or_concat front |>.resolve_left some_front
  obtain ⟨n, size⟩ := Nat.exists_eq_add_of_lt beyond
  refine ⟨before, c, rest.take n, by simp, ?_⟩
  rw [cluster, size, Nat.add_assoc, List.take_length_add_append]
  simp

/-- An ASCII character in front of another is a cluster of its own. -/
theorem first_eq_one (parts : g.PartsAscii) (hc : c.toNat < 128)
    (ht : ∀ d ∈ t.head?, d.toNat < 128 ∧ d ≠ '\n') : g.first (c :: t) = 1 := by
  have pos := g.first_pos (c :: t) (List.cons_ne_nil c t)
  have le := g.first_le_length (c :: t)
  cases t with
  | nil => exact Nat.le_antisymm le pos
  | cons d t =>
    obtain ⟨hd, feed⟩ := ht d rfl
    match size : g.first (c :: d :: t) with
    | 0 => omega
    | 1 => rfl
    | n + 2 =>
      have split : g.cluster (c :: d :: t) = [] ++ c :: d :: t.take n := by simp [cluster, size]
      have apart := (parts _ _ _ _ _ split hd feed).1
      omega

/-- The first cluster of blanks in front of an ASCII character is some of these blanks. -/
theorem trimStart_drop_first (parts : g.PartsAscii) (blank : Text.gap t ≠ [])
    (visible : Text.trimStart t = d :: rest) (ascii : d.toNat < 128) (feed : d ≠ '\n') :
    Text.trimStart (t.drop (g.first t)) = d :: rest := by
  have whole : t = Text.gap t ++ d :: rest := by rw [← visible, Text.gap_append_trimStart]
  have blanks : ∀ b ∈ Text.gap t, Text.isSpace b = true := List.all_eq_true.1 List.all_takeWhile
  have within : g.first t ≤ (Text.gap t).length := by
    refine Nat.le_of_not_lt fun beyond => ?_
    have longer : (Text.gap t).length < g.first (Text.gap t ++ d :: rest) := by rwa [← whole]
    obtain ⟨before, b, after, last, split⟩ := exists_cluster_of_lt_first blank longer
    have apart := (parts _ _ _ _ _ split ascii feed).2
    rw [blanks b (List.mem_of_getLast? last)] at apart
    cases apart
  have skipped : t.drop (g.first t) = (Text.gap t).drop (g.first t) ++ d :: rest := by
    rw [← List.drop_append_of_le_length within, ← whole]
  have left : ∀ b ∈ (Text.gap t).drop (g.first t), Text.isSpace b = true :=
    fun b mem => blanks b (List.mem_of_mem_drop mem)
  calc
    Text.trimStart (t.drop (g.first t)) = Text.trimStart (d :: rest) := by
      rw [skipped, Text.trimStart, List.dropWhile_append_of_pos left]
      rfl
    _ = Text.trimStart (Text.gap t ++ d :: rest) := (List.dropWhile_append_of_pos blanks).symm
    _ = d :: rest := by rw [← whole, visible]

end Segmentation

/-- A word that is on a list of words is one of their spellings. -/
theorem Vocabulary.mem_map_toList {words : List String} {w : Text}
    (listed : words.contains (String.ofList w) = true) : w ∈ words.map String.toList := by
  have mem := List.mem_map_of_mem (f := String.toList) (List.contains_iff_mem.1 listed)
  rwa [String.toList_ofList] at mem

namespace Rule

def tables : List (List Rule) := [statement, declaration, constraints, expression]

/-- The characters besides letters and digits that a token of some kind may start with, and
the letter that starts an addition to the target. -/
def marks : Rule → List Char
  | inclusion => ['#']
  | lineComment => ['/', '#']
  | blockCommentBegin => ['/']
  | blockCommentEnd => ['*']
  | documentationTag => ['@']
  | constraintsBegin => ['<']
  | initializer | constraintEquals => ['=']
  | constraintsEnd => ['>']
  | string => ['"']
  | number => ['.']
  | accumulator => ['t']
  | word => ['_']
  | sampling => ['~']
  | terminator => [';']
  | delimiter => [',', '|']
  | opener => ['(', '[', '{']
  | closer => [')', ']', '}']
  | operator => ['?', ':', '.', '%', '<', '+', '-', '*', '/', '=', '!', '>', '&', '|', '\\', '^',
      '\'']
  | sectionHeader | functionDeclaration | variableDeclaration => []

def startsAtLetters : Rule → Bool
  | sectionHeader | functionDeclaration | variableDeclaration | word => true
  | _ => false

def startsAt (rule : Rule) (c : Char) : Bool :=
  rule.marks.contains c || rule.startsAtLetters && c.isAlpha || rule == number && c.isDigit

theorem startsAt_of_mem {rule : Rule} {c : Char} (h : c ∈ rule.marks) : rule.startsAt c = true := by
  simp [startsAt, h]

theorem startsAt_of_isAlpha {rule : Rule} {c : Char} (h : rule.startsAtLetters = true)
    (hc : c.isAlpha = true) : rule.startsAt c = true := by
  simp [startsAt, h, hc]

/-- A token starts with a visible character of ASCII. -/
theorem toNat_of_startsAt {rule : Rule} {c : Char} (h : rule.startsAt c = true) :
    32 < c.toNat ∧ c.toNat < 127 := by
  simp only [startsAt, List.contains_eq_mem, Bool.or_eq_true, decide_eq_true_eq,
    Bool.and_eq_true] at h
  rcases h with (mark | ⟨_, letter⟩) | ⟨_, digit⟩
  · have visible : rule.marks.all (fun d => 32 < d.toNat ∧ d.toNat < 127) = true := by
      cases rule <;> decide
    simpa using List.all_eq_true.1 visible c mark
  · have cases := Text.isAlpha_cases letter
    omega
  · have cases : 48 ≤ c.toNat ∧ c.toNat ≤ 57 := Char.isDigit_iff_toNat.1 digit
    omega

theorem startsAt_of_isSpace {c : Char} (h : Text.isSpace c = true) (rule : Rule) :
    rule.startsAt c = false := by
  rw [Bool.eq_false_iff]
  intro starts
  have visible := toNat_of_startsAt starts
  have blank := Text.isSpace_cases h
  omega

theorem isSome_parenAfterGap?_iff {t : Text} :
    (parenAfterGap? t).isSome = true ↔ (Text.trimStart t).head? = some '(' := by
  unfold parenAfterGap?
  split
  · next found => simp [found]
  · next none =>
    constructor
    · intro h
      cases h
    · intro h
      obtain ⟨rest, found⟩ := List.head?_eq_some_iff.1 h
      exact absurd found (none rest)

def Starts (rule : Rule) (t : Text) : Prop := ∃ c rest, t = c :: rest ∧ rule.startsAt c = true

theorem Starts.mark {rule : Rule} {c : Char} {rest : Text} (h : c ∈ rule.marks) :
    rule.Starts (c :: rest) :=
  ⟨c, rest, rfl, startsAt_of_mem h⟩

/-- A text starts with a token if it starts with a word that the token may start with. -/
theorem Starts.extend {rule : Rule} {w t : Text} (h : w <+: t)
    (hw : w.head?.any rule.startsAt = true) : rule.Starts t := by
  cases w with
  | nil => simp at hw
  | cons c w =>
    obtain ⟨rest, rfl⟩ := h
    exact ⟨c, w ++ rest, rfl, by simpa using hw⟩

section

variable {config : Config} {assigned : Bool} {here : LineState} {t : Text} {s : Step}

theorem starts_inclusion (h : include? here t = some s) : inclusion.Starts t := by
  unfold include? at h
  split at h
  · cases h
  · next rest opened => exact .extend ⟨rest, (Text.after?_eq_some_iff.1 opened).symm⟩ (by decide)

/-- Words separated by blanks begin with the first of them. -/
theorem prefix_of_spacedWords? {w : Text} {ws : List Text} {found : Text × Text}
    (h : spacedWords? (w :: ws) t = some found) : w <+: t := by
  cases ws with
  | nil =>
    obtain ⟨rest, opened, _⟩ := Option.map_eq_some_iff.1 h
    exact ⟨rest, (Text.after?_eq_some_iff.1 opened).symm⟩
  | cons v vs =>
    simp only [spacedWords?] at h
    split at h
    · cases h
    · next rest opened => exact ⟨rest, (Text.after?_eq_some_iff.1 opened).symm⟩

theorem starts_of_headerOf? {sec : Section} {found : Text × Text × Text}
    (h : headerOf? t sec = some found) : sectionHeader.Starts t := by
  unfold headerOf? at h
  split at h
  · cases h
  · next words =>
    have first : ∃ w ws, sec.words.map String.toList = w :: ws ∧
        w.head?.any sectionHeader.startsAt = true := by
      cases sec <;> exact ⟨_, _, rfl, by decide⟩
    obtain ⟨w, ws, eq, letter⟩ := first
    rw [eq] at words
    exact .extend (prefix_of_spacedWords? words) letter

theorem starts_sectionHeader (h : sectionHeader? here t = some s) : sectionHeader.Starts t := by
  unfold sectionHeader? at h
  split at h
  · split at h
    · cases h
    · next found => exact starts_of_headerOf? (headerOf?_of_header? found)
  · cases h

theorem starts_of_returnType? {found : Text × Text} (h : returnType? t = some found) :
    functionDeclaration.Starts t := by
  simp only [returnType?] at h
  split at h
  · next known =>
    unfold arrayOf at known
    split at known
    · next array =>
      obtain ⟨rest, opened, _⟩ := Option.bind_eq_some_iff.1 array
      exact .extend ⟨rest, (Text.after?_eq_some_iff.1 opened).symm⟩ (by decide)
    · have letter : ∀ w ∈ Vocabulary.returnTypes.map String.toList,
          w.head?.any functionDeclaration.startsAt = true := by decide
      have first := letter _ (Vocabulary.mem_map_toList known)
      exact .extend ⟨Text.afterWord t, Text.word_append_afterWord t⟩ first
  · cases h

theorem starts_functionDeclaration (h : functionDeclaration? here t = some s) :
    functionDeclaration.Starts t := by
  unfold functionDeclaration? at h
  split at h
  · cases h
  · next found => exact starts_of_returnType? found

theorem starts_variableDeclaration (h : variableDeclaration? here t = some s) :
    variableDeclaration.Starts t := by
  unfold variableDeclaration? at h
  split at h
  · next known =>
    have letter : ∀ w ∈ Vocabulary.storageTypes.map String.toList,
        w.head?.any variableDeclaration.startsAt = true := by decide
    have first := letter _ (Vocabulary.mem_map_toList known)
    exact .extend ⟨Text.afterWord t, Text.word_append_afterWord t⟩ first
  · cases h

theorem starts_number (h : number? here t = some s) : number.Starts t := by
  unfold number? at h
  split at h
  · cases h
  · next found =>
    obtain ⟨c, rest, rfl, first⟩ := Text.head_of_numeral? found
    exact ⟨c, rest, rfl, by
      simp only [Bool.or_eq_true, beq_iff_eq] at first
      rcases first with digit | rfl
      · simp [startsAt, digit]
      · decide⟩

theorem starts_accumulator (h : accumulator? here t = some s) : accumulator.Starts t := by
  unfold accumulator? at h
  split at h
  · cases h
  · next rest opened => exact .extend ⟨rest, (Text.after?_eq_some_iff.1 opened).symm⟩ (by decide)

theorem starts_word (h : word? here t = some s) : word.Starts t := by
  unfold word? at h
  split at h
  · next starts =>
    cases t with
    | nil => cases starts
    | cons c t =>
      have first : c.isAlpha = true ∨ c = '_' := by simpa [Text.startsWord] using starts
      rcases first with letter | rfl
      · exact ⟨c, t, rfl, startsAt_of_isAlpha rfl letter⟩
      · exact .mark (by decide)
  · cases h

theorem starts_operator (h : operator? here t = some s) : operator.Starts t := by
  unfold operator? at h
  split at h
  · exact .mark (by decide)
  · exact .mark (by decide)
  · obtain ⟨entry, mem, found⟩ := List.exists_of_findSome?_eq_some h
    obtain ⟨rest, opened, rfl⟩ := Option.map_eq_some_iff.1 found
    have spelled : ∀ e ∈ operators, e.1.head?.any operator.startsAt = true := by decide
    exact .extend ⟨rest, (Text.after?_eq_some_iff.1 opened).symm⟩ (spelled entry mem)

/-- A rule applies only where a token of its kind may start. -/
theorem starts_of_step? {rule : Rule} (h : step? config assigned here t rule = some s) :
    rule.Starts t := by
  cases rule with
  | inclusion => exact starts_inclusion h
  | sectionHeader => exact starts_sectionHeader h
  | functionDeclaration => exact starts_functionDeclaration h
  | variableDeclaration => exact starts_variableDeclaration h
  | number => exact starts_number h
  | accumulator => exact starts_accumulator h
  | word => exact starts_word h
  | operator => exact starts_operator h
  | initializer | constraintEquals =>
    obtain ⟨rest, found, rfl⟩ := Option.map_eq_some_iff.1 h
    rw [afterEquals?_eq_some found]
    exact .mark (by decide)
  | lineComment | blockCommentBegin | blockCommentEnd | documentationTag | constraintsBegin
  | constraintsEnd | string | sampling | terminator | delimiter | opener | closer =>
    simp only [step?] at h
    first
      | unfold lineComment? at h
      | unfold blockCommentBegin? at h
      | unfold blockCommentEnd? at h
      | unfold documentationTag? at h
      | unfold constraintsBegin? at h
      | unfold constraintsEnd? at h
      | unfold string? at h
      | unfold sampling? at h
      | unfold terminator? at h
      | unfold delimiter? at h
      | unfold opener? at h
      | unfold closer? at h
    split at h
    all_goals first
      | exact .mark (by decide)
      | cases h

/-- Nothing starts at the end of a text. -/
theorem step?_nil {rule : Rule} : step? config assigned here [] rule = none := by
  cases found : step? config assigned here [] rule with
  | none => rfl
  | some s =>
    obtain ⟨c, rest, eq, _⟩ := starts_of_step? found
    cases eq

theorem step?_eq_none {rule : Rule} {c : Char} (h : rule.startsAt c = false) :
    step? config assigned here (c :: t) rule = none := by
  cases found : step? config assigned here (c :: t) rule with
  | none => rfl
  | some s =>
    obtain ⟨d, rest, eq, starts⟩ := starts_of_step? found
    cases eq
    exact absurd starts (by simp [h])

end

end Rule

namespace Region

theorem rules_mem_tables {r : Region} (h : r.isBlockComment = false) : r.rules ∈ Rule.tables := by
  cases r with
  | blockComment => cases h
  | _ => simp [rules, Rule.tables]

theorem mem_rules_of_mem_expression {r : Region} (h : r.isBlockComment = false) {rule : Rule}
    (mem : rule ∈ Rule.expression) : rule ∈ r.rules := by
  have inside : ∀ table ∈ Rule.tables, ∀ q ∈ Rule.expression, q ∈ table := by decide
  exact inside _ (rules_mem_tables h) rule mem

theorem isBlockComment_of_mem_rules {r : Region} {rule : Rule} (h : rule ∈ r.rules)
    (other : rule ∉ Rule.blockComment) : r.isBlockComment = false := by
  cases r with
  | blockComment => exact absurd h other
  | _ => rfl

theorem isStatementLevel_of_mem_rules {r : Region} {rule : Rule} (h : rule ∈ r.rules)
    (declares : rule ∈ [Rule.functionDeclaration, Rule.variableDeclaration]) :
    r.isStatementLevel = true := by
  have other : ∀ table ∈ [Rule.expression, Rule.declaration, Rule.constraints, Rule.blockComment],
      ∀ q ∈ table, q ∉ [Rule.functionDeclaration, Rule.variableDeclaration] := by decide
  cases r with
  | program | sectionBody | block => rfl
  | _ => exact absurd declares (other _ (by simp [rules]) _ h)

theorem rules_of_isStatementLevel {r : Region} (h : r.isStatementLevel = true) :
    r.rules = Rule.statement := by
  cases r with
  | program | sectionBody | block => rfl
  | _ => cases h

theorem isBlockComment_of_isStatementLevel {r : Region} (h : r.isStatementLevel = true) :
    r.isBlockComment = false := by
  cases r with
  | blockComment => cases h
  | _ => rfl

theorem isBlockComment_of_blockCommentEnd_mem {r : Region} (h : Rule.blockCommentEnd ∈ r.rules) :
    r.isBlockComment = true := by
  have other : ∀ table ∈ Rule.tables, Rule.blockCommentEnd ∉ table := by decide
  cases comment : r.isBlockComment with
  | true => rfl
  | false => exact absurd h (other _ (rules_mem_tables comment))

theorem eq_constraints_of_constraintsEnd_mem {r : Region} (h : Rule.constraintsEnd ∈ r.rules) :
    r = constraints := by
  have other : ∀ table ∈ [Rule.statement, Rule.expression, Rule.declaration, Rule.blockComment],
      Rule.constraintsEnd ∉ table := by decide
  cases r with
  | constraints => rfl
  | _ => exact absurd h (other _ (by simp [rules]))

end Region

namespace Step

variable {lexer : Lexer} {assigned : Bool} {here : LineState} {c : Char} {t : Text} {rule : Rule}
  {s : Step}

/-- Only the rules that may start with the first character of a text decide about it. -/
theorem take_eq_filter : take lexer assigned here (c :: t) =
    ((here.innermost.rules.filter fun rule => rule.startsAt c).findSome?
      (Rule.step? lexer.config assigned here (c :: t))).getD (skip lexer.clusters here (c :: t)) := by
  rw [take]
  congr 1
  induction here.innermost.rules with
  | nil => rfl
  | cons rule rules ih =>
    cases h : rule.startsAt c with
    | false => rw [List.findSome?_cons, Rule.step?_eq_none h, List.filter_cons_of_neg (by simp [h]), ih]
    | true => rw [List.filter_cons_of_pos (by simp [h]), List.findSome?_cons, List.findSome?_cons, ih]

/-- The first rule that may start decides if it applies. -/
theorem take_of_first
    (first : (here.innermost.rules.filter fun rule => rule.startsAt c).head? = some rule)
    (h : Rule.step? lexer.config assigned here (c :: t) rule = some s) :
    take lexer assigned here (c :: t) = s := by
  obtain ⟨others, filtered⟩ := List.head?_eq_some_iff.1 first
  rw [take_eq_filter, filtered]
  simp [h]

/-- A rule decides where no rule before it in the table applies. -/
theorem take_of_precedes (rule : Rule) (mem : rule ∈ here.innermost.rules)
    (h : Rule.step? lexer.config assigned here (c :: t) rule = some s)
    (earlier : ∀ other ∈ here.innermost.rules.takeWhile (· != rule), other.startsAt c = true →
      Rule.step? lexer.config assigned here (c :: t) other = none) :
    take lexer assigned here (c :: t) = s := by
  have found : here.innermost.rules.findSome?
      (Rule.step? lexer.config assigned here (c :: t)) = some s := by
    generalize here.innermost.rules = rules at mem earlier
    induction rules with
    | nil => cases mem
    | cons other rules ih =>
      by_cases same : other = rule
      · rw [same, List.findSome?_cons, h]
      · rw [List.takeWhile_cons_of_pos (by simpa using same)] at earlier
        have none : Rule.step? lexer.config assigned here (c :: t) other = none := by
          cases starts : other.startsAt c with
          | false => exact Rule.step?_eq_none starts
          | true => exact earlier other List.mem_cons_self starts
        rw [List.findSome?_cons, none]
        apply ih
        · exact (List.mem_cons.1 mem).resolve_left (Ne.symm same)
        · exact fun q hq => earlier q (List.mem_cons_of_mem other hq)
  rw [take, found]
  rfl

/-- A rule decides where no other rule of the region applies. -/
theorem take_of_rule (rule : Rule) (mem : rule ∈ here.innermost.rules)
    (h : Rule.step? lexer.config assigned here (c :: t) rule = some s)
    (others : ∀ other ∈ here.innermost.rules, other.startsAt c = true → other ≠ rule →
      Rule.step? lexer.config assigned here (c :: t) other = none) :
    take lexer assigned here (c :: t) = s := by
  refine take_of_precedes rule mem h fun other before starts => ?_
  have different : other ≠ rule := by
    simpa using List.all_eq_true.1 List.all_takeWhile other before
  exact others other (List.takeWhile_subset _ before) starts different

/-- Outside comments a mark that starts tokens of one kind only starts such a token. -/
theorem take_mark (comment : here.innermost.isBlockComment = false)
    (first : ∀ table ∈ Rule.tables, (table.filter fun rule => rule.startsAt c).head? = some rule)
    (h : Rule.step? lexer.config assigned here (c :: t) rule = some s) :
    take lexer assigned here (c :: t) = s :=
  take_of_first (first _ (Region.rules_mem_tables comment)) h

/-- A cluster that begins with a blank is skipped, whatever region it is in. -/
theorem take_of_isSpace (h : Text.isSpace c = true) :
    take lexer assigned here (c :: t) = skip lexer.clusters here (c :: t) := by
  have none : here.innermost.rules.filter (fun rule => rule.startsAt c) = [] := by
    rw [List.filter_eq_nil_iff]
    intro rule _
    simp [Rule.startsAt_of_isSpace h rule]
  rw [take_eq_filter, none]
  rfl

/-- A character that is a cluster of its own is skipped alone. -/
theorem skip_eq_single {g : Segmentation} (alone : g.first (c :: t) = 1) :
    skip g here (c :: t) = single here [] [c] t := by
  simp [skip, single, Segmentation.cluster, alone]

end Step

end StanHighlight

import StanHighlight.Proofs.PlainRun
import StanHighlight.Proofs.Refused
import StanHighlight.Proofs.Signature
import StanHighlight.Proofs.Spacing

/-!
Signatures of functions on one line. Whether a type begins the declaration of a function is decided
by looking at the name and the parenthesis behind it. The name and the parenthesis are then read
one by one, and come to what was seen ahead, whatever the name is.
-/

namespace StanHighlight

inductive SpellsSizes : Text → Prop
  | intro {blanks inside : Text} (blank : ∀ c ∈ blanks, Text.isSpace c = true)
      (legal : ∀ c ∈ inside, Text.isSpace c = true ∨ c = ',') :
      SpellsSizes (blanks ++ '[' :: (inside ++ [']']))

inductive SpellsElement : Text → Prop
  | intro {w d : Text} (mem : w ∈ returnWords) (sizes : d = [] ∨ SpellsSizes d) :
      SpellsElement (w ++ d)

inductive SpellsReturn : Text → Prop
  | element {t : Text} (element : SpellsElement t) : SpellsReturn t
  | array {d gap t : Text} (sizes : SpellsSizes d) (blank : ∀ c ∈ gap, Text.isSpace c = true)
      (element : SpellsElement t) : SpellsReturn (Rule.arrayWord ++ d ++ gap ++ t)

structure SpellsName (gap name blanks : Text) : Prop where
  some_gap : gap ≠ []
  gap_blank : ∀ c ∈ gap, Text.isSpace c = true
  word : IsWord name
  blank : ∀ c ∈ blanks, Text.isSpace c = true

/-- A text that begins with blanks and no bracket behind them. -/
structure PartsType (t : Text) : Prop where
  some_gap : Text.gap t ≠ []
  other : (Text.trimStart t).head? ≠ some '['

section Lookahead

variable {here : LineState} {t w d e type gap name blanks front rest more : Text} {s : Step}

theorem isWord_word (letter : t.head?.any Char.isAlpha = true) : IsWord (Text.word t) := by
  refine ⟨?_, List.all_takeWhile⟩
  cases t with
  | nil => exact letter
  | cons c t =>
    have letter : c.isAlpha = true := by simpa using letter
    simp [Text.word, Text.isWordChar, Char.isAlphanum, letter]

theorem facts_of_mem_returnWords : ∀ w ∈ returnWords, IsWord w ∧ w ≠ Rule.arrayWord ∧
    Vocabulary.returnTypes.contains (String.ofList w) = true := by
  decide

theorem SpellsName.parts (spelled : SpellsName gap name blanks) (t : Text) :
    PartsType (gap ++ (name ++ t)) := by
  obtain ⟨c, more, rfl, letter⟩ := spelled.word.exists_cons
  have visible := isSpace_of_isAlpha letter
  obtain ⟨start, left⟩ := Text.gap_append_cons spelled.gap_blank visible (more ++ t)
  refine ⟨?_, ?_⟩
  · rw [List.cons_append, start]
    exact spelled.some_gap
  · rw [List.cons_append, left]
    rintro ⟨⟩
    cases letter

namespace Rule

/-- Sizes that are left open are found exactly where they are spelled. -/
theorem openDimensions?_eq_some_iff :
    openDimensions? t = some (d, rest) ↔ SpellsSizes d ∧ t = d ++ rest := by
  have legal : ∀ c, isOpenDimension c = true ↔ Text.isSpace c = true ∨ c = ',' := by
    simp [isOpenDimension]
  constructor
  · intro found
    refine ⟨?_, (openDimensions?_append found).symm⟩
    unfold openDimensions? at found
    split at found
    · split at found
      · cases found
        exact .intro isSpace_of_mem_gap fun c mem =>
          (legal c).1 (List.all_eq_true.1 List.all_takeWhile c mem)
      · cases found
    · cases found
  · rintro ⟨@⟨blanks, inside, blank, inner⟩, rfl⟩
    have opened := Text.gap_append_cons (c := '[') blank (by decide) (inside ++ ']' :: rest)
    have closed := Text.takeWhile_append_cons (p := isOpenDimension) (c := ']')
      (fun c mem => (legal c).2 (inner c mem)) (by decide) rest
    have line : blanks ++ '[' :: (inside ++ [']']) ++ rest =
        blanks ++ '[' :: (inside ++ ']' :: rest) := by simp
    rw [openDimensions?, line]
    simp only [opened.1, opened.2, closed.1, closed.2]

theorem dimensions_sound (t : Text) : (dimensions t).1 = [] ∨ SpellsSizes (dimensions t).1 := by
  unfold dimensions
  cases found : openDimensions? t with
  | none => exact .inl rfl
  | some split => exact .inr (openDimensions?_eq_some_iff.1 found).1

theorem dimensions_append_of_parts (sizes : d = [] ∨ SpellsSizes d) (parts : PartsType more) :
    dimensions (d ++ more) = (d, more) := by
  rcases sizes with rfl | sizes
  · simp [dimensions, openDimensions?_eq_none parts.other]
  · simp [dimensions, openDimensions?_eq_some_iff.2 ⟨sizes, rfl⟩]

/-- What a type is found to be is the spelling of one. -/
theorem returnType?_sound (found : returnType? t = some (type, rest)) : SpellsReturn type := by
  simp only [returnType?] at found
  split at found
  · next known =>
    cases found
    have element : SpellsElement (Text.word (arrayOf t).2 ++
        (dimensions (Text.afterWord (arrayOf t).2)).1) :=
      .intro (Vocabulary.mem_map_toList known) (dimensions_sound _)
    rw [List.append_assoc]
    generalize Text.word (arrayOf t).2 ++ (dimensions (Text.afterWord (arrayOf t).2)).1 = e
      at element
    unfold arrayOf
    split
    · next sizes more opened =>
      obtain ⟨after, _, dims⟩ := Option.bind_eq_some_iff.1 opened
      exact .array (openDimensions?_eq_some_iff.1 dims).1 isSpace_of_mem_gap element
    · exact .element element
  · cases found

end Rule

theorem SpellsSizes.endsWord (sizes : SpellsSizes d) (t : Text) : EndsWord (d ++ t) := by
  obtain @⟨blanks, inside, blank, _⟩ := sizes
  rw [List.append_assoc]
  refine endsWord_blanks_append blank ?_
  rintro c ⟨⟩
  decide

namespace SpellsElement

theorem exists_cons (spelled : SpellsElement e) : ∃ c t, e = c :: t ∧ Text.isSpace c = false := by
  obtain @⟨w, d, mem, _⟩ := spelled
  obtain ⟨c, t, rfl, letter⟩ := (facts_of_mem_returnWords w mem).1.exists_cons
  exact ⟨c, t ++ d, rfl, isSpace_of_isAlpha letter⟩

theorem endsWord (sizes : d = [] ∨ SpellsSizes d) (parts : PartsType more) :
    EndsWord (d ++ more) := by
  rcases sizes with rfl | sizes
  · exact endsWord_of_gap parts.some_gap
  · exact sizes.endsWord more

/-- A type that begins with its last word is not that of an array. -/
theorem arrayOf (spelled : SpellsElement e) (parts : PartsType more) :
    Rule.arrayOf (e ++ more) = ([], e ++ more) := by
  obtain @⟨w, d, mem, sizes⟩ := spelled
  obtain ⟨word, other, _⟩ := facts_of_mem_returnWords w mem
  apply arrayOf_eq
  rw [List.append_assoc, word_append word (endsWord sizes parts)]
  exact other

/-- In front of a name the last word of a type and its sizes are found. -/
theorem returnType? (spelled : SpellsElement e) (parts : PartsType more)
    (element : Rule.arrayOf t = (front, e ++ more)) :
    Rule.returnType? t = some (front ++ e, more) := by
  obtain @⟨w, d, mem, sizes⟩ := spelled
  obtain ⟨word, _, known⟩ := facts_of_mem_returnWords w mem
  have ends := endsWord sizes parts
  rw [List.append_assoc] at element
  simp only [Rule.returnType?, element, word_append word ends, afterWord_append word ends, known,
    Rule.dimensions_append_of_parts sizes parts, if_true, List.append_assoc]

end SpellsElement

/-- In front of a name the whole of a type is found. -/
theorem SpellsReturn.returnType? (spelled : SpellsReturn type) (parts : PartsType more) :
    Rule.returnType? (type ++ more) = some (type, more) := by
  cases spelled with
  | element element => exact element.returnType? parts (element.arrayOf parts)
  | @array d gap e sizes blank element =>
    obtain ⟨c, t, rfl, visible⟩ := element.exists_cons
    have opened : Rule.openDimensions? (d ++ (gap ++ c :: (t ++ more))) =
        some (d, gap ++ c :: (t ++ more)) := Rule.openDimensions?_eq_some_iff.2 ⟨sizes, rfl⟩
    have apart := Text.gap_append_cons blank visible (t ++ more)
    have array : Rule.arrayOf (Rule.arrayWord ++ (d ++ (gap ++ c :: (t ++ more)))) =
        (Rule.arrayWord ++ d ++ gap, c :: t ++ more) := by
      simp [Rule.arrayOf, opened, apart]
    simpa using element.returnType? parts array

namespace Rule

/-- Blanks, a name and a parenthesis are seen ahead exactly where they are spelled. -/
theorem startsSignature_iff : startsSignature t = true ↔
    ∃ gap name blanks rest, SpellsName gap name blanks ∧
      t = gap ++ name ++ blanks ++ '(' :: rest := by
  constructor
  · intro found
    simp only [startsSignature, Bool.and_eq_true, beq_iff_eq, Bool.not_eq_true',
      List.isEmpty_eq_false_iff] at found
    obtain ⟨⟨some_gap, letter⟩, paren⟩ := found
    obtain ⟨rest, opened⟩ := List.head?_eq_some_iff.1 paren
    let after := Text.afterWord (Text.trimStart t)
    refine ⟨Text.gap t, Text.word (Text.trimStart t), Text.gap after, rest,
      ⟨some_gap, isSpace_of_mem_gap, isWord_word letter, isSpace_of_mem_gap⟩, ?_⟩
    rw [← opened, List.append_assoc, Text.gap_append_trimStart]
    simp [after]
  · rintro ⟨gap, name, blanks, rest, spelled, rfl⟩
    obtain ⟨c, t, rfl, letter⟩ := spelled.word.exists_cons
    have visible := isSpace_of_isAlpha letter
    obtain ⟨start, left⟩ :=
      Text.gap_append_cons spelled.gap_blank visible (t ++ (blanks ++ '(' :: rest))
    obtain ⟨_, paren⟩ := Text.gap_append_cons (c := '(') spelled.blank (by decide) rest
    have ends := endsWord_blanks_append spelled.blank (endsWord_paren rest)
    have name := afterWord_append spelled.word ends
    rw [List.cons_append] at name
    simp only [startsSignature, List.append_assoc, List.cons_append, start, left, name, paren]
    simp [spelled.some_gap, letter]

/-- A declaration of a function is seen ahead exactly where a signature is spelled, and what it
takes is the type. -/
theorem functionDeclaration?_eq_some_iff : functionDeclaration? here t = some s ↔
    ∃ type gap name blanks rest, SpellsReturn type ∧ SpellsName gap name blanks ∧
      t = type ++ (gap ++ name ++ blanks ++ '(' :: rest) ∧
      s = .single (here.enter (.functionDeclaration false false)) [.returnType] type
        (gap ++ name ++ blanks ++ '(' :: rest) := by
  constructor
  · intro found
    unfold functionDeclaration? at found
    split at found
    · cases found
    · next type more typed =>
      split at found
      · next signature =>
        cases found
        obtain ⟨gap, name, blanks, rest, spelled, rfl⟩ := startsSignature_iff.1 signature
        exact ⟨type, gap, name, blanks, rest, returnType?_sound typed, spelled,
          (returnType?_append typed).symm, rfl⟩
      · cases found
  · rintro ⟨type, gap, name, blanks, rest, returns, spelled, rfl, rfl⟩
    have parts := spelled.parts (blanks ++ '(' :: rest)
    have typed := returns.returnType? parts
    have signature := startsSignature_iff.2 ⟨gap, name, blanks, rest, spelled, rfl⟩
    simp only [List.append_assoc] at signature ⊢
    rw [functionDeclaration?, typed]
    exact if_pos signature

end Rule

/-- Where a statement may begin a signature seen ahead decides. -/
theorem take_of_functionDeclaration? (lexer : Lexer) (assigned : Bool)
    (level : here.innermost.isStatementLevel = true)
    (found : Rule.functionDeclaration? here t = some s) : Step.take lexer assigned here t = s := by
  -- only the words of types begin a signature, and none of them begins a header
  have mem : Text.word t ∈ typeWords := by
    by_contra other
    rw [functionDeclaration?_of_notMem other] at found
    cases found
  have apart : ∀ w ∈ typeWords, w ∉ headerWords := by decide
  have header : Rule.sectionHeader? here t = none := sectionHeader?_of_notMem (apart _ mem)
  obtain ⟨c, w, word, letter⟩ := (facts_of_mem_typeWords _ mem).1.exists_cons
  have whole := Text.word_append_afterWord t
  rw [word, List.cons_append] at whole
  rw [← whole] at found header ⊢
  refine take_of_level .functionDeclaration level letter (by decide) found ?_
  intro other before different
  have kinds : other ∈ [Rule.inclusion, .sectionHeader] := before
  simp only [List.mem_cons, List.not_mem_nil, or_false] at kinds
  rcases kinds with rfl | rfl
  · exact absurd rfl different
  · exact header

end Lookahead

def headKeywords : List Text :=
  ["for".toList, "while".toList, "if".toList, "print".toList, "reject".toList]

/-- The labels of words that stand in the place of a function's name and cannot be one. -/
def unfitLabels : List Label :=
  [.malformed, .reserved, .controlKeyword, .storageType, .returnKeyword, .target]

section Names

variable {w name blanks : Text}

/-- A word is a name unless its end, the list of reserved words or that of keywords forbids it. -/
theorem IsWord.isName_iff (word : IsWord w) : IsName w ↔ ¬['_', '_'] <:+ w ∧
    Vocabulary.isReserved (String.ofList w) = false ∧
      Vocabulary.isKeyword (String.ofList w) = false := by
  have formed : Rule.isMalformed w = false ↔ ¬['_', '_'] <:+ w := by
    obtain ⟨c, t, rfl, letter⟩ := word.exists_cons
    have first : c ≠ '_' := by
      rintro rfl
      cases letter
    rw [← List.isSuffixOf_iff_suffix, Bool.not_eq_true]
    simp [Rule.isMalformed, first]
  rw [← formed]
  exact ⟨fun name => ⟨name.formed, name.free, name.plain⟩, fun h => ⟨word, h.1, h.2.1, h.2.2⟩⟩

/-- Every other keyword is one token with a label of its own. -/
theorem keyword?_of_isKeyword (known : Vocabulary.isKeyword (String.ofList w) = true)
    (other : w ∉ headKeywords) : ∃ label ∈ unfitLabels,
      ∀ here after, Rule.keyword? here w after = some (.single here [label] w after) := by
  have control : Control.ofKeyword? (String.ofList w) = none := by
    cases found : Control.ofKeyword? (String.ofList w) with
    | none => rfl
    | some kind =>
      have heads : ∀ kind : Control, kind.keyword.toList ∈ headKeywords := by
        rintro (_ | _ | _) <;> decide
      have word := congrArg String.toList (Control.keyword_of_ofKeyword? found)
      rw [String.toList_ofList] at word
      exact absurd (word ▸ heads kind) other
  cases steers : Vocabulary.isControlKeyword (String.ofList w) with
  | true => exact ⟨.controlKeyword, by decide, fun _ _ => by simp [Rule.keyword?, control, steers]⟩
  | false =>
    cases type : Vocabulary.isStorageType (String.ofList w) with
    | true =>
      refine ⟨.storageType, by decide, fun _ _ => ?_⟩
      simp only [Rule.keyword?, control, steers, Bool.false_eq_true, if_false]
      split
      all_goals first
        | rfl
        | next word => exact absurd type (by rw [word]; decide)
        | rw [type]; rfl
    | false =>
      simp only [Vocabulary.isKeyword, steers, type, Bool.false_or] at known
      have mem := Vocabulary.mem_map_toList known
      simp only [Vocabulary.statementKeywords, List.map_cons, List.map_nil, List.mem_cons,
        List.not_mem_nil, or_false] at mem
      rcases mem with rfl | rfl | rfl | rfl | rfl
      · exact ⟨.storageType, by decide, fun _ _ => rfl⟩
      · exact ⟨.returnKeyword, by decide, fun _ _ => rfl⟩
      · exact absurd (by decide) other
      · exact absurd (by decide) other
      · exact ⟨.target, by decide, fun _ _ => rfl⟩

/-- What the place of a function's name makes of a word: the name is taken as declared if it may be
one, and has another label otherwise. -/
theorem wordStep_declared (word : IsWord name) (other : name ∉ headKeywords) :
    ∃ label ∈ .declaredFunction :: unfitLabels, (label = .declaredFunction ↔ IsName name) ∧
      ∀ (s : LineState) (after : Text),
        Rule.wordStep (s.enter (.functionDeclaration false false)) name after =
          .single (s.enter (.functionDeclaration (decide (IsName name)) false)) [label] name
            after := by
  by_cases declared : IsName name
  · refine ⟨.declaredFunction, List.mem_cons_self, by simp [declared], fun s after => ?_⟩
    simp only [Rule.wordStep, declared.formed, declared.free, Rule.nameSlot?, declared.plain,
      LineState.innermost_enter, declared, decide_true, Bool.false_eq_true, if_false]
    rfl
  · rw [decide_eq_false declared]
    -- what is no name has one of the other labels, and the region goes on waiting for a name
    suffices unfit : ∃ label ∈ unfitLabels, ∀ (s : LineState) (after : Text),
        Rule.wordStep (s.enter (.functionDeclaration false false)) name after =
          .single (s.enter (.functionDeclaration false false)) [label] name after by
      obtain ⟨label, mem, reads⟩ := unfit
      have different : ∀ l ∈ unfitLabels, l ≠ .declaredFunction := by decide
      exact ⟨label, List.mem_cons_of_mem _ mem, iff_of_false (different label mem) declared, reads⟩
    cases formed : Rule.isMalformed name with
    | true => exact ⟨.malformed, by decide, fun s after => by simp [Rule.wordStep, formed]⟩
    | false =>
      cases free : Vocabulary.isReserved (String.ofList name) with
      | true => exact ⟨.reserved, by decide, fun s after => by simp [Rule.wordStep, formed, free]⟩
      | false =>
        have known : Vocabulary.isKeyword (String.ofList name) = true := by
          by_contra plain
          exact declared ⟨word, formed, free, by simpa using plain⟩
        obtain ⟨label, mem, keyword⟩ := keyword?_of_isKeyword known other
        refine ⟨label, mem, fun s after => ?_⟩
        simp [Rule.wordStep, formed, free, Rule.nameSlot?, known, Rule.passDistribution, keyword]

/-- Behind the type of a function the next word is read as a name, whatever it is. -/
theorem take_declared (lexer : Lexer) (assigned : Bool) (word : IsWord name)
    (blank : ∀ c ∈ blanks, Text.isSpace c = true) (s : LineState) (rest : Text) :
    Step.take lexer assigned (s.enter (.functionDeclaration false false))
        (name ++ (blanks ++ '(' :: rest)) =
      Rule.wordStep (s.enter (.functionDeclaration false false)) name (blanks ++ '(' :: rest) := by
  have ends := endsWord_blanks_append blank (endsWord_paren rest)
  refine take_word word ends rfl rfl nofun nofun ?_
  -- `target` begins an addition only in front of `+=`, and here a parenthesis follows
  by_cases target : name = Rule.targetWord
  · obtain ⟨_, paren⟩ := Text.gap_append_cons (c := '(') blank (by decide) rest
    simp [Rule.accumulator?, target, paren]
  · apply accumulator?_eq_none
    rwa [word_append word ends]

end Names

section Lines

variable {lexer : Lexer} {here s there : LineState} {gap name blanks type rest : Text}

theorem LineTokens.behind_place {ps : List Piece} {t : Text} (texts : Piece.texts ps = t)
    (qs : List Piece) (n : Nat) (line : LineTokens) :
    (line.behind (Lexeme.place 0 qs) n).behind (Lexeme.place 0 ps) (Text.byteLength t) =
      line.behind (Lexeme.place 0 (ps ++ qs)) (Text.byteLength t + n) := by
  have placed := Lexeme.place_add (Text.byteLength t) 0 qs
  rw [Nat.add_zero] at placed
  rw [LineTokens.behind_behind, Lexeme.place_append, texts, Nat.zero_add, placed]

/-- Blanks in front of a visible character are cut into pieces that are joined to one. -/
theorem ComesTo.gap_append (parts : lexer.clusters.PartsAscii) (assigned : Bool) (here : LineState)
    (blank : ∀ c ∈ gap, Text.isSpace c = true) {c : Char} (visible : Text.isSpace c = false)
    (ascii : c.toNat < 128) (t : Text) :
    ∃ ps, Piece.joinPlain ps = Piece.ofText gap here [] ∧
      ComesTo lexer assigned here (gap ++ c :: t) ps assigned here (c :: t) := by
  -- a cluster may hold several blanks, so the pieces are not known, only their text and state
  by_cases none : gap = []
  · subst none
    exact ⟨[], rfl, .refl lexer assigned here (c :: t)⟩
  · obtain ⟨_, left⟩ := Text.gap_append_cons blank visible t
    have skipped := ComesTo.blanks parts assigned here (gap ++ c :: t) (by simpa [left] using ascii)
    rw [left] at skipped
    obtain ⟨ps, plain, skipped⟩ := skipped
    refine ⟨ps, ?_, skipped⟩
    have texts : Piece.texts ps = gap := by
      have whole := texts_cut lexer assigned here (gap ++ c :: t)
      rw [skipped] at whole
      simpa using whole
    have some_piece : ps ≠ [] := by
      rintro rfl
      exact none texts.symm
    rw [Piece.joinPlain_run some_piece (fun p mem => (plain p mem).1)
      (fun p mem => (plain p mem).2), texts]
    simp [Piece.ofText, none]

/-- What a line gives that begins with blanks and one token that is not an assignment. -/
theorem tokenizeLine_of_gap (parts : lexer.clusters.PartsAscii)
    (blank : ∀ c ∈ gap, Text.isSpace c = true) {p : Piece} (labelled : p.isPlain = false)
    (assigns : p.own.getLast? ≠ some .assignmentOperator)
    (visible : ∃ c t, p.text = c :: t ∧ Text.isSpace c = false ∧ c.toNat < 128)
    (strips : Text.stripTerminator (gap ++ p.text ++ rest) =
      gap ++ p.text ++ Text.stripTerminator rest)
    (taken : Step.take lexer false here (p.text ++ Text.stripTerminator rest) =
      ⟨[p], there, Text.stripTerminator rest⟩) :
    lexer.tokenizeLine (gap ++ p.text ++ rest) here = (lexer.tokenizeLine rest there).behind
      (Lexeme.place 0 (Piece.ofText gap here [] ++ [p])) (Text.byteLength (gap ++ p.text)) := by
  obtain ⟨c, t, text, shown, ascii⟩ := visible
  obtain ⟨ps, joined, skipped⟩ := ComesTo.gap_append parts false here blank shown ascii
    (t ++ Text.stripTerminator rest)
  have unassigned : (p.own.getLast? == some .assignmentOperator) = false := by simpa using assigns
  rw [← List.cons_append, ← text] at skipped
  have token := skipped.trans (.step (by simp [text]) taken)
  simp only [Step.assigns, List.getLast?_singleton, labelled, unassigned, Bool.false_eq_true,
    if_false] at token
  rw [← joined]
  refine tokenizeLine_append ps labelled strips ?_
  rw [List.append_assoc, token]
  simp

/-- A parenthesis behind the name of a function begins its parameters. -/
theorem take_parameters (named assigned : Bool) (s : LineState) (rest : Text) :
    Step.take lexer assigned (s.enter (.functionDeclaration named false)) ('(' :: rest) =
      .single (s.enter (.functionDeclaration named true)) [.begins .parameters] ['('] rest :=
  Step.take_mark rfl (by decide : ∀ table ∈ Rule.tables,
    (table.filter fun rule => rule.startsAt '(').head? = some .opener) rfl

def signaturePieces (s : LineState) (type gap name blanks : Text) (named : Bool) (label : Label) :
    List Piece :=
  ⟨type, s.enter (.functionDeclaration false false), [.returnType]⟩ ::
    (Piece.ofText gap (s.enter (.functionDeclaration false false)) [] ++
      ⟨name, s.enter (.functionDeclaration named false), [label]⟩ ::
        (Piece.ofText blanks (s.enter (.functionDeclaration named false)) [] ++
          [⟨['('], s.enter (.functionDeclaration named true), [.begins .parameters]⟩]))

/-- The parenthesis of a signature is no part of a terminator. -/
theorem stripTerminator_append_paren (t rest : Text) :
    Text.stripTerminator (t ++ '(' :: rest) = t ++ '(' :: Text.stripTerminator rest := by
  have line : t ++ '(' :: rest = t ++ ['('] ++ rest := by simp
  rw [line, Text.stripTerminator_append_of_getLast? List.getLast?_concat (by decide)]
  simp

/-- The type of a signature is read first. -/
theorem tokenizeLine_type (lexer : Lexer) (level : s.innermost.isStatementLevel = true)
    (returns : SpellsReturn type) (spelled : SpellsName gap name blanks) (rest : Text) :
    lexer.tokenizeLine (type ++ (gap ++ name ++ blanks ++ '(' :: rest)) s =
      (lexer.tokenizeLine (gap ++ name ++ blanks ++ '(' :: rest)
        (s.enter (.functionDeclaration false false))).behind
        (Lexeme.place 0 [⟨type, s.enter (.functionDeclaration false false), [.returnType]⟩])
        (Text.byteLength type) := by
  have found : Rule.functionDeclaration? s
      (type ++ (gap ++ name ++ blanks ++ '(' :: Text.stripTerminator rest)) = _ :=
    Rule.functionDeclaration?_eq_some_iff.2
      ⟨type, gap, name, blanks, Text.stripTerminator rest, returns, spelled, rfl, rfl⟩
  have some_type := (Rule.functionDeclaration?_covers found).visible _ List.mem_cons_self
  refine tokenizeLine_of_take lexer
    ⟨type, s.enter (.functionDeclaration false false), [.returnType]⟩ rfl (by simp) some_type ?_ ?_
  · rw [stripTerminator_append_paren, ← List.append_assoc, stripTerminator_append_paren,
      List.append_assoc]
  · rw [stripTerminator_append_paren]
    exact take_of_functionDeclaration? lexer false level found

/-- Behind the type the blanks and the name are read, as one token with a label of its own. -/
theorem tokenizeLine_name (parts : lexer.clusters.PartsAscii)
    (spelled : SpellsName gap name blanks) {label : Label} {named : Bool}
    (reads : ∀ (s : LineState) (after : Text),
      Rule.wordStep (s.enter (.functionDeclaration false false)) name after =
        .single (s.enter (.functionDeclaration named false)) [label] name after)
    (token : label ≠ .assignmentOperator) (s : LineState) (rest : Text) :
    lexer.tokenizeLine (gap ++ name ++ (blanks ++ '(' :: rest))
        (s.enter (.functionDeclaration false false)) =
      (lexer.tokenizeLine (blanks ++ '(' :: rest)
        (s.enter (.functionDeclaration named false))).behind
        (Lexeme.place 0 (Piece.ofText gap (s.enter (.functionDeclaration false false)) [] ++
          [⟨name, s.enter (.functionDeclaration named false), [label]⟩]))
        (Text.byteLength (gap ++ name)) := by
  obtain ⟨c, t, text, letter⟩ := spelled.word.exists_cons
  have ascii : c.toNat < 128 := by
    have point := Text.isAlpha_cases letter
    omega
  have taken := take_declared lexer false spelled.word spelled.blank s (Text.stripTerminator rest)
  rw [reads] at taken
  refine tokenizeLine_of_gap (p := ⟨name, s.enter (.functionDeclaration named false), [label]⟩)
    parts spelled.gap_blank rfl (by simpa using token)
    ⟨c, t, text, isSpace_of_isAlpha letter, ascii⟩ ?_ ?_
  · rw [stripTerminator_append_paren, ← List.append_assoc, stripTerminator_append_paren,
      List.append_assoc]
  · rw [stripTerminator_append_paren]
    exact taken

/-- Behind the name the blanks and the parenthesis are read. -/
theorem tokenizeLine_parameters (parts : lexer.clusters.PartsAscii)
    (blank : ∀ c ∈ blanks, Text.isSpace c = true) (named : Bool) (s : LineState) (rest : Text) :
    lexer.tokenizeLine (blanks ++ '(' :: rest) (s.enter (.functionDeclaration named false)) =
      (lexer.tokenizeLine rest (s.enter (.functionDeclaration named true))).behind
        (Lexeme.place 0 (Piece.ofText blanks (s.enter (.functionDeclaration named false)) [] ++
          [⟨['('], s.enter (.functionDeclaration named true), [.begins .parameters]⟩]))
        (Text.byteLength (blanks ++ ['('])) := by
  have line : blanks ++ '(' :: rest = blanks ++ ['('] ++ rest := by simp
  rw [line]
  refine tokenizeLine_of_gap
    (p := ⟨['('], s.enter (.functionDeclaration named true), [.begins .parameters]⟩)
    parts blank rfl (by simp) ⟨'(', [], rfl, by decide, by decide⟩ ?_ (take_parameters _ false s _)
  exact Text.stripTerminator_append_of_getLast? List.getLast?_concat (by decide) rest

/-- A signature is read as it was seen ahead, in front of any rest of its line. -/
theorem tokenizeLine_signature (parts : lexer.clusters.PartsAscii)
    (level : s.innermost.isStatementLevel = true) (returns : SpellsReturn type)
    (spelled : SpellsName gap name blanks) (other : name ∉ headKeywords) :
    ∃ label, (label = .declaredFunction ↔ IsName name) ∧ ∀ rest,
      lexer.tokenizeLine (type ++ gap ++ name ++ blanks ++ '(' :: rest) s =
        (lexer.tokenizeLine rest
          (s.enter (.functionDeclaration (decide (IsName name)) true))).behind
          (Lexeme.place 0 (signaturePieces s type gap name blanks (decide (IsName name)) label))
          (Text.byteLength (type ++ gap ++ name ++ blanks ++ ['('])) := by
  obtain ⟨label, mem, declared, reads⟩ := wordStep_declared spelled.word other
  have token : ∀ l ∈ Label.declaredFunction :: unfitLabels, l ≠ .assignmentOperator := by decide
  refine ⟨label, declared, fun rest => ?_⟩
  have line : type ++ gap ++ name ++ blanks ++ '(' :: rest =
      type ++ (gap ++ name ++ blanks ++ '(' :: rest) := by simp
  rw [line, tokenizeLine_type lexer level returns spelled, List.append_assoc (gap ++ name),
    tokenizeLine_name parts spelled reads (token label mem),
    tokenizeLine_parameters parts spelled.blank, LineTokens.behind_place (by simp),
    ← Text.byteLength_append, LineTokens.behind_place (by simp)]
  simp [signaturePieces, Nat.add_assoc]

/-- Every piece of a signature lies inside the declaration. -/
theorem mem_scope_signaturePieces {named : Bool} {label : Label} : ∀ p ∈
    signaturePieces s type gap name blanks named label, .functionDeclaration ∈ p.scope := by
  cases gap <;> cases blanks <;>
    simp [signaturePieces, Piece.ofText, Piece.scope, Region.labels]

/-- What is seen ahead of the declaration of a function agrees with what is read. A type is taken
for that of a function exactly where blanks, a name and a parenthesis follow it. The line is then
read as the type, the blanks, the name as one token and the parenthesis, all inside the declaration
that they open. The name is taken as the function's exactly if it may be one. -/
theorem signature_lookahead_agrees (lexer : Lexer) (parts : lexer.clusters.PartsAscii)
    (s : LineState) (level : s.innermost.isStatementLevel = true) :
    (∀ t step, Rule.functionDeclaration? s t = some step ↔
      ∃ type gap name blanks rest, SpellsReturn type ∧ SpellsName gap name blanks ∧
        t = type ++ (gap ++ name ++ blanks ++ '(' :: rest) ∧
        step = .single (s.enter (.functionDeclaration false false)) [.returnType] type
          (gap ++ name ++ blanks ++ '(' :: rest)) ∧
    ∀ type gap name blanks, SpellsReturn type → SpellsName gap name blanks →
      name ∉ headKeywords → ∃ named label,
        (named = true ↔ ¬['_', '_'] <:+ name ∧ Vocabulary.isReserved (String.ofList name) = false ∧
          Vocabulary.isKeyword (String.ofList name) = false) ∧
        (label = .declaredFunction ↔ named = true) ∧
        lexer.tokenizeLine (type ++ gap ++ name ++ blanks ++ ['(']) s =
          ⟨Lexeme.place 0 (signaturePieces s type gap name blanks named label),
            s.enter (.functionDeclaration named true)⟩ ∧
        ∀ p ∈ signaturePieces s type gap name blanks named label,
          .functionDeclaration ∈ p.scope := by
  refine ⟨fun t step => Rule.functionDeclaration?_eq_some_iff, ?_⟩
  intro type gap name blanks returns spelled other
  obtain ⟨label, declared, reads⟩ := tokenizeLine_signature parts level returns spelled other
  refine ⟨decide (IsName name), label, ?_, ?_, ?_, mem_scope_signaturePieces⟩
  · rw [decide_eq_true_iff, spelled.word.isName_iff]
  · rw [decide_eq_true_iff, declared]
  · rw [reads, tokenizeLine_nil]
    simp [LineTokens.behind]

/-- An array with open sizes in front of a wide blank and a name, and a keyword in the place of a
name. -/
theorem signature_lookahead_agrees_in_functions :
    let lexer : Lexer := ⟨{}, by decide, .prepending⟩
    let s := (lexer.tokenizeLine "functions \x7b".toList .initial).state
    let type := "array[,] real[]".toList
    (lexer.clusters.PartsAscii ∧ s.innermost.isStatementLevel = true ∧ SpellsReturn type ∧
        SpellsName ['\u3000'] ['f'] [' '] ∧ ['f'] ∉ headKeywords) ∧
      lexer.tokenizeLine "array[,] real[]\u3000f (".toList s =
        ⟨Lexeme.place 0 (signaturePieces s type ['\u3000'] ['f'] [' '] true .declaredFunction),
          s.enter (.functionDeclaration true true)⟩ ∧
      (lexer.tokenizeLine "int in(".toList s).state =
        s.enter (.functionDeclaration false true) := by
  intro lexer s type
  have level : s.innermost.isStatementLevel = true := by decide +kernel
  have sizes : SpellsSizes "[,]".toList := @SpellsSizes.intro [] [','] (by simp) (by simp)
  have none : SpellsSizes "[]".toList := @SpellsSizes.intro [] [] (by simp) (by simp)
  have blank : ∀ c ∈ [' '], Text.isSpace c = true := List.forall_mem_singleton.2 (by decide)
  have returns : SpellsReturn type :=
    .array sizes blank (.intro (w := "real".toList) (by decide) (.inr none))
  have spelled : SpellsName ['\u3000'] ['f'] [' '] :=
    ⟨by simp, List.forall_mem_singleton.2 (by decide), by decide, blank⟩
  obtain ⟨_, reads⟩ := signature_lookahead_agrees lexer Segmentation.prepending_partsAscii s level
  obtain ⟨named, label, fits, declared, whole, _⟩ := reads _ _ _ _ returns spelled (by decide)
  obtain rfl : named = true := fits.2 ⟨by decide, by decide, by decide⟩
  obtain rfl := declared.2 rfl
  have int : SpellsReturn "int".toList := .element (.intro (w := "int".toList) (by decide) (.inl rfl))
  have keyword : SpellsName [' '] "in".toList [] := ⟨by simp, blank, by decide, by simp⟩
  obtain ⟨open_, _, unfit, _, refused, _⟩ := reads _ _ _ _ int keyword (by decide)
  obtain rfl : open_ = false :=
    Bool.eq_false_iff.2 fun fits => absurd (unfit.1 fits) (by decide)
  exact ⟨⟨Segmentation.prepending_partsAscii, level, returns, spelled, by decide⟩, whole,
    congrArg LineTokens.state refused⟩

end Lines

end StanHighlight

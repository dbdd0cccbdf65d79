import StanHighlight.Proofs.Token

/-!
What words do. A word ends where no word character follows, so only its spelling and what
comes after it decide. A name changes nothing, unless its parenthesis follows at once; a
keyword that opens nothing changes nothing either.
-/

namespace StanHighlight

variable {lexer : Lexer} {assigned : Bool} {here : LineState} {rule : Rule} {c : Char}
  {w t rest : Text}

structure IsWord (w : Text) : Prop where
  letter : w.head?.any Char.isAlpha = true
  chars : w.all Text.isWordChar = true

instance (w : Text) : Decidable (IsWord w) :=
  decidable_of_iff (w.head?.any Char.isAlpha = true ∧ w.all Text.isWordChar = true)
    ⟨fun h => ⟨h.1, h.2⟩, fun h => ⟨h.letter, h.chars⟩⟩

def EndsWord (t : Text) : Prop := ∀ c ∈ t.head?, Text.isWordChar c = false

theorem Parted.endsWord (h : Parted t) : EndsWord t := by
  rcases h with rfl | ⟨rest, rfl⟩
  · intro c hc
    cases hc
  · intro c hc
    cases hc
    decide

theorem endsWord_iff : EndsWord t ↔ Text.word t = [] := by
  cases t with
  | nil => exact ⟨fun _ => rfl, fun _ => nofun⟩
  | cons c t => cases h : Text.isWordChar c <;> simp [EndsWord, Text.word, h]

theorem EndsWord.of_prefix (h : EndsWord rest) (front : t <+: rest) : EndsWord t := by
  obtain ⟨more, rfl⟩ := front
  cases t with
  | nil => exact nofun
  | cons c t => exact fun d first => h d first

theorem endsWord_afterWord (t : Text) : EndsWord (Text.afterWord t) := by
  have first := List.head?_dropWhile_not Text.isWordChar t
  intro c found
  rw [Text.afterWord] at found
  rw [found] at first
  exact first

theorem endsWord_paren (t : Text) : EndsWord ('(' :: t) := by
  intro c hc
  cases hc
  decide

theorem IsWord.exists_cons (h : IsWord w) : ∃ c t, w = c :: t ∧ c.isAlpha = true := by
  cases w with
  | nil => cases h.letter
  | cons c t => exact ⟨c, t, rfl, by simpa using h.letter⟩

theorem IsWord.clean (h : IsWord w) : Clean w where
  visible := by
    obtain ⟨c, t, rfl, _⟩ := h.exists_cons
    exact List.cons_ne_nil c t
  ascii := by
    obtain ⟨c, t, rfl, letter⟩ := h.exists_cons
    have point := Text.isAlpha_cases letter
    simp only [List.head?_cons, Option.all_some, decide_eq_true_eq]
    omega
  newline mem := absurd (List.all_eq_true.1 h.chars _ mem) (by decide)
  return_ last := absurd (List.all_eq_true.1 h.chars _ (List.mem_of_getLast? last)) (by decide)

theorem word_append (h : IsWord w) (ends : EndsWord rest) : Text.word (w ++ rest) = w := by
  have chars : ∀ c ∈ w, Text.isWordChar c = true := List.all_eq_true.1 h.chars
  rw [Text.word, List.takeWhile_append_of_pos chars]
  cases rest with
  | nil => simp
  | cons c t => simp [ends c rfl]

theorem afterWord_append (h : IsWord w) (ends : EndsWord rest) :
    Text.afterWord (w ++ rest) = rest := by
  have whole := Text.word_append_afterWord (w ++ rest)
  rw [word_append h ends] at whole
  exact List.append_cancel_left whole

theorem isDigit_of_isAlpha (h : c.isAlpha = true) : c.isDigit = false := by
  rw [Bool.eq_false_iff]
  intro digit
  have letters := Text.isAlpha_cases h
  have digits : 48 ≤ c.toNat ∧ c.toNat ≤ 57 := Char.isDigit_iff_toNat.1 digit
  omega

/-- The rules that may start with a letter. -/
theorem mem_of_startsAt_letter (h : c.isAlpha = true) (starts : rule.startsAt c = true) :
    rule ∈ [Rule.sectionHeader, .functionDeclaration, .variableDeclaration, .accumulator, .word] := by
  have letters : rule.marks.all (fun d => d.isAlpha → rule = .accumulator) = true := by
    cases rule <;> decide
  simp only [Rule.startsAt, List.contains_eq_mem, Bool.or_eq_true, decide_eq_true_eq,
    Bool.and_eq_true, beq_iff_eq] at starts
  rcases starts with (mark | ⟨letter, _⟩) | ⟨_, digit⟩
  · have target := List.all_eq_true.1 letters c mark
    simp [of_decide_eq_true target h]
  · cases rule with
    | sectionHeader | functionDeclaration | variableDeclaration | word => decide
    | _ => cases letter
  · simp [isDigit_of_isAlpha h] at digit

/-- Where statements begin, a rule decides about a letter if no other rule for declarations or
headers before it applies. -/
theorem take_of_level {s : Step} (rule : Rule) (level : here.innermost.isStatementLevel = true)
    (letter : c.isAlpha = true) (mem : rule ∈ Rule.statement)
    (applies : Rule.step? lexer.config assigned here (c :: t) rule = some s)
    (earlier : ∀ other ∈ Rule.statement.takeWhile (· != rule), other ≠ .inclusion →
      Rule.step? lexer.config assigned here (c :: t) other = none) :
    Step.take lexer assigned here (c :: t) = s := by
  have table := Region.rules_of_isStatementLevel level
  refine Step.take_of_precedes rule (table ▸ mem) applies fun other before starts => ?_
  rw [table] at before
  refine earlier other before ?_
  rintro rfl
  exact absurd (mem_of_startsAt_letter letter starts) (by decide)

theorem isWordChar_of_isSpace (h : Text.isSpace c = true) : Text.isWordChar c = false := by
  rw [Bool.eq_false_iff]
  intro word
  have blank := Text.isSpace_cases h
  change ((c.isAlpha || c.isDigit) || c == '_') = true at word
  simp only [Bool.or_eq_true, beq_iff_eq] at word
  rcases word with (letter | digit) | rfl
  · have letters := Text.isAlpha_cases letter
    omega
  · have digits : 48 ≤ c.toNat ∧ c.toNat ≤ 57 := Char.isDigit_iff_toNat.1 digit
    omega
  · exact absurd h (by decide)

theorem isSpace_of_isWordChar (h : Text.isWordChar c = true) : Text.isSpace c = false := by
  rw [Bool.eq_false_iff]
  intro blank
  rw [isWordChar_of_isSpace blank] at h
  cases h

theorem isSpace_of_isAlpha (h : c.isAlpha = true) : Text.isSpace c = false :=
  isSpace_of_isWordChar (by simp [Text.isWordChar, Char.isAlphanum, h])

theorem endsWord_of_gap (h : Text.gap t ≠ []) : EndsWord t := by
  cases t with
  | nil => exact nofun
  | cons c t =>
    rintro d ⟨⟩
    cases blank : Text.isSpace c with
    | true => exact isWordChar_of_isSpace blank
    | false => exact absurd (List.takeWhile_cons_of_neg (by simp [blank])) h

theorem endsWord_blanks_append {blanks : Text} (blank : ∀ c ∈ blanks, Text.isSpace c = true)
    (ends : EndsWord t) : EndsWord (blanks ++ t) := by
  cases blanks with
  | nil => exact ends
  | cons b blanks =>
    rintro c ⟨⟩
    exact isWordChar_of_isSpace (blank b List.mem_cons_self)

/-- No word is in front of a text whose first character that is not blank is not part of one. -/
theorem word_eq_nil (h : Text.trimStart t = c :: rest) (hc : Text.isWordChar c = false) :
    Text.word t = [] := by
  cases t with
  | nil => rfl
  | cons d t =>
    have hd : Text.isWordChar d = false := by
      cases blank : Text.isSpace d with
      | true => exact isWordChar_of_isSpace blank
      | false =>
        rw [Text.trimStart_cons_of_not_isSpace blank] at h
        obtain rfl := (List.cons.inj h).1
        exact hc
    simp [Text.word, hd]

/-- A text that begins with a fixed word, blanks and some other character begins with no other
word. -/
theorem word_of_after? {v : Text} (chars : v.all Text.isWordChar = true)
    (h : t.after? v = some rest) {more : Text} (next : Text.trimStart rest = c :: more)
    (hc : Text.isWordChar c = false) : Text.word t = v := by
  rw [Text.after?_eq_some_iff.1 h, Text.word, List.takeWhile_append_of_pos (List.all_eq_true.1 chars),
    ← Text.word, word_eq_nil next hc, List.append_nil]

theorem accumulator?_eq_none (h : Text.word t ≠ Rule.targetWord) :
    Rule.accumulator? here t = none := by
  unfold Rule.accumulator?
  split
  · rfl
  · next found =>
    split
    · next sign => exact absurd (word_of_after? (by decide) found sign (by decide)) h
    · rfl

theorem openDimensions?_eq_none (h : (Text.trimStart t).head? ≠ some '[') :
    Rule.openDimensions? t = none := by
  unfold Rule.openDimensions?
  split
  · next found => simp [found] at h
  · rfl

theorem arrayOf_eq (h : Text.word t ≠ Rule.arrayWord) : Rule.arrayOf t = ([], t) := by
  unfold Rule.arrayOf
  split
  · next found =>
    obtain ⟨rest, after, sizes⟩ := Option.bind_eq_some_iff.1 found
    by_cases bracket : (Text.trimStart rest).head? = some '['
    · obtain ⟨more, next⟩ := List.head?_eq_some_iff.1 bracket
      exact absurd (word_of_after? (by decide) after next (by decide)) h
    · rw [openDimensions?_eq_none bracket] at sizes
      cases sizes
  · rfl

theorem returnType?_eq_none (h : Text.word t ≠ Rule.arrayWord)
    (other : Vocabulary.returnTypes.contains (String.ofList (Text.word t)) = false) :
    Rule.returnType? t = none := by
  simp only [Rule.returnType?, arrayOf_eq h, other]
  rfl

/-- A word is read as such unless it begins a header, a declaration or an addition. -/
theorem take_word (word : IsWord w) (ends : EndsWord rest)
    (comment : here.innermost.isBlockComment = false)
    (header : Rule.sectionHeader? here (w ++ rest) = none)
    (signature : here.innermost.isStatementLevel = true →
      Rule.functionDeclaration? here (w ++ rest) = none)
    (type : here.innermost.isStatementLevel = true →
      Vocabulary.isStorageType (String.ofList w) = false)
    (target : Rule.accumulator? here (w ++ rest) = none) :
    Step.take lexer assigned here (w ++ rest) = Rule.wordStep here w rest := by
  have applies : Rule.word? here (w ++ rest) = some (Rule.wordStep here w rest) := by
    rw [Rule.word?, word_append word ends, afterWord_append word ends, if_pos]
    obtain ⟨c, t, rfl, letter⟩ := word.exists_cons
    simp [Text.startsWord, letter]
  have storage : here.innermost.isStatementLevel = true →
      Rule.variableDeclaration? here (w ++ rest) = none := by
    intro level
    rw [Rule.variableDeclaration?, word_append word ends, type level]
    rfl
  obtain ⟨c, t, rfl, letter⟩ := word.exists_cons
  refine Step.take_of_rule .word (Region.mem_rules_of_mem_expression comment (by decide)) applies ?_
  intro other mem starts different
  have level := Region.isStatementLevel_of_mem_rules mem
  have kinds := mem_of_startsAt_letter letter starts
  simp only [List.mem_cons, List.not_mem_nil, or_false] at kinds
  rcases kinds with rfl | rfl | rfl | rfl | rfl
  · exact header
  · exact signature (level (by decide))
  · exact storage (level (by decide))
  · exact target
  · exact absurd rfl different

def typeWords : List Text := "void".toList :: Vocabulary.storageTypes.map String.toList

theorem facts_of_mem_typeWords : ∀ w ∈ typeWords, IsWord w ∧ Rule.isMalformed w = false ∧
    Vocabulary.isReserved (String.ofList w) = false ∧ w ≠ Rule.targetWord := by
  decide

theorem isStorageType_of_notMem (h : w ∉ typeWords) :
    Vocabulary.isStorageType (String.ofList w) = false := by
  rw [Bool.eq_false_iff]
  intro type
  exact h (List.mem_cons_of_mem _ (Vocabulary.mem_map_toList type))

theorem functionDeclaration?_of_notMem (h : Text.word t ∉ typeWords) :
    Rule.functionDeclaration? here t = none := by
  have types : ∀ w ∈ Vocabulary.returnTypes.map String.toList, w ∈ typeWords := by decide
  have array : Text.word t ≠ Rule.arrayWord := by
    intro same
    exact h (same ▸ (by decide : Rule.arrayWord ∈ typeWords))
  have other : Vocabulary.returnTypes.contains (String.ofList (Text.word t)) = false := by
    rw [Bool.eq_false_iff]
    intro type
    exact h (types _ (Vocabulary.mem_map_toList type))
  rw [Rule.functionDeclaration?, returnType?_eq_none array other]

/-- A word that may be used and neither begins a declaration nor an addition to the target. -/
structure IsPlain (w : Text) : Prop extends IsWord w where
  formed : Rule.isMalformed w = false
  free : Vocabulary.isReserved (String.ofList w) = false
  type : w ∉ typeWords
  target : w ≠ Rule.targetWord

instance (w : Text) : Decidable (IsPlain w) :=
  decidable_of_iff (IsWord w ∧ Rule.isMalformed w = false ∧
      Vocabulary.isReserved (String.ofList w) = false ∧ w ∉ typeWords ∧ w ≠ Rule.targetWord)
    ⟨fun h => ⟨h.1, h.2.1, h.2.2.1, h.2.2.2.1, h.2.2.2.2⟩,
      fun h => ⟨h.toIsWord, h.formed, h.free, h.type, h.target⟩⟩

theorem IsPlain.take (plain : IsPlain w) (ends : EndsWord rest)
    (comment : here.innermost.isBlockComment = false)
    (header : Rule.sectionHeader? here (w ++ rest) = none) :
    Step.take lexer assigned here (w ++ rest) = Rule.wordStep here w rest := by
  have word := word_append plain.toIsWord ends
  refine take_word plain.toIsWord ends comment header ?_ ?_ ?_
  · intro _
    apply functionDeclaration?_of_notMem
    rw [word]
    exact plain.type
  · exact fun _ => isStorageType_of_notMem plain.type
  · apply accumulator?_eq_none
    rw [word]
    exact plain.target

/-- In a calm region a word is at most marked as a keyword of constraints. -/
theorem nameSlot?_of_isCalm (calm : here.innermost.isCalm = true) (w after : Text) :
    Rule.nameSlot? here w after = none ∨
      (Rule.afterEquals? (Text.trimStart after)).isSome = true ∧
        ∃ own, Rule.nameSlot? here w after = some (.single here own w after) := by
  cases e : here.innermost with
  | constraints =>
    simp only [Rule.nameSlot?, e]
    split
    · next range => exact .inr ⟨range.2, _, rfl⟩
    · exact .inl rfl
  | declaration named =>
    obtain rfl : named = true := by simpa [e, Region.isCalm] using calm
    simp [Rule.nameSlot?, e]
  | sampling filled =>
    obtain rfl : filled = true := by simpa [e, Region.isCalm] using calm
    simp [Rule.nameSlot?, e]
  | control kind opened named =>
    left
    simp only [Rule.nameSlot?, e]
    split <;> simp_all [Region.isCalm]
  | functionDeclaration => simp [e, Region.isCalm] at calm
  | _ => simp [Rule.nameSlot?, e]

theorem passDistribution_of_isCalm (calm : here.innermost.isCalm = true) :
    Rule.passDistribution here = here := by
  unfold Rule.passDistribution
  split
  · next waits => simp [waits, Region.isCalm] at calm
  · rfl

theorem sectionHeader?_of_isCalm (calm : here.innermost.isCalm = true) (t : Text) :
    Rule.sectionHeader? here t = none := by
  have inside : here.innermost ≠ .program := by
    intro top
    simp [top, Region.isCalm] at calm
  simp [Rule.sectionHeader?, inside]

theorem IsPlain.take_of_isCalm (plain : IsPlain w) (ends : EndsWord rest)
    (calm : here.innermost.isCalm = true) :
    Step.take lexer assigned here (w ++ rest) = Rule.wordStep here w rest :=
  plain.take ends (Region.isBlockComment_of_isCalm calm) (sectionHeader?_of_isCalm calm _)

structure IsName (w : Text) : Prop extends IsWord w where
  formed : Rule.isMalformed w = false
  free : Vocabulary.isReserved (String.ofList w) = false
  plain : Vocabulary.isKeyword (String.ofList w) = false

instance (w : Text) : Decidable (IsName w) :=
  decidable_of_iff (IsWord w ∧ Rule.isMalformed w = false ∧
      Vocabulary.isReserved (String.ofList w) = false ∧ Vocabulary.isKeyword (String.ofList w) = false)
    ⟨fun h => ⟨h.1, h.2.1, h.2.2.1, h.2.2.2⟩, fun h => ⟨h.toIsWord, h.formed, h.free, h.plain⟩⟩

namespace IsName

/-- A name is none of the words that have a meaning. -/
theorem notMem (name : IsName w) {ws : List Text}
    (h : ∀ v ∈ ws, Vocabulary.isKeyword (String.ofList v) = true) : w ∉ ws := by
  intro mem
  have known := h w mem
  rw [name.plain] at known
  cases known

theorem isPlain (name : IsName w) : IsPlain w where
  toIsWord := name.toIsWord
  formed := name.formed
  free := name.free
  type := name.notMem (by decide)
  target same := name.notMem (by decide : ∀ v ∈ [Rule.targetWord], _) (List.mem_singleton.2 same)

/-- A name is no keyword, unless a bracket makes it one. -/
theorem keyword?_eq_none (name : IsName w) {after : Text}
    (bracket : w = ['T'] → after.head? ≠ some '[') : Rule.keyword? here w after = none := by
  have plain := name.plain
  simp only [Vocabulary.isKeyword, Bool.or_eq_false_iff] at plain
  have control : Control.ofKeyword? (String.ofList w) = none := by
    cases found : Control.ofKeyword? (String.ofList w) with
    | none => rfl
    | some kind =>
      have word := Control.keyword_of_ofKeyword? found
      have known : Vocabulary.isControlKeyword kind.keyword = true := by cases kind <;> decide
      rw [word, plain.1.1] at known
      cases known
  simp only [Rule.keyword?, control, plain.1.1, Bool.false_eq_true, if_false]
  split
  · next word =>
    have alone := bracket (String.toList_ofList.symm.trans (congrArg String.toList word))
    split
    · simp at alone
    · rfl
  all_goals first
    | next word => exact absurd plain.2 (by rw [word]; decide)
    | rw [plain.1.2]; rfl

theorem wordStep_eq (name : IsName w) (pass : Rule.passDistribution here = here) {after : Text}
    (bracket : w = ['T'] → after.head? ≠ some '[') (slot : Rule.nameSlot? here w after = none) :
    Rule.wordStep here w after = Rule.identifier here w after := by
  simp only [Rule.wordStep, name.formed, name.free, slot, pass,
    name.keyword?_eq_none bracket, Bool.false_eq_true, if_false, Option.getD_none]

/-- A name that stands alone changes nothing. -/
theorem leads (name : IsName w) (calm : here.innermost.isCalm = true) :
    Leads lexer here [w] (fun there => there = here) := by
  refine .token name.clean fun assigned rest parted => ?_
  rw [name.isPlain.take_of_isCalm parted.endsWord calm]
  rcases nameSlot?_of_isCalm calm w rest with none | ⟨_, own, slot⟩
  · have bracket : rest.head? ≠ some '[' := by
      rcases parted with rfl | ⟨rest, rfl⟩ <;> simp
    rw [name.wordStep_eq (passDistribution_of_isCalm calm) (fun _ => bracket) none]
    rcases parted with rfl | ⟨rest, rfl⟩ <;> exact ⟨rfl, rfl⟩
  · simp [Rule.wordStep, name.formed, name.free, slot, Step.single]

/-- A name with its parenthesis begins a call. -/
theorem leads_call (name : IsName w) (calm : here.innermost.isCalm = true) :
    Leads lexer here [w ++ ['(']] (fun there => there = here.enter (.call .function)) := by
  refine .token (name.clean.append (by decide)) fun assigned rest _ => ?_
  have bracket : List.head? ('(' :: rest) ≠ some '[' := by simp
  rw [List.append_assoc, List.singleton_append, name.isPlain.take_of_isCalm (endsWord_paren rest) calm]
  rcases nameSlot?_of_isCalm calm w ('(' :: rest) with none | ⟨equals, _⟩
  · rw [name.wordStep_eq (passDistribution_of_isCalm calm) (fun _ => bracket) none]
    exact ⟨rfl, rfl⟩
  · cases equals

end IsName

/-- A keyword that opens nothing is read as a keyword or as one of constraints. -/
theorem wordStep_of_keyword? (calm : here.innermost.isCalm = true) {after : Text} {own : List Label}
    (formed : Rule.isMalformed w = false) (free : Vocabulary.isReserved (String.ofList w) = false)
    (h : Rule.keyword? here w after = some (.single here own w after)) :
    ∃ own, Rule.wordStep here w after = .single here own w after := by
  rcases nameSlot?_of_isCalm calm w after with none | ⟨_, own, slot⟩
  · exact ⟨own, by simp [Rule.wordStep, formed, free, none, passDistribution_of_isCalm calm, h]⟩
  · exact ⟨own, by simp [Rule.wordStep, formed, free, slot]⟩

/-- Keywords inside and between statements that open no region. -/
def linkWords : List Text :=
  ["in".toList, "else".toList, "break".toList, "continue".toList, "return".toList]

theorem leads_linkWord (mem : w ∈ linkWords) (calm : here.innermost.isCalm = true) :
    Leads lexer here [w] (fun there => there = here) := by
  have facts : ∀ v ∈ linkWords, IsPlain v := by decide
  have plain := facts w mem
  refine .token plain.clean fun assigned rest parted => ?_
  have known : ∃ own, Rule.keyword? here w rest = some (.single here own w rest) := by
    simp only [linkWords, List.mem_cons, List.not_mem_nil, or_false] at mem
    rcases mem with rfl | rfl | rfl | rfl | rfl <;> exact ⟨_, rfl⟩
  obtain ⟨own, known⟩ := known
  obtain ⟨own, step⟩ := wordStep_of_keyword? calm plain.formed plain.free known
  rw [plain.take_of_isCalm parted.endsWord calm, step]
  exact ⟨rfl, rfl⟩

/-- The words of types are read as words where no statement begins. -/
theorem take_word_of_mem_typeWords (mem : w ∈ typeWords) (ends : EndsWord rest)
    (comment : here.innermost.isBlockComment = false)
    (inside : here.innermost.isStatementLevel = false) :
    Step.take lexer assigned here (w ++ rest) = Rule.wordStep here w rest := by
  obtain ⟨word, _, _, target⟩ := facts_of_mem_typeWords w mem
  have outside : here.innermost ≠ .program := by
    intro program
    rw [program] at inside
    cases inside
  refine take_word word ends comment ?_ (by simp [inside]) (by simp [inside])
    (accumulator?_eq_none ?_)
  · simp [Rule.sectionHeader?, outside]
  · rwa [word_append word ends]

/-- Inside expressions the words of types are no more than keywords. -/
theorem leads_typeWord (mem : w ∈ typeWords) (calm : here.innermost.isCalm = true)
    (inside : here.innermost.isStatementLevel = false) :
    Leads lexer here [w] (fun there => there = here) := by
  obtain ⟨word, formed, free, _⟩ := facts_of_mem_typeWords w mem
  refine .token word.clean fun assigned rest parted => ?_
  have known : ∃ own, Rule.keyword? here w rest = some (.single here own w rest) := by
    simp only [typeWords, Vocabulary.storageTypes, List.map_cons, List.map_nil, List.mem_cons,
      List.not_mem_nil, or_false] at mem
    rcases mem with rfl | rfl | rfl | rfl | rfl | rfl | rfl | rfl | rfl | rfl | rfl | rfl | rfl |
      rfl | rfl | rfl | rfl | rfl | rfl <;> exact ⟨_, rfl⟩
  obtain ⟨own, known⟩ := known
  obtain ⟨own, step⟩ := wordStep_of_keyword? calm formed free known
  rw [take_word_of_mem_typeWords mem parted.endsWord (Region.isBlockComment_of_isCalm calm) inside,
    step]
  exact ⟨rfl, rfl⟩

end StanHighlight

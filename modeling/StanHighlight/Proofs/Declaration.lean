import StanHighlight.Proofs.Head

/-!
Declarations of variables. At statement level the type opens a region that the name, the
constraints and the initializer stand in and that the `;` ends. Within braces that were taken
for an array no declaration is recognised, and its tokens change nothing.
-/

namespace StanHighlight

/-- Where a statement may begin: directly in braces, with no `?` that waits. -/
structure IsHost (here : LineState) : Prop where
  braced : here.innermost.isBraced = true
  settled : here.inner.ternaries = 0

variable {lexer : Lexer} {assigned : Bool} {here : LineState} {w rest : Text} {ts us : List Text}

namespace IsHost

theorem enter {r : Region} (here : LineState) (braced : r.isBraced = true) :
    IsHost (here.enter r) :=
  ⟨braced, rfl⟩

theorem isCalm (host : IsHost here) : here.innermost.isCalm = true :=
  Region.isCalm_of_isBraced host.braced

theorem isBlockComment (host : IsHost here) : here.innermost.isBlockComment = false :=
  Region.isBlockComment_of_isCalm host.isCalm

theorem cases_innermost (host : IsHost here) :
    (∃ s, here.innermost = .sectionBody s) ∨ here.innermost = .block ∨ here.innermost = .array := by
  have braced := host.braced
  cases e : here.innermost with
  | sectionBody s => exact .inl ⟨s, rfl⟩
  | block => exact .inr (.inl rfl)
  | array => exact .inr (.inr rfl)
  | _ => simp [e, Region.isBraced] at braced

theorem level_or_array (host : IsHost here) :
    here.innermost.isStatementLevel = true ∨ here.innermost = .array := by
  rcases host.cases_innermost with ⟨s, e⟩ | e | e
  · exact .inl (by rw [e]; rfl)
  · exact .inl (by rw [e]; rfl)
  · exact .inr e

theorem ne_program (host : IsHost here) : here.innermost ≠ .program := by
  rcases host.cases_innermost with ⟨s, e⟩ | e | e <;> rw [e] <;> exact nofun

theorem ne_constraints (host : IsHost here) : here.innermost ≠ .constraints := by
  rcases host.cases_innermost with ⟨s, e⟩ | e | e <;> rw [e] <;> exact nofun

theorem assigns (host : IsHost here) : here.innermost.assigns = true := by
  rcases host.cases_innermost with ⟨s, e⟩ | e | e <;> rw [e] <;> rfl

/-- No `;` ends the region in which a statement begins. -/
theorem outlasts (host : IsHost here) : here.innermost.endsBeforeTerminator = false ∧
    here.innermost.endsWithTerminator = false := by
  rcases host.cases_innermost with ⟨s, e⟩ | e | e <;> rw [e] <;> exact ⟨rfl, rfl⟩

theorem beforeTerminator_eq (host : IsHost here) : Rule.beforeTerminator here = here := by
  have outlasts : here.inner.region.endsBeforeTerminator = false := host.outlasts.1
  obtain ⟨inner, outer⟩ := here
  cases outer with
  | nil => rfl
  | cons f outer => simp [Rule.beforeTerminator, LineState.leaveWhile, outlasts]

theorem forget_eq (host : IsHost here) : here.forget = here := by
  obtain ⟨⟨r, n⟩, outer⟩ := here
  obtain rfl : n = 0 := host.settled
  rfl

theorem afterTerminator_eq (host : IsHost here) : Rule.afterTerminator here = here := by
  simp [Rule.afterTerminator, host.outlasts.2, host.forget_eq]

theorem afterTerminator_enter (host : IsHost here) {r : Region}
    (ends : r.endsWithTerminator = true) :
    Rule.afterTerminator (here.enter r) = here := by
  simp [Rule.afterTerminator, ends, host.forget_eq]

/-- A `;` changes nothing where a statement may begin. -/
theorem leads_end (host : IsHost here) : Leads lexer here [[';']] fun there => there = here := by
  refine (leads_terminator host.isBlockComment).weaken ?_
  rintro _ rfl
  rw [host.beforeTerminator_eq, host.afterTerminator_eq]

/-- A `;` ends the addition to the target in front of it. -/
theorem leads_endAccumulation (host : IsHost here) :
    Leads lexer (here.enter .accumulation) [[';']] fun there => there = here := by
  refine (leads_terminator rfl).weaken ?_
  rintro _ rfl
  change Rule.afterTerminator (Rule.beforeTerminator here) = here
  rw [host.beforeTerminator_eq, host.afterTerminator_eq]

/-- A `;` ends a declaration or a sampling statement. -/
theorem leads_endStatement (host : IsHost here) {r : Region} (ends : r.endsWithTerminator = true) :
    Leads lexer (here.enter r) [[';']] fun there => there = here := by
  have others : r.isBlockComment = false ∧ r.endsBeforeTerminator = false := by
    cases r with
    | declaration | sampling => exact ⟨rfl, rfl⟩
    | _ => cases ends
  have stays : Rule.beforeTerminator (here.enter r) = here.enter r := by
    simp [Rule.beforeTerminator, LineState.enter, LineState.frames, LineState.leaveWhile, others.2]
  have comment : (here.enter r).innermost.isBlockComment = false := others.1
  refine (leads_terminator comment).weaken ?_
  rintro _ rfl
  rw [stays, host.afterTerminator_enter ends]

/-- A `;` ends an initializer together with its declaration. -/
theorem leads_endInitializer (host : IsHost here) :
    Leads lexer ((here.enter (.declaration true)).enter .initializer) [[';']]
      fun there => there = here := by
  refine (leads_terminator rfl).weaken ?_
  rintro _ rfl
  exact host.afterTerminator_enter (r := .declaration true) rfl

end IsHost

inductive Part where
  | type
  /-- Bounds with commas between them, at least one. -/
  | ranges
  | constraints | sizes | initial
  deriving DecidableEq, Repr

namespace Part

def variableTypes : List Text := Vocabulary.storageTypes.map String.toList

def rangeWords : List Text := Vocabulary.rangeKeywords.map String.toList

inductive Derives : Part → List Text → Prop
  | plain {w : Text} (mem : w ∈ variableTypes) : Derives .type [w]
  | array {w : Text} {ts : List Text} (h : Phrase.Derives .items ts) (mem : w ∈ variableTypes) :
      Derives .type (Rule.arrayWord :: ([['[']] ++ ts ++ [[']']] ++ [w]))
  | range {w : Text} {ts : List Text} (mem : w ∈ rangeWords)
      (h : Phrase.Derives (.expression false) ts) : Derives .ranges (w :: ['='] :: ts)
  | moreRanges {w : Text} {ts us : List Text} (mem : w ∈ rangeWords)
      (h : Phrase.Derives (.expression false) ts) (more : Derives .ranges us) :
      Derives .ranges (w :: ['='] :: (ts ++ [','] :: us))
  | noConstraints : Derives .constraints []
  | someConstraints {ts : List Text} (h : Derives .ranges ts) :
      Derives .constraints ([['<']] ++ ts ++ [['>']])
  | noSizes : Derives .sizes []
  | someSizes {ts : List Text} (h : Phrase.Derives .items ts) :
      Derives .sizes ([['[']] ++ ts ++ [[']']])
  | noInitial : Derives .initial []
  | someInitial {ts : List Text} (h : Phrase.Derives (.expression true) ts) :
      Derives .initial (['='] :: ts)

theorem mem_typeWords (mem : w ∈ variableTypes) : w ∈ typeWords :=
  List.mem_cons_of_mem _ mem

theorem isName_of_mem_rangeWords : ∀ w ∈ rangeWords, IsName w := by decide

end Part

theorem head?_ne_of_parted (h : Parted rest) {c : Char} (visible : c ≠ ' ') :
    rest.head? ≠ some c := by
  rcases h with rfl | ⟨rest, rfl⟩
  · simp
  · simpa using Ne.symm visible

theorem afterEquals?_of_parted (h : Parted rest) : Rule.afterEquals? ('=' :: rest) = some rest := by
  simp [Rule.afterEquals?, head?_ne_of_parted h]

/-- The sign between the keyword of a range and its bound. -/
theorem leads_rangeSign (inside : here.innermost = .constraints) :
    Leads lexer here [['=']] fun there => there = here := by
  refine leads_first .constraintEquals ?_ (by decide) fun assigned rest parted => ?_
  · rw [inside]
    decide
  · refine ⟨.single here [.equals] ['='] rest, ?_, rfl, rfl⟩
    simp [Rule.step?, Rule.constraintEquals?, afterEquals?_of_parted parted]

/-- The sign in front of an initializer opens it. -/
theorem leads_initialSign {named : Bool} (inside : here.innermost = .declaration named) :
    Leads lexer here [['=']] fun there => there = here.enter .initializer := by
  refine leads_first .initializer ?_ (by decide) fun assigned rest parted => ?_
  · rw [inside]
    change (Rule.declaration.filter fun rule => rule.startsAt '=').head? = some .initializer
    decide
  · refine ⟨.single (here.enter .initializer) [.initializerSign] ['='] rest, ?_, rfl, rfl⟩
    simp [Rule.step?, Rule.initializer?, afterEquals?_of_parted parted]

theorem leads_openConstraints (inside : here.innermost = .declaration false) :
    Leads lexer here [['<']] fun there => there = here.enter .constraints := by
  refine leads_first .constraintsBegin ?_ (by decide) fun assigned rest parted => ?_
  · rw [inside]
    decide
  · refine ⟨.single (here.enter .constraints) [.begins .constraints] ['<'] rest, ?_, rfl, rfl⟩
    simp [Rule.step?, Rule.constraintsBegin?, inside, head?_ne_of_parted parted]

theorem leads_closeConstraints (here : LineState) :
    Leads lexer (here.enter .constraints) [['>']] fun there => there = here := by
  refine leads_first .constraintsEnd ?_ (by decide) fun assigned rest parted => ?_
  · change (Rule.constraints.filter fun rule => rule.startsAt '>').head? = some .constraintsEnd
    decide
  · refine ⟨⟨[⟨['>'], here.enter .constraints, [.ends .constraints]⟩], here, rest⟩, ?_, rfl, rfl⟩
    simp [Rule.step?, Rule.constraintsEnd?, head?_ne_of_parted parted]

/-- Bounds are kept by the region of the constraints, and the rest of a declaration by an
array. -/
theorem Part.Derives.keeps {p : Part} {r : Region} (h : Part.Derives p ts)
    (inside : r = .array ∨ r = .constraints ∧ p = .ranges) : Keeps lexer r ts := by
  have calm : r.isCalm = true := by
    rcases inside with rfl | ⟨rfl, _⟩ <;> rfl
  have sign : Keeps lexer r [['=']] := by
    refine .of_leads ?_
    rintro here rfl
    rcases inside with array | ⟨constraints, _⟩
    · refine leads_operator (by decide) calm (fun _ => ?_) fun same => absurd same (by decide)
      rw [array]
      rfl
    · exact leads_rangeSign constraints
  have bounds : ∀ {us : List Text}, Phrase.Derives (.expression false) us → Keeps lexer r us :=
    fun bound => bound.keeps calm fun _ => rfl
  have typeWord : ∀ {w : Text}, r = .array → w ∈ variableTypes → Keeps lexer r [w] := by
    rintro w rfl mem
    refine .of_leads fun here inside => leads_typeWord (mem_typeWords mem) ?_ ?_
    · rw [inside]
      rfl
    · rw [inside]
      rfl
  have range : ∀ {w : Text}, w ∈ rangeWords → Keeps lexer r [w] := fun mem =>
    keeps_name (isName_of_mem_rangeWords _ mem) calm
  have comment := Region.isBlockComment_of_isCalm calm
  induction h with
  | plain mem =>
    obtain array | ⟨_, none⟩ := inside
    · exact typeWord array mem
    · cases none
  | array items mem =>
    obtain array | ⟨_, none⟩ := inside
    · refine .cons (typeWord array (by decide)) (.append ?_ (typeWord array mem))
      exact keeps_brackets comment (items.keeps rfl nofun)
    · cases none
  | range mem bound => exact .cons (range mem) (.cons sign (bounds bound))
  | moreRanges mem bound more ih =>
    refine .cons (range mem) (.cons sign ((bounds bound).append ?_))
    exact .cons (keeps_comma comment) (ih inside)
  | noConstraints | noSizes | noInitial => exact .nil
  | someConstraints ranges ih =>
    obtain rfl | ⟨_, none⟩ := inside
    · refine .append (.append (keeps_operator (by decide) rfl ?_ ?_) (ih (.inl rfl)))
        (keeps_operator (by decide) rfl ?_ ?_)
      all_goals exact fun _ => by decide
    · cases none
  | someSizes items => exact keeps_brackets comment (items.keeps rfl nofun)
  | someInitial value =>
    obtain rfl | ⟨_, none⟩ := inside
    · exact .cons sign (value.keeps rfl nofun)
    · cases none

/-- A text that makes no type in front of it the return type of a function. -/
structure Unsigned (rest : Text) : Prop where
  noDimensions : Rule.openDimensions? rest = none
  noName : Rule.startsSignature rest = false

theorem functionDeclaration?_of_unsigned (word : IsWord w) (ends : EndsWord rest)
    (h : Unsigned rest) : Rule.functionDeclaration? here (w ++ rest) = none := by
  have whole : Rule.arrayOf (w ++ rest) = ([], w ++ rest) := by
    by_cases array : w = Rule.arrayWord
    · subst array
      simp [Rule.arrayOf, h.noDimensions]
    · apply arrayOf_eq
      rwa [word_append word ends]
  unfold Rule.functionDeclaration? Rule.returnType?
  simp only [whole, word_append word ends, afterWord_append word ends, Rule.dimensions,
    h.noDimensions, Option.getD_none]
  split
  · rfl
  · next found =>
    split at found
    · cases found
      simp [h.noName]
    · cases found

/-- A type opens a declaration where no function is declared. -/
theorem take_typeWord (mem : w ∈ Part.variableTypes) (level : here.innermost.isStatementLevel = true)
    (inside : here.innermost ≠ .program) (ends : EndsWord rest)
    (signature : Rule.functionDeclaration? here (w ++ rest) = none) :
    Step.take lexer assigned here (w ++ rest) =
      .single (here.enter (.declaration false)) [.declaredType] w rest := by
  have facts : ∀ v ∈ Part.variableTypes, IsWord v ∧
      Vocabulary.isStorageType (String.ofList v) = true := by decide
  obtain ⟨word, type⟩ := facts w mem
  have header : Rule.sectionHeader? here (w ++ rest) = none := by simp [Rule.sectionHeader?, inside]
  have applies : Rule.variableDeclaration? here (w ++ rest) =
      some (.single (here.enter (.declaration false)) [.declaredType] w rest) := by
    rw [Rule.variableDeclaration?, word_append word ends, afterWord_append word ends, if_pos type]
  obtain ⟨c, t, rfl, letter⟩ := word.exists_cons
  refine take_of_level .variableDeclaration level letter (by decide) applies ?_
  intro other before different
  have kinds : other ∈ [Rule.inclusion, .sectionHeader, .functionDeclaration] := before
  simp only [List.mem_cons, List.not_mem_nil, or_false] at kinds
  rcases kinds with rfl | rfl | rfl
  · exact absurd rfl different
  · exact header
  · exact signature

/-- A word in front of which a space stands is what the space is in front of. -/
theorem IsWord.trimStart_space (word : IsWord w) (rest : Text) :
    Text.trimStart (' ' :: (w ++ rest)) = w ++ rest := by
  obtain ⟨c, t, rfl, letter⟩ := word.exists_cons
  have visible : Text.isSpace c = false := by
    rw [Bool.eq_false_iff]
    intro blank
    have chars : Text.isWordChar c = true := by simp [Text.isWordChar, Char.isAlphanum, letter]
    rw [isWordChar_of_isSpace blank] at chars
    cases chars
  rw [Text.trimStart_cons_of_isSpace (by decide), List.cons_append,
    Text.trimStart_cons_of_not_isSpace visible]

theorem IsWord.openDimensions?_space (word : IsWord w) (rest : Text) :
    Rule.openDimensions? (' ' :: (w ++ rest)) = none := by
  apply openDimensions?_eq_none
  rw [word.trimStart_space]
  obtain ⟨c, t, rfl, letter⟩ := word.exists_cons
  simp only [List.cons_append, List.head?_cons, ne_eq, Option.some.injEq]
  rintro rfl
  exact absurd letter (by decide)

namespace Unsigned

theorem nil : Unsigned [] := ⟨rfl, rfl⟩

/-- Neither a bracket nor a name. -/
theorem mark {c : Char} (visible : Text.isSpace c = false) (bracket : c ≠ '[')
    (letter : c.isAlpha = false) (t : Text) : Unsigned (' ' :: c :: t) := by
  have trim : Text.trimStart (' ' :: c :: t) = c :: t := by
    rw [Text.trimStart_cons_of_isSpace (by decide), Text.trimStart_cons_of_not_isSpace visible]
  refine ⟨openDimensions?_eq_none ?_, ?_⟩
  · simpa [trim] using bracket
  · simp [Rule.startsSignature, trim, letter]

/-- A name without a parenthesis. -/
theorem name (word : IsWord w) (h : rest = [] ∨ ∃ c t, rest = ' ' :: c :: t ∧
    Text.isSpace c = false ∧ c ≠ '(') : Unsigned (' ' :: (w ++ rest)) := by
  have ends : EndsWord rest := by
    rcases h with rfl | ⟨c, t, rfl, _⟩
    · exact endsWord_nil
    · exact endsWord_space _
  have after : (Text.trimStart rest).head? ≠ some '(' := by
    rcases h with rfl | ⟨c, t, rfl, visible, paren⟩
    · simp [Text.trimStart]
    · rw [Text.trimStart_cons_of_isSpace (by decide), Text.trimStart_cons_of_not_isSpace visible]
      simpa using paren
  have trim := word.trimStart_space rest
  refine ⟨word.openDimensions?_space rest, ?_⟩
  simp [Rule.startsSignature, trim, afterWord_append word ends, after]

/-- A bracket that is not followed by a comma or another bracket. -/
theorem sizes (h : rest = [] ∨ ∃ w t, rest = ' ' :: (w ++ t) ∧ Phrase.begins w = true) :
    Unsigned (' ' :: '[' :: rest) := by
  have sizes : Rule.openDimensions? (' ' :: '[' :: rest) = none := by
    rcases h with rfl | ⟨w, t, rfl, begins⟩
    · rfl
    · cases w with
      | nil => cases begins
      | cons c w =>
        have first : Rule.isOpenDimension c = false ∧ c ≠ ']' := by
          simpa [Phrase.begins] using begins
        have trim : Text.trimStart (' ' :: '[' :: ' ' :: c :: (w ++ t)) =
            '[' :: ' ' :: c :: (w ++ t) := rfl
        have space : Rule.isOpenDimension ' ' = true := by decide
        simp [Rule.openDimensions?, trim, space, first.1, first.2]
  exact ⟨sizes, rfl⟩

end Unsigned

/-- What follows the type of a variable does not begin a function. -/
theorem Part.unsigned_before {cs ss is : List Text} (constraints : Derives .constraints cs)
    (sizes : Derives .sizes ss) (word : IsWord w) (initial : Derives .initial is) {laid : Layout}
    (tokens : laid.tokens = cs ++ (ss ++ (w :: (is ++ [[';']])))) (r : Remaining) :
    Unsigned (laid.before r).line := by
  cases constraints with
  | someConstraints ranges =>
    rcases Layout.line_cases tokens r with line | ⟨later, _, line⟩ <;> rw [line]
    · exact .nil
    · exact .mark rfl (by decide) rfl _
  | noConstraints =>
    cases sizes with
    | someSizes items =>
      obtain ⟨v, us, rfl, begins⟩ := items.exists_begins (.inl rfl)
      rcases Layout.line_cases tokens r with line | ⟨later, rest, line⟩ <;> rw [line]
      · exact .nil
      · refine .sizes ?_
        rcases Layout.line_cases rest r with line | ⟨_, _, line⟩ <;> rw [line]
        · exact .inl rfl
        · exact .inr ⟨v, _, rfl, begins⟩
    | noSizes =>
      rcases Layout.line_cases tokens r with line | ⟨later, rest, line⟩ <;> rw [line]
      · exact .nil
      · refine .name word ?_
        cases initial with
        | noInitial =>
          rcases Layout.line_cases rest r with line | ⟨_, _, line⟩ <;> rw [line]
          · exact .inl rfl
          · exact .inr ⟨';', _, rfl, rfl, by decide⟩
        | someInitial value =>
          rcases Layout.line_cases rest r with line | ⟨_, _, line⟩ <;> rw [line]
          · exact .inl rfl
          · exact .inr ⟨'=', _, rfl, rfl, by decide⟩

/-- A word in the place that a region keeps for a name. -/
theorem IsPlain.leads_slot {there : LineState} (plain : IsPlain w)
    (comment : here.innermost.isBlockComment = false) (inside : here.innermost ≠ .program)
    (slot : ∀ after, ∃ own, Rule.nameSlot? here w after = some (.single there own w after)) :
    Leads lexer here [w] fun s => s = there := by
  refine .token plain.toIsWord.clean fun assigned rest parted => ?_
  obtain ⟨own, slot⟩ := slot rest
  have header : Rule.sectionHeader? here (w ++ rest) = none := by simp [Rule.sectionHeader?, inside]
  have step : Rule.wordStep here w rest = .single there own w rest := by
    simp [Rule.wordStep, plain.formed, plain.free, slot]
  rw [plain.take parted.endsWord comment header, step]
  exact ⟨rfl, rfl⟩

/-- The name of a variable. -/
theorem IsName.leads_declared (name : IsName w) (here : LineState) :
    Leads lexer (here.enter (.declaration false)) [w] fun there =>
      there = here.enter (.declaration true) := by
  have type : Vocabulary.isStorageType (String.ofList w) = false :=
    isStorageType_of_notMem name.isPlain.type
  refine name.isPlain.leads_slot rfl nofun fun after => ⟨[.declaredVariable], ?_⟩
  simp only [Rule.nameSlot?, LineState.innermost_enter, type, name.plain, Bool.false_eq_true,
    if_false]
  rfl

/-- Before the variable has been named further types are still part of its type. -/
theorem leads_innerType (mem : w ∈ typeWords) (inside : here.innermost = .declaration false) :
    Leads lexer here [w] fun there => there = here := by
  obtain ⟨word, formed, free, _⟩ := facts_of_mem_typeWords w mem
  refine .token word.clean fun assigned rest parted => ?_
  have step : ∃ own, Rule.wordStep here w rest = .single here own w rest := by
    have pass : Rule.passDistribution here = here := by simp [Rule.passDistribution, inside]
    rcases List.mem_cons.1 mem with rfl | type
    · have slot : Rule.nameSlot? here "void".toList rest = none := by
        simp only [Rule.nameSlot?, inside]
        rfl
      refine ⟨[.storageType], ?_⟩
      rw [Rule.wordStep, formed, free, slot, pass]
      rfl
    · have types : ∀ v ∈ Part.variableTypes, Vocabulary.isStorageType (String.ofList v) = true := by
        decide
      have slot : Rule.nameSlot? here w rest = some (.single here [.declaredType] w rest) := by
        simp [Rule.nameSlot?, inside, types w type]
      exact ⟨[.declaredType], by simp [Rule.wordStep, formed, free, slot]⟩
  obtain ⟨own, step⟩ := step
  have comment : here.innermost.isBlockComment = false := by rw [inside]; rfl
  have level : here.innermost.isStatementLevel = false := by rw [inside]; rfl
  rw [take_word_of_mem_typeWords mem parted.endsWord comment level, step]
  exact ⟨rfl, rfl⟩

/-- At statement level a type opens a declaration. -/
theorem Part.Derives.leads_type {R : LineState → Prop} (type : Part.Derives .type ts)
    (host : IsHost here) (level : here.innermost.isStatementLevel = true)
    (unsigned : ∀ (laid : Layout) (r : Remaining), laid.tokens = us → Unsigned (laid.before r).line)
    (h : Leads lexer (here.enter (.declaration false)) us R) : Leads lexer here (ts ++ us) R := by
  have inside := host.ne_program
  have first : ∀ {w : Text} {vs : List Text}, w ∈ variableTypes →
      (∀ (laid : Layout) (r : Remaining), laid.tokens = vs → Unsigned (laid.before r).line) →
      Leads lexer (here.enter (.declaration false)) vs R → Leads lexer here (w :: vs) R := by
    intro w vs mem line more
    have word : IsWord w := (facts_of_mem_typeWords w (mem_typeWords mem)).1
    refine .cons_of_line (L := Unsigned) (Q := fun there => there = here.enter (.declaration false))
      word.clean ?_ (fun laid r tokens _ => line laid r tokens) ?_
    · intro assigned rest parted unsigned
      have ends := parted.endsWord
      rw [take_typeWord mem level inside ends (functionDeclaration?_of_unsigned word ends unsigned)]
      exact ⟨rfl, rfl⟩
    · rintro _ rfl
      exact more
  cases type with
  | plain mem => exact first mem unsigned h
  | @array w ts items mem =>
    have whole : Rule.arrayWord :: ([['[']] ++ ts ++ [[']']] ++ [w]) ++ us =
        Rule.arrayWord :: ([['[']] ++ ts ++ [[']']] ++ (w :: us)) := by simp
    rw [whole]
    refine first (by decide) ?_ ?_
    · intro laid r tokens
      obtain ⟨v, vs, rfl, begins⟩ := items.exists_begins (.inl rfl)
      rcases Layout.line_cases tokens r with line | ⟨later, rest, line⟩ <;> rw [line]
      · exact .nil
      · refine .sizes ?_
        rcases Layout.line_cases rest r with line | ⟨_, _, line⟩ <;> rw [line]
        · exact .inl rfl
        · exact .inr ⟨v, _, rfl, begins⟩
    · have sizes : Keeps lexer (.declaration false) ([['[']] ++ ts ++ [[']']]) :=
        keeps_brackets rfl (items.keeps rfl nofun)
      refine (sizes.returns rfl rfl).append ?_
      rintro _ rfl
      refine (leads_innerType (mem_typeWords mem) rfl).cons ?_
      rintro _ rfl
      exact h

section Whole

variable {cs ss is : List Text}

/-- A declaration, once its type has opened it. -/
theorem leads_declarationOf (host : IsHost here) (constraints : Part.Derives .constraints cs)
    (sizes : Part.Derives .sizes ss) (name : IsName w) (initial : Part.Derives .initial is) :
    Leads lexer (here.enter (.declaration false)) (cs ++ (ss ++ (w :: (is ++ [[';']]))))
      fun there => there = here := by
  have bounds : Leads lexer (here.enter (.declaration false)) cs
      fun there => there = here.enter (.declaration false) := by
    cases constraints with
    | noConstraints => exact .nil rfl
    | @someConstraints us ranges =>
      let waiting := here.enter (.declaration false)
      have inside : Keeps lexer .constraints us := ranges.keeps (.inr ⟨rfl, rfl⟩)
      have opened : Leads lexer waiting ([['<']] ++ us) fun there =>
          there = waiting.enter .constraints := by
        refine (leads_openConstraints rfl).append ?_
        rintro _ rfl
        exact inside.returns rfl rfl
      refine opened.append ?_
      rintro _ rfl
      exact leads_closeConstraints waiting
  have sized : Leads lexer (here.enter (.declaration false)) ss
      fun there => there = here.enter (.declaration false) := by
    cases sizes with
    | noSizes => exact .nil rfl
    | someSizes items =>
      exact (keeps_brackets rfl (items.keeps rfl nofun)).returns rfl rfl
  have ended : Leads lexer (here.enter (.declaration true)) (is ++ [[';']])
      fun there => there = here := by
    cases initial with
    | noInitial => exact host.leads_endStatement rfl
    | @someInitial us value =>
      have kept : Keeps lexer .initializer us := value.keeps rfl nofun
      refine (leads_initialSign rfl).cons ?_
      rintro _ rfl
      refine (kept.returns rfl rfl).append ?_
      rintro _ rfl
      exact host.leads_endInitializer
  refine bounds.append ?_
  rintro _ rfl
  refine sized.append ?_
  rintro _ rfl
  refine (name.leads_declared here).cons ?_
  rintro _ rfl
  exact ended

/-- A declaration returns to where it began. -/
theorem leads_declaration (host : IsHost here) (type : Part.Derives .type ts)
    (constraints : Part.Derives .constraints cs) (sizes : Part.Derives .sizes ss) (name : IsName w)
    (initial : Part.Derives .initial is) :
    Leads lexer here (ts ++ (cs ++ (ss ++ (w :: (is ++ [[';']]))))) fun there => there = here := by
  rcases host.level_or_array with level | array
  · refine type.leads_type host level ?_ (leads_declarationOf host constraints sizes name initial)
    exact fun laid r tokens =>
      Part.unsigned_before constraints sizes name.toIsWord initial tokens r
  -- In an array a type is only a word, so nothing is opened and the `;` finds nothing to close.
  · have calm : Region.array.isCalm = true := rfl
    have kept : Keeps lexer .array (ts ++ (cs ++ (ss ++ (w :: is)))) := by
      refine (type.keeps (.inl rfl)).append ((constraints.keeps (.inl rfl)).append ?_)
      refine (sizes.keeps (.inl rfl)).append (.cons (keeps_name name calm) ?_)
      exact initial.keeps (.inl rfl)
    have whole := (kept.returns array host.settled).append fun there same => by
      rw [same]
      exact host.leads_end
    simpa using whole

end Whole

end StanHighlight

import StanHighlight.Proofs.Operand

/-!
Words that look ahead. A control statement, a printing statement, a distribution and an
addition to the target each begin with a word that opens a region only if what belongs to it
follows on the same line. Otherwise the word is read alone, and the parenthesis on the next
line opens plain parentheses.
-/

namespace StanHighlight

variable {lexer : Lexer} {assigned : Bool} {here : LineState} {w rest : Text}

/-- Statements stand directly in braces. -/
theorem Region.isCalm_of_isBraced {r : Region} (h : r.isBraced = true) : r.isCalm = true := by
  cases r with
  | sectionBody | block | array => rfl
  | _ => cases h

theorem nameSlot?_of_isBraced (host : here.innermost.isBraced = true) (w after : Text) :
    Rule.nameSlot? here w after = none := by
  cases e : here.innermost with
  | sectionBody | block | array => simp [Rule.nameSlot?, e]
  | _ => simp [e, Region.isBraced] at host

theorem IsPlain.take_of_isBraced (plain : IsPlain w) (host : here.innermost.isBraced = true)
    (ends : EndsWord rest) {s : Step} (h : Rule.keyword? here w rest = some s) :
    Step.take lexer assigned here (w ++ rest) = s := by
  have calm := Region.isCalm_of_isBraced host
  rw [plain.take_of_isCalm ends calm]
  simp [Rule.wordStep, plain.formed, plain.free, nameSlot?_of_isBraced host,
    passDistribution_of_isCalm calm, h]

theorem endsWord_nil : EndsWord [] := Parted.endsWord (.inl rfl)

theorem endsWord_space (t : Text) : EndsWord (' ' :: t) := Parted.endsWord (.inr ⟨t, rfl⟩)

/-- The region that a parenthesis opens where a statement may stand. -/
theorem leads_plainParen (calm : here.innermost.isCalm = true) :
    Leads lexer here [['(']] fun there => there = here.enter .parens := by
  rw [← openParen_of_isCalm calm]
  exact leads_openParen (Region.isBlockComment_of_isCalm calm)

/-- The header of a control statement is open once its parenthesis has been read. -/
theorem leads_control (kind : Control) (host : here.innermost.isBraced = true) :
    Leads lexer here [kind.keyword.toList, ['(']] fun there =>
      there = here.enter (.control kind true false) ∨ there = here.enter .parens := by
  have plain : IsPlain kind.keyword.toList := by cases kind <;> decide
  have known := Control.ofKeyword?_keyword kind
  have keyword : ∀ after, Rule.keyword? here kind.keyword.toList after =
      some (.single (if (Rule.parenAfterGap? after).isSome then
        here.enter (.control kind false false) else here) [.controlKeyword] kind.keyword.toList
        after) := by
    intro after
    simp only [Rule.keyword?, String.ofList_toList, known]
  refine .of_parts fun parts => .pair plain.clean (by decide) ?_ ?_
  · intro assigned rest ahead parted
    let waiting := here.enter (.control kind false false)
    have step : Step.take lexer assigned here (kind.keyword.toList ++ ' ' :: '(' :: rest) =
        .single waiting [.controlKeyword] kind.keyword.toList (' ' :: '(' :: rest) :=
      plain.take_of_isBraced host (endsWord_space _) (keyword _)
    have first := Place.reaches_take lexer here assigned ahead
      (List.append_ne_nil_of_right_ne_nil kind.keyword.toList (List.cons_ne_nil ' ' ('(' :: rest)))
    rw [step] at first
    have opens : Leads lexer waiting [['(']] fun there => there = (Rule.openParen waiting).1 :=
      leads_openParen rfl
    obtain ⟨later, there, same, run⟩ :=
      opens.runs parts [(.space, ['('])] rfl _ ⟨rest, ahead⟩ parted
    exact ⟨later, there, .inl same, first.trans run⟩
  · intro assigned
    have step : Step.take lexer assigned here (kind.keyword.toList ++ []) = _ :=
      plain.take_of_isBraced host endsWord_nil (keyword [])
    rw [List.append_nil] at step
    rw [step]
    exact ⟨rfl, (leads_plainParen (Region.isCalm_of_isBraced host)).weaken fun _ same => .inr same⟩

/-- What is printed stands in a region of its own if its parenthesis is on the line. -/
theorem leads_print (mem : w ∈ ["print".toList, "reject".toList])
    (host : here.innermost.isBraced = true) : Leads lexer here [w, ['(']] fun there =>
      there = here.enter .printArguments ∨ there = here.enter .parens := by
  have facts : ∀ v ∈ ["print".toList, "reject".toList], IsPlain v := by decide
  have plain := facts w mem
  have keyword : ∀ after, ∃ own, Rule.keyword? here w after =
      some (Rule.heads ⟨w, here, own⟩ (here.enter .printArguments) .printArguments after) := by
    intro after
    simp only [List.mem_cons, List.not_mem_nil, or_false] at mem
    rcases mem with rfl | rfl <;> exact ⟨_, rfl⟩
  refine .pair_of_step plain.clean (by decide) ?_ ?_
  · intro assigned rest _
    obtain ⟨own, known⟩ := keyword (' ' :: '(' :: rest)
    have step : Step.take lexer assigned here (w ++ ' ' :: '(' :: rest) = _ :=
      plain.take_of_isBraced host (endsWord_space _) known
    rw [List.singleton_append, step]
    exact ⟨rfl, .inl rfl⟩
  · intro assigned
    obtain ⟨own, known⟩ := keyword []
    have step : Step.take lexer assigned here (w ++ []) = _ :=
      plain.take_of_isBraced host endsWord_nil known
    rw [List.append_nil] at step
    rw [step]
    have calm := Region.isCalm_of_isBraced host
    exact ⟨rfl, (leads_plainParen calm).weaken fun _ same => .inr same⟩

theorem isWord_target : IsWord Rule.targetWord := by decide

theorem variableDeclaration?_of_notMem {t : Text} (h : Text.word t ∉ typeWords) :
    Rule.variableDeclaration? here t = none := by
  rw [Rule.variableDeclaration?, isStorageType_of_notMem h]
  rfl

/-- The word that stands for the target is one token with the sign after it. -/
theorem take_target (lexer : Lexer) (assigned : Bool) (host : here.innermost.isBraced = true)
    (rest : Text) : ∃ pieces,
    Step.take lexer assigned here (Rule.targetWord ++ ' ' :: '+' :: '=' :: rest) =
      ⟨pieces, here.enter .accumulation, rest⟩ := by
  have calm := Region.isCalm_of_isBraced host
  have comment := Region.isBlockComment_of_isCalm calm
  have applies : ∃ pieces, Rule.accumulator? here (Rule.targetWord ++ ' ' :: '+' :: '=' :: rest) =
      some ⟨pieces, here.enter .accumulation, rest⟩ := by
    simp only [Rule.accumulator?, Text.after?_append]
    exact ⟨_, rfl⟩
  have type : Text.word (Rule.targetWord ++ ' ' :: '+' :: '=' :: rest) ∉ typeWords := by
    rw [word_append isWord_target (endsWord_space _)]
    decide
  have header := sectionHeader?_of_isCalm calm (Rule.targetWord ++ ' ' :: '+' :: '=' :: rest)
  have signature : Rule.functionDeclaration? here _ = none := functionDeclaration?_of_notMem type
  have storage : Rule.variableDeclaration? here _ = none := variableDeclaration?_of_notMem type
  obtain ⟨pieces, applies⟩ := applies
  obtain ⟨c, t, whole, letter⟩ := isWord_target.exists_cons
  refine ⟨pieces, ?_⟩
  rw [whole] at applies header signature storage ⊢
  refine Step.take_of_precedes .accumulator
    (Region.mem_rules_of_mem_expression comment (by decide)) applies fun other before starts => ?_
  have kinds := mem_of_startsAt_letter letter starts
  have outside : ∀ table ∈ Rule.tables, ∀ q ∈ table.takeWhile (· != .accumulator),
      q ≠ .accumulator ∧ q ≠ .word := by decide
  obtain ⟨notTarget, notWord⟩ := outside _ (Region.rules_mem_tables comment) other before
  simp only [List.mem_cons, List.not_mem_nil, or_false] at kinds
  rcases kinds with rfl | rfl | rfl | rfl | rfl
  · exact header
  · exact signature
  · exact storage
  · exact absurd rfl notTarget
  · exact absurd rfl notWord

/-- An addition to the target opens a region if its sign is on the line. -/
theorem leads_target (host : here.innermost.isBraced = true) :
    Leads lexer here [Rule.targetWord, ['+', '=']] fun there =>
      there = here.enter .accumulation ∨ there = here := by
  have calm := Region.isCalm_of_isBraced host
  refine .pair_of_step isWord_target.clean (by decide) ?_ ?_
  · intro assigned rest _
    obtain ⟨pieces, step⟩ := take_target lexer assigned host rest
    rw [List.cons_append, List.singleton_append, step]
    exact ⟨rfl, .inl rfl⟩
  · intro assigned
    have type : Text.word (Rule.targetWord ++ []) ∉ typeWords := by
      rw [word_append isWord_target endsWord_nil]
      decide
    have none : Rule.accumulator? here (Rule.targetWord ++ []) = none := by
      simp only [Rule.accumulator?, Text.after?_append]
      rfl
    have step : Step.take lexer assigned here (Rule.targetWord ++ []) = _ :=
      take_word isWord_target endsWord_nil (Region.isBlockComment_of_isCalm calm)
        (sectionHeader?_of_isCalm calm _) (fun _ => functionDeclaration?_of_notMem type)
        (fun _ => isStorageType_of_notMem (by decide)) none
    have keyword : Rule.keyword? here Rule.targetWord [] =
        some (.single here [.target] Rule.targetWord []) := rfl
    obtain ⟨own, alone⟩ := wordStep_of_keyword? calm (by decide) (by decide) keyword
    rw [List.append_nil] at step
    rw [step, alone]
    refine ⟨rfl, (leads_operator (by decide) calm ?_ ?_).weaken fun _ same => .inr same⟩
    · exact fun same => absurd same (by decide)
    · exact fun same => absurd same (by decide)

/-- The arguments of a distribution stand in a region of their own if their parenthesis is on the
line, and the distribution has been named in any case. -/
theorem leads_distribution (name : IsName w) :
    Leads lexer (here.enter (.sampling false)) [w, ['(']] fun there =>
      there = (here.enter (.sampling true)).enter (.call .distribution) ∨
        there = (here.enter (.sampling true)).enter .parens := by
  let waiting := here.enter (.sampling false)
  let named := here.enter (.sampling true)
  have plain := name.isPlain
  have slot : ∀ after, ∃ own, Rule.wordStep waiting w after =
      Rule.heads ⟨w, named, own⟩ (named.enter (.call .distribution)) .arguments after := by
    intro after
    refine ⟨[.distributionCall, if Vocabulary.isDistribution (String.ofList w) then
      .knownDistribution else .distributionName], ?_⟩
    simp only [Rule.wordStep, name.formed, name.free, Rule.nameSlot?, waiting,
      LineState.innermost_enter, name.plain, Bool.false_eq_true, if_false]
    rfl
  refine .pair_of_step plain.clean (by decide) ?_ ?_
  · intro assigned rest _
    obtain ⟨own, step⟩ := slot (' ' :: '(' :: rest)
    have taken : Step.take lexer assigned waiting (w ++ ' ' :: '(' :: rest) = _ :=
      plain.take (endsWord_space _) rfl rfl
    rw [List.singleton_append, taken, step]
    exact ⟨rfl, .inl rfl⟩
  · intro assigned
    obtain ⟨own, step⟩ := slot []
    have taken : Step.take lexer assigned waiting (w ++ []) = _ :=
      plain.take endsWord_nil rfl rfl
    rw [List.append_nil] at taken
    rw [taken, step]
    have paren : Leads lexer named [['(']] fun there => there = named.enter .parens :=
      leads_plainParen rfl
    exact ⟨rfl, paren.weaken fun _ same => .inr same⟩

/-- The word for truncation and its bracket. -/
theorem leads_truncation (filled : here.innermost = .sampling true) :
    Leads lexer here [['T', '[']] fun there => there = here.enter .truncation := by
  have host : here.innermost.hosts = true := by rw [filled]; rfl
  refine .token (by decide) fun assigned rest _ => ?_
  rw [List.cons_append, List.singleton_append, take_truncation host]
  exact ⟨rfl, rfl⟩

end StanHighlight

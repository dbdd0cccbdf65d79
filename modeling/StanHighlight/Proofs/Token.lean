import StanHighlight.Proofs.Leads

/-!
What brackets and other tokens of one character do. In most regions an opening bracket opens
a region of its own, which its closing bracket ends. The exceptions are regions that keep a
place for a name or wait for a parenthesis.
-/

namespace StanHighlight

namespace Region

/-- Regions in which a name has no place of its own and a parenthesis no header. -/
def isCalm : Region → Bool
  | sectionBody _ | block | array | parens | brackets | truncation | call _ | printArguments
  | constraints | initializer | accumulation => true
  | control kind opened named => opened && (kind != .forLoop || named)
  | declaration named => named
  | sampling filled => filled
  | program | blockComment _ | functionDeclaration _ _ => false

theorem isBlockComment_of_isCalm {r : Region} (h : r.isCalm = true) : r.isBlockComment = false := by
  cases r with
  | blockComment => cases h
  | _ => rfl

end Region

variable {lexer : Lexer} {assigned : Bool} {here : LineState} {rule : Rule} {s : Step} {c : Char}
  {t rest : Text}

section Marks

variable {Q : LineState → Prop}

/-- A token of one character that the first rule for it in the region reads. -/
theorem leads_first (rule : Rule)
    (first : (here.innermost.rules.filter fun rule => rule.startsAt c).head? = some rule)
    (clean : Clean [c])
    (h : ∀ assigned rest, Parted rest → ∃ s,
      Rule.step? lexer.config assigned here (c :: rest) rule = some s ∧ s.rest = rest ∧
        Q s.after) : Leads lexer here [[c]] Q := by
  refine .token clean fun assigned rest parted => ?_
  obtain ⟨s, applies, spent, hQ⟩ := h assigned rest parted
  rw [List.singleton_append, Step.take_of_first first applies]
  exact ⟨spent, hQ⟩

/-- A token of one character that starts tokens of one kind only. -/
theorem leads_mark (rule : Rule) (comment : here.innermost.isBlockComment = false)
    (first : ∀ table ∈ Rule.tables, (table.filter fun rule => rule.startsAt c).head? = some rule)
    (clean : Clean [c])
    (h : ∀ assigned rest, Parted rest → ∃ s,
      Rule.step? lexer.config assigned here (c :: rest) rule = some s ∧ s.rest = rest ∧
        Q s.after) : Leads lexer here [[c]] Q :=
  leads_first rule (first _ (Region.rules_mem_tables comment)) clean h

theorem leads_comma (comment : here.innermost.isBlockComment = false) :
    Leads lexer here [[',']] (fun there => there = here) :=
  leads_mark .delimiter comment (by decide) (by decide) fun _ _ _ => ⟨_, rfl, rfl, rfl⟩

theorem leads_terminator (comment : here.innermost.isBlockComment = false) :
    Leads lexer here [[';']]
      (fun there => there = Rule.afterTerminator (Rule.beforeTerminator here)) :=
  leads_mark .terminator comment (by decide) (by decide) fun _ _ _ => ⟨_, rfl, rfl, rfl⟩

theorem leads_tilde (comment : here.innermost.isBlockComment = false) :
    Leads lexer here [['~']] (fun there => there = here.enter (.sampling false)) :=
  leads_mark .sampling comment (by decide) (by decide) fun _ _ _ => ⟨_, rfl, rfl, rfl⟩

theorem leads_question (comment : here.innermost.isBlockComment = false) :
    Leads lexer here [['?']] (fun there => there = here.ask) :=
  leads_mark .operator comment (by decide) (by decide) fun _ _ _ => ⟨_, rfl, rfl, rfl⟩

theorem leads_colon (comment : here.innermost.isBlockComment = false) :
    Leads lexer here [[':']] (fun there => there = here.answer?.getD here) := by
  refine leads_mark .operator comment (by decide) (by decide) fun assigned rest _ => ?_
  cases answered : here.answer? with
  | none =>
    refine ⟨.single here [.colonOperator] [':'] rest, ?_, rfl, rfl⟩
    simp [Rule.step?, Rule.operator?, answered]
  | some there =>
    refine ⟨.single there [.ternaryOperator] [':'] rest, ?_, rfl, rfl⟩
    simp [Rule.step?, Rule.operator?, answered]

theorem leads_openParen (comment : here.innermost.isBlockComment = false) :
    Leads lexer here [['(']] (fun there => there = (Rule.openParen here).1) :=
  leads_mark .opener comment (by decide) (by decide) fun _ _ _ => ⟨_, rfl, rfl, rfl⟩

theorem leads_openBracket (comment : here.innermost.isBlockComment = false) :
    Leads lexer here [['[']] (fun there => there = here.enter .brackets) :=
  leads_mark .opener comment (by decide) (by decide) fun _ _ _ => ⟨_, rfl, rfl, rfl⟩

/-- A brace opens a block or an array. -/
theorem leads_openBrace (comment : here.innermost.isBlockComment = false) :
    Leads lexer here [['{']] (fun there => there = here.enter .array ∨
      there = here.enter .block ∧ here.innermost.isStatementLevel = true) := by
  refine leads_mark .opener comment (by decide) (by decide) fun assigned rest _ => ⟨_, rfl, rfl, ?_⟩
  simp only [Step.single, Rule.openBrace]
  split
  · next level =>
    simp only [Bool.and_eq_true] at level
    exact .inr ⟨rfl, level.1⟩
  · exact .inl rfl

/-- A parenthesis or bracket closes the region that it ends. -/
theorem leads_closer {e : Enclosure} (comment : here.innermost.isBlockComment = false)
    (closes : here.innermost.enclosure? = some e) (bracket : e.closer = c)
    (some_bracket : c = ')' ∨ c = ']') :
    Leads lexer here [[c]] (fun there => there = here.leave) := by
  rcases some_bracket with rfl | rfl
  · refine leads_mark .closer comment (by decide) (by decide) fun assigned rest _ => ?_
    exact ⟨_, rfl, by simp [Rule.close, closes, bracket], by simp [Rule.close, closes, bracket]⟩
  · refine leads_mark .closer comment (by decide) (by decide) fun assigned rest _ => ?_
    exact ⟨_, rfl, by simp [Rule.close, closes, bracket], by simp [Rule.close, closes, bracket]⟩

theorem toBrace?_of_isBraced (h : here.innermost.isBraced = true) : here.toBrace? = some here := by
  have inner : here.inner.region.isBraced = true := h
  simp [LineState.toBrace?, LineState.frames, inner]

/-- A closing brace closes the nearest braced region and whatever is open in it. -/
theorem leads_closeBrace {there : LineState} (comment : here.innermost.isBlockComment = false)
    (brace : here.toBrace? = some there) (braced : there.innermost.isBraced = true) :
    Leads lexer here [['}']] (fun s => s = there.leave) := by
  refine leads_mark .closer comment (by decide) (by decide) fun assigned rest _ => ?_
  obtain ⟨e, enclosure, closer⟩ := Option.map_eq_some_iff.1 ((Region.isBraced_iff _).1 braced)
  exact ⟨_, rfl, by simp [Rule.close, brace, enclosure, closer],
    by simp [Rule.close, brace, enclosure, closer]⟩

/-- A closing bracket undoes the opening of the region that it ends. -/
theorem leads_close {inner : Region} (comment : inner.isBlockComment = false)
    (closes : inner.enclosure?.map Enclosure.closer = some c) (bracket : c ∈ [')', ']', '}']) :
    Leads lexer (here.enter inner) [[c]] (fun there => there = here) := by
  change Leads lexer (here.enter inner) [[c]] fun there => there = (here.enter inner).leave
  obtain ⟨e, enclosure, closer⟩ := Option.map_eq_some_iff.1 closes
  simp only [List.mem_cons, List.not_mem_nil, or_false] at bracket
  rcases bracket with rfl | rfl | rfl
  · exact leads_closer comment enclosure closer (.inl rfl)
  · exact leads_closer comment enclosure closer (.inr rfl)
  · have braced : inner.isBraced = true := (Region.isBraced_iff inner).2 closes
    exact leads_closeBrace comment (toBrace?_of_isBraced braced) braced

/-- A bar is a delimiter between arguments, and plain text elsewhere. -/
theorem leads_bar (comment : here.innermost.isBlockComment = false) :
    Leads lexer here [['|']] (fun there => there = here) := by
  refine .of_parts fun parts => .token (by decide) fun assigned rest parted => ?_
  have single : rest.head? ≠ some '|' := by
    rcases parted with rfl | ⟨rest, rfl⟩ <;> simp
  have first : here.innermost.rules.filter (fun rule => rule.startsAt '|') =
      [.delimiter, .operator] := by
    have both : ∀ table ∈ Rule.tables,
        table.filter (fun rule => rule.startsAt '|') = [.delimiter, .operator] := by decide
    exact both _ (Region.rules_mem_tables comment)
  have operator : Rule.operator? here ('|' :: rest) = none := by
    rcases parted with rfl | ⟨rest, rfl⟩ <;> rfl
  have skip : Step.skip lexer.clusters here ('|' :: rest) = .single here [] ['|'] rest := by
    refine Step.skip_eq_single (Segmentation.first_eq_one parts (by decide) ?_)
    rcases parted with rfl | ⟨rest, rfl⟩
    · exact nofun
    · rintro _ ⟨⟩
      decide
  rw [List.singleton_append, Step.take_eq_filter, first, skip]
  cases call : here.innermost with
  | call callee =>
    have delimiter : Rule.delimiter? here ('|' :: rest) = some (.single here [.bar] ['|'] rest) := by
      simp [Rule.delimiter?, call, single]
    simp [Rule.step?, delimiter, Step.single]
  | _ =>
    have delimiter : Rule.delimiter? here ('|' :: rest) = none := by
      simp [Rule.delimiter?, call]
    simp [Rule.step?, delimiter, operator, Step.single]

end Marks

theorem openParen_of_isCalm (calm : here.innermost.isCalm = true) :
    (Rule.openParen here).1 = here.enter .parens := by
  unfold Rule.openParen
  split
  · next waits => simp [waits, Region.isCalm] at calm
  · next waits => simp [waits, Region.isCalm] at calm
  · rfl

end StanHighlight

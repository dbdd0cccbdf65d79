import StanHighlight.Proofs.Definition

/-!
Programs. A section's header opens a region of its own if it stands on one line with its brace,
and the brace opens plain braces otherwise. Both are closed by the section's last brace, and with
it whatever a signature has left open. So a program ends in the state before its first line, and
each of its statements returns to the state in which it began.
-/

namespace StanHighlight

variable {lexer : Lexer} {here : LineState} {w : Text} {ts us : List Text}

namespace Section

def title (s : Section) : List Text := s.words.map String.toList ++ [['{']]

end Section

def Opened (there : LineState) : Prop :=
  ∃ inner : Region, inner.isBraced = true ∧ there = LineState.initial.enter inner

theorem mem_of_header? {t : Text} {found : Section × Text × Text × Text}
    (h : Rule.header? t = some found) : '{' ∈ t := by
  obtain ⟨s, _, found⟩ := List.exists_of_findSome?_eq_some h
  obtain ⟨found, opened, _⟩ := Option.map_eq_some_iff.1 found
  unfold Rule.headerOf? at opened
  split at opened
  · cases opened
  · next header rest split =>
    split at opened
    · next body brace =>
      rw [← Rule.spacedWords?_append split, ← Text.gap_append_trimStart rest, brace]
      simp
    · cases opened

/-- A word outside all sections that begins no header is only a name. -/
theorem IsName.take_initial (name : IsName w) {rest : Text} (parted : Parted rest)
    (header : Rule.header? (w ++ rest) = none) (lexer : Lexer) (assigned : Bool) : ∃ own,
    Step.take lexer assigned .initial (w ++ rest) = .single .initial own w rest := by
  have none : Rule.sectionHeader? .initial (w ++ rest) = none := by
    simp only [Rule.sectionHeader?, header]
    rfl
  have bracket : rest.head? ≠ some '[' := head?_ne_of_parted parted (by decide)
  rw [name.isPlain.take parted.endsWord rfl none, name.wordStep_eq rfl (fun _ => bracket) rfl]
  rcases parted with rfl | ⟨rest, rfl⟩ <;> exact ⟨_, rfl⟩

/-- A header may stand on one line with its brace, and its words one after the other where a line
break parts them. -/
theorem leads_title (name : IsName w)
    (joined : ∀ rest, Rule.header? (w ++ (Layout.inline (ts ++ [['{']]) ++ rest)) = none ∨
      ∃ s header gap, Rule.header? (w ++ (Layout.inline (ts ++ [['{']]) ++ rest)) =
        some (s, header, gap, rest))
    (others : ∀ v ∈ ts, IsWord v) (later : Leads lexer .initial (ts ++ [['{']]) Opened) :
    Leads lexer .initial (w :: (ts ++ [['{']])) Opened := by
  have word := name.toIsWord
  have visible : ∀ rest, w ++ rest ≠ [] := fun rest => by simp [word.clean.visible]
  refine .of_parts fun parts => .group ?_ ?_ ?_
  · rw [List.forall_mem_cons]
    exact ⟨word.clean, later.clean parts⟩
  · intro assigned rest ahead parted
    have first := Place.reaches_take lexer .initial assigned ahead
      (visible (Layout.inline (ts ++ [['{']]) ++ rest))
    rcases joined rest with none | ⟨s, header, gap, found⟩
    · have line := Layout.parted_inline parted (ts ++ [['{']])
      obtain ⟨own, step⟩ := name.take_initial line none lexer assigned
      rw [step] at first
      obtain ⟨last, there, opened, run⟩ := later.runs parts (Layout.spaced (ts ++ [['{']]))
        (Layout.tokens_spaced _) _ ⟨rest, ahead⟩ parted
      rw [Layout.before_spaced] at run
      exact ⟨last, there, opened, first.trans run⟩
    · have applies : ∃ pieces, Rule.sectionHeader? .initial
          (w ++ (Layout.inline (ts ++ [['{']]) ++ rest)) =
            some ⟨pieces, LineState.initial.enter (.sectionBody s), rest⟩ := by
        simp only [Rule.sectionHeader?, found]
        exact ⟨_, rfl⟩
      obtain ⟨pieces, applies⟩ := applies
      have step : Step.take lexer assigned .initial (w ++ (Layout.inline (ts ++ [['{']]) ++ rest)) =
          ⟨pieces, LineState.initial.enter (.sectionBody s), rest⟩ := by
        obtain ⟨c, t, rfl, letter⟩ := word.exists_cons
        refine take_of_level .sectionHeader rfl letter (by decide) applies ?_
        exact fun other before different => absurd (List.mem_singleton.1 before) different
      rw [step] at first
      exact ⟨_, _, ⟨.sectionBody s, rfl, rfl⟩, first⟩
  · intro assigned vs x xs split
    have none : Rule.header? (w ++ Layout.inline vs) = none := by
      rw [Option.eq_none_iff_forall_ne_some]
      intro found some
      have absent : '{' ∉ w ++ Layout.inline vs := by
        rw [List.mem_append, not_or]
        refine ⟨word.notMem (by decide), notMem_inline split (by decide) ?_⟩
        rw [List.dropLast_concat]
        exact fun v mem => (others v mem).notMem (by decide)
      exact absent (mem_of_header? some)
    have line : Parted (Layout.inline vs) := by simpa using Layout.parted_inline (.inl rfl) vs
    obtain ⟨own, step⟩ := name.take_initial line none lexer assigned
    rw [step]
    exact ⟨rfl, later⟩

theorem leads_lastTitle (mem : w ∈ ["functions", "data", "parameters", "model", "quantities"].map
    String.toList) : Leads lexer .initial [w, ['{']] Opened := by
  have names : ∀ v ∈ ["functions", "data", "parameters", "model", "quantities"].map String.toList,
      IsName v := by decide
  have brace : Leads lexer .initial [['{']] Opened := by
    refine (leads_openHost rfl).weaken ?_
    rintro _ ⟨inner, mem, rfl⟩
    exact ⟨inner, (isHost_enter .initial mem).braced, rfl⟩
  refine leads_title (names w mem) (fun rest => ?_) (fun v mem => absurd mem List.not_mem_nil) brace
  simp only [List.map_cons, List.map_nil, List.mem_cons, List.not_mem_nil, or_false] at mem
  rcases mem with rfl | rfl | rfl | rfl | rfl
  · exact .inr ⟨.functions, _, _, rfl⟩
  · exact .inr ⟨.data, _, _, rfl⟩
  · exact .inr ⟨.parameters, _, _, rfl⟩
  · exact .inr ⟨.model, _, _, rfl⟩
  · exact .inl rfl

/-- The header of a section opens a place for statements. -/
theorem Section.leads_title (s : Section) : Leads lexer .initial s.title Opened := by
  have two : ∀ {w v : Text}, IsName w → IsName v → v ∈ ["functions", "data", "parameters", "model",
      "quantities"].map String.toList → (∀ rest, ∃ s header gap,
        Rule.header? (w ++ (Layout.inline ([v] ++ [['{']]) ++ rest)) = some (s, header, gap, rest)) →
      Leads lexer .initial (w :: ([v] ++ [['{']])) Opened := by
    intro w v hw hv mem joined
    refine StanHighlight.leads_title hw (fun rest => .inr (joined rest)) ?_ (leads_lastTitle mem)
    rw [List.forall_mem_singleton]
    exact hv.toIsWord
  cases s with
  | functions | data | parameters | model => exact leads_lastTitle (by decide)
  | transformedData =>
    exact two (by decide) (by decide) (by decide) fun rest => ⟨.transformedData, _, _, rfl⟩
  | transformedParameters =>
    exact two (by decide) (by decide) (by decide) fun rest => ⟨.transformedParameters, _, _, rfl⟩
  | generatedQuantities =>
    exact two (by decide) (by decide) (by decide) fun rest => ⟨.generatedQuantities, _, _, rfl⟩

theorem Opened.isHost (opened : Opened here) : IsHost here := by
  obtain ⟨inner, braced, rfl⟩ := opened
  exact .enter .initial braced

/-- The last brace of a section closes it, and a declaration that a signature has left open. -/
theorem Opened.leads_close {base : LineState} (opened : Opened base) (seat : Seat base here) :
    Leads lexer here [['}']] fun there => there = .initial := by
  have braced := opened.isHost.braced
  have closed : base.leave = .initial := by
    obtain ⟨inner, _, rfl⟩ := opened
    rfl
  have brace : here.toBrace? = some base := by
    have self := toBrace?_of_isBraced braced
    rcases seat with rfl | rfl
    · exact self
    · exact self
  refine (leads_closeBrace (seat.isBlockComment opened.isHost) brace braced).weaken ?_
  rintro _ rfl
  exact closed

inductive Chapter : List Text → Prop
  | functions {ts : List Text} (h : Definitions ts) :
      Chapter (Section.functions.title ++ ts ++ [['}']])
  | statements {s : Section} {ts : List Text} (other : s ≠ .functions) (h : Statement .many ts) :
      Chapter (s.title ++ ts ++ [['}']])

inductive Program : List Text → Prop
  | none : Program []
  | more {ts us : List Text} (h : Chapter ts) (more : Program us) : Program (ts ++ us)

/-- A section returns to the state before the first line. -/
theorem Chapter.leads (chapter : Chapter ts) :
    Leads lexer .initial ts fun there => there = .initial := by
  cases chapter with
  | functions h =>
    refine Leads.append (Q := fun there => ∃ base, Opened base ∧ Seat base there) ?_ ?_
    · refine (Section.leads_title .functions).append fun base opened => ?_
      refine (h.leads opened.isHost (.inl rfl)).weaken ?_
      exact fun there seat => ⟨base, opened, seat⟩
    · rintro there ⟨base, opened, seat⟩
      exact opened.leads_close seat
  | @statements s _ _ h =>
    refine Leads.append (Q := Opened) ?_ ?_
    · refine s.leads_title.append fun base opened => ?_
      refine (h.leads opened.isHost).weaken ?_
      rintro _ rfl
      exact opened
    · exact fun there opened => opened.leads_close (.inl rfl)

/-- A program ends in the state before its first line. -/
theorem Program.leads (program : Program ts) :
    Leads lexer .initial ts fun there => there = .initial := by
  induction program with
  | none => exact .nil rfl
  | more h more ih =>
    refine h.leads.append ?_
    rintro _ rfl
    exact ih

/-- The tokens of a program around those of one of its statements, which stands in a section or
in the body of a function. -/
inductive Occurs : List Text → List Text → List Text → Prop
  | statement {s : Section} {ps pre ts post qs : List Text} (front : Program ps)
      (other : s ≠ .functions) (within : Within .many pre ts post) (back : Program qs) :
      Occurs (ps ++ (s.title ++ pre)) ts (post ++ ([['}']] ++ qs))
  | body {w : Text} {ps ds rs as pre ts post es qs : List Text} (front : Program ps)
      (earlier : Definitions ds) (type : ReturnType rs) (name : IsName w)
      (parameters : Parameters as) (within : Within .many pre ts post) (later : Definitions es)
      (back : Program qs) :
      Occurs (ps ++ (Section.functions.title ++ (ds ++
          (rs ++ [w, ['(']] ++ as ++ [[')']] ++ ([['{']] ++ pre)))))
        ts (post ++ [['}']] ++ (es ++ ([['}']] ++ qs)))

theorem Program.append (program : Program ts) (more : Program us) : Program (ts ++ us) := by
  induction program with
  | none => exact more
  | more h _ ih =>
    rw [List.append_assoc]
    exact .more h ih

theorem Definitions.append (definitions : Definitions ts) (more : Definitions us) :
    Definitions (ts ++ us) := by
  induction definitions with
  | none => exact more
  | more h _ ih =>
    rw [List.append_assoc]
    exact .more h ih

namespace Occurs

variable {pre post : List Text}

theorem front_ne_nil (occurs : Occurs pre ts post) : pre ≠ [] := by
  cases occurs with
  | statement | body => simp [Section.title]

/-- Only programs have statements. -/
theorem program (occurs : Occurs pre ts post) : Program (pre ++ ts ++ post) := by
  cases occurs with
  | statement front other within back =>
    have whole := front.append (.more (.statements other within.statement) back)
    simpa using whole
  | body front earlier type name parameters within later back =>
    have definition := Definition.intro type name parameters within.statement
    have section_ := Chapter.functions (earlier.append (.more definition later))
    simpa using front.append (.more section_ back)

/-- What stands in front of a statement leads to where it begins and returns to, and what comes
after it leads from there to the state before the first line. -/
theorem leads (occurs : Occurs pre ts post) :
    Leads lexer .initial pre fun site => Leads lexer site ts (fun there => there = site) ∧
      Leads lexer site post fun there => there = .initial := by
  cases occurs with
  | @statement s _ _ _ _ _ front other within back =>
    refine front.leads.append ?_
    rintro _ rfl
    refine s.leads_title.append fun base opened => ?_
    refine (within.leads opened.isHost).weaken fun site ⟨host, rest⟩ => ?_
    refine ⟨within.inner.leads host, rest.append ?_⟩
    rintro _ rfl
    refine (opened.leads_close (.inl rfl)).append ?_
    rintro _ rfl
    exact back.leads
  | body front earlier type name parameters within later back =>
    refine front.leads.append ?_
    rintro _ rfl
    refine (Section.leads_title .functions).append fun base opened => ?_
    have host := opened.isHost
    refine (earlier.leads host (.inl rfl)).append fun here seat => ?_
    refine (leads_prototype host seat type name parameters).append fun here seat => ?_
    have comment := seat.isBlockComment host
    refine (leads_around_site comment fun _ inside => within.leads inside).weaken ?_
    rintro site ⟨inside, rest⟩
    refine ⟨within.inner.leads inside, rest.append ?_⟩
    rintro _ rfl
    refine (later.leads host seat).append fun here seat => ?_
    refine (opened.leads_close seat).append ?_
    rintro _ rfl
    exact back.leads

end Occurs

/-- Tokens lead from the beginning of their text to where they end. -/
theorem Leads.from_start {Q : LineState → Prop} (parts : lexer.clusters.PartsAscii)
    (h : Leads lexer here ts Q) {laid later : Layout} (tokens : laid.tokens = ts)
    (visible : ts ≠ []) (clean : ∀ w ∈ later.tokens, Clean w) :
    ∃ assigned there, Q there ∧ Place.Reaches lexer
      (.start here (Layout.render (laid ++ later))) ⟨assigned, there, later.before ⟨[], []⟩⟩ := by
  cases laid with
  | nil => exact absurd tokens.symm visible
  | cons entry laid =>
    obtain ⟨g, w⟩ := entry
    have whole : ∀ x ∈ Layout.tokens ((g, w) :: (laid ++ later)), Clean x := by
      have split : Layout.tokens ((g, w) :: (laid ++ later)) = ts ++ later.tokens := by
        rw [← tokens]
        simp [Layout.tokens]
      rw [split, List.forall_mem_append]
      exact ⟨h.clean parts, clean⟩
    have same : Layout.tokens ((.lineFeed, w) :: laid) = ts := tokens
    obtain ⟨assigned, there, hQ, run⟩ := h.runs parts ((.lineFeed, w) :: laid) same false
      (later.before ⟨[], []⟩) (Layout.parted_before (.inl rfl))
    refine ⟨assigned, there, hQ, ?_⟩
    rw [List.cons_append, Place.start_render whole]
    rwa [← Layout.before_append] at run

/-- In the run over the text of three layouts the second one begins and ends in one state. -/
def Returns (lexer : Lexer) (first second third : Layout) : Prop :=
  ∃ assigned later site, Place.Reaches lexer
      (.start .initial (Layout.render (first ++ (second ++ third))))
      ⟨assigned, site, Layout.before (second ++ third) ⟨[], []⟩⟩ ∧
    Place.Reaches lexer ⟨assigned, site, Layout.before (second ++ third) ⟨[], []⟩⟩
      ⟨later, site, Layout.before third ⟨[], []⟩⟩

/-- A program ends in the state before its first line, and each of its statements returns to the
state in which it began. -/
theorem state_of_program (lexer : Lexer) (parts : lexer.clusters.PartsAscii) {laid : Layout}
    (program : Program laid.tokens) :
    lexer.stateAfter .initial laid.render.lines = .initial ∧
      ∀ first second third : Layout, laid = first ++ (second ++ third) →
        Occurs first.tokens second.tokens third.tokens → Returns lexer first second third := by
  constructor
  · by_cases visible : laid.tokens = []
    · obtain rfl := List.map_eq_nil_iff.1 visible
      have blank : Text.stripTerminator [] = [] := rfl
      simp [Layout.render, Lexer.stateAfter, state_tokenizeLine, blank]
    · have ends : Leads lexer .initial laid.tokens fun there => there = .initial :=
        program.leads
      have clean : ∀ w ∈ Layout.tokens [], Clean w := List.forall_mem_nil Clean
      obtain ⟨assigned, _, rfl, run⟩ := ends.from_start parts rfl visible clean
      rw [List.append_nil] at run
      rw [← Place.final_start, ← run.final_eq, Layout.before_nil, Place.final_nil]
  · rintro first second third rfl occurs
    have ends : Leads lexer .initial _ fun there => there = .initial := program.leads
    have clean : ∀ w ∈ Layout.tokens (second ++ third), Clean w := by
      intro w mem
      refine ends.clean parts w ?_
      rw [Layout.tokens, List.map_append]
      exact List.mem_append_right _ mem
    have starts : Leads lexer .initial first.tokens _ := occurs.leads
    obtain ⟨assigned, site, ⟨returns, _⟩, run⟩ :=
      starts.from_start parts rfl occurs.front_ne_nil clean
    obtain ⟨later, _, rfl, back⟩ := returns.runs parts second rfl assigned (third.before ⟨[], []⟩)
      (Layout.parted_before (.inl rfl))
    rw [← Layout.before_append] at back
    exact ⟨assigned, later, _, run, back⟩

/-- A section with one sampling statement, whose parenthesis stands on a line of its own. -/
theorem state_of_sampling_model :
    let lexer : Lexer := ⟨{}, by decide, .prepending⟩
    let first : Layout := [(.space, "model".toList), (.space, ['{'])]
    let second : Layout := [(.lineFeed, ['y']), (.space, ['~']), (.space, "normal".toList),
      (.lineFeed, ['(']), (.space, ['0']), (.space, [',']), (.space, ['1']), (.space, [')']),
      (.space, [';'])]
    let third : Layout := [(.lineFeed, ['}'])]
    let laid := first ++ (second ++ third)
    Program laid.tokens ∧ Occurs first.tokens second.tokens third.tokens ∧
      lexer.stateAfter .initial laid.render.lines = .initial ∧
      Returns lexer first second third := by
  intro lexer first second third laid
  have number : ∀ w ∈ [['0'], ['1']], IsNumber w := by
    intro w mem
    simp only [List.mem_cons, List.not_mem_nil, or_false] at mem
    rcases mem with rfl | rfl
    · exact ⟨by decide, .integer, by decide⟩
    · exact ⟨by decide, .integer, by decide⟩
  have zero : Phrase.Derives (.expression true) [['0']] := .number (number _ (by decide))
  have one : Phrase.Derives (.expression true) [['1']] := .number (number _ (by decide))
  have arguments : Phrase.Derives .arguments [['0'], [','], ['1']] :=
    .someArguments (.moreItems zero (.item one))
  have value : Phrase.Derives (.expression true) [['y']] := .name (by decide)
  have name : IsName "normal".toList := by decide
  have statement : Simple second.tokens := .sampling value name arguments .none
  have occurs : Occurs first.tokens second.tokens third.tokens :=
    .statement (s := .model) .none nofun (.first (.self (.simple statement)) .done) .none
  have program : Program laid.tokens := occurs.program
  have state := state_of_program lexer Segmentation.prepending_partsAscii program
  exact ⟨program, occurs, state.1, state.2 first second third rfl occurs⟩

end StanHighlight

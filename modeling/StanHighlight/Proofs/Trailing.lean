import StanHighlight.Proofs.Comment
import StanHighlight.Proofs.RunOn

/-!
Trailing trivia. Blanks at the end of a line, and a line comment behind blanks, leave the state
that the line ends in. No rule that applies earlier in the line looks into them, and the only
tokens that reach into them end where the line ends.
-/

namespace StanHighlight

namespace Text

/-- A line ends in one of the terminators or has none. -/
theorem terminator_mem (line : Text) : terminator line ∈ [] :: terminators := by
  have ending : ∀ content rest : Text, content ++ rest = line → stripTerminator line = content →
      terminator line = rest := by
    rintro content rest rfl strip
    rw [terminator, strip, List.drop_left]
  unfold stripTerminator at ending
  split at ending
  · next content reversed =>
    have whole : content.reverse ++ ['\r', '\n'] = line := by
      simpa using congrArg List.reverse reversed.symm
    rw [ending _ _ whole rfl]
    decide
  · next content _ reversed =>
    have whole : content.reverse ++ ['\n'] = line := by
      simpa using congrArg List.reverse reversed.symm
    rw [ending _ _ whole rfl]
    decide
  · next content reversed =>
    have whole : content.reverse ++ ['\r'] = line := by
      simpa using congrArg List.reverse reversed.symm
    rw [ending _ _ whole rfl]
    decide
  · rw [ending line [] (List.append_nil line) rfl]
    decide

theorem isSpace_of_mem_terminator {line : Text} : ∀ c ∈ terminator line, isSpace c = true := by
  have blank : ∀ w ∈ [] :: terminators, w.all isSpace = true := by decide
  exact List.all_eq_true.1 (blank _ (terminator_mem line))

/-- Of a line with more behind it no less is left than of the line. -/
theorem stripTerminator_isInitial_append (line w : Text) :
    stripTerminator line <+: stripTerminator (line ++ w) := by
  cases w with
  | nil => exact ⟨[], by simp⟩
  | cons x w =>
    have whole := stripTerminator_append_terminator (line ++ x :: w)
    by_cases short : (terminator (line ++ x :: w)).length ≤ (x :: w).length
    · have front : stripTerminator line <+: line ++ x :: w :=
        (stripTerminator_isInitial line).trans (List.prefix_append ..)
      refine List.prefix_of_prefix_length_le front (stripTerminator_isInitial _) ?_
      have less := (stripTerminator_isInitial line).length_le
      have sizes := congrArg List.length whole
      simp only [List.length_append] at sizes
      omega
    · -- the `\n` behind the `\r` that the line ends in
      have ending := terminator_mem (line ++ x :: w)
      simp only [terminators, List.mem_cons, List.not_mem_nil, or_false] at ending
      rcases ending with none | feed | both | ret
      · simp [none] at short
      · simp [feed] at short
      · obtain rfl : w = [] := by simpa [both] using short
        rw [both, List.append_cons] at whole
        obtain ⟨split, _⟩ := List.append_inj' whole rfl
        have strip : stripTerminator line = stripTerminator (line ++ [x]) := by
          conv_lhs => rw [← split]
          simp [stripTerminator]
        exact ⟨[], by rw [List.append_nil, strip]⟩
      · simp [ret] at short

theorem stripTerminator_append_blanks {w : Text} (blank : ∀ c ∈ w, isSpace c = true) (line : Text) :
    ∃ gap, (∀ c ∈ gap, isSpace c = true) ∧
      stripTerminator (line ++ w) = stripTerminator line ++ gap := by
  obtain ⟨gap, left⟩ := stripTerminator_isInitial_append line w
  refine ⟨gap, fun c mem => ?_, left.symm⟩
  have whole := stripTerminator_append_terminator (line ++ w)
  have parts : stripTerminator line ++ (gap ++ terminator (line ++ w)) =
      stripTerminator line ++ (terminator line ++ w) := by
    rw [← List.append_assoc, left, whole, ← List.append_assoc, stripTerminator_append_terminator]
  have inside : c ∈ terminator line ++ w :=
    List.append_cancel_left parts ▸ List.mem_append_left _ mem
  exact (List.mem_append.1 inside).elim (isSpace_of_mem_terminator c) (blank c)

/-- Behind a line comment, the terminator of the line in front of it is a blank like others. -/
theorem stripTerminator_append_slashes (line t : Text) :
    stripTerminator (line ++ " //".toList ++ t) =
      stripTerminator line ++ ((terminator line ++ [' ']) ++ '/' :: '/' :: stripTerminator t) := by
  have last : (line ++ " //".toList).getLast? = some '/' := by simp
  calc
    stripTerminator (line ++ " //".toList ++ t) = line ++ " //".toList ++ stripTerminator t :=
      stripTerminator_append_of_getLast? last (by decide) t
    _ = stripTerminator line ++ terminator line ++ " //".toList ++ stripTerminator t := by
      rw [stripTerminator_append_terminator]
    _ = _ := by
      simp only [List.append_assoc]
      rfl

end Text

inductive Trivia (here : LineState) : Text → Prop
  | blanks {gap : Text} (blank : ∀ c ∈ gap, Text.isSpace c = true) : Trivia here gap
  | remark (code : here.innermost.isBlockComment = false) {gap : Text}
      (blank : ∀ c ∈ gap, Text.isSpace c = true) (t : Text) :
      Trivia here (gap ++ '/' :: '/' :: t)

namespace Trivia

variable {lexer : Lexer} {here : LineState} {rest : Text}

theorem inert (h : Trivia here rest) (blank : ∀ c ∈ rest.head?, Text.isSpace c = true) :
    Inert rest := by
  cases h with
  | blanks blank => exact .blanks blank
  | @remark _ gap blank_gap t =>
    refine .blanks_slash blank_gap ?_ _
    rintro rfl
    exact absurd (blank '/' rfl) (by decide)

/-- A cluster that reaches into trivia takes some of its first blanks and leaves trivia. -/
theorem drop (parts : lexer.clusters.PartsAscii) (h : Trivia here rest)
    (blank : ∀ c ∈ rest.head?, Text.isSpace c = true) (front : Text) :
    Trivia here (rest.drop (lexer.clusters.first (front ++ rest) - front.length)) := by
  cases h with
  | blanks blank => exact .blanks fun c mem => blank c (List.mem_of_mem_drop mem)
  | @remark code gap blank_gap t =>
    have some_gap : gap ≠ [] := by
      rintro rfl
      exact absurd (blank '/' rfl) (by decide)
    have within : lexer.clusters.first (front ++ (gap ++ '/' :: '/' :: t)) ≤
        front.length + gap.length := by
      refine Nat.le_of_not_lt fun beyond => ?_
      rw [← List.append_assoc, ← List.length_append] at beyond
      have some_text : front ++ gap ≠ [] := List.append_ne_nil_of_right_ne_nil _ some_gap
      obtain ⟨before, c, after, last, split⟩ :=
        Segmentation.exists_cluster_of_lt_first some_text beyond
      have visible := (parts _ _ _ _ _ split (by decide) (by decide)).2
      rw [List.getLast?_append_of_ne_nil _ some_gap] at last
      rw [blank_gap c (List.mem_of_getLast? last)] at visible
      cases visible
    rw [List.drop_append_of_le_length (by omega)]
    exact .remark code (fun c mem => blank_gap c (List.mem_of_mem_drop mem)) t

/-- Trivia at the end of a line leaves the state. -/
theorem state_cut (parts : lexer.clusters.PartsAscii) (assigned : Bool) (h : Trivia here rest) :
    (cut lexer assigned here rest).2 = here := by
  induction assigned, here, rest using cut_induction lexer with
  | nil assigned here => rw [cut_nil]
  | step assigned here t s nonempty taken _ ih =>
    obtain ⟨c, rest, rfl⟩ := List.exists_cons_of_ne_nil nonempty
    rw [cut_eq nonempty, ← taken]
    cases blank : Text.isSpace c with
    | true =>
      rw [Step.take_of_isSpace blank] at taken
      subst taken
      have left := h.drop parts (fun d first => by cases first; exact blank) []
      rw [List.length_nil, Nat.sub_zero, List.nil_append] at left
      exact ih left
    | false =>
      -- no blank stands in front of the comment
      generalize whole : c :: rest = line at h taken
      cases h with
      | blanks all_blank => simp [all_blank c (whole ▸ List.mem_cons_self)] at blank
      | @remark code gap blank_gap t =>
        obtain rfl : gap = [] := by
          cases gap with
          | nil => rfl
          | cons d gap =>
            obtain rfl : c = d := (List.cons.inj whole).1
            simp [blank_gap c List.mem_cons_self] at blank
        rw [List.nil_append, Step.take_slashes code] at taken
        rw [taken]
        simp [Rule.remark]

end Trivia

section Trailing

variable {lexer : Lexer} {assigned : Bool} {here : LineState} {t rest : Text}

/-- How a step goes on in front of more text: with the same token, or to the end of the line with
and without that text. -/
inductive Step.GoesOn (rest : Text) (s s' : Step) : Prop
  | onto (h : s' = s.onto rest)
  | toEnd (after : s'.after = s.after) (done : s.rest = []) (still_done : s'.rest = [])

/-- A file name in front of blanks ends there, or runs to the end of the line if its delimiter
is missing. -/
theorem Rule.fileName_append_blanks (here : LineState)
    (blank : ∀ c ∈ rest, Text.isSpace c = true) (c : Char) (t : Text) :
    fileName here (c :: t ++ rest) =
        ((fileName here (c :: t)).1, (fileName here (c :: t)).2 ++ rest) ∨
      ((fileName here (c :: t)).2 = [] ∧ (fileName here (c :: t ++ rest)).2 = []) := by
  cases style : nameStyle c with
  | none =>
    have stops : ∀ d ∈ rest.head?, (!Text.isSpace d) = false := fun d first => by
      simp [blank d (List.mem_of_mem_head? first)]
    obtain ⟨taken, dropped⟩ := Text.takeWhile_append_of_head stops (c :: t)
    refine .inl ?_
    rw [List.cons_append, fileName_of_bare style, fileName_of_bare style, ← List.cons_append, taken,
      dropped]
  | some found =>
    obtain ⟨close, style_name⟩ := found
    rw [List.cons_append, fileName_of_style style, fileName_of_style style]
    by_cases closed : close ∈ t
    · exact .inl (delimitedName_append closed rest)
    · have unclosed : ∀ u : Text, close ∉ u →
          (delimitedName here c close style_name u).2 = [] := by
        intro u absent
        have none := List.dropWhile_eq_nil_iff.2 (Text.forall_bne_of_notMem absent)
        simp only [delimitedName, none]
      have visible : Text.isSpace close = false := by
        unfold nameStyle at style
        split at style <;> cases style <;> decide
      refine .inr ⟨unclosed t closed, unclosed (t ++ rest) fun mem => ?_⟩
      rcases List.mem_append.1 mem with mem | mem
      · exact closed mem
      · simp [blank close mem] at visible

/-- A directive in front of blanks. -/
theorem Rule.includeStep_append_blanks (blank : ∀ c ∈ rest, Text.isSpace c = true) (t : Text) :
    Step.GoesOn rest (includeStep here t) (includeStep here (t ++ rest)) := by
  rcases Text.trimStart_append_cases t rest with ⟨none, more⟩ | ⟨visible, more, _⟩
  · have nothing : Text.trimStart rest = [] := List.dropWhile_eq_nil_iff.2 blank
    refine .toEnd rfl ?_ ?_
    · simp only [includeStep, none]
      rfl
    · simp only [includeStep, more, nothing]
      rfl
  · obtain ⟨c, name, found⟩ := List.exists_cons_of_ne_nil visible
    rcases fileName_append_blanks here blank c name with same | ⟨done, still_done⟩
    · exact .onto (includeStep_append found same)
    · refine .toEnd rfl ?_ ?_
      · simp only [includeStep, found, done]
      · simp only [includeStep, more, found, still_done]

/-- A literal in front of blanks. -/
theorem Step.take_quote_append_blanks (code : here.innermost.isBlockComment = false)
    (blank : ∀ c ∈ rest, Text.isSpace c = true) (t : Text) :
    GoesOn rest (take lexer assigned here ('"' :: t))
      (take lexer assigned here ('"' :: t ++ rest)) := by
  by_cases closed : '"' ∈ t
  · exact .onto (take_quote_append code closed rest)
  · have still_open : '"' ∉ t ++ rest := fun mem => by
      rcases List.mem_append.1 mem with mem | mem
      · exact closed mem
      · exact absurd (blank _ mem) (by decide)
    rw [List.cons_append, take_quote code (Rule.string?_cons ..),
      take_quote code (Rule.string?_cons ..)]
    refine .toEnd rfl ?_ ?_
    · simp only [Rule.literalEnd_of_notMem closed]
    · simp only [Rule.literalEnd_of_notMem still_open]

/-- A directive or a comment from a hash sign in front of blanks. -/
theorem Step.take_hash_append_blanks (code : here.innermost.isBlockComment = false)
    (blank : ∀ c ∈ rest, Text.isSpace c = true) (t : Text) :
    GoesOn rest (take lexer assigned here ('#' :: t))
      (take lexer assigned here ('#' :: t ++ rest)) := by
  have remark : GoesOn rest (Rule.remark here ['#'] .hashComment t)
      (Rule.remark here ['#'] .hashComment (t ++ rest)) := .toEnd rfl rfl rfl
  rw [List.cons_append, take_hash code, take_hash code, ← List.cons_append]
  by_cases level : here.innermost.isStatementLevel = true
  · rw [if_pos level, if_pos level]
    rcases Rule.include?_append here (.blanks blank) ('#' :: t) with
      ⟨none, still_none⟩ | ⟨after, _, found, still_found⟩
    · rw [none, still_none]
      exact remark
    · rw [found, still_found]
      exact Rule.includeStep_append_blanks blank after
  · rw [if_neg level, if_neg level]
    exact remark

/-- Where a token may run on, it goes on in front of trivia, if that cannot close it. -/
theorem Step.take_append_of_not_tame (some_text : t ≠ []) (wild : ¬Tame here t)
    (closed : (∀ c ∈ rest, Text.isSpace c = true) ∨ ('"' ∉ t ∧ '#' ∉ t)) :
    GoesOn rest (take lexer assigned here t) (take lexer assigned here (t ++ rest)) := by
  obtain ⟨code, body, rfl | rfl | rfl⟩ := (tame_or here some_text).resolve_left wild
  · have longer : take lexer assigned here ('/' :: '/' :: body ++ rest) =
        Rule.remark here ['/', '/'] .slashComment (body ++ rest) := take_slashes code (body ++ rest)
    rw [longer, take_slashes code]
    exact .toEnd rfl rfl rfl
  · have blank := closed.resolve_right fun absent => absent.1 List.mem_cons_self
    exact take_quote_append_blanks code blank body
  · have blank := closed.resolve_right fun absent => absent.2 List.mem_cons_self
    exact take_hash_append_blanks code blank body

/-- Trivia behind a text leaves the state that the text ends in. -/
theorem state_cut_append (sequential : lexer.clusters.Sequential)
    (parts : lexer.clusters.PartsAscii) (assigned : Bool) (here : LineState) (t : Text)
    (trivia : Trivia (cut lexer assigned here t).2 rest)
    (blank : ∀ c ∈ rest.head?, Text.isSpace c = true)
    (closed : (∀ c ∈ rest, Text.isSpace c = true) ∨ ('"' ∉ t ∧ '#' ∉ t)) :
    (cut lexer assigned here (t ++ rest)).2 = (cut lexer assigned here t).2 := by
  induction assigned, here, t using cut_induction lexer with
  | nil assigned here =>
    rw [cut_nil] at trivia ⊢
    exact trivia.state_cut parts assigned
  | step assigned here t s nonempty taken covers ih =>
    have longer : t ++ rest ≠ [] := by simp [nonempty]
    rw [cut_eq nonempty, ← taken] at trivia ⊢
    rw [cut_eq longer]
    have later : (∀ c ∈ rest, Text.isSpace c = true) ∨ ('"' ∉ s.rest ∧ '#' ∉ s.rest) := by
      refine closed.imp_right fun absent => ?_
      rw [← covers.whole] at absent
      simp only [List.mem_append, not_or] at absent
      exact ⟨absent.1.2, absent.2.2⟩
    have goes_on : Step.GoesOn rest s (Step.take lexer assigned here (t ++ rest)) →
        let s' := Step.take lexer assigned here (t ++ rest)
        (cut lexer (s'.assigns assigned) s'.after s'.rest).2 =
          (cut lexer (s.assigns assigned) s.after s.rest).2 := by
      rintro (same | ⟨after, done, still_done⟩)
      · simp only [same]
        exact ih trivia later
      · simp only [after, done, still_done, cut_nil]
    by_cases tame : Tame here t
    · rcases Step.take_append sequential tame (trivia.inert blank) with same | ⟨beyond, plain, skip⟩
      · exact goes_on (.onto (taken ▸ same))
      · -- the last cluster of the text reaches into the trivia
        rw [plain] at taken
        subst taken
        have left : (t ++ rest).drop (lexer.clusters.first (t ++ rest)) =
            rest.drop (lexer.clusters.first (t ++ rest) - t.length) := by
          rw [List.drop_append, List.drop_eq_nil_of_le (Nat.le_of_lt beyond), List.nil_append]
        simp only [cut_nil] at trivia ⊢
        simp only [skip, Step.skip, left]
        exact (trivia.drop parts blank t).state_cut parts _
    · exact goes_on (taken ▸ Step.take_append_of_not_tame nonempty tame closed)

/-- Blanks at the end of a line leave the state that it ends in. So does a line comment behind a
blank, if the line ends outside block comments and has no quote and no hash sign, which begin the
tokens that could take the comment in. -/
theorem state_tokenizeLine_append (sequential : lexer.clusters.Sequential)
    (parts : lexer.clusters.PartsAscii) (line : Text) (before : LineState) :
    (∀ w : Text, (∀ c ∈ w, Text.isSpace c = true) →
      (lexer.tokenizeLine (line ++ w) before).state = (lexer.tokenizeLine line before).state) ∧
    ('"' ∉ line → '#' ∉ line → (lexer.tokenizeLine line before).state.inBlockComment = false →
      ∀ t : Text, (lexer.tokenizeLine (line ++ " //".toList ++ t) before).state =
        (lexer.tokenizeLine line before).state) := by
  simp only [state_tokenizeLine]
  constructor
  · intro w blank
    obtain ⟨gap, blank_gap, strip⟩ := Text.stripTerminator_append_blanks blank line
    rw [strip]
    refine state_cut_append sequential parts false before _ (.blanks blank_gap) ?_ (.inl blank_gap)
    exact fun c first => blank_gap c (List.mem_of_mem_head? first)
  · intro quote hash code t
    have blank_gap : ∀ c ∈ Text.terminator line ++ [' '], Text.isSpace c = true := by
      refine List.forall_mem_append.2 ⟨Text.isSpace_of_mem_terminator, ?_⟩
      exact List.forall_mem_singleton.2 (by decide)
    have inside := (Text.stripTerminator_isInitial line).subset
    rw [Text.stripTerminator_append_slashes]
    refine state_cut_append sequential parts false before _ (.remark code blank_gap _) ?_
      (.inr ⟨fun mem => quote (inside mem), fun mem => hash (inside mem)⟩)
    intro c first
    obtain ⟨d, gap, blanks⟩ := List.exists_cons_of_ne_nil
      (List.append_ne_nil_of_right_ne_nil (Text.terminator line) (List.cons_ne_nil ' ' []))
    rw [blanks] at first blank_gap
    cases first
    exact blank_gap _ List.mem_cons_self

/-- A call that is open at the end of its line, with a line break behind an em space, and with a
comment that would close it. -/
theorem state_tokenizeLine_append_in_call :
    let lexer : Lexer := ⟨{}, by decide, .prepending⟩
    let line := "x ~ normal(0, 1".toList
    let gap := "\u2003\r\n".toList
    let state := (lexer.tokenizeLine line .initial).state
    (lexer.clusters.Sequential ∧ lexer.clusters.PartsAscii ∧
      (∀ c ∈ gap, Text.isSpace c = true) ∧ '"' ∉ line ∧ '#' ∉ line ∧
      state.inBlockComment = false) ∧
      state.innermost = .call .distribution ∧
      (lexer.tokenizeLine (line ++ gap) .initial).state = state ∧
      (lexer.tokenizeLine (line ++ " //".toList ++ " );".toList) .initial).state = state := by
  intro lexer line gap state
  have sequential : lexer.clusters.Sequential := Segmentation.prepending_sequential
  have parts : lexer.clusters.PartsAscii := Segmentation.prepending_partsAscii
  have all_blank : gap.all Text.isSpace = true := by decide
  have blank : ∀ c ∈ gap, Text.isSpace c = true := List.all_eq_true.1 all_blank
  have quote : '"' ∉ line := by decide
  have hash : '#' ∉ line := by decide
  have inside : state.innermost = .call .distribution := by decide +kernel
  have code : state.inBlockComment = false := by rw [LineState.inBlockComment, inside]; rfl
  obtain ⟨blanks, remark⟩ := state_tokenizeLine_append sequential parts line .initial
  exact ⟨⟨sequential, parts, blank, quote, hash, code⟩, inside, blanks gap blank,
    remark quote hash code " );".toList⟩

end Trailing

end StanHighlight

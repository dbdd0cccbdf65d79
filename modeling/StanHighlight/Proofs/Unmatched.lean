import StanHighlight.Proofs.Join
import StanHighlight.Proofs.StepPieces

/-!
Text that no rule recognises. Plain text is skipped cluster by cluster, and no rule is tried
inside a cluster. But the only characters that share a cluster with a character of ASCII behind
them are prepended marks, and every token starts with such a character. So plain text holds no
place where a rule would apply, except directly behind a prepended mark.
-/

namespace StanHighlight

namespace Rule

variable {config : Config} {here : LineState} {t : Text}

/-- Whether the latest token is an assignment decides what a brace opens, but not whether it
opens something. -/
theorem isSome_opener? (assigned other : Bool) (here : LineState) (t : Text) :
    (opener? assigned here t).isSome = (opener? other here t).isSome := by
  unfold opener?
  split <;> rfl

theorem step?_eq_none_iff (assigned other : Bool) (rule : Rule) :
    step? config assigned here t rule = none ↔ step? config other here t rule = none := by
  cases rule with
  | opener =>
    rw [← Option.not_isSome_iff_eq_none, ← Option.not_isSome_iff_eq_none]
    exact (isSome_opener? assigned other here t) ▸ Iff.rfl
  | _ => rfl

end Rule

def Unrecognised (config : Config) (here : LineState) (t : Text) : Prop :=
  ∀ rule ∈ here.innermost.rules, ∀ assigned, Rule.step? config assigned here t rule = none

namespace Unrecognised

variable {config : Config} {here : LineState} {t : Text} {c : Char}

theorem of_head (h : ∀ c ∈ t.head?, ∀ rule : Rule, rule.startsAt c = false) :
    Unrecognised config here t := by
  intro rule _ assigned
  cases t with
  | nil => exact Rule.step?_nil
  | cons c t => exact Rule.step?_eq_none (h c rfl rule)

theorem nil : Unrecognised config here [] := .of_head nofun

theorem of_isSpace (h : Text.isSpace c = true) : Unrecognised config here (c :: t) :=
  .of_head fun d hd => by
    cases hd
    exact Rule.startsAt_of_isSpace h

/-- What is skipped is not recognised. -/
theorem of_none {assigned : Bool}
    (h : ∀ rule ∈ here.innermost.rules, Rule.step? config assigned here t rule = none) :
    Unrecognised config here t :=
  fun rule mem other => (Rule.step?_eq_none_iff assigned other rule).1 (h rule mem)

/-- Outside comments the signs that end statements, brackets, quotes, digits and letters are
recognised wherever they stand. -/
theorem head (h : Unrecognised config here t) (code : here.innermost.isBlockComment = false) :
    ∀ c ∈ t.head?, c ∉ [';', '(', ')', '[', ']', '{', '}', '"', '\''] ∧ c.isDigit = false ∧
      c.isAlpha = false := by
  intro c first
  obtain ⟨rest, rfl⟩ := List.head?_eq_some_iff.1 first
  have unread : ∀ rule ∈ Rule.expression, Rule.step? config false here (c :: rest) rule = none :=
    fun rule mem => h rule (Region.mem_rules_of_mem_expression code mem) false
  refine ⟨fun mark => ?_, Bool.eq_false_iff.2 fun digit => ?_, Bool.eq_false_iff.2 fun letter => ?_⟩
  · simp only [List.mem_cons, List.not_mem_nil, or_false] at mark
    rcases mark with rfl | rfl | rfl | rfl | rfl | rfl | rfl | rfl | rfl
    · cases unread .terminator (by decide)
    · cases unread .opener (by decide)
    · cases unread .closer (by decide)
    · cases unread .opener (by decide)
    · cases unread .closer (by decide)
    · cases unread .opener (by decide)
    · cases unread .closer (by decide)
    · have none := unread .string (by decide)
      simp only [Rule.step?, Rule.string?] at none
      split at none <;> cases none
    · have none : Rule.spelledOperator? here (['\''] ++ rest) = none := unread .operator (by decide)
      have spelled := List.findSome?_eq_none_iff.1 none (['\''], .arithmeticOperator) (by decide)
      cases (Text.after?_append ['\''] rest).symm.trans (Option.map_eq_none_iff.1 spelled)
  · have none := unread .number (by decide)
    have some_digit : Text.digits (c :: rest) ≠ [] := by simp [Text.digits, digit]
    simp only [Rule.step?, Rule.number?] at none
    split at none
    · next no_numeral =>
      unfold Text.numeral? at no_numeral
      simp only [some_digit, false_and, if_false] at no_numeral
      split at no_numeral <;> split at no_numeral <;> cases no_numeral
    · split at none <;> cases none
  · have none := unread .word (by decide)
    simp [Rule.step?, Rule.word?, Text.startsWord, letter] at none

/-- In a block comment its end is recognised wherever it stands. -/
theorem not_comment_end (h : Unrecognised config here t)
    (comment : here.innermost.isBlockComment = true) : ¬['*', '/'] <+: t := by
  rintro ⟨rest, rfl⟩
  have table : Rule.blockCommentEnd ∈ here.innermost.rules := by
    cases region : here.innermost with
    | blockComment => exact List.mem_cons_self
    | _ => rw [region] at comment; cases comment
  cases h .blockCommentEnd table false

end Unrecognised

/-- Pieces in front of a text that is left over, where plain text holds no place at which a rule
would apply. -/
inductive Unmatched (config : Config) (ending : Text) : List Piece → Prop
  | nil : Unmatched config ending []
  | cons {p : Piece} {ps : List Piece}
      (same : p.isPlain = true → ∀ q ∈ ps.head?, q.isPlain = true → q.around = p.around)
      (unread : p.isPlain = true → ∀ front back rest, p.text = front ++ back → back ≠ [] →
        (∀ m ∈ front.getLast?, Segmentation.isPrepended m = false) →
        back ++ Piece.texts ps = rest ++ ending → Unrecognised config p.around rest)
      (more : Unmatched config ending ps) : Unmatched config ending (p :: ps)

namespace Unmatched

variable {config : Config} {ending : Text} {p : Piece} {ps qs : List Piece}

theorem labelled (h : p.isPlain = false) (more : Unmatched config ending ps) :
    Unmatched config ending (p :: ps) :=
  have other : p.isPlain ≠ true := by simp [h]
  .cons (fun plain => absurd plain other) (fun plain => absurd plain other) more

theorem tokens (h : ∀ p ∈ ps, p.isPlain = false) (more : Unmatched config ending qs) :
    Unmatched config ending (ps ++ qs) := by
  induction ps with
  | nil => exact more
  | cons p ps ih =>
    obtain ⟨first, others⟩ := List.forall_mem_cons.1 h
    exact .labelled first (ih others)

/-- Blanks in front of a token. -/
theorem blanks {gap : Text} {around : LineState} (blank : ∀ c ∈ gap, Text.isSpace c = true)
    (token : ∀ q ∈ ps.head?, q.isPlain = false) (more : Unmatched config ending ps) :
    Unmatched config ending (Piece.ofText gap around [] ++ ps) := by
  unfold Piece.ofText
  split
  · exact more
  · refine .cons (fun _ q first plain => ?_) (fun _ f b rest text some_back _ whole => ?_) more
    · simp [token q first] at plain
    · obtain ⟨c, b, rfl⟩ := List.exists_cons_of_ne_nil some_back
      have blank : Text.isSpace c = true := blank c (by simp [show gap = _ from text])
      cases rest with
      | nil => exact .nil
      | cons d rest =>
        obtain rfl : c = d := (List.cons.inj whole).1
        exact .of_isSpace blank

/-- What a rule takes. -/
theorem ordinary {s : Step} (h : s.IsOrdinary) (more : Unmatched config ending ps) :
    Unmatched config ending (s.pieces ++ ps) := by
  cases h with
  | tokens h => exact .tokens (fun p mem => (h p mem).isPlain) more
  | opening pieces first blank last =>
    rw [pieces, List.cons_append, List.append_assoc]
    refine .labelled first.isPlain (.blanks blank ?_ (.labelled last.isPlain more))
    rintro q ⟨⟩
    exact last.isPlain

theorem of_step? {assigned : Bool} {here : LineState} {t : Text} {rule : Rule} {s : Step}
    (found : Rule.step? config assigned here t rule = some s) (more : Unmatched config ending ps) :
    Unmatched config ending (s.pieces ++ ps) := by
  by_cases literal : rule = .string
  · subst literal
    exact .tokens (Rule.labelled_string found) more
  · exact .ordinary (Rule.ordinary_step? literal found) more

/-- What is skipped where no rule applies: a cluster, in which only a prepended mark stands in
front of a character of ASCII. -/
theorem skipped {g : Segmentation} (marks : g.PartsAtMarks) {here : LineState} {t : Text}
    (unread : Unrecognised config here t)
    (same : ∀ q ∈ ps.head?, q.isPlain = true → q.around = here)
    (whole : t.drop (g.first t) ++ ending = Piece.texts ps) (more : Unmatched config ending ps) :
    Unmatched config ending ((Step.skip g here t).pieces ++ ps) := by
  refine .cons (fun _ => same) (fun _ front back rest text some_back apart eq => ?_) more
  change back ++ Piece.texts ps = rest ++ ending at eq
  have split : g.cluster t = front ++ back := text
  have rest_eq : rest = back ++ t.drop (g.first t) := by
    rw [← whole, ← List.append_assoc] at eq
    exact (List.append_cancel_right eq).symm
  obtain ⟨d, back, rfl⟩ := List.exists_cons_of_ne_nil some_back
  cases reversed : front.getLast? with
  | none =>
    obtain rfl := List.getLast?_eq_none_iff.1 reversed
    have start : rest = t := by
      rw [rest_eq, ← List.nil_append (d :: back), ← split]
      exact List.take_append_drop ..
    exact start ▸ unread
  | some c =>
    obtain ⟨front, rfl⟩ := List.getLast?_eq_some_iff.1 reversed
    rw [rest_eq]
    refine .of_head fun e first rule => ?_
    cases first
    rw [Bool.eq_false_iff]
    intro starts
    have visible := Rule.toNat_of_startsAt starts
    have feed : d ≠ '\n' := by
      rintro rfl
      exact absurd visible.1 (by decide)
    have marked := marks t front back c d (by simpa using split) (by omega) feed
    simp [apart c reversed] at marked

/-- The text that no rule reads at a place inside plain text. -/
theorem unrecognised {A B : List Piece} (h : Unmatched config ending (A ++ p :: B))
    (plain : p.isPlain = true) {front back rest : Text} (text : p.text = front ++ back)
    (some_back : back ≠ []) (apart : ∀ m ∈ front.getLast?, Segmentation.isPrepended m = false)
    (whole : back ++ Piece.texts B = rest ++ ending) : Unrecognised config p.around rest := by
  induction A with
  | nil =>
    cases h with
    | cons _ unread _ => exact unread plain front back rest text some_back apart whole
  | cons q A ih =>
    cases h with
    | cons _ _ more => exact ih more

end Unmatched

namespace Piece

/-- The first of joined pieces stands where the first piece stood. -/
theorem head?_join (p : Piece) (ps : List Piece) :
    ∀ q ∈ (join p ps).head?, q.around = p.around ∧ q.isPlain = p.isPlain := by
  cases ps with
  | nil =>
    rintro q ⟨⟩
    exact ⟨rfl, rfl⟩
  | cons r ps =>
    rw [join]
    split
    · next both =>
      rintro q ⟨⟩
      exact ⟨rfl, ((Bool.and_eq_true _ _ ▸ both).1).symm⟩
    · rintro q ⟨⟩
      exact ⟨rfl, rfl⟩

end Piece

namespace Unmatched

variable {config : Config} {ending : Text} {p : Piece} {ps : List Piece}

/-- Joining two plain pieces adds no place to those inside them. -/
theorem join (h : Unmatched config ending (p :: ps)) : Unmatched config ending (Piece.join p ps) := by
  cases ps with
  | nil => exact h
  | cons q qs =>
    rw [Piece.join]
    split
    · next both =>
      obtain ⟨plain, second⟩ : p.isPlain = true ∧ q.isPlain = true := by simpa using both
      cases h with
      | cons same unread more =>
        have here : q.around = p.around := same plain q rfl second
        cases more with
        | cons next_same next_unread more =>
          refine .cons (fun _ r first third => ?_) (fun _ f b rest text some_back apart whole => ?_)
            more
          · rw [next_same second r first third, here]
          · rcases List.append_eq_append_iff.1 (show p.text ++ q.text = f ++ b from text) with
              ⟨middle, rfl, part⟩ | ⟨middle, part, rfl⟩
            · -- the place lies in the second piece
              have apart : ∀ m ∈ middle.getLast?, Segmentation.isPrepended m = false := by
                intro m last
                refine apart m ?_
                obtain ⟨ms, rfl⟩ := List.getLast?_eq_some_iff.1 last
                simp
              exact here ▸ next_unread second middle b rest part some_back apart whole
            · by_cases none : middle = []
              · subst none
                have some_text : q.text ≠ [] := by simpa using some_back
                have whole : q.text ++ Piece.texts qs = rest ++ ending := by simpa using whole
                exact here ▸ next_unread second [] q.text rest rfl some_text (by simp) whole
              · exact unread plain f middle rest part none apart (by simpa using whole)
    · exact h

theorem joinPlain (h : Unmatched config ending ps) : Unmatched config ending (Piece.joinPlain ps) := by
  induction h with
  | nil => exact .nil
  | @cons p ps same unread more ih =>
    refine (Unmatched.cons (fun plain q first second => ?_) ?_ ih).join
    · cases ps with
      | nil => cases first
      | cons r ps =>
        obtain ⟨here, kind⟩ := Piece.head?_join r (Piece.joinPlain ps) q first
        exact here ▸ same plain r rfl (kind ▸ second)
    · rwa [Piece.texts_joinPlain]

end Unmatched

section Lines

variable {lexer : Lexer}

/-- The pieces of a text with what is left over behind them. -/
theorem unmatched_cutBefore (marks : lexer.clusters.PartsAtMarks) (ending : Text) (assigned : Bool)
    (here : LineState) (t : Text) :
    Unmatched lexer.config ending (cutBefore lexer ending assigned here t) ∧
      ∀ q ∈ (cutBefore lexer ending assigned here t).head?, q.isPlain = true → q.around = here := by
  induction assigned, here, t using cut_induction lexer with
  | nil assigned here =>
    rw [cutBefore_nil]
    unfold Piece.ofText
    split
    · exact ⟨.nil, nofun⟩
    · refine ⟨.cons (fun _ => nofun) (fun _ front back rest text _ _ whole => ?_) .nil, ?_⟩
      · -- only the end of the text can lie in what is left over
        have text : ending = front ++ back := text
        have sizes := congrArg List.length whole
        simp only [text, Piece.texts_nil, List.append_nil, List.length_append] at sizes
        obtain rfl : rest = [] := List.length_eq_zero_iff.1 (by omega)
        exact .nil
      · rintro q ⟨⟩ _
        rfl
  | step assigned here t s nonempty taken covers ih =>
    obtain ⟨unmatched, first⟩ := ih
    rw [cutBefore_eq nonempty taken]
    rcases Step.take_cases taken with ⟨rule, applies⟩ | ⟨none, rfl⟩
    · obtain ⟨p, others, pieces⟩ := List.exists_cons_of_ne_nil covers.some_piece
      have labelled : p.isPlain = false := Rule.labelled_first applies p (by simp [pieces])
      refine ⟨.of_step? applies unmatched, ?_⟩
      rw [pieces]
      rintro q ⟨⟩ plain
      simp [labelled] at plain
    · refine ⟨unmatched.skipped marks (.of_none none) first (by simp [Step.skip]), ?_⟩
      rintro q ⟨⟩ _
      rfl

/-- Plain text holds no place at which a rule of the region that it stands in applies to what
is left of the content of the line, unless that place is directly behind a prepended mark. So no
sign that ends a statement, no bracket, quote, digit or letter is plain text in code, and no end
of a comment is plain text in it. -/
theorem plain_unrecognised (marks : lexer.clusters.PartsAtMarks) (line : Text) (before : LineState)
    {front back : List Lexeme} {l : Lexeme} {f g rest : Text}
    (lexemes : (lexer.tokenizeLine line before).lexemes = front ++ l :: back)
    (plain : l.isPlain = true) (text : l.text = f ++ g) (inside : g ≠ [])
    (apart : ∀ m ∈ f.getLast?, Segmentation.isPrepended m = false)
    (content : Text.stripTerminator line = Piece.texts (front.map Lexeme.toPiece) ++ f ++ rest) :
    Unrecognised lexer.config l.around rest ∧
      (l.around.inBlockComment = false → ∀ c ∈ rest.head?,
        c ∉ [';', '(', ')', '[', ']', '{', '}', '"', '\''] ∧ c.isDigit = false ∧
          c.isAlpha = false) ∧
      (l.around.inBlockComment = true → ¬['*', '/'] <+: rest) := by
  have pieces := toPiece_tokenizeLine lexer line before
  rw [lexemes, List.map_append, List.map_cons] at pieces
  have unmatched : Unmatched lexer.config (Text.terminator line)
      (front.map Lexeme.toPiece ++ l.toPiece :: back.map Lexeme.toPiece) :=
    pieces ▸ (unmatched_cutBefore marks (Text.terminator line) false before _).1.joinPlain
  have whole : g ++ Piece.texts (back.map Lexeme.toPiece) = rest ++ Text.terminator line := by
    have texts := texts_toPiece_tokenizeLine lexer line before
    rw [lexemes, List.map_append, List.map_cons, Piece.texts_append, Piece.texts_cons, text,
      ← Text.stripTerminator_append_terminator line, content] at texts
    simpa using texts
  have unread := unmatched.unrecognised plain text inside apart whole
  exact ⟨unread, unread.head, unread.not_comment_end⟩

/-- A letter with an accent and the blank behind it, in front of a name. -/
theorem plain_unrecognised_accent :
    let lexer : Lexer := ⟨{}, by decide, .prepending⟩
    let line := "x \u0600\u00e9 y;".toList
    let front : List Lexeme := [⟨⟨['x'], .initial, [.identifier]⟩, 0⟩]
    let l : Lexeme := ⟨⟨" \u0600\u00e9 ".toList, .initial, []⟩, 1⟩
    let back : List Lexeme :=
      [⟨⟨['y'], .initial, [.identifier]⟩, 7⟩, ⟨⟨[';'], .initial, [.terminator]⟩, 8⟩]
    (lexer.clusters.PartsAtMarks ∧ (lexer.tokenizeLine line .initial).lexemes = front ++ l :: back ∧
      l.isPlain = true ∧ l.text = " \u0600\u00e9".toList ++ [' '] ∧ [' '] ≠ [] ∧
      (∀ m ∈ " \u0600\u00e9".toList.getLast?, Segmentation.isPrepended m = false) ∧
      Text.stripTerminator line =
        Piece.texts (front.map Lexeme.toPiece) ++ " \u0600\u00e9".toList ++ " y;".toList) ∧
      Unrecognised lexer.config l.around " y;".toList := by
  intro lexer line front l back
  have marks : lexer.clusters.PartsAtMarks := Segmentation.prepending_partsAtMarks
  have lexemes : (lexer.tokenizeLine line .initial).lexemes = front ++ l :: back := by
    decide +kernel
  have text : l.text = " \u0600\u00e9".toList ++ [' '] := by decide
  have apart : ∀ m ∈ " \u0600\u00e9".toList.getLast?, Segmentation.isPrepended m = false := by
    have last : " \u0600\u00e9".toList.getLast? = some '\u00e9' := by decide
    rw [last]
    rintro m ⟨⟩
    decide
  have content : Text.stripTerminator line =
      Piece.texts (front.map Lexeme.toPiece) ++ " \u0600\u00e9".toList ++ " y;".toList := by
    decide +kernel
  exact ⟨⟨marks, lexemes, rfl, text, by decide, apart, content⟩,
    (plain_unrecognised marks line .initial lexemes rfl text (by decide) apart content).1⟩

/-- The Arabic number sign is a prepended mark: with a `;` behind it, it is one cluster, and so
the `;` is plain text. -/
theorem terminator_behind_number_sign :
    let lexer : Lexer := ⟨{}, by decide, .prepending⟩
    ¬ ∀ (front back : List Lexeme) (l : Lexeme) (f g rest : Text),
      (lexer.tokenizeLine ['\u0600', ';'] .initial).lexemes = front ++ l :: back →
      l.isPlain = true → l.text = f ++ g → g ≠ [] →
      Text.stripTerminator ['\u0600', ';'] =
        Piece.texts (front.map Lexeme.toPiece) ++ f ++ rest →
      Unrecognised lexer.config l.around rest := by
  intro lexer always
  have unread := always [] [] ⟨⟨['\u0600', ';'], .initial, []⟩, 0⟩ ['\u0600'] [';'] [';']
    (by decide +kernel) rfl rfl (by decide) (by decide)
  cases unread .terminator (by decide) false

end Lines

end StanHighlight

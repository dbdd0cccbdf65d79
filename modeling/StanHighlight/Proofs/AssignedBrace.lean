import StanHighlight.Proofs.Filler

/-!
Braces behind an assignment. Where a statement may begin, the latest token in front of a brace on
the same line decides what it opens. So it opens an array only if nothing but blanks stands between
it and the operator, and a block behind a line break or a comment.
-/

namespace StanHighlight

def assignmentOperators : List Text :=
  ["=", "+=", "-=", "*=", "/=", ".*=", "./="].map String.toList

/-- The last lexeme of some lines is a brace that opens a region in a state. -/
def EndsInBrace (s : LineState) (r : Region) (e : Enclosure) (lines : List LineTokens) : Prop :=
  ∃ front ls n, lines = front ++ [⟨ls ++ [⟨⟨['{'], s.enter r, [.begins e]⟩, n⟩], s.enter r⟩]

theorem EndsInBrace.state {s : LineState} {r : Region} {e : Enclosure} {lines : List LineTokens}
    (h : EndsInBrace s r e lines) : lines.getLast?.map LineTokens.state = some (s.enter r) := by
  obtain ⟨front, ls, n, rfl⟩ := h
  simp

theorem Region.hosts_of_isStatementLevel {r : Region} (h : r.isStatementLevel = true) :
    r.hosts = true := by
  cases r with
  | program | sectionBody | block => rfl
  | _ => cases h

theorem Region.assigns_of_isStatementLevel {r : Region} (h : r.isStatementLevel = true) :
    r.assigns = true := by
  cases r with
  | program | sectionBody | block => rfl
  | _ => cases h

section Operators

variable {lexer : Lexer} {s : LineState} {x op rest : Text}

/-- What holds of the operators that assign, each of which ends in `=`. -/
theorem facts_of_mem_assignmentOperators : ∀ op ∈ assignmentOperators,
    (op, Label.assignmentOperator) ∈ Rule.operators ∧ '\n' ∉ op ∧ op.getLast? = some '=' ∧
      op.head?.any (fun c => !Text.isWordChar c && !Text.isSpace c && c.toNat < 128 && c != '{' &&
        c != '(') = true := by
  decide +kernel

/-- Only another `=` makes a longer operator of one that assigns. -/
theorem runsInto_assignment (mem : op ∈ assignmentOperators) (other : rest.head? ≠ some '=') :
    Text.runsInto op rest = false := by
  have facts : ∀ op ∈ assignmentOperators,
      (op.all Text.isWordChar || Text.isNumeral op) = false ∧ op.all Char.isDigit = false ∧
        ∀ sign ∈ Text.signs, op.length < sign.length → op <+: sign → sign = op ++ ['='] := by
    decide +kernel
  obtain ⟨word, number, longer⟩ := facts op mem
  rw [Text.runsInto, word, number, Bool.false_and, Bool.false_and, Bool.false_or, Bool.false_or,
    List.any_eq_false]
  intro sign listed both
  obtain ⟨length, front⟩ : op.length < sign.length ∧ sign <+: op ++ rest := by simpa using both
  have begins : op <+: sign :=
    List.prefix_of_prefix_length_le (List.prefix_append op rest) front (Nat.le_of_lt length)
  rw [longer sign listed length begins, List.prefix_append_right_inj] at front
  obtain ⟨more, rfl⟩ := front
  exact other rfl

/-- A name, a blank and an operator that assigns are three tokens of a line, the last of them the
operator. -/
theorem comesTo_assignment (parts : lexer.clusters.PartsAscii)
    (level : s.innermost.isStatementLevel = true) (name : IsName x)
    (mem : op ∈ assignmentOperators) (other : rest.head? ≠ some '=') :
    ∃ ps, ComesTo lexer false s (x ++ ' ' :: (op ++ rest)) ps true s rest := by
  have host := Region.hosts_of_isStatementLevel level
  have ends := runsInto_assignment mem other
  obtain ⟨listed, _, last, sign⟩ := facts_of_mem_assignmentOperators op mem
  obtain ⟨c, o, rfl⟩ := List.exists_cons_of_ne_nil (show op ≠ [] by rintro rfl; cases last)
  obtain ⟨word, visible, ascii, brace, paren⟩ : Text.isWordChar c = false ∧
      Text.isSpace c = false ∧ c.toNat < 128 ∧ c ≠ '{' ∧ c ≠ '(' := by
    simpa [and_assoc] using sign
  have blank : Text.trimStart (' ' :: (c :: o ++ rest)) = c :: o ++ rest := by
    rw [Text.trimStart_cons_of_isSpace (by decide), List.cons_append,
      Text.trimStart_cons_of_not_isSpace visible]
  obtain ⟨l, taken⟩ : ∃ l, Step.take lexer false s (x ++ ' ' :: (c :: o ++ rest)) =
      .single s [l] x (' ' :: (c :: o ++ rest)) := by
    refine name.take_alone host (by rintro d ⟨⟩; decide) ?_ (by simp)
    rw [blank]
    rintro d ⟨⟩
    exact ⟨word, brace, paren⟩
  have first := ComesTo.step (by simp) taken
  obtain ⟨ps, _, gap⟩ := ComesTo.gap_append parts _ s
    (List.forall_mem_singleton.2 (by decide : Text.isSpace ' ' = true)) visible ascii (o ++ rest)
  have sign : ∀ assigned, Step.take lexer assigned s (c :: o ++ rest) =
      .single s [.assignmentOperator] (c :: o) rest := fun assigned =>
    take_operator listed (Region.isBlockComment_of_isStatementLevel level)
      (Region.ne_declaration_of_hosts host) (fun _ => Region.assigns_of_isStatementLevel level)
      (fun _ => Region.ne_constraints_of_hosts host) ends
  exact ⟨_, first.trans (gap.trans (.step (List.cons_ne_nil _ _) (sign _)))⟩

/-- Behind an operator that assigns, this operator is the latest token. -/
theorem endsAs_assignment (parts : lexer.clusters.PartsAscii)
    (level : s.innermost.isStatementLevel = true) (name : IsName x)
    (mem : op ∈ assignmentOperators) (other : rest.head? ≠ some '=') :
    Place.EndsAs lexer ⟨false, s, .ofText (x ++ ' ' :: (op ++ rest))⟩ ⟨true, s, .ofText rest⟩ := by
  obtain ⟨_, newline, last, _⟩ := facts_of_mem_assignmentOperators op mem
  have line : '\n' ∉ x ++ ' ' :: op := by simp [name.clean.newline, newline]
  have equals : (x ++ ' ' :: op).getLast? = some '=' := by
    simp [List.getLast?_append, List.getLast?_cons, last]
  have goes : (Remaining.ofText rest).line.head? ≠ some '=' := by
    intro first
    obtain ⟨more, whole⟩ := List.head?_eq_some_iff.1 first
    obtain ⟨behind, same⟩ := Remaining.line_isInitial rest
    rw [whole] at same
    exact other (by rw [← same]; rfl)
  obtain ⟨ps, tokens⟩ := comesTo_assignment parts level name mem goes
  have split : ∀ t, x ++ ' ' :: (op ++ t) = x ++ ' ' :: op ++ t := by simp
  rw [split] at tokens ⊢
  exact .of_append line equals (by decide) tokens

end Operators

section Braces

variable {lexer : Lexer} {s : LineState} {x op sep : Text}

/-- A brace at the end of a line is one token, and the token in front of it says what it opens. -/
theorem cut_brace (comment : s.innermost.isBlockComment = false) (assigned : Bool) :
    cut lexer assigned s ['{'] =
      ([⟨['{'], (Rule.openBrace assigned s).1, [.begins (Rule.openBrace assigned s).2]⟩],
        (Rule.openBrace assigned s).1) := by
  have taken : Step.take lexer assigned s ['{'] = _ := Step.take_mark comment
    (by decide : ∀ table ∈ Rule.tables,
      (table.filter fun rule => rule.startsAt '{').head? = some .opener) rfl
  rw [cut_eq (List.cons_ne_nil _ _), taken]
  simp [Step.single]

/-- A filler does not begin with an equals sign. -/
theorem IsFiller.head?_ne (filler : IsFiller sep) : sep.head? ≠ some '=' := by
  cases filler with
  | blanks blank =>
    intro first
    exact absurd (blank '=' (List.mem_of_head? first)) (by decide)
  | @comment gap _ _ blank =>
    cases gap with
    | nil => simp
    | cons c gap =>
      rintro ⟨⟩
      exact absurd (blank '=' List.mem_cons_self) (by decide)

/-- A brace behind an assignment opens an array exactly if only blanks of one line stand between it
and the operator. Behind a line break or a comment it opens a block. -/
theorem brace_behind_assignment (lexer : Lexer) (marks : lexer.clusters.PartsAtMarks)
    (level : s.innermost.isStatementLevel = true) (name : IsName x)
    (mem : op ∈ assignmentOperators) (filler : IsFiller sep) :
    let lines := lexer.tokenizeLines s (Text.lines (x ++ ' ' :: (op ++ sep ++ [' ', '{'])))
    (sep.isInline = true → EndsInBrace s .array .array lines) ∧
      (sep.isInline = false → EndsInBrace s .block .block lines) := by
  have comment := Region.isBlockComment_of_isStatementLevel level
  have spaced : IsFiller (sep ++ [' ']) := filler.concat (by decide)
  have same : Text.isInline (sep ++ [' ']) = sep.isInline := by
    rw [Text.isInline_append]
    exact Bool.and_true _
  have first : (sep ++ [' '] ++ ['{']).head? ≠ some '=' := by
    have visible := spaced.head?_ne
    cases sep with
    | nil => simp
    | cons c sep => simpa using visible
  have brace := spaced.endsAs marks true comment (by decide : Text.isSpace '{' = false)
    (by decide) []
  have whole : x ++ ' ' :: (op ++ (sep ++ [' '] ++ ['{'])) =
      x ++ ' ' :: (op ++ sep ++ [' ', '{']) := by simp
  have operator := endsAs_assignment marks.partsAscii level name mem first
  obtain ⟨⟨ps, pieces⟩, state⟩ := operator.trans brace
  have last : Place.latest lexer ⟨sep.isInline, s, .ofText ['{']⟩ = _ :=
    cut_brace comment sep.isInline
  rw [whole, same, Bool.true_and, last] at pieces state
  have text : (x ++ ' ' :: (op ++ sep ++ [' ', '{'])).getLast? = some '{' := by
    simp [List.getLast?_append, List.getLast?_cons]
  have lines := Place.exists_tokenizeLines (Prod.ext pieces.symm state.symm) rfl text (by decide)
  refine ⟨fun inline => ?_, fun apart => ?_⟩
  · have array : Rule.openBrace true s = (s.enter .array, .array) := by simp [Rule.openBrace]
    rwa [inline, array] at lines
  · have block : Rule.openBrace false s = (s.enter .block, .block) := by
      simp [Rule.openBrace, level]
    rwa [apart, block] at lines

/-- In a section, a wide blank in front of an array, and a comment of two lines in front of a
block. -/
theorem brace_behind_assignment_in_section :
    let lexer : Lexer := ⟨{}, by decide, .prepending⟩
    let s := (lexer.tokenizeLine "model \x7b".toList .initial).state
    let apart := " /* a\n b */\r\n".toList
    (lexer.clusters.PartsAtMarks ∧ s.innermost.isStatementLevel = true ∧ IsName ['y'] ∧
        ".*=".toList ∈ assignmentOperators ∧ IsFiller ['\u3000'] ∧ IsFiller apart) ∧
      EndsInBrace s .array .array
        (lexer.tokenizeLines s (Text.lines "y .*=\u3000 \x7b".toList)) ∧
      EndsInBrace s .block .block
        (lexer.tokenizeLines s (Text.lines "y .*= /* a\n b */\r\n \x7b".toList)) := by
  intro lexer s apart
  have marks : lexer.clusters.PartsAtMarks := Segmentation.prepending_partsAtMarks
  have level : s.innermost.isStatementLevel = true := by decide +kernel
  have wide : IsFiller ['\u3000'] := .blanks (List.forall_mem_singleton.2 (by decide))
  have closes : Comment.Closes " a\n b ".toList := ⟨by decide +kernel, by rintro c ⟨⟩; decide⟩
  have ending : IsFiller "\r\n".toList := .blanks (List.all_eq_true.1 (by decide))
  have comment : IsFiller apart :=
    @IsFiller.comment [' '] _ _ (List.forall_mem_singleton.2 (by decide)) closes ending
  have name : IsName ['y'] := by decide
  have mem : ".*=".toList ∈ assignmentOperators := by decide
  exact ⟨⟨marks, level, name, mem, wide, comment⟩,
    (brace_behind_assignment lexer marks level name mem wide).1 (by decide),
    (brace_behind_assignment lexer marks level name mem comment).2 (by decide)⟩

/-- Behind a line break or a comment the operator is no longer seen, and the brace of an array opens
a block. -/
theorem block_behind_assignment :
    let lexer : Lexer := ⟨{}, by decide, .prepending⟩
    let s := LineState.initial
    (s.Reachable ∧ s.innermost.isStatementLevel = true ∧ IsName ['x'] ∧
        ['='] ∈ assignmentOperators ∧ IsFiller ['\n'] ∧ IsFiller "/**/".toList) ∧
      ¬EndsInBrace s .array .array (lexer.tokenizeLines s (Text.lines "x =\n \x7b".toList)) ∧
      ¬EndsInBrace s .array .array (lexer.tokenizeLines s (Text.lines "x =/**/ \x7b".toList)) := by
  intro lexer s
  have feed : IsFiller ['\n'] := .blanks (List.forall_mem_singleton.2 (by decide))
  have comment : IsFiller "/**/".toList :=
    @IsFiller.comment [] [] [] nofun ⟨by decide, nofun⟩ (.blanks nofun)
  refine ⟨⟨.initial, rfl, by decide, by decide, feed, comment⟩, fun array => ?_, fun array => ?_⟩
  · exact absurd array.state (by decide +kernel)
  · exact absurd array.state (by decide +kernel)

end Braces

end StanHighlight

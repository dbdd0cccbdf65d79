import StanHighlight.Proofs.FirstToken
import StanHighlight.Proofs.Quotation
import StanHighlight.Proofs.RawLine

/-!
Lines that begin with `#`. Where a statement may begin, an include directive takes its file name and
nothing more, and the rest of the line is read like a line of its own, from the same state. A file
name whose delimiter is missing takes the rest of the line. In all other code a `#` begins a
comment.
-/

namespace StanHighlight

/-- A file name with its pieces, where it ends in front of a text: at a blank or the end of the line
if it is bare, and else at its own delimiter. -/
inductive ClosedName (here : LineState) : Text → List Piece → Text → Prop
  | bare {c : Char} {name rest : Text} (style : Rule.nameStyle c = none)
      (visible : ∀ d ∈ c :: name, Text.isSpace d = false)
      (ends : ∀ d ∈ rest.head?, Text.isSpace d = true) :
      ClosedName here (c :: name) [⟨c :: name, here, [.inclusion, .fileName .bare]⟩] rest
  | delimited {c close : Char} {style : FileName} {name rest : Text}
      (delimiters : Rule.nameStyle c = some (close, style)) (unclosed : close ∉ name) :
      ClosedName here (c :: (name ++ [close]))
        (⟨[c], here, [.inclusion, .fileName style, .begins .string]⟩ ::
          (Piece.ofText name here [.inclusion, .fileName style] ++
            [⟨[close], here, [.inclusion, .fileName style, .ends .string]⟩])) rest

def inclusionHead (here : LineState) (gap : Text) : List Piece :=
  ⟨"#include".toList, here, [.inclusion, .includeDirective]⟩ :: Piece.ofText gap here [.inclusion]

theorem labelled_inclusionHead (here : LineState) (gap : Text) :
    ∀ p ∈ inclusionHead here gap, p.isPlain = false := by
  refine List.forall_mem_cons.2 ⟨rfl, fun p mem => ?_⟩
  exact Piece.isPlain_of_mem_ofText mem

namespace Rule

variable {here : LineState} {c close : Char} {style : FileName} {t : Text}

theorem visible_of_nameStyle (h : nameStyle c = some (close, style)) :
    Text.isSpace c = false ∧ Text.isWordChar c = false := by
  unfold nameStyle at h
  split at h <;> cases h <;> decide

theorem close_ne_of_nameStyle (h : nameStyle c = some (close, style)) :
    close ≠ '\r' ∧ close ≠ '\n' := by
  unfold nameStyle at h
  split at h <;> cases h <;> decide

theorem delimitedName_of_notMem (h : close ∉ t) (start : Char) :
    delimitedName here start close style t =
      (⟨[start], here, [.inclusion, .fileName style, .begins .string]⟩ ::
        Piece.ofText t here [.inclusion, .fileName style], []) := by
  have others := Text.forall_bne_of_notMem h
  simp only [delimitedName, List.takeWhile_eq_self_iff.2 others, List.dropWhile_eq_nil_iff.2 others]

end Rule

namespace ClosedName

variable {here : LineState} {f rest : Text} {parts : List Piece}

theorem labelled (h : ClosedName here f parts rest) : ∀ p ∈ parts, p.isPlain = false := by
  cases h with
  | bare => exact List.forall_mem_singleton.2 rfl
  | delimited =>
    refine List.forall_mem_cons.2 ⟨rfl, List.forall_mem_append.2 ⟨fun p mem => ?_, ?_⟩⟩
    · exact Piece.isPlain_of_mem_ofText mem
    · exact List.forall_mem_singleton.2 rfl

/-- The last piece of a file name is no assignment. -/
theorem exists_last (h : ClosedName here f parts rest) : ∃ front p, parts = front ++ [p] ∧
    p.own.getLast? ≠ some .assignmentOperator := by
  cases h with
  | bare => exact ⟨[], _, rfl, by simp⟩
  | delimited => exact ⟨_ :: _, _, rfl, by simp⟩

/-- A file name begins visibly and does not end in part of a terminator. -/
theorem ends (h : ClosedName here f parts rest) : (∃ c t, f = c :: t ∧ Text.isSpace c = false) ∧
    ∃ d, f.getLast? = some d ∧ d ≠ '\r' ∧ d ≠ '\n' := by
  cases h with
  | @bare c name _ style visible _ =>
    refine ⟨⟨c, name, rfl, visible c List.mem_cons_self⟩, ?_⟩
    obtain ⟨d, last⟩ := Option.ne_none_iff_exists'.1
      (mt List.getLast?_eq_none_iff.1 (List.cons_ne_nil c name))
    have shown := visible d (List.mem_of_getLast? last)
    refine ⟨d, last, ?_, ?_⟩ <;> rintro rfl <;> cases shown
  | @delimited c close style name _ delimiters _ =>
    have visible := (Rule.visible_of_nameStyle delimiters).1
    have other := Rule.close_ne_of_nameStyle delimiters
    exact ⟨⟨c, _, rfl, visible⟩, close, by rw [← List.cons_append, List.getLast?_concat], other⟩

/-- Of what follows a file name only the first character matters. -/
theorem of_isInitial (h : ClosedName here f parts rest) {other : Text} (start : other <+: rest) :
    ClosedName here f parts other := by
  cases h with
  | delimited delimiters unclosed => exact .delimited delimiters unclosed
  | bare style visible ends =>
    refine .bare style visible fun d first => ends d ?_
    obtain ⟨t, rfl⟩ := List.head?_eq_some_iff.1 first
    obtain ⟨more, rfl⟩ := start
    rfl

/-- A closed file name is read as it is spelled. -/
theorem fileName (h : ClosedName here f parts rest) :
    Rule.fileName here (f ++ rest) = (parts, rest) := by
  cases h with
  | @bare c name _ style visible ends =>
    have shown : ∀ d ∈ c :: name, (!Text.isSpace d) = true := fun d mem => by simp [visible d mem]
    have stops : ∀ d ∈ rest.head?, (!Text.isSpace d) = false := fun d first => by
      simp [ends d first]
    obtain ⟨taken, left⟩ := Text.takeWhile_append_of_head stops (c :: name)
    rw [List.cons_append, Rule.fileName_of_bare style, ← List.cons_append, taken, left,
      List.takeWhile_eq_self_iff.2 shown, List.dropWhile_eq_nil_iff.2 shown]
    rfl
  | delimited delimiters unclosed =>
    rw [List.cons_append, List.append_assoc, Rule.fileName_of_style delimiters]
    exact Rule.delimitedName_append_cons unclosed _ rest

end ClosedName

section Lines

variable {lexer : Lexer} {here : LineState} {front gap rest : Text} {ps : List Piece}

/-- Tokens that take the content of a line keep it apart from its terminator. -/
theorem tokenizeLine_of_take_all (labelled : ∀ p ∈ ps, p.isPlain = false) (some_text : front ≠ [])
    (strips : Text.stripTerminator (front ++ rest) = front ++ Text.stripTerminator rest)
    (taken : Step.take lexer false here (front ++ Text.stripTerminator rest) = ⟨ps, here, []⟩) :
    lexer.tokenizeLine (front ++ rest) here =
      ⟨Lexeme.place 0 (ps ++ Piece.ofText (Text.terminator rest) here []), here⟩ := by
  have cuts : cut lexer false here (front ++ Text.stripTerminator rest) = (ps, here) := by
    rw [cut_eq (by simp [some_text]), taken]
    simp
  rw [tokenizeLine_eq, linePieces, strips, cuts, Text.terminator_append strips,
    Piece.joinPlain_tokens labelled, Piece.joinPlain_ofText]

/-- The step over a directive and the blanks behind it. -/
theorem take_directive_of_gap (lexer : Lexer) (level : here.innermost.isStatementLevel = true)
    (blank : ∀ c ∈ gap, Text.isSpace c = true) {c : Char} (visible : Text.isSpace c = false)
    {t : Text} (ends : EndsWord (gap ++ c :: t)) :
    Step.take lexer false here ("#include".toList ++ gap ++ c :: t) =
      ⟨inclusionHead here gap ++ (Rule.fileName here (c :: t)).1, here,
        (Rule.fileName here (c :: t)).2⟩ := by
  obtain ⟨blanks, name⟩ := Text.gap_append_cons blank visible t
  have taken : Step.take lexer false here ("#include".toList ++ (gap ++ c :: t)) = _ :=
    Step.take_directive level (endsWord_iff.1 ends)
  rw [Rule.includeStep, blanks, name] at taken
  rw [List.append_assoc]
  exact taken

/-- A directive takes its file name, and what follows is read like a line of its own. -/
theorem tokenizeLine_directive (level : here.innermost.isStatementLevel = true)
    (blank : ∀ c ∈ gap, Text.isSpace c = true) {f : Text} (name : ClosedName here f ps rest)
    (ends : EndsWord (gap ++ f)) :
    lexer.tokenizeLine ("#include".toList ++ gap ++ f ++ rest) here =
      (lexer.tokenizeLine rest here).behind (Lexeme.place 0 (inclusionHead here gap ++ ps))
        (Text.byteLength ("#include".toList ++ gap ++ f)) := by
  -- the name ends at the same place once the terminator is taken off
  have start := Text.stripTerminator_isInitial rest
  have read := (name.of_isInitial start).fileName
  obtain ⟨⟨c, t, rfl, visible⟩, d, last, other⟩ := name.ends
  obtain ⟨front, p, rfl, assigns⟩ := name.exists_last
  obtain ⟨labelled, last_labelled⟩ := List.forall_mem_append.1 name.labelled
  have ends_in : ("#include".toList ++ gap ++ c :: t).getLast? = some d := by
    rw [List.getLast?_append, last, Option.some_or]
  have strips := Text.stripTerminator_append_of_getLast? ends_in other rest
  have goes_on : EndsWord (gap ++ c :: (t ++ Text.stripTerminator rest)) := by
    intro e first
    refine ends e ?_
    cases gap <;> exact first
  have taken := take_directive_of_gap lexer level blank visible goes_on
  rw [← List.cons_append, read, ← List.append_assoc, ← List.append_assoc] at taken
  have joined : Piece.joinPlain (inclusionHead here gap ++ front) =
      inclusionHead here gap ++ front := by
    have all := List.forall_mem_append.2 ⟨labelled_inclusionHead here gap, labelled⟩
    simpa [Piece.joinPlain] using Piece.joinPlain_tokens all []
  have whole := tokenizeLine_of_take_row lexer _ (last_labelled p (by simp)) assigns (by simp)
    strips taken
  rwa [joined, List.append_assoc (inclusionHead here gap)] at whole

/-- A directive whose file name is not closed on its line takes the rest of the line. -/
theorem tokenizeLine_directive_open (level : here.innermost.isStatementLevel = true)
    (blank : ∀ c ∈ gap, Text.isSpace c = true) {c close : Char} {style : FileName}
    (delimiters : Rule.nameStyle c = some (close, style)) {body : Text}
    (unclosed : close ∉ Text.stripTerminator body) :
    lexer.tokenizeLine ("#include".toList ++ gap ++ c :: body) here =
      ⟨Lexeme.place 0 (inclusionHead here gap ++
        (⟨[c], here, [.inclusion, .fileName style, .begins .string]⟩ ::
          (Piece.ofText (Text.stripTerminator body) here [.inclusion, .fileName style] ++
            Piece.ofText (Text.terminator body) here []))), here⟩ := by
  obtain ⟨visible, alone⟩ := Rule.visible_of_nameStyle delimiters
  have ends : ∀ t, EndsWord (gap ++ c :: t) := by
    refine fun t => endsWord_blanks_append blank ?_
    rintro d ⟨⟩
    exact alone
  have strips : Text.stripTerminator ("#include".toList ++ gap ++ [c] ++ body) =
      "#include".toList ++ gap ++ [c] ++ Text.stripTerminator body := by
    refine Text.stripTerminator_append_of_getLast? List.getLast?_concat ?_ body
    constructor <;> rintro rfl <;> cases visible
  have taken := take_directive_of_gap lexer level blank visible
    (ends (Text.stripTerminator body))
  rw [Rule.fileName_of_style delimiters, Rule.delimitedName_of_notMem unclosed] at taken
  have labelled : ∀ p ∈ inclusionHead here gap ++
      ⟨[c], here, [.inclusion, .fileName style, .begins .string]⟩ ::
        Piece.ofText (Text.stripTerminator body) here [.inclusion, .fileName style],
      p.isPlain = false := by
    refine List.forall_mem_append.2 ⟨labelled_inclusionHead here gap, List.forall_mem_cons.2 ⟨rfl, ?_⟩⟩
    intro p mem
    exact Piece.isPlain_of_mem_ofText mem
  have whole := tokenizeLine_of_take_all labelled (by simp) strips (by simpa using taken)
  simpa using whole

/-- Where no statement may begin, a line that begins with `#` is a comment. -/
theorem tokenizeLine_hash (level : here.innermost.isStatementLevel = false)
    (code : here.innermost.isBlockComment = false) (body : Text) :
    lexer.tokenizeLine ('#' :: body) here =
      ⟨Lexeme.place 0 (⟨['#'], here, [.hashComment, .commentDelimiter]⟩ ::
        (Piece.ofText (Text.stripTerminator body) here [.hashComment] ++
          Piece.ofText (Text.terminator body) here [])), here⟩ := by
  have strips := Text.stripTerminator_append_of_getLast? (w := ['#']) rfl (by decide) body
  have taken : Step.take lexer false here ('#' :: Text.stripTerminator body) = _ :=
    Step.take_hash code _
  rw [level, if_neg Bool.false_ne_true] at taken
  exact tokenizeLine_of_take_all Rule.labelled_remark (List.cons_ne_nil _ _) strips taken

/-- Where a statement may begin, a directive takes the blanks behind it and one file name, bare or
between delimiters, and what follows is read like a line of its own from the same state; without its
delimiter the name goes on to the end of the line. In all other code a line that begins with `#` is
one comment. -/
theorem directive_takes_file_name (lexer : Lexer) (s : LineState) :
    (s.innermost.isStatementLevel = true → ∀ gap : Text, (∀ c ∈ gap, Text.isSpace c = true) →
      (∀ f ps rest, ClosedName s f ps rest → EndsWord (gap ++ f) →
        lexer.tokenizeLine ("#include".toList ++ gap ++ f ++ rest) s =
          (lexer.tokenizeLine rest s).behind
            (Lexeme.place 0 (⟨"#include".toList, s, [.inclusion, .includeDirective]⟩ ::
              (Piece.ofText gap s [.inclusion] ++ ps)))
            (Text.byteLength ("#include".toList ++ gap ++ f))) ∧
      ∀ c close style body, Rule.nameStyle c = some (close, style) →
        close ∉ Text.stripTerminator body →
        lexer.tokenizeLine ("#include".toList ++ gap ++ c :: body) s =
          ⟨Lexeme.place 0 (⟨"#include".toList, s, [.inclusion, .includeDirective]⟩ ::
            (Piece.ofText gap s [.inclusion] ++
              ⟨[c], s, [.inclusion, .fileName style, .begins .string]⟩ ::
                (Piece.ofText (Text.stripTerminator body) s [.inclusion, .fileName style] ++
                  Piece.ofText (Text.terminator body) s []))), s⟩) ∧
    (s.innermost.isStatementLevel = false → s.innermost.isBlockComment = false → ∀ body,
      lexer.tokenizeLine ('#' :: body) s =
        ⟨Lexeme.place 0 (⟨['#'], s, [.hashComment, .commentDelimiter]⟩ ::
          (Piece.ofText (Text.stripTerminator body) s [.hashComment] ++
            Piece.ofText (Text.terminator body) s [])), s⟩) := by
  constructor
  · intro level gap blank
    constructor
    · intro f ps rest name ends
      exact tokenizeLine_directive level blank name ends
    · intro c close style body delimiters unclosed
      exact tokenizeLine_directive_open level blank delimiters unclosed
  · intro level code body
    exact tokenizeLine_hash level code body

/-- A file name between angles with code behind it, a name without its quote, and the same sign
inside parentheses. -/
theorem directive_takes_file_name_in_model :
    let lexer : Lexer := ⟨{}, by decide, .prepending⟩
    let s := (lexer.tokenizeLine "model \x7b".toList .initial).state
    let inside := (lexer.tokenizeLine "y = (".toList s).state
    (s.innermost.isStatementLevel = true ∧ inside.innermost.isStatementLevel = false ∧
      inside.innermost.isBlockComment = false) ∧
    lexer.tokenizeLine "#include<a b>\u3000x \x7b\n".toList s =
        (lexer.tokenizeLine "\u3000x \x7b\n".toList s).behind
          [⟨⟨"#include".toList, s, [.inclusion, .includeDirective]⟩, 0⟩,
            ⟨⟨['<'], s, [.inclusion, .fileName .angled, .begins .string]⟩, 8⟩,
            ⟨⟨"a b".toList, s, [.inclusion, .fileName .angled]⟩, 9⟩,
            ⟨⟨['>'], s, [.inclusion, .fileName .angled, .ends .string]⟩, 12⟩] 13 ∧
      (lexer.tokenizeLine "#include \"a.stan\n".toList s).state = s ∧
      (lexer.tokenizeLine "#include a)\n".toList inside).state = inside := by
  intro lexer s inside
  have level : s.innermost.isStatementLevel = true := by decide +kernel
  have other : inside.innermost.isStatementLevel = false := by decide +kernel
  have code : inside.innermost.isBlockComment = false := by decide +kernel
  obtain ⟨directives, _⟩ := directive_takes_file_name lexer s
  obtain ⟨_, remarks⟩ := directive_takes_file_name lexer inside
  have closed := (directives level [] (by simp)).1 "<a b>".toList _ "\u3000x \x7b\n".toList
    (.delimited (c := '<') rfl (by decide : '>' ∉ "a b".toList)) (by
      rintro c ⟨⟩
      decide)
  have blank : ∀ c ∈ [' '], Text.isSpace c = true := List.forall_mem_singleton.2 (by decide)
  have unclosed := (directives level [' '] blank).2 '"' '"' _ "a.stan\n".toList rfl (by decide)
  have remark := remarks other code "include a)\n".toList
  have after_unclosed := congrArg LineTokens.state unclosed
  have after_remark := congrArg LineTokens.state remark
  exact ⟨⟨level, other, code⟩, closed, after_unclosed, after_remark⟩

end Lines

end StanHighlight

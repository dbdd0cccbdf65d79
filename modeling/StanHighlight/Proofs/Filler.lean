import StanHighlight.Proofs.Comment
import StanHighlight.Proofs.Prototype

/-!
What may stand between two tokens. Blanks, line breaks and block comments change no state, so that
the text behind them is read as if it came at once. Only one thing is lost: whether an assignment
operator is the latest token, which is known up to the end of a line or the next comment.
-/

namespace StanHighlight

namespace Text

theorem lines_append_of_notMem {w t line : Text} {others : List Text} (h : '\n' ∉ w)
    (found : lines t = line :: others) : lines (w ++ t) = (w ++ line) :: others := by
  induction w with
  | nil => exact found
  | cons c w ih =>
    rw [List.mem_cons, not_or] at h
    rw [List.cons_append, lines_cons, ih h.2, addToLines, if_neg (Ne.symm h.1)]
    rfl

def isInline (t : Text) : Bool := t.all fun c => isSpace c && c != '\n'

theorem isInline_append (t u : Text) : isInline (t ++ u) = (isInline t && isInline u) :=
  List.all_append

theorem isInline_of_notMem {gap : Text} (blank : ∀ c ∈ gap, isSpace c = true) (h : '\n' ∉ gap) :
    isInline gap = true := by
  refine List.all_eq_true.2 fun c mem => ?_
  have other : c ≠ '\n' := fun same => h (same ▸ mem)
  simp [blank c mem, other]

theorem isInline_of_mem {t : Text} {c : Char} (mem : c ∈ t)
    (other : (isSpace c && c != '\n') = false) : isInline t = false :=
  List.all_eq_false.2 ⟨c, mem, by simp [other]⟩

end Text

namespace Remaining

def ofText (t : Text) : Remaining :=
  match t.lines with
  | [] => ⟨[], []⟩
  | line :: others => ⟨Text.stripTerminator line, others.map Text.stripTerminator⟩

variable {t w : Text} {c : Char}

theorem ofText_of_lines {line : Text} {others : List Text} (h : t.lines = line :: others) :
    ofText t = ⟨Text.stripTerminator line, others.map Text.stripTerminator⟩ := by
  rw [ofText, h]

theorem line_cons_ahead (t : Text) :
    (ofText t).line :: (ofText t).ahead = t.lines.map Text.stripTerminator := by
  obtain ⟨line, others, found⟩ := Text.exists_lines_eq_cons t
  rw [ofText_of_lines found, found, List.map_cons]

/-- Nothing is left of a line behind its terminator, and then the next one is read. -/
theorem ofText_append_newline (h : '\n' ∉ w) (t : Text) : ofText (w ++ '\n' :: t) =
    ⟨Text.stripTerminator (w ++ ['\n']), (ofText t).line :: (ofText t).ahead⟩ := by
  rw [ofText_of_lines (Text.lines_append_newline h), line_cons_ahead]

/-- What a line begins with is read first, unless it may be part of the terminator. -/
theorem ofText_append (line : '\n' ∉ w) (last : w.getLast? = some c) (other : c ≠ '\r')
    (t : Text) : ofText (w ++ t) = ⟨w ++ (ofText t).line, (ofText t).ahead⟩ := by
  obtain ⟨first, others, found⟩ := Text.exists_lines_eq_cons t
  have feed : c ≠ '\n' := by
    rintro rfl
    exact line (List.mem_of_getLast? last)
  rw [ofText_of_lines (Text.lines_append_of_notMem line found), ofText_of_lines found,
    Text.stripTerminator_append_of_getLast? last ⟨other, feed⟩]

/-- The current line is some of the text that is left. -/
theorem line_isInitial (t : Text) : (ofText t).line <+: t := by
  obtain ⟨line, others, found⟩ := Text.exists_lines_eq_cons t
  have first : line <+: t := by
    induction t using Text.lines_induction with
    | last t h =>
      rw [Text.lines_of_notMem h] at found
      cases found
      exact List.prefix_rfl
    | line s t h _ =>
      rw [Text.lines_append_newline h] at found
      cases found
      exact ⟨t, by simp⟩
  rw [ofText_of_lines found]
  exact (Text.stripTerminator_isInitial line).trans first

end Remaining

namespace Place

variable {lexer : Lexer}

/-- The pieces of the last line that is left, without its terminator, and the state after it. -/
def latest (lexer : Lexer) (p : Place) : List Piece × LineState :=
  p.left.ahead.foldl (fun read line => cut lexer false read.2 line)
    (cut lexer p.assigned p.here p.left.line)

/-- Reading from one place on ends as from another: the last line has the same pieces from there
on, and the state after it is the same. -/
structure EndsAs (lexer : Lexer) (p q : Place) : Prop where
  pieces : (q.latest lexer).1 <:+ (p.latest lexer).1
  state : (q.latest lexer).2 = (p.latest lexer).2

namespace EndsAs

variable {p q r : Place} {assigned later : Bool} {here there : LineState} {w t rest : Text}
  {ps : List Piece} {c : Char}

theorem trans (h : EndsAs lexer p q) (h' : EndsAs lexer q r) : EndsAs lexer p r :=
  ⟨h'.pieces.trans h.pieces, h'.state.trans h.state⟩

/-- Reading goes on along a line. -/
theorem of_comesTo (h : ComesTo lexer assigned here t ps later there rest) (ahead : List Text) :
    EndsAs lexer ⟨assigned, here, ⟨t, ahead⟩⟩ ⟨later, there, ⟨rest, ahead⟩⟩ := by
  unfold ComesTo at h
  cases ahead with
  | nil => exact ⟨⟨ps, by simp [latest, h]⟩, by simp [latest, h]⟩
  | cons line ahead => constructor <;> simp [latest, h]

/-- Reading goes on with the next line, in the same state. -/
theorem line (assigned : Bool) (here : LineState) (line : Text) (ahead : List Text) :
    EndsAs lexer ⟨assigned, here, ⟨[], line :: ahead⟩⟩ ⟨false, here, ⟨line, ahead⟩⟩ := by
  constructor <;> simp [latest]

/-- What a line begins with is read and the rest of the text is left. -/
theorem of_append (newline : '\n' ∉ w) (last : w.getLast? = some c) (other : c ≠ '\r')
    (h : ComesTo lexer assigned here (w ++ (Remaining.ofText t).line) ps later there
      (Remaining.ofText t).line) :
    EndsAs lexer ⟨assigned, here, .ofText (w ++ t)⟩ ⟨later, there, .ofText t⟩ := by
  rw [Remaining.ofText_append newline last other]
  exact of_comesTo h _

/-- A line is read up to its terminator and the lines behind it are left. -/
theorem of_newline (newline : '\n' ∉ w)
    (h : ComesTo lexer assigned here (Text.stripTerminator (w ++ ['\n'])) ps later there [])
    (t : Text) :
    EndsAs lexer ⟨assigned, here, .ofText (w ++ '\n' :: t)⟩ ⟨false, there, .ofText t⟩ := by
  rw [Remaining.ofText_append_newline newline]
  exact (of_comesTo h _).trans (line _ _ _ _)

end EndsAs

/-- Where the last piece of a text is labelled, it is the last lexeme of the text's lines. -/
theorem exists_tokenizeLines {s there : LineState} {t : Text} {ps : List Piece} {p : Piece}
    {c : Char} (read : latest lexer ⟨false, s, .ofText t⟩ = (ps ++ [p], there))
    (labelled : p.isPlain = false) (last : t.getLast? = some c) (visible : c ≠ '\r' ∧ c ≠ '\n') :
    ∃ front ls n, lexer.tokenizeLines s t.lines = front ++ [⟨ls ++ [⟨p, n⟩], there⟩] := by
  induction t using Text.lines_induction generalizing s with
  | last t line =>
    have whole : Text.stripTerminator t = t :=
      (Text.stripTerminator_eq_self_iff line).2 (by simp [last, visible.1])
    have terminator : Text.terminator t = [] := by simp [Text.terminator, whole]
    have left := Remaining.ofText_of_lines (Text.lines_of_notMem line)
    simp only [latest, left, whole, List.map_nil, List.foldl_nil] at read
    have pieces : linePieces lexer t s = ps ++ [p] := by
      simp [linePieces, whole, terminator, read, Piece.ofText]
    rw [Text.lines_of_notMem line, Lexer.tokenizeLines_cons, Lexer.tokenizeLines_nil,
      tokenizeLine_eq, pieces, whole, read, Piece.joinPlain_append_cons labelled,
      Lexeme.place_append]
    exact ⟨[], Lexeme.place 0 (Piece.joinPlain ps), _, rfl⟩
  | line first t newline ih =>
    have later : t.getLast? = some c := by
      cases t with
      | nil => exact absurd (by simpa using last.symm) visible.2
      | cons d t => simpa [List.getLast?_append, List.getLast?_cons] using last
    have next : latest lexer ⟨false, (lexer.tokenizeLine (first ++ ['\n']) s).state, .ofText t⟩ =
        (ps ++ [p], there) := by
      rw [← read, Remaining.ofText_append_newline newline]
      rfl
    obtain ⟨front, ls, n, rest⟩ := ih next later
    refine ⟨lexer.tokenizeLine (first ++ ['\n']) s :: front, ls, n, ?_⟩
    rw [Text.lines_append_newline newline, Lexer.tokenizeLines_cons, rest]
    rfl

end Place

section Filler

variable {lexer : Lexer} {assigned documentation : Bool} {s here : LineState}
  {gap body rest t : Text} {c : Char}

namespace Place.EndsAs

/-- Blanks are passed over. On one line they leave an assignment operator the latest token. -/
theorem blanks (parts : lexer.clusters.PartsAscii) (assigned : Bool) (here : LineState)
    (blank : ∀ c ∈ gap, Text.isSpace c = true) (visible : Text.isSpace c = false)
    (ascii : c.toNat < 128) (t : Text) :
    EndsAs lexer ⟨assigned, here, .ofText (gap ++ c :: t)⟩
      ⟨assigned && gap.isInline, here, .ofText (c :: t)⟩ := by
  have other : c ≠ '\r' ∧ c ≠ '\n' := by
    constructor <;> (rintro rfl; exact absurd visible (by decide))
  induction gap using Text.lines_induction generalizing assigned with
  | last gap line =>
    obtain ⟨ps, _, skipped⟩ := ComesTo.gap_append parts assigned here blank visible ascii
      (Remaining.ofText t).line
    have front : '\n' ∉ gap ++ [c] := by simp [line, other.2.symm]
    have whole : gap ++ c :: t = gap ++ [c] ++ t := by simp
    have first : Remaining.ofText ([c] ++ t) = _ :=
      Remaining.ofText_append (by simp [other.2.symm]) rfl other.1 t
    rw [List.singleton_append] at first
    rw [whole, Remaining.ofText_append front List.getLast?_concat other.1, first,
      Text.isInline_of_notMem blank line, Bool.and_true, List.append_assoc]
    exact of_comesTo skipped _
  | line first gap newline ih =>
    have none : Text.trimStart (Text.stripTerminator (first ++ ['\n'])) = [] := by
      refine List.dropWhile_eq_nil_iff.2 fun d mem => ?_
      have part := (Text.stripTerminator_isInitial _).subset mem
      simp only [List.mem_append, List.mem_singleton] at part
      exact blank d (by simpa [or_assoc] using part.imp_right fun same => Or.inl same)
    obtain ⟨ps, _, skipped⟩ := ComesTo.blanks parts assigned here
      (Text.stripTerminator (first ++ ['\n'])) (by simp [none])
    rw [none] at skipped
    have newline_mem : '\n' ∈ first ++ '\n' :: gap := by simp
    have broken : Text.isInline (first ++ '\n' :: gap) = false :=
      Text.isInline_of_mem newline_mem (by decide)
    have later := ih false fun d mem => blank d (by simp [mem])
    rw [broken, Bool.and_false, List.append_assoc, List.cons_append]
    exact (of_newline newline skipped _).trans later

end Place.EndsAs

/-- Text of a comment that ends with the `*/` behind it: it does not hold another one, nor does a
mark in front of that `*/` hide its star. -/
structure Comment.Closes (body : Text) : Prop where
  endless : ¬['*', '/'] <:+: body
  unmarked : ∀ c ∈ body.getLast?, Segmentation.isPrepended c = false

theorem Comment.Closes.of_suffix {inner : Text} (h : Comment.Closes body)
    (suffix : inner <:+ body) : Comment.Closes inner where
  endless inside := h.endless (inside.trans suffix.isInfix)
  unmarked c last := by
    obtain ⟨front, rfl⟩ := suffix
    exact h.unmarked c (by simp [List.getLast?_append, Option.mem_def.1 last])

/-- A step in a comment takes some of its text and stays in it. -/
theorem take_in_text (documentation assigned : Bool) (s : LineState)
    (marks : lexer.clusters.PartsAtMarks) (endless : ¬['*', '/'] <:+: body)
    (unmarked : rest ≠ [] → ∀ c ∈ body.getLast?, Segmentation.isPrepended c = false)
    (some_text : body ≠ []) (edge : ∀ c ∈ rest.head?, c = '*') :
    ∃ p more, Step.take lexer assigned (s.enter (.blockComment documentation)) (body ++ rest) =
        ⟨[p], s.enter (.blockComment documentation), more ++ rest⟩ ∧
      body = p.text ++ more ∧ p.text ≠ [] := by
  rw [take_in_comment, blockCommentEnd?_eq_none endless some_text edge, Option.none_or]
  cases tagged : Rule.documentationTag? (s.enter (.blockComment documentation)) (body ++ rest) with
  | some step =>
    obtain ⟨p, more, rfl, split, visible, _⟩ := take_tag some_text edge tagged
    exact ⟨p, more, rfl, split, visible⟩
  | none =>
    have within : lexer.clusters.first (body ++ rest) ≤ body.length := by
      by_cases none : rest = []
      · rw [none, List.append_nil]
        exact lexer.clusters.first_le_length body
      · exact Comment.first_le marks (unmarked none) some_text edge
    obtain ⟨c, more, skipped, split, visible, _⟩ := Step.skip_append some_text within
    exact ⟨⟨c, _, []⟩, more, skipped, split, visible⟩

/-- The text of a comment is passed over up to its end or that of the line. -/
theorem ComesTo.in_comment (documentation assigned : Bool) (s : LineState)
    (marks : lexer.clusters.PartsAtMarks) (body rest : Text) (endless : ¬['*', '/'] <:+: body)
    (unmarked : rest ≠ [] → ∀ c ∈ body.getLast?, Segmentation.isPrepended c = false)
    (edge : ∀ c ∈ rest.head?, c = '*') :
    ∃ ps latest, ComesTo lexer assigned (s.enter (.blockComment documentation)) (body ++ rest) ps
      latest (s.enter (.blockComment documentation)) rest := by
  by_cases some_text : body = []
  · subst some_text
    exact ⟨[], assigned, .refl lexer assigned _ rest⟩
  · obtain ⟨p, more, taken, whole, visible⟩ :=
      take_in_text documentation assigned s marks endless unmarked some_text edge
    have shorter : more.length < body.length := by
      have := List.length_pos_iff.2 visible
      rw [whole, List.length_append]
      omega
    have first := ComesTo.step (List.append_ne_nil_of_left_ne_nil some_text rest) taken
    rw [whole] at endless unmarked
    obtain ⟨ps, latest, goes⟩ := ComesTo.in_comment documentation _ s marks more rest
      (fun inside => endless (inside.trans (List.suffix_append _ _).isInfix))
      (fun some_rest c last => unmarked some_rest c
        (by simp [List.getLast?_append, Option.mem_def.1 last])) edge
    exact ⟨_, latest, first.trans goes⟩
termination_by body.length

namespace Place.EndsAs

variable (marks : lexer.clusters.PartsAtMarks)
include marks

/-- Behind the end of a comment reading goes on as from the start of a line. -/
theorem in_comment (documentation assigned : Bool) (s : LineState) (closes : Comment.Closes body)
    (t : Text) :
    EndsAs lexer
      ⟨assigned, s.enter (.blockComment documentation), .ofText (body ++ ['*', '/'] ++ t)⟩
      ⟨false, s, .ofText t⟩ := by
  induction body using Text.lines_induction generalizing assigned with
  | last body line =>
    have front : '\n' ∉ body ++ ['*', '/'] := by simp [line]
    have slash : (body ++ ['*', '/']).getLast? = some '/' := by simp
    obtain ⟨ps, latest, skipped⟩ := ComesTo.in_comment documentation assigned s marks body
      ('*' :: '/' :: (Remaining.ofText t).line) closes.endless (fun _ => closes.unmarked) (by simp)
    have taken : Step.take lexer latest (s.enter (.blockComment documentation))
        ('*' :: '/' :: (Remaining.ofText t).line) =
          ⟨[Comment.delimiter s documentation ['*', '/']], s, (Remaining.ofText t).line⟩ := by
      rw [take_in_comment]
      rfl
    have closing := skipped.trans (.step (List.cons_ne_nil _ _) taken)
    have whole : body ++ '*' :: '/' :: (Remaining.ofText t).line =
        body ++ ['*', '/'] ++ (Remaining.ofText t).line := by simp
    rw [whole] at closing
    exact of_append front slash (by decide) closing
  | line first body newline ih =>
    have part : Text.stripTerminator (first ++ ['\n']) <+: first ++ '\n' :: body :=
      (Text.stripTerminator_isInitial _).trans ⟨body, by simp⟩
    obtain ⟨ps, latest, skipped⟩ := ComesTo.in_comment documentation assigned s marks
      (Text.stripTerminator (first ++ ['\n'])) []
      (fun inside => closes.endless (inside.trans part.isInfix)) (absurd rfl) nofun
    rw [List.append_nil] at skipped
    have later := ih false (closes.of_suffix ⟨first ++ ['\n'], by simp⟩)
    have whole : first ++ '\n' :: body ++ ['*', '/'] ++ t =
        first ++ '\n' :: (body ++ ['*', '/'] ++ t) := by simp
    rw [whole]
    exact (of_newline newline skipped _).trans later

/-- A comment is passed over, and what stands in front of it is forgotten. -/
theorem comment (assigned : Bool) (outside : s.inBlockComment = false)
    (closes : Comment.Closes body) (t : Text) :
    EndsAs lexer ⟨assigned, s, .ofText (['/', '*'] ++ body ++ ['*', '/'] ++ t)⟩
      ⟨false, s, .ofText t⟩ := by
  obtain ⟨documentation, inner, _, whole, suffix, fresh⟩ := exists_inner_of_endless closes.endless
  have later := in_comment marks documentation false s (closes.of_suffix suffix) t
  have opens : Comment.Opens documentation
      (Remaining.ofText (inner ++ ['*', '/'] ++ t)).line := by
    by_cases newline : '\n' ∈ inner
    · obtain ⟨first, more, rfl, line⟩ := List.eq_append_cons_of_mem newline
      have start : first.head? ≠ some (if documentation then '/' else '*') := by
        cases first with
        | nil => nofun
        | cons c first => exact fresh
      have lines : first ++ '\n' :: more ++ ['*', '/'] ++ t =
          first ++ '\n' :: (more ++ ['*', '/'] ++ t) := by simp
      rw [lines, Remaining.ofText_append_newline line]
      exact opens_line start
    · have line : '\n' ∉ inner ++ ['*', '/'] := by simp [newline]
      have slash : (inner ++ ['*', '/']).getLast? = some '/' := by simp
      rw [Remaining.ofText_append line slash (by decide)]
      exact opens_end fresh _
  have front : '\n' ∉ Comment.opener documentation := by cases documentation <;> decide
  have last : (Comment.opener documentation).getLast? = some '*' := by
    cases documentation <;> rfl
  have some_text : Comment.opener documentation ++
      (Remaining.ofText (inner ++ ['*', '/'] ++ t)).line ≠ [] := by
    cases documentation <;> exact List.cons_ne_nil _ _
  rw [whole, List.append_assoc, List.append_assoc, ← List.append_assoc inner]
  exact (of_append front last (by decide) (.step some_text (take_opener outside opens))).trans later

end Place.EndsAs

inductive IsFiller : Text → Prop
  | blanks {gap : Text} (blank : ∀ c ∈ gap, Text.isSpace c = true) : IsFiller gap
  | comment {gap body more : Text} (blank : ∀ c ∈ gap, Text.isSpace c = true)
      (closes : Comment.Closes body) (filler : IsFiller more) :
      IsFiller (gap ++ (['/', '*'] ++ body ++ ['*', '/'] ++ more))

theorem IsFiller.concat (filler : IsFiller t) (blank : Text.isSpace c = true) :
    IsFiller (t ++ [c]) := by
  induction filler with
  | blanks all => exact .blanks (by simpa [or_imp, forall_and] using ⟨all, blank⟩)
  | comment all closes _ ih =>
    have more := IsFiller.comment all closes ih
    simpa using more

/-- What stands in front of a filler is the latest token behind it if it is blank and on one
line. -/
theorem IsFiller.endsAs (marks : lexer.clusters.PartsAtMarks) (assigned : Bool)
    (outside : s.inBlockComment = false) (filler : IsFiller t) (visible : Text.isSpace c = false)
    (ascii : c.toNat < 128) (rest : Text) :
    Place.EndsAs lexer ⟨assigned, s, .ofText (t ++ c :: rest)⟩
      ⟨assigned && t.isInline, s, .ofText (c :: rest)⟩ := by
  induction filler generalizing assigned with
  | blanks blank => exact .blanks marks.partsAscii assigned s blank visible ascii rest
  | @comment gap body more blank closes _ ih =>
    have front := Place.EndsAs.blanks marks.partsAscii assigned s blank
      (by decide : Text.isSpace '/' = false) (by decide)
      ('*' :: (body ++ ['*', '/'] ++ (more ++ c :: rest)))
    have comment := Place.EndsAs.comment marks (assigned && gap.isInline) outside closes
      (more ++ c :: rest)
    have slash : Text.isInline (gap ++ (['/', '*'] ++ body ++ ['*', '/'] ++ more)) = false := by
      have mem : '/' ∈ gap ++ (['/', '*'] ++ body ++ ['*', '/'] ++ more) := by simp
      exact Text.isInline_of_mem mem (by decide)
    have whole : gap ++ (['/', '*'] ++ body ++ ['*', '/'] ++ more) ++ c :: rest =
        gap ++ '/' :: ('*' :: (body ++ ['*', '/'] ++ (more ++ c :: rest))) := by simp
    rw [whole, slash, Bool.and_false]
    refine front.trans (.trans ?_ (ih false))
    simpa using comment

end Filler

end StanHighlight

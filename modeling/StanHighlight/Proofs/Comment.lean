import StanHighlight.Proofs.Lines
import StanHighlight.Proofs.Remark

/-!
Block comments over lines. A comment may stand in any region and run over any number of lines.
Each of its lines ends in the comment, all of it is labelled as the comment, and behind its end
the text is read as if the comment were not there.
-/

namespace StanHighlight

namespace Text

/-- Nothing of a terminator reaches into a text that ends in another character. -/
theorem stripTerminator_append_of_getLast? {w : Text} {c : Char} (h : w.getLast? = some c)
    (other : c ≠ '\r' ∧ c ≠ '\n') (t : Text) :
    stripTerminator (w ++ t) = w ++ stripTerminator t := by
  obtain ⟨front, rfl⟩ := List.getLast?_eq_some_iff.1 h
  have reversed : (front ++ [c] ++ t).reverse = t.reverse ++ c :: front.reverse := by simp
  unfold stripTerminator
  rw [reversed]
  cases found : t.reverse with
  | nil =>
    obtain rfl := List.reverse_eq_nil_iff.1 found
    simp [other.1, other.2]
  | cons d rest =>
    obtain rfl : t = rest.reverse ++ [d] := by simpa using congrArg List.reverse found
    by_cases feed : d = '\n'
    · subst feed
      cases rest with
      | nil => simp [other.1]
      | cons e rest => by_cases ret : e = '\r' <;> simp [ret]
    · by_cases ret : d = '\r' <;> simp [feed, ret]

/-- The lines of a text, with another text behind the last of them. -/
def linesThen (t rest : Text) : List Text := t.lines.dropLast ++ [t.lastLine ++ rest]

theorem linesThen_of_notMem {t : Text} (h : '\n' ∉ t) (rest : Text) :
    linesThen t rest = [t ++ rest] := by
  rw [linesThen, lines_of_notMem h, lastLine_of_notMem h]
  rfl

theorem linesThen_append_newline {s : Text} (h : '\n' ∉ s) (t rest : Text) :
    linesThen (s ++ '\n' :: t) rest = (s ++ ['\n']) :: linesThen t rest := by
  obtain ⟨line, others, found⟩ := exists_lines_eq_cons t
  rw [linesThen, linesThen, lines_append_newline h, lastLine_append_newline h, found]
  rfl

end Text

def Comment.opener (documentation : Bool) : Text :=
  if documentation then ['/', '*', '*'] else ['/', '*']

/-- A text in front of which a comment opens as one of a kind: as documentation unless the second
star belongs to the end of the comment, and otherwise unless there is a second star. -/
def Comment.Opens (documentation : Bool) (t : Text) : Prop :=
  if documentation then t.head? ≠ some '/' else t.head? = some '*' → ∃ rest, t = '*' :: '/' :: rest

def Comment.delimiter (s : LineState) (documentation : Bool) (t : Text) : Piece :=
  ⟨t, s.enter (.blockComment documentation), [.commentDelimiter]⟩

section Lines

variable {lexer : Lexer} {documentation : Bool} {s : LineState}

/-- The delimiter of a comment is no assignment, so what follows is read as from the start. -/
theorem cut_delimiter {assigned : Bool} {here there : LineState} {t w rest : Text}
    (some_text : t ≠ [])
    (taken : Step.take lexer assigned here t =
      ⟨[Comment.delimiter s documentation w], there, rest⟩) :
    cut lexer assigned here t =
      (Comment.delimiter s documentation w :: (cut lexer false there rest).1,
        (cut lexer false there rest).2) := by
  rw [cut_eq some_text, taken]
  rfl

/-- A line inside a comment. -/
theorem tokenizeLine_inside (documentation : Bool) (s : LineState)
    (marks : lexer.clusters.PartsAtMarks) {line : Text} (h : Comment.Body line) (after : Text) :
    let tokens := lexer.tokenizeLine (line ++ ['\n']) (s.enter (.blockComment documentation))
    tokens.state = s.enter (.blockComment documentation) ∧
      Commentary documentation (s.enter (.blockComment documentation)) after
        (tokens.lexemes.map Lexeme.toPiece) := by
  have content : Comment.Body (Text.stripTerminator (line ++ ['\n'])) := by
    rcases Text.terminator_of_newline line with ⟨strip, _⟩ | ⟨strip, _⟩
    · rwa [strip]
    · exact h.of_infix ⟨[], ['\r'], strip.symm⟩
  obtain ⟨ps, latest, cuts, _, commentary⟩ :=
    cut_in_comment documentation false s [] marks content nofun
  rw [List.append_nil, cut_nil, List.append_nil] at cuts
  refine ⟨by rw [state_tokenizeLine, cuts], ?_⟩
  rw [toPiece_tokenizeLine, linePieces, cuts]
  have ending := Text.terminator_newline_mem line
  generalize Text.terminator (line ++ ['\n']) = terminator at ending
  have parts : Text.word (terminator ++ after) = [] ∧ '@' ∉ terminator := by
    simp only [Text.terminators, List.mem_cons, List.not_mem_nil, or_false] at ending
    rcases ending with rfl | rfl | rfl <;> exact ⟨rfl, by decide⟩
  refine (Commentary.append (commentary _ ?_) (.ofText parts.2)).joinPlain
  rw [Piece.texts_ofText]
  exact parts.1

/-- The line that a comment ends on. -/
theorem tokenizeLine_closing (documentation : Bool) (s : LineState)
    (marks : lexer.clusters.PartsAtMarks) {line : Text} (h : Comment.Body line) (rest : Text) :
    let inside := s.enter (.blockComment documentation)
    ∃ ps, lexer.tokenizeLine (line ++ ['*', '/'] ++ rest) inside =
        (lexer.tokenizeLine rest s).behind
          (Lexeme.place 0 (ps ++ [Comment.delimiter s documentation ['*', '/']]))
          (Text.byteLength (line ++ ['*', '/'])) ∧
      Piece.texts ps = line ∧
      ∀ after, Text.word after = [] → Commentary documentation inside after ps := by
  intro inside
  obtain ⟨ps, latest, cuts, texts, commentary⟩ :=
    cut_in_comment documentation false s ('*' :: '/' :: Text.stripTerminator rest) marks h (by simp)
  have strips : Text.stripTerminator (line ++ ['*', '/'] ++ rest) =
      line ++ ['*', '/'] ++ Text.stripTerminator rest :=
    Text.stripTerminator_append_of_getLast? (c := '/') (by simp) (by decide) rest
  have taken : Step.take lexer latest inside ('*' :: '/' :: Text.stripTerminator rest) =
      ⟨[Comment.delimiter s documentation ['*', '/']], s, Text.stripTerminator rest⟩ := by
    rw [take_in_comment]
    rfl
  rw [cut_delimiter (List.cons_ne_nil _ _) taken] at cuts
  refine ⟨Piece.joinPlain ps, ?_, by rw [Piece.texts_joinPlain, texts],
    fun after ends => (commentary after ends).joinPlain⟩
  exact tokenizeLine_append _ rfl strips (by simpa using cuts)

theorem blockCommentBegin?_opener {t : Text} (opens : Comment.Opens documentation t) :
    Rule.blockCommentBegin? s (Comment.opener documentation ++ t) =
      some ⟨[Comment.delimiter s documentation (Comment.opener documentation)],
        s.enter (.blockComment documentation), t⟩ := by
  cases documentation with
  | true =>
    have apart : t.head? ≠ some '/' := opens
    simp [Comment.opener, Comment.delimiter, Rule.blockCommentBegin?, apart, Step.single]
  | false =>
    have ending : t.head? = some '*' → ∃ rest, t = '*' :: '/' :: rest := opens
    cases t with
    | nil => rfl
    | cons c t =>
      by_cases star : c = '*'
      · subst star
        obtain ⟨rest, whole⟩ := ending rfl
        cases whole
        rfl
      · simp [Comment.opener, Comment.delimiter, Rule.blockCommentBegin?, star, Step.single]

/-- Where a comment may begin, `/*` begins one. -/
theorem take_opener {assigned : Bool} (outside : s.inBlockComment = false) {t : Text}
    (opens : Comment.Opens documentation t) :
    Step.take lexer assigned s (Comment.opener documentation ++ t) =
      ⟨[Comment.delimiter s documentation (Comment.opener documentation)],
        s.enter (.blockComment documentation), t⟩ := by
  have begins := blockCommentBegin?_opener (s := s) opens
  have slash : ∃ rest, Comment.opener documentation ++ t = '/' :: '*' :: rest := by
    cases documentation <;> exact ⟨_, rfl⟩
  obtain ⟨rest, whole⟩ := slash
  rw [whole] at begins ⊢
  refine Step.take_of_precedes .blockCommentBegin
    (Region.mem_rules_of_mem_expression outside (by decide)) begins fun other earlier starts => ?_
  have kind : ∀ table ∈ Rule.tables, ∀ q ∈ table.takeWhile (· != .blockCommentBegin),
      q.startsAt '/' = true → q = .lineComment := by decide
  rw [kind _ (Region.rules_mem_tables outside) other earlier starts]
  rfl

/-- The line that a comment begins on. -/
theorem tokenizeLine_opening (lexer : Lexer) (outside : s.inBlockComment = false) (line : Text)
    (opens : Comment.Opens documentation (Text.stripTerminator line)) :
    lexer.tokenizeLine (Comment.opener documentation ++ line) s =
      (lexer.tokenizeLine line (s.enter (.blockComment documentation))).behind
        [⟨Comment.delimiter s documentation (Comment.opener documentation), 0⟩]
        (Text.byteLength (Comment.opener documentation)) := by
  have strips : Text.stripTerminator (Comment.opener documentation ++ line) =
      Comment.opener documentation ++ Text.stripTerminator line :=
    Text.stripTerminator_append_of_getLast? (c := '*') (by cases documentation <;> rfl)
      (by decide) line
  have some_text : Comment.opener documentation ++ Text.stripTerminator line ≠ [] := by
    cases documentation <;> exact List.cons_ne_nil _ _
  exact tokenizeLine_append [] rfl strips (cut_delimiter some_text (take_opener outside opens))

end Lines

section Runs

variable {lexer : Lexer} {documentation : Bool} {s : LineState} {body : Text}

theorem Commentary.around_of_mem {inside : LineState} {after : Text} {ps : List Piece}
    (h : Commentary documentation inside after ps) {p : Piece} (mem : p ∈ ps) :
    p.around = inside := by
  induction h with
  | nil => cases mem
  | cons around _ _ ih =>
    rcases List.mem_cons.1 mem with rfl | later
    · exact around
    · exact ih later

/-- The lines on which a comment goes on and ends, with another text behind its end. -/
theorem tokenizeLines_inside (documentation : Bool) (s : LineState)
    (marks : lexer.clusters.PartsAtMarks) (h : Comment.Body body) (rest : Text) :
    let inside := s.enter (.blockComment documentation)
    ∃ front ls ps, lexer.tokenizeLines inside (Text.linesThen (body ++ ['*', '/']) rest) =
        front ++ [(lexer.tokenizeLine rest s).behind ls
          (Text.byteLength (Text.lastLine (body ++ ['*', '/'])))] ∧
      (∀ line ∈ front, line.state = inside) ∧
      (front.flatMap LineTokens.lexemes ++ ls).map Lexeme.toPiece =
        ps ++ [Comment.delimiter s documentation ['*', '/']] ∧
      Piece.texts ps = body ∧
      ∀ after, Text.word after = [] → Commentary documentation inside after ps := by
  intro inside
  induction body using Text.lines_induction with
  | last body last =>
    have line : '\n' ∉ body ++ ['*', '/'] := by simpa using last
    obtain ⟨ps, tokens, texts, commentary⟩ :=
      tokenizeLine_closing documentation s marks h rest
    refine ⟨[], _, ps, ?_, nofun, Lexeme.map_toPiece_place 0 _, texts, commentary⟩
    rw [Text.linesThen_of_notMem line, Text.lastLine_of_notMem line, Lexer.tokenizeLines_cons,
      tokens]
    rfl
  | line first body newline ih =>
    have here : Comment.Body first := h.of_infix ⟨[], '\n' :: body, by simp⟩
    have later : Comment.Body body := h.of_infix ⟨first ++ ['\n'], [], by simp⟩
    obtain ⟨front, ls, ps, runs, states, pieces, texts, commentary⟩ := ih later
    have whole : first ++ '\n' :: body ++ ['*', '/'] = first ++ '\n' :: (body ++ ['*', '/']) := by
      simp
    obtain ⟨state, _⟩ := tokenizeLine_inside documentation s marks here []
    refine ⟨lexer.tokenizeLine (first ++ ['\n']) inside :: front, ls,
      (lexer.tokenizeLine (first ++ ['\n']) inside).lexemes.map Lexeme.toPiece ++ ps,
      ?_, ?_, ?_, ?_, fun after ends => ?_⟩
    · rw [whole, Text.linesThen_append_newline newline, Text.lastLine_append_newline newline,
        Lexer.tokenizeLines_cons, state, runs]
      rfl
    · intro tokens mem
      rcases List.mem_cons.1 mem with rfl | mem
      · exact state
      · exact states tokens mem
    · rw [List.flatMap_cons, List.append_assoc, List.map_append, pieces, List.append_assoc]
    · rw [Piece.texts_append, texts_toPiece_tokenizeLine, texts]
      simp
    · exact (tokenizeLine_inside documentation s marks here _).2.append (commentary after ends)

/-- What a comment opens with, and the text inside it, which cannot be taken for more of that. -/
theorem exists_inner_of_endless (endless : ¬['*', '/'] <:+: body) : ∃ documentation inner,
    (documentation = true ↔ body.head? = some '*') ∧
      ['/', '*'] ++ body = Comment.opener documentation ++ inner ∧ inner <:+ body ∧
      inner.head? ≠ some (if documentation then '/' else '*') := by
  by_cases star : body.head? = some '*'
  · obtain ⟨inner, rfl⟩ := List.head?_eq_some_iff.1 star
    refine ⟨true, inner, by simp, rfl, List.suffix_cons _ _, fun slash => ?_⟩
    obtain ⟨rest, rfl⟩ := List.head?_eq_some_iff.1 slash
    exact endless ⟨[], rest, rfl⟩
  · exact ⟨false, body, by simp [star], rfl, List.suffix_rfl, star⟩

theorem exists_inner (h : Comment.Body body) : ∃ documentation inner,
    (documentation = true ↔ body.head? = some '*') ∧
      ['/', '*'] ++ body = Comment.opener documentation ++ inner ∧ Comment.Body inner ∧
      inner.head? ≠ some (if documentation then '/' else '*') := by
  obtain ⟨documentation, inner, kind, whole, suffix, fresh⟩ := exists_inner_of_endless h.endless
  exact ⟨documentation, inner, kind, whole, h.of_infix suffix.isInfix, fresh⟩

theorem opens_of_head? {t : Text} (h : t.head? ≠ some (if documentation then '/' else '*')) :
    Comment.Opens documentation t := by
  cases documentation with
  | true => exact h
  | false => exact fun star => absurd star h

/-- A comment that ends on the line that it begins on. -/
theorem opens_end {inner : Text} (h : inner.head? ≠ some (if documentation then '/' else '*'))
    (rest : Text) : Comment.Opens documentation (inner ++ ['*', '/'] ++ rest) := by
  cases inner with
  | cons c inner => exact opens_of_head? h
  | nil =>
    cases documentation with
    | true => exact fun slash => absurd slash (by simp)
    | false => exact fun _ => ⟨rest, rfl⟩

theorem opens_line {first : Text} (h : first.head? ≠ some (if documentation then '/' else '*')) :
    Comment.Opens documentation (Text.stripTerminator (first ++ ['\n'])) := by
  refine opens_of_head? fun same => ?_
  rcases Text.terminator_of_newline first with ⟨strip, _⟩ | ⟨strip, _⟩
  · rw [strip] at same
    exact h same
  · obtain ⟨rest, content⟩ := List.head?_eq_some_iff.1 same
    rw [strip, content] at h
    exact h rfl

/-- A comment in a region: the lines that end inside it, and its lexemes on the line that it ends
on. -/
structure CommentRun (lexer : Lexer) (s : LineState) (body rest : Text) (documentation : Bool)
    (front : List LineTokens) (ls : List Lexeme) : Prop where
  /-- Behind the comment the line is read as if it began there. -/
  run : lexer.tokenizeLines s (Text.linesThen (['/', '*'] ++ body ++ ['*', '/']) rest) =
    front ++ [(lexer.tokenizeLine rest s).behind ls
      (Text.byteLength (Text.lastLine (['/', '*'] ++ body ++ ['*', '/'])))]
  kind : documentation = true ↔ body.head? = some '*'
  states : ∀ line ∈ front, line.state = s.enter (.blockComment documentation)
  scopes : ∀ l ∈ front.flatMap LineTokens.lexemes ++ ls,
    l.scope = s.labels ++ (if documentation then .documentation else .blockComment) :: l.own
  pieces : ∃ ps, (front.flatMap LineTokens.lexemes ++ ls).map Lexeme.toPiece =
      Comment.delimiter s documentation (Comment.opener documentation) ::
        (ps ++ [Comment.delimiter s documentation ['*', '/']]) ∧
    Commentary documentation (s.enter (.blockComment documentation)) ['*', '/'] ps
  whole : (front.flatMap LineTokens.lexemes ++ ls).flatMap (fun l => l.text) =
    ['/', '*'] ++ body ++ ['*', '/']

/-- The lexemes of a comment have its labels and its text if they are the pieces of one. -/
theorem CommentRun.of_pieces {rest inner : Text} {front : List LineTokens} {ls : List Lexeme}
    {ps : List Piece}
    (run : lexer.tokenizeLines s (Text.linesThen (['/', '*'] ++ body ++ ['*', '/']) rest) =
      front ++ [(lexer.tokenizeLine rest s).behind ls
        (Text.byteLength (Text.lastLine (['/', '*'] ++ body ++ ['*', '/'])))])
    (kind : documentation = true ↔ body.head? = some '*')
    (whole : ['/', '*'] ++ body = Comment.opener documentation ++ inner)
    (states : ∀ line ∈ front, line.state = s.enter (.blockComment documentation))
    (pieces : (front.flatMap LineTokens.lexemes ++ ls).map Lexeme.toPiece =
      Comment.delimiter s documentation (Comment.opener documentation) ::
        (ps ++ [Comment.delimiter s documentation ['*', '/']]))
    (texts : Piece.texts ps = inner)
    (commentary : ∀ after, Text.word after = [] →
      Commentary documentation (s.enter (.blockComment documentation)) after ps) :
    CommentRun lexer s body rest documentation front ls where
  run := run
  kind := kind
  states := states
  scopes l mem := by
    have piece := List.mem_map_of_mem (f := Lexeme.toPiece) mem
    rw [pieces] at piece
    have around : l.around = s.enter (.blockComment documentation) := by
      simp only [List.mem_cons, List.mem_append, List.not_mem_nil, or_false] at piece
      rcases piece with first | inside | last
      · exact congrArg Piece.around first
      · exact (commentary [] rfl).around_of_mem inside
      · exact congrArg Piece.around last
    rw [Piece.scope, around, LineState.labels_enter]
    cases documentation <;> simp [Region.labels]
  pieces := ⟨ps, pieces, commentary _ rfl⟩
  whole := by
    rw [← List.flatMap_map Lexeme.toPiece Piece.text, pieces, whole, ← texts]
    simp [Piece.texts, Comment.delimiter]

/-- A comment on one line. -/
theorem CommentRun.on_line {inner : Text} (marks : lexer.clusters.PartsAtMarks)
    (outside : s.inBlockComment = false) (kind : documentation = true ↔ body.head? = some '*')
    (whole : ['/', '*'] ++ body = Comment.opener documentation ++ inner) (h : Comment.Body inner)
    (fresh : inner.head? ≠ some (if documentation then '/' else '*')) (line : '\n' ∉ inner)
    (rest : Text) : ∃ ls, CommentRun lexer s body rest documentation [] ls := by
  obtain ⟨ps, closing, texts, commentary⟩ := tokenizeLine_closing documentation s marks h rest
  have strips : Text.stripTerminator (inner ++ ['*', '/'] ++ rest) =
      inner ++ ['*', '/'] ++ Text.stripTerminator rest :=
    Text.stripTerminator_append_of_getLast? (c := '/') (by simp) (by decide) rest
  have opening := tokenizeLine_opening lexer outside (inner ++ ['*', '/'] ++ rest)
    (strips ▸ opens_end fresh _)
  have assembled : Comment.opener documentation ++ inner ++ ['*', '/'] ++ rest =
      Comment.opener documentation ++ (inner ++ ['*', '/'] ++ rest) := by simp
  rw [← assembled, closing, LineTokens.behind_behind, ← Text.byteLength_append,
    ← List.append_assoc (Comment.opener documentation)] at opening
  have single : '\n' ∉ Comment.opener documentation ++ inner ++ ['*', '/'] := by
    cases documentation <;> simpa [Comment.opener] using line
  refine ⟨⟨Comment.delimiter s documentation (Comment.opener documentation), 0⟩ ::
      (Lexeme.place 0 (ps ++ [Comment.delimiter s documentation ['*', '/']])).map
        (Lexeme.shift (Text.byteLength (Comment.opener documentation))),
    .of_pieces ?_ kind whole nofun ?_ texts commentary⟩
  · rw [whole, Text.linesThen_of_notMem single, Text.lastLine_of_notMem single,
      Lexer.tokenizeLines_cons, Lexer.tokenizeLines_nil, opening]
    rfl
  · simp [Function.comp_def]

/-- A comment that goes on after the line that it begins on. -/
theorem CommentRun.over_lines {first later : Text} (marks : lexer.clusters.PartsAtMarks)
    (outside : s.inBlockComment = false) (kind : documentation = true ↔ body.head? = some '*')
    (whole : ['/', '*'] ++ body = Comment.opener documentation ++ (first ++ '\n' :: later))
    (h : Comment.Body (first ++ '\n' :: later))
    (fresh : first.head? ≠ some (if documentation then '/' else '*')) (line : '\n' ∉ first)
    (rest : Text) : ∃ front ls, CommentRun lexer s body rest documentation front ls := by
  have here : Comment.Body first := h.of_infix ⟨[], '\n' :: later, by simp⟩
  have there : Comment.Body later := h.of_infix ⟨first ++ ['\n'], [], by simp⟩
  obtain ⟨front, ls, ps, runs, states, pieces, texts, commentary⟩ :=
    tokenizeLines_inside documentation s marks there rest
  have opening := tokenizeLine_opening lexer outside (first ++ ['\n']) (opens_line fresh)
  have inside := tokenizeLine_inside documentation s marks here
  have texts_first := texts_toPiece_tokenizeLine lexer (first ++ ['\n'])
    (s.enter (.blockComment documentation))
  generalize lexer.tokenizeLine (first ++ ['\n']) (s.enter (.blockComment documentation)) = tokens
    at opening inside texts_first
  have single : '\n' ∉ Comment.opener documentation ++ first := by
    cases documentation <;> simpa [Comment.opener] using line
  have assembled : ['/', '*'] ++ body ++ ['*', '/'] =
      Comment.opener documentation ++ first ++ '\n' :: (later ++ ['*', '/']) := by
    rw [whole]
    simp
  have texts_all : Piece.texts (tokens.lexemes.map Lexeme.toPiece ++ ps) =
      first ++ '\n' :: later := by
    rw [Piece.texts_append, texts_first, texts]
    simp
  refine ⟨tokens.behind [⟨Comment.delimiter s documentation (Comment.opener documentation), 0⟩]
    (Text.byteLength (Comment.opener documentation)) :: front, ls,
    .of_pieces ?_ kind whole ?_ ?_ texts_all fun after ends => ?_⟩
  · rw [assembled, Text.linesThen_append_newline single, Text.lastLine_append_newline single,
      Lexer.tokenizeLines_cons, List.append_assoc, opening, LineTokens.state_behind,
      (inside []).1, runs]
    rfl
  · intro line mem
    rcases List.mem_cons.1 mem with rfl | mem
    · exact (inside []).1
    · exact states line mem
  · rw [List.flatMap_cons, List.append_assoc, List.map_append, pieces]
    simp [Function.comp_def]
  · exact (inside _).2.append (commentary after ends)

/-- A comment leaves no trace: on each line that ends in it, it is open in the region that it
stands in; its lexemes carry the labels of that region and its own, and are plain text between its
delimiters, but for the tags of documentation; and the text behind it is read as if there were no
comment. -/
theorem tokenizeLines_comment (lexer : Lexer) (marks : lexer.clusters.PartsAtMarks)
    (outside : s.inBlockComment = false) (endless : ¬['*', '/'] <:+: body)
    (unmarked : ∀ c ∈ body, Segmentation.isPrepended c = false) (rest : Text) :
    ∃ documentation front ls, CommentRun lexer s body rest documentation front ls := by
  obtain ⟨documentation, inner, kind, whole, enclosed, fresh⟩ := exists_inner ⟨endless, unmarked⟩
  by_cases newline : '\n' ∈ inner
  · obtain ⟨first, later, rfl, line⟩ := List.eq_append_cons_of_mem newline
    have start : first.head? ≠ some (if documentation then '/' else '*') := by
      cases first with
      | nil => nofun
      | cons c first => exact fresh
    obtain ⟨front, ls, run⟩ :=
      CommentRun.over_lines marks outside kind whole enclosed start line rest
    exact ⟨documentation, front, ls, run⟩
  · obtain ⟨ls, run⟩ := CommentRun.on_line marks outside kind whole enclosed fresh newline rest
    exact ⟨documentation, [], ls, run⟩

/-- Documentation in the header of a loop, whose last star stands in front of its end. -/
theorem tokenizeLines_comment_in_header :
    let lexer : Lexer := ⟨{}, by decide, .prepending⟩
    let s := (lexer.tokenizeLine "model \x7b for (i in f(".toList .initial).state
    let body := "* see\n @param x\n *".toList
    (lexer.clusters.PartsAtMarks ∧ s.inBlockComment = false ∧ ¬['*', '/'] <:+: body ∧
      ∀ c ∈ body, Segmentation.isPrepended c = false) ∧
      ∃ documentation front ls,
        CommentRun lexer s body " + 1)) \x7b".toList documentation front ls := by
  intro lexer s body
  have marks : lexer.clusters.PartsAtMarks := Segmentation.prepending_partsAtMarks
  have outside : s.inBlockComment = false := by decide +kernel
  have endless : ¬['*', '/'] <:+: body := by decide +kernel
  have all_unmarked : body.all (fun c => !Segmentation.isPrepended c) = true := by decide +kernel
  have unmarked : ∀ c ∈ body, Segmentation.isPrepended c = false := fun c mem => by
    simpa using List.all_eq_true.1 all_unmarked c mem
  exact ⟨⟨marks, outside, endless, unmarked⟩,
    tokenizeLines_comment lexer marks outside endless unmarked _⟩

end Runs

end StanHighlight

import StanHighlight.Proofs.Stream
import StanHighlight.Proofs.Trailing

/-!
Lines of a document against the same lines read by hand. The stream takes the terminator off each
line before it hands the line on, and reading a line takes a terminator off again. So a `\r` in
front of the terminator is cut apart from its line in a document, while it can be part of a comment
or a literal in the line as it stands. Where it is part of plain text, and where there is none, both
ways agree.
-/

namespace StanHighlight

namespace Text

theorem newline_notMem_of_mem_lines {t line : Text} (h : line ∈ lines t) :
    '\n' ∉ stripTerminator line := by
  induction t using lines_induction with
  | last t clean =>
    rw [lines_of_notMem clean, List.mem_singleton] at h
    exact fun mem => clean (h ▸ (stripTerminator_isInitial line).subset mem)
  | line s t clean ih =>
    rw [lines_append_newline clean, List.mem_cons] at h
    rcases h with rfl | later
    · exact newline_notMem_stripTerminator clean
    · exact ih later

end Text

namespace Piece

/-- Pieces as far as they lie in the first characters of their text. -/
def front (n : Nat) : List Piece → List Piece
  | [] => []
  | p :: ps =>
    if n = 0 then [] else { p with text := p.text.take n } :: front (n - p.text.length) ps

@[simp] theorem front_zero (ps : List Piece) : front 0 ps = [] := by
  cases ps <;> rfl

theorem front_cons {n : Nat} {p : Piece} (within : p.text.length ≤ n) (visible : p.text ≠ [])
    (ps : List Piece) : front n (p :: ps) = p :: front (n - p.text.length) ps := by
  have some_char := List.length_pos_iff.2 visible
  rw [front, if_neg (by omega), List.take_of_length_le within]

/-- What is joined from a piece and others lies in front as far as these do. -/
theorem front_join {p : Piece} (visible : p.text ≠ []) (n : Nat) (ps : List Piece) :
    front (p.text.length + n) (join p ps) = join p (front n ps) := by
  have apart : ∀ qs, front (p.text.length + n) (p :: qs) = p :: front n qs := by
    intro qs
    rw [front_cons (Nat.le_add_right _ _) visible, Nat.add_sub_cancel_left]
  cases ps with
  | nil => exact apart []
  | cons q qs =>
    by_cases none : n = 0
    · subst none
      rw [join]
      split
      · next both =>
        have plain : p.own = [] := by simp_all [isPlain]
        have some_char := List.length_pos_iff.2 visible
        have whole : (⟨p.text, p.around, []⟩ : Piece) = p := by rw [← plain]
        rw [front, if_neg (by omega), List.length_append]
        simpa [join] using whole
      · rw [apart]
        simp [join]
    · rw [join, front, if_neg none, join]
      split
      · next both =>
        have plain : ({ q with text := q.text.take n } : Piece).isPlain = q.isPlain := rfl
        rw [if_pos (by simpa [plain] using both), front, if_neg (by omega), List.length_append,
          Nat.add_sub_add_left, List.take_append, List.take_of_length_le (Nat.le_add_right _ _),
          Nat.add_sub_cancel_left]
      · next apart_ =>
        have plain : ({ q with text := q.text.take n } : Piece).isPlain = q.isPlain := rfl
        rw [if_neg (by simpa [plain] using apart_), apart, front, if_neg none]

/-- In front of what stands behind some pieces these are joined as they are without it. -/
theorem front_joinPlain {ps : List Piece} (visible : ∀ p ∈ ps, p.text ≠ []) (qs : List Piece) :
    front (texts ps).length (joinPlain (ps ++ qs)) = joinPlain ps := by
  induction ps with
  | nil => simp [joinPlain]
  | cons p ps ih =>
    obtain ⟨first, others⟩ := List.forall_mem_cons.1 visible
    rw [List.cons_append, joinPlain_cons, joinPlain_cons, texts_cons, List.length_append,
      front_join first, ih others]

/-- What is joined ends in plain text if the pieces do. -/
theorem isPlain_getLast?_joinPlain (ps : List Piece) :
    (joinPlain ps).getLast?.map isPlain = ps.getLast?.map isPlain := by
  have joined : ∀ (p : Piece) {qs : List Piece}, qs ≠ [] →
      (join p qs).getLast?.map isPlain = qs.getLast?.map isPlain := by
    intro p qs some_piece
    obtain ⟨q, qs, rfl⟩ := List.exists_cons_of_ne_nil some_piece
    rw [join]
    split
    · next both =>
      have second : q.isPlain = true := by simp_all
      cases qs with
      | nil => simpa [isPlain] using second
      | cons r rs => simp [List.getLast?_cons_cons]
    · simp [List.getLast?_cons_cons]
  induction ps with
  | nil => rfl
  | cons p ps ih =>
    rw [joinPlain_cons]
    by_cases none : ps = []
    · subst none
      rfl
    · obtain ⟨q, qs, rfl⟩ := List.exists_cons_of_ne_nil none
      rw [joined p (joinPlain_ne_nil none), ih, List.getLast?_cons_cons]

theorem isPlain_of_mem_ofText {t : Text} {around : LineState} {own : List Label} {p : Piece}
    (h : p ∈ ofText t around own) : p.isPlain = own.isEmpty := by
  unfold ofText at h
  split at h
  · cases h
  · rw [List.mem_singleton.1 h]
    rfl

end Piece

namespace Lexeme

/-- Lexemes as far as they lie in the first characters of their line. -/
def front (n : Nat) : List Lexeme → List Lexeme
  | [] => []
  | l :: ls =>
    if n = 0 then [] else { l with text := l.text.take n } :: front (n - l.text.length) ls

theorem front_place (n offset : Nat) (ps : List Piece) :
    front n (place offset ps) = place offset (Piece.front n ps) := by
  induction ps generalizing n offset with
  | nil => rfl
  | cons p ps ih =>
    rw [place_cons, front, Piece.front]
    split
    · rfl
    · rw [place_cons, ih]
      by_cases within : p.text.length ≤ n
      · simp only [List.take_of_length_le within]
      · rw [Nat.sub_eq_zero_of_le (Nat.le_of_not_le within)]
        simp

theorem place_inj {offset : Nat} {ps qs : List Piece} : place offset ps = place offset qs ↔ ps = qs :=
  ⟨fun h => by rw [← map_toPiece_place offset ps, h, map_toPiece_place], fun h => h ▸ rfl⟩

/-- Placed pieces end in plain text if the pieces do. -/
theorem isPlain_getLast?_place {offset : Nat} {ps : List Piece} :
    (∀ l ∈ (place offset ps).getLast?, l.isPlain = true) ↔
      ∀ p ∈ ps.getLast?, p.isPlain = true := by
  have last : ps.getLast? = (place offset ps).getLast?.map toPiece := by
    rw [← List.getLast?_map, map_toPiece_place]
  rw [last]
  cases (place offset ps).getLast? <;> simp

end Lexeme

section Blank

variable {lexer : Lexer} {assigned : Bool} {here : LineState} {t : Text} {c : Char}

/-- How a character behind a text is cut, given how the text is cut without it: apart, at the end
of the plain text that the text ends in, or inside a token that runs to the end of the line. -/
inductive CutBehind (c : Char) (content : List Piece × LineState) : List Piece × LineState → Prop
  | apart : CutBehind c content (content.1 ++ [⟨[c], content.2, []⟩], content.2)
  | together {ps : List Piece} {t : Text} (last : content.1 = ps ++ [⟨t, content.2, []⟩]) :
      CutBehind c content (ps ++ [⟨t ++ [c], content.2, []⟩], content.2)
  | inside {ps : List Piece} {p : Piece} (labelled : p.isPlain = false) :
      CutBehind c content (ps ++ [p], content.2)

theorem CutBehind.behind {content longer : List Piece × LineState} (h : CutBehind c content longer)
    (ps : List Piece) : CutBehind c (ps ++ content.1, content.2) (ps ++ longer.1, longer.2) := by
  cases h with
  | apart =>
    rw [← List.append_assoc]
    exact .apart
  | @together qs t last =>
    rw [← List.append_assoc]
    exact .together (by rw [last, List.append_assoc])
  | inside labelled =>
    rw [← List.append_assoc]
    exact .inside labelled

theorem Rule.labelled_remark {delimiter body : Text} {kind : Label} :
    ∀ p ∈ (remark here delimiter kind body).pieces, p.isPlain = false := by
  refine List.forall_mem_cons.2 ⟨rfl, fun p mem => ?_⟩
  exact Piece.isPlain_of_mem_ofText mem

theorem Rule.labelled_includeStep :
    ∀ p ∈ (includeStep here t).pieces, p.isPlain = false := by
  refine List.forall_mem_cons.2 ⟨rfl, List.forall_mem_append.2 ⟨fun p mem => ?_, fun p mem => ?_⟩⟩
  · exact Piece.isPlain_of_mem_ofText mem
  · exact (isToken_fileName p mem).isPlain

/-- A token that may run on to the end of the line has no plain parts. -/
theorem Step.labelled_of_not_tame (some_text : t ≠ []) (wild : ¬Tame here t) :
    ∀ p ∈ (take lexer assigned here t).pieces, p.isPlain = false := by
  obtain ⟨code, body, rfl | rfl | rfl⟩ := (tame_or here some_text).resolve_left wild
  · rw [take_slashes code]
    exact Rule.labelled_remark
  · rw [take_quote code (Rule.string?_cons ..)]
    exact Rule.labelled_string (Rule.string?_cons ..)
  · rw [take_hash code]
    cases found : (if here.innermost.isStatementLevel then Rule.include? here ('#' :: body)
        else none) with
    | none => exact Rule.labelled_remark
    | some s =>
      split at found
      · obtain ⟨after, _, _, rfl⟩ := Rule.include?_eq_some_iff.1 found
        exact Rule.labelled_includeStep
      · cases found

theorem not_tame_append (some_text : t ≠ []) (wild : ¬Tame here t) (rest : Text) :
    ¬Tame here (t ++ rest) := by
  obtain ⟨code, body, rfl | rfl | rfl⟩ := (tame_or here some_text).resolve_left wild
  · exact fun tame => (tame.bounded code).2.2 ⟨body ++ rest, rfl⟩
  · exact fun tame => (tame.bounded code).1 rfl
  · exact fun tame => (tame.bounded code).2.1 rfl

/-- A blank behind a text is cut apart from it, or joins what the text ends in. -/
theorem cutBehind_append (sequential : lexer.clusters.Sequential) (blank : Text.isSpace c = true)
    (assigned : Bool) (here : LineState) (t : Text) :
    CutBehind c (cut lexer assigned here t) (cut lexer assigned here (t ++ [c])) := by
  have blanks : ∀ d ∈ [c], Text.isSpace d = true := List.forall_mem_singleton.2 blank
  have alone : ∀ u : Text, u.length < lexer.clusters.first (u ++ [c]) →
      lexer.clusters.first (u ++ [c]) = (u ++ [c]).length := by
    intro u beyond
    have most := lexer.clusters.first_le_length (u ++ [c])
    rw [List.length_append, List.length_singleton] at most ⊢
    omega
  have skipped : ∀ (here : LineState) (u : Text), u.length < lexer.clusters.first (u ++ [c]) →
      Step.skip lexer.clusters here (u ++ [c]) = ⟨[⟨u ++ [c], here, []⟩], here, []⟩ := by
    intro here u beyond
    rw [Step.skip, Segmentation.cluster, alone u beyond, List.take_length, List.drop_length]
  induction assigned, here, t using cut_induction lexer with
  | nil assigned here =>
    have first := lexer.clusters.first_pos ([] ++ [c]) (by simp)
    have taken : Step.take lexer assigned here ([] ++ [c]) = ⟨[⟨[c], here, []⟩], here, []⟩ :=
      (Step.take_of_isSpace blank).trans (skipped here [] first)
    rw [cut_nil, cut_eq (by simp), taken]
    simp only [cut_nil]
    change CutBehind c ([], here) ([] ++ [⟨[c], here, []⟩], here)
    exact .apart
  | step assigned here t s nonempty taken covers ih =>
    have longer : t ++ [c] ≠ [] := by simp
    rw [cut_eq nonempty, ← taken, cut_eq longer]
    by_cases tame : Tame here t
    · rcases Step.take_append sequential tame (.blanks blanks) with same | ⟨beyond, plain, skip⟩
      · rw [same, ← taken]
        exact ih.behind s.pieces
      · rw [skip, skipped here t beyond, taken, plain]
        simp only [cut_nil]
        change CutBehind c ([⟨t, here, []⟩], here) ([] ++ [⟨t ++ [c], here, []⟩], here)
        exact .together rfl
    · rcases Step.take_append_of_not_tame nonempty tame (.inl blanks) with
        same | ⟨after, done, still_done⟩
      · rw [same, ← taken]
        exact ih.behind s.pieces
      · have labelled : ∀ p ∈ (Step.take lexer assigned here (t ++ [c])).pieces,
            p.isPlain = false :=
          Step.labelled_of_not_tame longer (not_tame_append nonempty tame [c])
        have some_piece : (Step.take lexer assigned here (t ++ [c])).pieces ≠ [] :=
          (Step.take_covers longer).some_piece
        obtain ⟨ps, p, whole⟩ := List.eq_nil_or_concat' _ |>.resolve_left some_piece
        rw [whole] at labelled
        simp only [still_done, after, taken, done, cut_nil, List.append_nil, whole]
        exact .inside (labelled p (by simp))

/-- However a blank behind a text is cut, the state is the one that the text ends in. -/
theorem CutBehind.state {content longer : List Piece × LineState} (h : CutBehind c content longer) :
    longer.2 = content.2 := by
  cases h <;> rfl

/-- A character that is plain text behind a text is joined to what the text ends in, wherever it
was cut. One that is part of a token is not. -/
theorem CutBehind.joinPlain_eq_iff {content longer : List Piece × LineState}
    (h : CutBehind c content longer) :
    Piece.joinPlain (content.1 ++ [⟨[c], content.2, []⟩]) = Piece.joinPlain longer.1 ↔
      ∀ p ∈ (Piece.joinPlain longer.1).getLast?, p.isPlain = true := by
  have plain := Piece.isPlain_getLast?_joinPlain (content.1 ++ [⟨[c], content.2, []⟩])
  rw [List.getLast?_concat] at plain
  have ends : ∀ p ∈ (Piece.joinPlain (content.1 ++ [⟨[c], content.2, []⟩])).getLast?,
      p.isPlain = true := by
    intro p last
    rw [last] at plain
    exact Option.some.inj plain
  cases h with
  | apart => exact ⟨fun _ => ends, fun _ => rfl⟩
  | @together ps t last =>
    have same : Piece.joinPlain (content.1 ++ [⟨[c], content.2, []⟩]) =
        Piece.joinPlain (ps ++ [⟨t ++ [c], content.2, []⟩]) := by
      rw [last]
      simp [Piece.joinPlain, Piece.join, Piece.isPlain]
    exact ⟨fun _ => same ▸ ends, fun _ => same⟩
  | @inside ps p labelled =>
    have last : (Piece.joinPlain (ps ++ [p])).getLast? = some p := by
      rw [Piece.joinPlain_append_cons labelled]
      exact List.getLast?_concat
    refine ⟨fun same => same ▸ ends, fun all => ?_⟩
    rw [all p last] at labelled
    cases labelled

end Blank

section Lines

variable {lexer : Lexer}

/-- The lexemes of a line in front of its terminator are those of its pieces. -/
theorem front_lexemes (line : Text) (before : LineState) :
    Lexeme.front (Text.stripTerminator line).length (lexer.tokenizeLine line before).lexemes =
      Lexeme.place 0
        (Piece.joinPlain (cut lexer false before (Text.stripTerminator line)).1) := by
  have visible : ∀ p ∈ (cut lexer false before (Text.stripTerminator line)).1, p.text ≠ [] :=
    fun p => text_ne_nil_of_mem_cut
  have size := congrArg List.length
    (texts_cut lexer false before (Text.stripTerminator line))
  rw [tokenizeLine_eq, Lexeme.front_place, linePieces, ← size, Piece.front_joinPlain visible]

/-- What is left of a line without its terminator, read as a line again: it ends in the same state
as the line, and gives the same lexemes unless a `\r` that it ends in is part of a token. -/
theorem tokenizeLine_stripTerminator (sequential : lexer.clusters.Sequential) {line : Text}
    (single : '\n' ∉ Text.stripTerminator line) (before : LineState) :
    let raw := lexer.tokenizeLine line before
    let front := Lexeme.front (Text.stripTerminator line).length raw.lexemes
    (lexer.tokenizeLine (Text.stripTerminator line) before).state = raw.state ∧
      ((lexer.tokenizeLine (Text.stripTerminator line) before).lexemes = front ↔
        ((Text.stripTerminator line).getLast? = some '\r' →
          ∀ l ∈ front.getLast?, l.isPlain = true)) := by
  intro raw front
  have lexemes : front = Lexeme.place 0
      (Piece.joinPlain (cut lexer false before (Text.stripTerminator line)).1) :=
    front_lexemes line before
  rw [lexemes, tokenizeLine_eq, state_tokenizeLine, linePieces, Lexeme.place_inj,
    Lexeme.isPlain_getLast?_place]
  generalize Text.stripTerminator line = content at single
  by_cases ends : content.getLast? = some '\r'
  · obtain ⟨inner, rfl⟩ := List.getLast?_eq_some_iff.1 ends
    have strip : Text.stripTerminator (inner ++ ['\r']) = inner := by simp [Text.stripTerminator]
    have terminator : Text.terminator (inner ++ ['\r']) = ['\r'] := by
      rw [Text.terminator, strip, List.drop_left]
    have behind := cutBehind_append sequential (c := '\r') (by decide) false before inner
    rw [strip, terminator]
    refine ⟨behind.state.symm, ?_⟩
    simpa [Piece.ofText] using behind.joinPlain_eq_iff
  · have strip := (Text.stripTerminator_eq_self_iff single).2 ends
    have terminator : Text.terminator content = [] := by
      rw [Text.terminator, strip, List.drop_length]
    rw [strip, terminator]
    refine ⟨rfl, ?_⟩
    simp [Piece.ofText, ends]

end Lines

namespace Token

def onLine? (number : Nat) : Token → Option Lexeme
  | newline => none
  | lexeme l p => if p.line = number then some l else none

theorem filterMap_onLine?_ofLine (n k : Nat) (line : LineTokens) :
    (ofLine n line).filterMap (onLine? k) = if n = k then line.lexemes else [] := by
  rw [ofLine, List.filterMap_map]
  split
  · next same => simp [onLine?, same]
  · next other => simp [Function.comp_def, onLine?, other]

/-- The lexemes placed on a line are those that the line gave. -/
theorem filterMap_onLine?_ofLines (n k : Nat) (lines : List LineTokens) :
    (ofLines n lines).filterMap (onLine? (n + k)) = (lines[k]?.map LineTokens.lexemes).getD [] := by
  induction lines generalizing n k with
  | nil => simp
  | cons line lines ih =>
    have split : (ofLines n (line :: lines)).filterMap (onLine? (n + k)) =
        (ofLine n line).filterMap (onLine? (n + k)) ++
          (ofLines (n + 1) lines).filterMap (onLine? (n + k)) := by
      cases lines with
      | nil => simp
      | cons next lines =>
        rw [ofLines_cons_cons, List.filterMap_append, List.filterMap_cons_none rfl]
    rw [split, filterMap_onLine?_ofLine]
    cases k with
    | zero =>
      have later : ∀ token ∈ ofLines (n + 1) lines, onLine? (n + 0) token = none := by
        intro token mem
        cases token with
        | newline => rfl
        | lexeme l p =>
          obtain ⟨_, _, _, _, rfl⟩ := exists_of_mem_ofLines mem
          exact if_neg (by dsimp only; omega)
      rw [List.filterMap_eq_nil_iff.2 later]
      simp
    | succ k =>
      have later := ih (n + 1) k
      rw [Nat.add_right_comm] at later
      rw [if_neg (by omega), ← Nat.add_assoc, later]
      simp

end Token

namespace Document

variable (d : Document) (lexer : Lexer)

def lexemesOn (k : Nat) : List Lexeme := (d.stream lexer).tokens.filterMap (Token.onLine? k)

variable {d lexer}

theorem lexemesOn_eq (k : Nat) :
    d.lexemesOn lexer k = ((d.results lexer)[k]?.map LineTokens.lexemes).getD [] := by
  rw [lexemesOn, tokens_stream, tokens, ← Token.filterMap_onLine?_ofLines, Nat.zero_add]

/-- The lines of a document are read in the states in which they are read with their terminators. -/
theorem stateAfter_stripTerminator (sequential : lexer.clusters.Sequential) {lines : List Text}
    (single : ∀ line ∈ lines, '\n' ∉ Text.stripTerminator line) (before : LineState) :
    lexer.stateAfter before (lines.map Text.stripTerminator) = lexer.stateAfter before lines := by
  induction lines generalizing before with
  | nil => rfl
  | cons line lines ih =>
    obtain ⟨first, others⟩ := List.forall_mem_cons.1 single
    rw [List.map_cons, Lexer.stateAfter_cons, Lexer.stateAfter_cons, ih others,
      (tokenizeLine_stripTerminator sequential first before).1]

/-- The stream of a document and the lines of its text read by hand, each with its terminator, are
in the same state behind every line. On a line they give the same lexemes, those of the terminator
apart, if and only if no `\r` in front of the terminator is part of a token. -/
theorem lexemesOn_eq_front_iff (sequential : lexer.clusters.Sequential) {k : Nat} {line : Text}
    (found : d.text.lines[k]? = some line) :
    let raw := lexer.tokenizeLine line (lexer.stateAfter .initial (d.text.lines.take k))
    let front := Lexeme.front (Text.stripTerminator line).length raw.lexemes
    (d.results lexer)[k]?.map LineTokens.state = some raw.state ∧
      (d.lexemesOn lexer k = front ↔ ((Text.stripTerminator line).getLast? = some '\r' →
        ∀ l ∈ front.getLast?, l.isPlain = true)) := by
  intro raw front
  have single : ∀ line ∈ d.text.lines, '\n' ∉ Text.stripTerminator line :=
    fun line => Text.newline_notMem_of_mem_lines
  have before : lexer.stateAfter .initial ((d.text.lines.map Text.stripTerminator).take k) =
      lexer.stateAfter .initial (d.text.lines.take k) := by
    rw [← List.map_take]
    exact stateAfter_stripTerminator sequential
      (fun line mem => single line (List.mem_of_mem_take mem)) _
  have result : (d.results lexer)[k]? = some (lexer.tokenizeLine (Text.stripTerminator line)
      (lexer.stateAfter .initial (d.text.lines.take k))) := by
    rw [results, Lexer.getElem?_tokenizeLines, List.getElem?_map, found, before]
    rfl
  have same := tokenizeLine_stripTerminator sequential
    (single line (List.mem_of_getElem? found)) (lexer.stateAfter .initial (d.text.lines.take k))
  rw [lexemesOn_eq, result]
  exact ⟨congrArg some same.1, same.2⟩

/-- The second line of a text, with a `\r` behind a name and in front of its terminator. -/
theorem lexemesOn_eq_front_of_name :
    let lexer : Lexer := ⟨{}, by decide, .prepending⟩
    let d := Document.ofText "a\r\nx\r\r\ny".toList
    let line := "x\r\r\n".toList
    let raw := lexer.tokenizeLine line (lexer.stateAfter .initial (d.text.lines.take 1))
    (lexer.clusters.Sequential ∧ d.text.lines[1]? = some line) ∧
      d.lexemesOn lexer 1 = Lexeme.front 2 raw.lexemes := by
  intro lexer d line raw
  have sequential : lexer.clusters.Sequential := Segmentation.prepending_sequential
  have found : d.text.lines[1]? = some line := by decide
  have plain : ∀ l ∈ (Lexeme.front 2 raw.lexemes).getLast?, l.isPlain = true := by decide +kernel
  exact ⟨⟨sequential, found⟩, (lexemesOn_eq_front_iff sequential found).2.2 fun _ => plain⟩

/-- In the text `//x\r\r\n` the first `\r` is part of the comment if the line is read as it
stands, but not in the document. -/
theorem lexemesOn_ne_front_of_comment :
    let lexer : Lexer := ⟨{}, by decide, .prepending⟩
    let d := Document.ofText "//x\r\r\n".toList
    let line := "//x\r\r\n".toList
    d.text.lines[0]? = some line ∧
      d.lexemesOn lexer 0 ≠ Lexeme.front (Text.stripTerminator line).length
        (lexer.tokenizeLine line .initial).lexemes := by
  intro lexer d line
  rw [lexemesOn_eq]
  decide +kernel

end Document

end StanHighlight

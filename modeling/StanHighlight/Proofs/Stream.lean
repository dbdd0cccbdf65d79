import StanHighlight.Proofs.Rebuild
import StanHighlight.Proofs.Run

/-!
The stream of a document against the run over its lines. The stream works one line ahead and
keeps a queue; the run knows nothing of either. Still the stream gives out exactly what the
run gave for each line, with a line break between every two lines, then nothing, however
often it is asked, and it shows the state after the line that it is in.
-/

namespace StanHighlight

namespace Token

def position? : Token → Option Position
  | newline => none
  | lexeme _ p => some p

def ofLine (number : Nat) (line : LineTokens) : List Token :=
  line.lexemes.map fun l => .lexeme l ⟨number, l.offset⟩

/-- The tokens of lines that are counted from a number on, with a line break between every two. -/
def ofLines (number : Nat) (lines : List LineTokens) : List Token :=
  [.newline].intercalate ((lines.zipIdx number).map fun line => ofLine line.2 line.1)

@[simp] theorem ofLines_nil (number : Nat) : ofLines number [] = [] := rfl

@[simp] theorem ofLines_singleton (number : Nat) (line : LineTokens) :
    ofLines number [line] = ofLine number line := by
  simp [ofLines]

@[simp] theorem ofLines_cons_cons (number : Nat) (line next : LineTokens)
    (lines : List LineTokens) :
    ofLines number (line :: next :: lines) =
      ofLine number line ++ .newline :: ofLines (number + 1) (next :: lines) := by
  simp [ofLines]

@[simp] theorem count_newline_ofLine (number : Nat) (line : LineTokens) :
    (ofLine number line).count .newline = 0 := by
  rw [List.count_eq_zero]
  simp [ofLine]

@[simp] theorem filterMap_position?_ofLine (number : Nat) (line : LineTokens) :
    (ofLine number line).filterMap position? = line.lexemes.map fun l => ⟨number, l.offset⟩ := by
  simp [ofLine, List.filterMap_map, Function.comp_def, position?]

/-- There is one line break less than lines. -/
theorem count_newline_ofLines (number : Nat) (line : LineTokens) (lines : List LineTokens) :
    (ofLines number (line :: lines)).count .newline = lines.length := by
  induction lines generalizing number line with
  | nil => simp
  | cons next lines ih => simp [ih]

/-- A lexeme among the tokens of lines belongs to one of them and is placed on it. -/
theorem exists_of_mem_ofLines {number : Nat} {lines : List LineTokens} {l : Lexeme} {p : Position}
    (h : .lexeme l p ∈ ofLines number lines) :
    ∃ k line, lines[k]? = some line ∧ l ∈ line.lexemes ∧ p = ⟨number + k, l.offset⟩ := by
  have here : ∀ {n : Nat} {line : LineTokens}, .lexeme l p ∈ ofLine n line →
      l ∈ line.lexemes ∧ p = ⟨n, l.offset⟩ := by
    intro n line mem
    obtain ⟨m, hm, same⟩ := List.mem_map.1 mem
    cases same
    exact ⟨hm, rfl⟩
  induction lines generalizing number with
  | nil => cases h
  | cons line lines ih =>
    cases lines with
    | nil =>
      rw [ofLines_singleton] at h
      obtain ⟨mem, place⟩ := here h
      exact ⟨0, line, rfl, mem, place⟩
    | cons next lines =>
      rw [ofLines_cons_cons, List.mem_append, List.mem_cons] at h
      rcases h with first | newline | later
      · obtain ⟨mem, place⟩ := here first
        exact ⟨0, line, rfl, mem, place⟩
      · cases newline
      · obtain ⟨k, found, at_, mem, place⟩ := ih later
        refine ⟨k + 1, found, at_, mem, ?_⟩
        rw [place, Nat.add_right_comm, Nat.add_assoc]

/-- Lexemes that come one after the other on their lines come so in the whole. -/
theorem pairwise_position_ofLines (number : Nat) {lines : List LineTokens}
    (h : ∀ line ∈ lines, line.lexemes.Pairwise fun l m => l.offset < m.offset) :
    ((ofLines number lines).filterMap position?).Pairwise (· < ·) := by
  have ordered : ∀ {n : Nat} {line : LineTokens},
      (line.lexemes.Pairwise fun l m => l.offset < m.offset) →
        ((ofLine n line).filterMap position?).Pairwise (· < ·) := by
    intro n line increasing
    rw [filterMap_position?_ofLine, List.pairwise_map]
    exact increasing.imp fun less => .inr ⟨rfl, less⟩
  induction lines generalizing number with
  | nil => exact .nil
  | cons line lines ih =>
    have first := ordered (h line List.mem_cons_self) (n := number)
    have others := ih (number + 1) fun other mem => h other (List.mem_cons_of_mem line mem)
    cases lines with
    | nil => rwa [ofLines_singleton]
    | cons next lines =>
      rw [ofLines_cons_cons, List.filterMap_append, List.filterMap_cons_none rfl,
        List.pairwise_append]
      refine ⟨first, others, fun p hp q hq => ?_⟩
      -- What is on a later line comes later, whatever its offset.
      rw [filterMap_position?_ofLine] at hp
      obtain ⟨l, _, rfl⟩ := List.mem_map.1 hp
      obtain ⟨token, mem, place⟩ := List.mem_filterMap.1 hq
      cases token with
      | newline => cases place
      | lexeme m r =>
        cases place
        obtain ⟨k, _, _, _, rfl⟩ := exists_of_mem_ofLines mem
        exact .inl (by dsimp only; omega)

end Token

namespace TokenStream

def advance : Nat → TokenStream → TokenStream
  | 0, s => s
  | n + 1, s => advance n s.next.2

/-- What is left of the current line, and what the lines ahead give. -/
def results (s : TokenStream) : List LineTokens :=
  ⟨s.pending, s.state⟩ :: s.lexer.tokenizeLines s.state (s.ahead.map Text.stripTerminator)

/-- A stream that gives no token stays as it is. -/
theorem eq_of_next_none {s s' : TokenStream} (h : s.next = (none, s')) : s' = s := by
  unfold next at h
  split at h
  · cases h
  · split at h
    · cases h
    · cases h
      rfl

theorem tokens_of_next_some {s s' : TokenStream} {token : Token} (h : s.next = (some token, s')) :
    s.tokens = token :: s'.tokens := by
  rw [tokens, trace_of_next_some h]
  rfl

theorem tokens_of_next_none {s s' : TokenStream} (h : s.next = (none, s')) : s.tokens = [] := by
  rw [tokens, trace_of_next_none h]
  rfl

/-- The answers of a stream are its tokens in order and then nothing for ever. -/
theorem next_advance (n : Nat) (s : TokenStream) : (advance n s).next.1 = s.tokens[n]? := by
  induction n generalizing s with
  | zero =>
    match given : s.next with
    | (none, s') =>
      rw [tokens_of_next_none given]
      rfl
    | (some token, s') =>
      rw [tokens_of_next_some given]
      rfl
  | succ n ih =>
    rw [advance, ih]
    match given : s.next with
    | (none, s') =>
      rw [eq_of_next_none given, tokens_of_next_none given]
      rfl
    | (some token, s') =>
      rw [tokens_of_next_some given]
      rfl

theorem tokens_eq_ofLines (s : TokenStream) : s.tokens = Token.ofLines s.line s.results := by
  obtain ⟨lexer, pending, number, state, ahead⟩ := s
  induction ahead generalizing pending number state with
  | nil =>
    rw [tokens_eq]
    simp [results, Token.ofLine]
  | cons line ahead ih =>
    have later := ih (lexer.tokenizeLine (Text.stripTerminator line) state).lexemes (number + 1)
      (lexer.tokenizeLine (Text.stripTerminator line) state).state
    rw [tokens_eq]
    dsimp only [enterLine]
    rw [later]
    simp [results, Token.ofLine]

/-- The state that a stream shows is the one after the line that it is in, and it has left as
many lines as it has given line breaks. -/
theorem state_advance (n : Nat) (s : TokenStream) :
    s.results[(s.tokens.take n).count .newline]?.map LineTokens.state =
      some (advance n s).state := by
  induction n generalizing s with
  | zero => rfl
  | succ n ih =>
    obtain ⟨lexer, pending, number, state, ahead⟩ := s
    cases pending with
    | cons l pending =>
      have given : next ⟨lexer, l :: pending, number, state, ahead⟩ =
          (some (.lexeme l ⟨number, l.offset⟩), ⟨lexer, pending, number, state, ahead⟩) := rfl
      rw [advance, given, ← ih, tokens_of_next_some given, List.take_succ_cons,
        List.count_cons_of_ne (by simp)]
      cases (tokens ⟨lexer, pending, number, state, ahead⟩ |>.take n).count .newline with
      | zero => rfl
      | succ k => rfl
    | nil =>
      cases ahead with
      | cons line ahead =>
        have given : next ⟨lexer, [], number, state, line :: ahead⟩ =
            (some .newline, enterLine lexer (number + 1) line state ahead) := rfl
        rw [advance, given, ← ih, tokens_of_next_some given, List.take_succ_cons,
          List.count_cons_self]
        rfl
      | nil =>
        have given : next ⟨lexer, [], number, state, []⟩ =
            (none, ⟨lexer, [], number, state, []⟩) := rfl
        rw [advance, given, ← ih, tokens_of_next_none given, List.take_nil, List.take_nil]

end TokenStream

namespace Text

/-- A text has one line more than line breaks. -/
theorem length_lines (t : Text) : (lines t).length = t.count '\n' + 1 := by
  induction t using lines_induction with
  | last t h => rw [lines_of_notMem h, List.count_eq_zero_of_not_mem h]; rfl
  | line s t h ih =>
    rw [lines_append_newline h, List.length_cons, ih, List.count_append, List.count_cons_self,
      List.count_eq_zero_of_not_mem h]
    omega

end Text

/-- Lexemes of a line come one after the other. -/
theorem pairwise_offset_tokenizeLine (lexer : Lexer) (line : Text) (before : LineState) :
    (lexer.tokenizeLine line before).lexemes.Pairwise fun l m => l.offset < m.offset := by
  have placed : ∀ (n : Nat) (ps : List Piece), (∀ p ∈ ps, p.text ≠ []) →
      (Lexeme.place n ps).Pairwise fun l m => l.offset < m.offset := by
    intro n ps visible
    induction ps generalizing n with
    | nil => exact .nil
    | cons p ps ih =>
      rw [Lexeme.place_cons, List.pairwise_cons]
      refine ⟨fun m hm => ?_, ih _ fun q hq => visible q (List.mem_cons_of_mem p hq)⟩
      obtain ⟨between, _, _, offset⟩ := Lexeme.offset_of_mem_place hm
      have width := Text.byteLength_pos (visible p List.mem_cons_self)
      rw [offset]
      dsimp only
      omega
  exact placed 0 _ fun p => text_ne_nil_of_mem_cutLine

namespace Document

/-- What the lines of a document give without their terminators, from the first on. -/
def results (d : Document) (lexer : Lexer) : List LineTokens :=
  lexer.tokenizeLines .initial (d.text.lines.map Text.stripTerminator)

def tokens (d : Document) (lexer : Lexer) : List Token := Token.ofLines 0 (d.results lexer)

variable (d : Document) (lexer : Lexer)

theorem results_stream : (d.stream lexer).results = d.results lexer := by
  obtain ⟨line, ahead, found⟩ := Text.exists_lines_eq_cons d.text
  rw [stream, results, found]
  rfl

theorem tokens_stream : (d.stream lexer).tokens = d.tokens lexer := by
  have first : (d.stream lexer).line = 0 := by
    unfold stream
    split <;> rfl
  rw [TokenStream.tokens_eq_ofLines, first, results_stream, tokens]

/-- A line of a document that gives lexemes gives them without its terminator, but in the same
places. -/
theorem exists_line_of_mem_tokens {l : Lexeme} {p : Position} (h : .lexeme l p ∈ d.tokens lexer) :
    p.offset = l.offset ∧ ∃ line front back, d.text.lines[p.line]? = some line ∧
      line = front ++ (l.text ++ back) ∧ Text.byteLength front = p.offset := by
  obtain ⟨k, ts, found, mem, rfl⟩ := Token.exists_of_mem_ofLines h
  rw [results, Lexer.getElem?_tokenizeLines, Option.map_eq_some_iff] at found
  obtain ⟨content, stripped, rfl⟩ := found
  rw [List.getElem?_map, Option.map_eq_some_iff] at stripped
  obtain ⟨line, at_, rfl⟩ := stripped
  obtain ⟨front, back, whole, offset⟩ := Lexeme.offset_of_mem_place mem
  rw [texts_cutLine] at whole
  refine ⟨rfl, line, front, back ++ Text.terminator line, by simpa using at_, ?_, by simp [offset]⟩
  calc
    line = Text.stripTerminator line ++ Text.terminator line :=
      (Text.stripTerminator_append_terminator line).symm
    _ = front ++ (l.text ++ (back ++ Text.terminator line)) := by rw [whole]; simp

/-- A document is read line by line: each line without its terminator, in the state that the
line before it ends in. -/
structure ReadByLine : Prop where
  /-- The stream gives the lexemes of each line, a line break between every two lines, and then
  nothing. -/
  given : ∀ n, ((d.stream lexer).advance n).next.1 = (d.tokens lexer)[n]?
  /-- A lexeme is that part of its line which begins at its place. -/
  slices : ∀ l p, .lexeme l p ∈ d.tokens lexer → p.offset = l.offset ∧
    ∃ line front back, d.text.lines[p.line]? = some line ∧ line = front ++ (l.text ++ back) ∧
      Text.byteLength front = p.offset
  ordered : ((d.tokens lexer).filterMap Token.position?).Pairwise (· < ·)
  breaks : (d.tokens lexer).count .newline = d.text.count '\n'
  /-- The state that the stream shows is the one after the line that it is in. -/
  state : ∀ n, ∃ ts, (d.results lexer)[((d.tokens lexer).take n).count .newline]? = some ts ∧
    ((d.stream lexer).advance n).state = ts.state

/-- Every document is read so by every lexer. -/
theorem readByLine_stream : d.ReadByLine lexer where
  given n := by rw [TokenStream.next_advance, tokens_stream]
  slices l p h := d.exists_line_of_mem_tokens lexer h
  ordered := by
    refine Token.pairwise_position_ofLines 0 fun ts mem => ?_
    obtain ⟨k, found⟩ := List.mem_iff_getElem?.1 mem
    rw [results, Lexer.getElem?_tokenizeLines, Option.map_eq_some_iff] at found
    obtain ⟨line, _, rfl⟩ := found
    exact pairwise_offset_tokenizeLine lexer line _
  breaks := by
    obtain ⟨line, ahead, found⟩ := Text.exists_lines_eq_cons d.text
    have size := Text.length_lines d.text
    rw [found, List.length_cons] at size
    rw [tokens, results, found, List.map_cons, Lexer.tokenizeLines_cons,
      Token.count_newline_ofLines, Lexer.length_tokenizeLines, List.length_map]
    omega
  state n := by
    have shown := TokenStream.state_advance n (d.stream lexer)
    rw [results_stream, tokens_stream] at shown
    obtain ⟨ts, found, same⟩ := Option.map_eq_some_iff.1 shown
    exact ⟨ts, found, same.symm⟩

end Document

end StanHighlight

import StanHighlight.Proofs.LatestLabel

/-!
A walk over a line gives out the lexemes of the line. Text that no rule recognises waits until a
token comes or the line ends, and is then given out as one stretch; that is how neighbouring plain
pieces are joined. And whether an assignment is the latest token is looked up among what has been
given out already.
-/

namespace StanHighlight

open Text (byteLength)

namespace Piece

/-- Plain text at a place in one piece or in two. -/
theorem joinPlain_ofText_append (t u : Text) (here : LineState) (ps : List Piece) :
    joinPlain (ofText (t ++ u) here [] ++ ps) =
      joinPlain (ofText t here [] ++ (ofText u here [] ++ ps)) := by
  by_cases front : t = []
  · simp [front]
  by_cases back : u = []
  · simp [back]
  rw [ofText_of_ne_nil front, ofText_of_ne_nil back, ofText_of_ne_nil (by simp [front])]
  simp only [List.singleton_append, joinPlain_cons]
  cases joinPlain ps with
  | nil => rfl
  | cons q qs => cases own : q.own <;> simp [join, isPlain, own]

theorem joinPlain_of_labelled {ps : List Piece} (h : ∀ p ∈ ps, p.isPlain = false) :
    joinPlain ps = ps := by
  induction ps with
  | nil => rfl
  | cons p ps ih =>
    obtain ⟨first, others⟩ := List.forall_mem_cons.1 h
    rw [joinPlain_cons, ih others, join_of_labelled first]

end Piece

namespace Rule

variable {config : Config} {assigned : Bool} {here : LineState} {t : Text} {s : Step} {rule : Rule}

/-- What a rule takes is joined to nothing. -/
theorem joinPlain_step? (found : step? config assigned here t rule = some s) :
    Piece.joinPlain s.pieces = s.pieces := by
  by_cases literal : rule = .string
  · subst literal
    exact Piece.joinPlain_of_labelled (labelled_string found)
  · cases ordinary_step? literal found with
    | tokens tokens => exact Piece.joinPlain_of_labelled fun p mem => (tokens p mem).isPlain
    | @opening head bracket gap pieces first blank last =>
      rw [pieces, Piece.joinPlain_cons, Piece.join_of_labelled first.isPlain,
        Piece.joinPlain_append_cons last.isPlain]
      unfold Piece.ofText
      split <;> rfl

theorem joinPlain_append_step? (found : step? config assigned here t rule = some s) (plain : Text)
    (around : LineState) (ps : List Piece) :
    Piece.joinPlain (Piece.ofText plain around [] ++ (s.pieces ++ ps)) =
      Piece.ofText plain around [] ++ (s.pieces ++ Piece.joinPlain ps) := by
  have parted := Piece.joinPlain_append (isChain_step? found).2 ps
  rw [joinPlain_step? found] at parted
  obtain ⟨p, more, first⟩ := List.exists_cons_of_ne_nil (step?_covers found).some_piece
  have labelled : p.isPlain = false := labelled_first found p (by rw [first]; rfl)
  rw [← parted, first, List.cons_append, Piece.joinPlain_append_cons labelled,
    Piece.joinPlain_ofText, Piece.joinPlain_cons, Piece.join_of_labelled labelled]

end Rule

namespace Footing

/-- What will have been given out at the end of a line if its content is at its end. -/
def owes (p : Footing) : List Stretch :=
  p.given ++ stretches (byteLength p.past) (Piece.ofText (p.plain ++ p.ending) p.state [])

end Footing

/-- The turns of a line cut its content, and what is given out is joined. -/
theorem walks_turns (lexer : Lexer) (assigned : Bool) {p : Footing} (rooted : Rooted p.state)
    (latest : assigned = (p.cursor.latestLabel? == some .assignmentOperator)) :
    ∃ q, Walks (Walk.loop Cursor.ahead (Walk.turn lexer)) p () q ∧ q.ahead = [] ∧
      q.state = (cut lexer assigned p.state p.ahead).2 ∧
      q.owes = p.given ++ stretches (byteLength p.past) (Piece.joinPlain
        (Piece.ofText p.plain p.state [] ++ cutBefore lexer p.ending assigned p.state p.ahead)) := by
  generalize state : p.state = here at rooted ⊢
  generalize text : p.ahead = t
  induction assigned, here, t using cut_induction lexer generalizing p with
  | nil assigned here =>
    refine ⟨p, .last (Walk.walks_turn_last lexer text), text, ?_, ?_⟩
    · rw [cut_nil, state]
    · have whole := Piece.joinPlain_ofText_append p.plain p.ending here []
      simp only [List.append_nil, Piece.joinPlain_ofText] at whole
      rw [Footing.owes, state, cutBefore_nil, whole]
  | step assigned here t s nonempty taken covers ih =>
    subst state text
    have after : Rooted s.after := taken ▸ (acts_take rooted).rooted rooted
    have width := Text.byteLength_pos (t := Piece.texts s.pieces) fun none => by
      have rest := covers.rest_length_lt
      rw [← covers.whole, none] at rest
      exact absurd rest (Nat.lt_irrefl _)
    have shorter : ∀ q : Footing, q.ahead = s.rest → q.cursor.ahead < p.cursor.ahead := by
      intro q rest
      rw [Footing.ahead_cursor, Footing.ahead_cursor, rest, ← covers.whole, Text.byteLength_append]
      omega
    rw [cut_eq nonempty, ← taken, cutBefore_eq nonempty taken]
    rcases Walk.walks_turn lexer rooted latest nonempty with
      ⟨rule, s', found, same, turned⟩ | ⟨skips, turned⟩
    · obtain rfl : s' = s := same.trans taken.symm
      obtain ⟨q, done, ended, there, owes⟩ :=
        ih (p := p.take _ _ _) (Footing.latestLabel?_take found) rfl after rfl
      refine ⟨q, .turn turned (shorter _ rfl) done, ended, there, owes.trans ?_⟩
      rw [Rule.joinPlain_append_step? found]
      simp [Footing.take, stretches_append, Nat.add_assoc]
    · rw [skips] at taken
      obtain rfl := taken
      obtain ⟨q, done, ended, there, owes⟩ := ih (p := p.pass _ _) latest rfl rooted rfl
      refine ⟨q, .turn turned (shorter _ rfl) done, ended, there, owes.trans ?_⟩
      have visible := lexer.clusters.cluster_ne_nil nonempty
      simp only [Footing.pass, Piece.joinPlain_ofText_append, Step.skip,
        Piece.ofText_of_ne_nil visible]

/-- At the end of its content a walk passes the terminator as plain text and gives out what waits. -/
theorem walks_ending {p : Footing} (none : p.ahead = []) :
    ∃ q : Footing, Walks (do
      let c ← get
      set { c with stop := byteLength c.line }
      Walk.skipSome (byteLength c.line - c.stop)
      Walk.flush) p () q ∧ q.given = p.owes ∧ q.state = p.state := by
  -- The terminator is content ahead from here on.
  let opened : Footing := { p with ahead := p.ending, ending := [] }
  have here : opened.cursor = { p.cursor with stop := byteLength p.cursor.line } := by
    simp [opened, Footing.cursor, none]
  have width : byteLength p.cursor.line - p.cursor.stop = byteLength p.ending := by
    simp [Footing.cursor, none]
    omega
  have reopened : Walks (set { p.cursor with stop := byteLength p.cursor.line }) p () opened :=
    congrArg (fun c => some ((), c)) here.symm
  refine ⟨_, .bind (a := p.cursor) rfl (.bind reopened (.bind
    (Walk.walks_skipSome (List.append_nil p.ending).symm width) (Walk.walks_flush _))), ?_, rfl⟩
  simp [Footing.take, Footing.pass, Footing.owes, opened]

/-- A walk over a line gives out its lexemes, and what is open behind it is what is open in the state
after it. -/
theorem Lexer.walkLine_eq (lexer : Lexer) (line : Text) {state : LineState} (rooted : Rooted state) :
    lexer.walkLine line state = some ((lexer.tokenizeLine line state).lexemes.map Lexeme.stretch,
      (lexer.tokenizeLine line state).state.frames) := by
  obtain ⟨q, turned, ended, there, owes⟩ :=
    walks_turns lexer false (p := .ofLine line state) rooted rfl
  obtain ⟨r, closed, given, same⟩ := walks_ending ended
  have walked : Walks (Walk.wholeLine lexer) (.ofLine line state) () r := .bind turned closed
  have walked : (Walk.wholeLine lexer).run (.ofLine line state) = some ((), r.cursor) := by
    simpa [Walks] using walked
  have pieces : r.given = stretches 0 (Piece.joinPlain (linePieces lexer line state)) :=
    given.trans owes
  rw [walkLine, walked, tokenizeLine_eq]
  change some (r.given, r.state.frames) = _
  rw [pieces, same, there]
  rfl

end StanHighlight

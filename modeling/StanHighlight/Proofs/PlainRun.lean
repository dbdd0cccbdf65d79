import StanHighlight.Proofs.RawLine
import StanHighlight.Proofs.Unmatched

/-!
Runs of plain text. What is skipped stands in the state that the piece in front of it leaves, and a
change of state comes with a token. So neighbouring plain pieces stand in the same state, joining
them leaves no two plain lexemes side by side, and the terminator of a line goes on with the run
that the line ends in.
-/

namespace StanHighlight

@[grind =] def Label.isRegional : Label → Bool
  | source | blockComment | documentation | sectionBody _ | functionCall | distributionCall
  | arguments | printArguments | statement _ | declaration | constraints | initializer
  | functionDeclaration | samplingStatement => true
  | _ => false

theorem Region.isRegional_of_mem_labels {r : Region} : ∀ l ∈ r.labels, l.isRegional = true := by
  unfold Region.labels
  split <;> simp [Label.isRegional]

theorem LineState.isRegional_of_mem_labels {s : LineState} :
    ∀ l ∈ s.labels, l.isRegional = true := by
  intro l mem
  obtain ⟨f, _, inside⟩ := List.mem_flatMap.1 mem
  exact f.region.isRegional_of_mem_labels l inside

/-- The program gives a label to everything. -/
theorem Rooted.labels_ne_nil {s : LineState} (h : Rooted s) : s.labels ≠ [] := by
  obtain ⟨above, n, whole⟩ := h
  rw [LineState.labels, whole]
  simp [Region.labels]

namespace Piece

def endsInRegion (p : Piece) : Bool := p.scope.getLast?.any Label.isRegional

/-- A piece whose own labels end with one that no region gives. -/
def EndsInToken (p : Piece) : Prop := ∀ l ∈ p.own.getLast?, l.isRegional = false

/-- A piece is plain text exactly if its last label is that of a region. -/
theorem endsInRegion_eq_isPlain {p : Piece} (rooted : Rooted p.around) (ends : p.EndsInToken) :
    p.endsInRegion = p.isPlain := by
  rw [endsInRegion, scope, List.getLast?_append]
  cases last : p.own.getLast? with
  | none =>
    have plain : p.isPlain = true := List.isEmpty_iff.2 (List.getLast?_eq_none_iff.1 last)
    obtain ⟨l, label⟩ := Option.ne_none_iff_exists'.1
      (mt List.getLast?_eq_none_iff.1 rooted.labels_ne_nil)
    have regional := LineState.isRegional_of_mem_labels l (List.mem_of_getLast? label)
    simp [label, regional, plain]
  | some l =>
    have labelled : p.isPlain = false := by
      rw [isPlain, List.isEmpty_eq_false_iff]
      intro none
      simp [none] at last
    simp [ends l last, labelled]

theorem EndsInToken.ofText {t : Text} {around : LineState} {own : List Label}
    (h : ∀ l ∈ own.getLast?, l.isRegional = false) : ∀ p ∈ ofText t around own, p.EndsInToken := by
  intro p mem
  unfold Piece.ofText at mem
  split at mem
  · cases mem
  · rw [List.mem_singleton.1 mem]
    exact h

end Piece

namespace Rule

variable {config : Config} {assigned : Bool} {here : LineState} {t w after rest : Text} {s : Step}
  {own : List Label}

theorem endsInToken_single (h : ∀ l ∈ own.getLast?, l.isRegional = false) :
    ∀ p ∈ (Step.single here own t rest).pieces, p.EndsInToken :=
  List.forall_mem_singleton.2 h

theorem endsInToken_opening {head : Piece} {gap : Text} {bracket : Char} {inside : LineState}
    {e : Enclosure} (first : head.EndsInToken) :
    ∀ p ∈ (Step.opening head gap bracket inside e rest).pieces, p.EndsInToken := by
  refine List.forall_mem_cons.2 ⟨first, List.forall_mem_append.2 ⟨.ofText (by simp), ?_⟩⟩
  exact List.forall_mem_singleton.2 (by simp [Piece.EndsInToken, Label.isRegional])

theorem endsInToken_heads {head : Piece} {inside : LineState} {e : Enclosure}
    (first : head.EndsInToken) : ∀ p ∈ (heads head inside e after).pieces, p.EndsInToken := by
  unfold heads
  split
  · exact endsInToken_opening first
  · exact List.forall_mem_singleton.2 first

theorem endsInToken_delimitedName {start close : Char} {style : FileName} :
    ∀ p ∈ (delimitedName here start close style t).1, p.EndsInToken := by
  have name : ∀ p ∈ Piece.ofText (t.takeWhile (· != close)) here [.inclusion, .fileName style],
      p.EndsInToken := .ofText (by grind)
  unfold delimitedName
  split
  · refine List.forall_mem_cons.2 ⟨?_, name⟩
    simp [Piece.EndsInToken, Label.isRegional]
  · refine List.forall_mem_append.2 ⟨List.forall_mem_cons.2 ⟨?_, name⟩, ?_⟩
    · simp [Piece.EndsInToken, Label.isRegional]
    · exact List.forall_mem_singleton.2 (by simp [Piece.EndsInToken, Label.isRegional])

theorem endsInToken_fileName : ∀ p ∈ (fileName here t).1, p.EndsInToken := by
  unfold fileName
  split
  · simp
  · exact endsInToken_delimitedName
  · exact endsInToken_delimitedName
  · exact endsInToken_delimitedName
  · exact .ofText (by grind)

theorem endsInToken_inclusion (found : include? here t = some s) :
    ∀ p ∈ s.pieces, p.EndsInToken := by
  unfold include? at found
  split at found
  · cases found
  · split at found <;> cases found
    refine List.forall_mem_cons.2 ⟨?_, List.forall_mem_append.2 ⟨?_, endsInToken_fileName⟩⟩
    · simp [Piece.EndsInToken, Label.isRegional]
    · exact .ofText (by grind)

theorem endsInToken_lineComment (found : lineComment? here t = some s) :
    ∀ p ∈ s.pieces, p.EndsInToken := by
  unfold lineComment? at found
  split at found <;> cases found
  all_goals
    refine List.forall_mem_cons.2 ⟨?_, .ofText ?_⟩
    all_goals simp [Piece.EndsInToken, Label.isRegional]

theorem endsInToken_string (found : string? config here t = some s) :
    ∀ p ∈ s.pieces, p.EndsInToken := by
  have body : ∀ t, ∀ p ∈ bodyPieces config here t, p.EndsInToken := by
    intro t p mem
    obtain ⟨run, _, rfl⟩ := List.mem_map.1 mem
    simp only [Piece.EndsInToken, runLabels]
    split <;> simp [Label.isRegional]
  unfold string? at found
  split at found
  · split at found <;> cases found
    · refine List.forall_mem_cons.2 ⟨?_, body _⟩
      simp [Piece.EndsInToken, Label.isRegional]
    · refine List.forall_mem_append.2 ⟨List.forall_mem_cons.2 ⟨?_, body _⟩, ?_⟩
      · simp [Piece.EndsInToken, Label.isRegional]
      · exact List.forall_mem_singleton.2 (by simp [Piece.EndsInToken, Label.isRegional])
  · cases found

theorem endsInToken_nameSlot (found : nameSlot? here w after = some s) :
    ∀ p ∈ s.pieces, p.EndsInToken := by
  simp only [nameSlot?] at found
  repeat' split at found
  all_goals cases found
  all_goals first
    | exact endsInToken_single (by grind)
    | exact endsInToken_heads (by simp [Piece.EndsInToken, Label.isRegional])

theorem endsInToken_keyword (found : keyword? here w after = some s) :
    ∀ p ∈ s.pieces, p.EndsInToken := by
  simp only [keyword?] at found
  split at found
  · cases found
    exact endsInToken_single (by grind)
  · repeat' split at found
    all_goals cases found
    all_goals first
      | exact endsInToken_single (by grind)
      | exact endsInToken_heads (by simp [Piece.EndsInToken, Label.isRegional])
      | exact endsInToken_opening (by simp [Piece.EndsInToken, Label.isRegional])

theorem endsInToken_identifier : ∀ p ∈ (identifier here w after).pieces, p.EndsInToken := by
  have called : ∀ word, (calledName here word).isRegional = false := by
    intro word
    unfold calledName
    split
    · rfl
    · split <;> rfl
  unfold identifier
  split
  · exact endsInToken_opening (by simp [Piece.EndsInToken, called])
  · apply endsInToken_single
    cases Vocabulary.builtin? (String.ofList w) <;> simp [Label.isRegional]

theorem endsInToken_wordStep : ∀ p ∈ (wordStep here w after).pieces, p.EndsInToken := by
  unfold wordStep
  split
  · exact endsInToken_single (by grind)
  · split
    · exact endsInToken_single (by grind)
    · split
      · next found => exact endsInToken_nameSlot found
      · cases found : keyword? (passDistribution here) w after with
        | none => exact endsInToken_identifier
        | some s => exact endsInToken_keyword found

theorem endsInToken_operator (found : operator? here t = some s) :
    ∀ p ∈ s.pieces, p.EndsInToken := by
  unfold operator? at found
  split at found
  · cases found
    exact endsInToken_single (by grind)
  · split at found <;> cases found <;> exact endsInToken_single (by grind)
  · obtain ⟨entry, mem, spelled⟩ := List.exists_of_findSome?_eq_some found
    obtain ⟨rest, _, rfl⟩ := Option.map_eq_some_iff.1 spelled
    have other : ∀ e ∈ operators, e.2.isRegional = false := by decide
    exact endsInToken_single (by simpa using other entry mem)

/-- The labels that a rule gives end with one that no region gives. -/
theorem endsInToken_step? {rule : Rule} (found : step? config assigned here t rule = some s) :
    ∀ p ∈ s.pieces, p.EndsInToken := by
  cases rule with
  | inclusion => exact endsInToken_inclusion found
  | lineComment => exact endsInToken_lineComment found
  | string => exact endsInToken_string found
  | operator => exact endsInToken_operator found
  | word =>
    simp only [step?, word?] at found
    split at found <;> cases found
    exact endsInToken_wordStep
  | sectionHeader =>
    simp only [step?, sectionHeader?] at found
    split at found
    · split at found <;> cases found
      exact endsInToken_opening (by simp [Piece.EndsInToken, Label.isRegional])
    · cases found
  | _ =>
    obtain ⟨w, around, l, pieces, other⟩ := exists_sole (fun l => l.isRegional = false)
      found (by decide) (by decide) fun _ => ⟨rfl, rfl⟩
    exact pieces ▸ List.forall_mem_singleton.2 (by simpa [Piece.EndsInToken] using other)

end Rule

namespace Piece

variable {p q : Piece} {ps qs : List Piece}

/-- Neighbours stand in the same state if both are plain. -/
def Agree (p q : Piece) : Prop := p.isPlain = true → q.isPlain = true → q.around = p.around

theorem Agree.of_labelled (h : p.isPlain = false) : Agree p q := by
  intro plain
  simp [h] at plain

theorem isChain_of_labelled (h : ∀ p ∈ ps, p.isPlain = false) : ps.IsChain Agree := by
  induction ps with
  | nil => exact .nil
  | cons p ps ih =>
    obtain ⟨first, others⟩ := List.forall_mem_cons.1 h
    exact List.isChain_cons.2 ⟨fun _ _ => .of_labelled first, ih others⟩

/-- Joining leaves no two plain pieces side by side. -/
theorem isChain_joinPlain (ps : List Piece) :
    (joinPlain ps).IsChain fun p q => ¬(p.isPlain = true ∧ q.isPlain = true) := by
  induction ps with
  | nil => exact .nil
  | cons p ps ih =>
    rw [joinPlain_cons]
    cases joined : joinPlain ps with
    | nil => exact .singleton p
    | cons q qs =>
      rw [joined] at ih
      obtain ⟨next, later⟩ := List.isChain_cons.1 ih
      rw [join]
      split
      · next both =>
        -- the joined piece meets what the second one met
        have plain : q.isPlain = true := ((Bool.and_eq_true _ _).mp both).2
        exact List.isChain_cons.2 ⟨fun r first both => next r first ⟨plain, both.2⟩, later⟩
      · next apart =>
        refine List.isChain_cons.2 ⟨?_, ih⟩
        rintro r ⟨⟩ both
        simp [both] at apart

/-- Pieces are others that end in a labelled piece, and a run of plain ones behind these. -/
theorem exists_run (ps : List Piece) : ∃ front run, ps = front ++ run ∧
    (∀ p ∈ front.getLast?, p.isPlain = false) ∧ ∀ p ∈ run, p.isPlain = true := by
  induction ps using List.reverseRecOn with
  | nil => exact ⟨[], [], rfl, by simp, by simp⟩
  | append_singleton ps p ih =>
    cases plain : p.isPlain with
    | true =>
      obtain ⟨front, run, rfl, last, all⟩ := ih
      refine ⟨front, run ++ [p], by simp, last, ?_⟩
      exact List.forall_mem_append.2 ⟨all, List.forall_mem_singleton.2 plain⟩
    | false => exact ⟨ps ++ [p], [], by simp, by simpa using plain, by simp⟩

/-- A run of plain pieces in one state is joined to one piece. -/
theorem joinPlain_run {here : LineState} (some_piece : ps ≠ [])
    (plain : ∀ p ∈ ps, p.isPlain = true) (same : ∀ p ∈ ps, p.around = here) :
    joinPlain ps = [⟨texts ps, here, []⟩] := by
  induction ps with
  | nil => exact absurd rfl some_piece
  | cons p ps ih =>
    obtain ⟨first, plain⟩ := List.forall_mem_cons.1 plain
    obtain ⟨rfl, same⟩ := List.forall_mem_cons.1 same
    by_cases none : ps = []
    · subst none
      have own : p.own = [] := List.isEmpty_iff.1 first
      simp [joinPlain, join, ← own]
    · rw [joinPlain_cons, ih none plain same, join, first]
      rfl

/-- Behind a labelled piece nothing is joined to what is in front. -/
theorem joinPlain_append {front : List Piece} (last : ∀ p ∈ front.getLast?, p.isPlain = false)
    (ps : List Piece) : joinPlain (front ++ ps) = joinPlain front ++ joinPlain ps := by
  rcases List.eq_nil_or_concat' front with rfl | ⟨front, p, rfl⟩
  · rfl
  · have labelled : p.isPlain = false := last p (by simp)
    rw [List.append_assoc, List.singleton_append, joinPlain_append_cons labelled,
      joinPlain_append_cons labelled, List.append_assoc]
    rfl

/-- In a run of plain pieces that agree all stand in the state of the last one. -/
theorem around_of_agree (plain : q.isPlain = true) (all : ∀ p ∈ ps, p.isPlain = true)
    (agree : (ps ++ [q]).IsChain Agree) : ∀ p ∈ ps, p.around = q.around := by
  induction ps with
  | nil => simp
  | cons p ps ih =>
    obtain ⟨first, all⟩ := List.forall_mem_cons.1 all
    obtain ⟨next, later⟩ := List.isChain_cons.1 agree
    have same := ih all later
    refine List.forall_mem_cons.2 ⟨?_, same⟩
    cases ps with
    | nil => exact (next q rfl first plain).symm
    | cons r ps =>
      rw [← same r List.mem_cons_self]
      exact (next r rfl first (all r List.mem_cons_self)).symm

/-- A plain piece behind others goes on with the plain piece that they are joined to at their end,
or stands apart where they end in a labelled one. -/
theorem joinPlain_concat (plain : q.isPlain = true) (agree : (ps ++ [q]).IsChain Agree) :
    (∃ front p, joinPlain ps = front ++ [p] ∧ p.isPlain = true ∧ p.around = q.around ∧
      joinPlain (ps ++ [q]) = front ++ [{ p with text := p.text ++ q.text }]) ∨
    (∀ p ∈ (joinPlain ps).getLast?, p.isPlain = false) ∧
      joinPlain (ps ++ [q]) = joinPlain ps ++ [q] := by
  obtain ⟨front, run, rfl, last, all⟩ := exists_run ps
  rw [List.append_assoc] at agree ⊢
  have same := around_of_agree plain all (List.isChain_append.1 agree).2.1
  rw [joinPlain_append last, joinPlain_append last]
  by_cases none : run = []
  · subst none
    refine .inr ⟨fun p ends => ?_, by simp [joinPlain, join]⟩
    have kept := isPlain_getLast?_joinPlain front
    simp only [joinPlain, List.foldr_nil, List.append_nil] at kept ends
    rw [ends] at kept
    obtain ⟨r, at_, eq⟩ := Option.map_eq_some_iff.1 kept.symm
    exact eq ▸ last r at_
  · have longer : joinPlain (run ++ [q]) = [⟨texts (run ++ [q]), q.around, []⟩] := by
      refine joinPlain_run (by simp) ?_ ?_
      · exact List.forall_mem_append.2 ⟨all, List.forall_mem_singleton.2 plain⟩
      · exact List.forall_mem_append.2 ⟨same, List.forall_mem_singleton.2 rfl⟩
    rw [joinPlain_run none all same, longer]
    exact .inl ⟨_, _, rfl, rfl, rfl, by simp⟩

end Piece

namespace Rule

variable {config : Config} {assigned : Bool} {here : LineState} {t : Text} {s : Step} {rule : Rule}

/-- What a rule takes has blanks only in front of a token that it ends with. -/
theorem isChain_step? (found : step? config assigned here t rule = some s) :
    s.pieces.IsChain Piece.Agree ∧ ∀ p ∈ s.pieces.getLast?, p.isPlain = false := by
  have labelled : (∀ p ∈ s.pieces, p.isPlain = false) →
      s.pieces.IsChain Piece.Agree ∧ ∀ p ∈ s.pieces.getLast?, p.isPlain = false := fun all =>
    ⟨Piece.isChain_of_labelled all, fun p last => all p (List.mem_of_getLast? last)⟩
  by_cases literal : rule = .string
  · subst literal
    exact labelled (labelled_string found)
  · cases ordinary_step? literal found with
    | tokens tokens => exact labelled fun p mem => (tokens p mem).isPlain
    | @opening head bracket gap pieces first blank last =>
      rw [pieces, ← List.cons_append, List.getLast?_concat]
      constructor
      · unfold Piece.ofText
        split
        · simpa using .of_labelled first.isPlain
        · simp [Piece.Agree, first.isPlain, last.isPlain]
      · rintro p ⟨⟩
        exact last.isPlain

end Rule

section Lines

variable {lexer : Lexer}

/-- Plain text follows plain text only in the same state. -/
theorem isChain_cutBefore (lexer : Lexer) (ending : Text) (assigned : Bool) (here : LineState) (t : Text) :
    (cutBefore lexer ending assigned here t).IsChain Piece.Agree ∧
      ∀ p ∈ (cutBefore lexer ending assigned here t).head?, p.isPlain = true → p.around = here := by
  induction assigned, here, t using cut_induction lexer with
  | nil assigned here =>
    rw [cutBefore_nil]
    unfold Piece.ofText
    split
    · exact ⟨.nil, by simp⟩
    · exact ⟨.singleton _, by simp⟩
  | step assigned here t s nonempty taken covers ih =>
    obtain ⟨later, first⟩ := ih
    rw [cutBefore_eq nonempty taken]
    rcases Step.take_cases taken with ⟨rule, applies⟩ | ⟨_, rfl⟩
    · obtain ⟨chain, last⟩ := Rule.isChain_step? applies
      constructor
      · refine List.isChain_append.2 ⟨chain, later, fun p ends q _ => ?_⟩
        exact .of_labelled (last p ends)
      · intro p starts plain
        rw [List.head?_append_of_ne_nil _ covers.some_piece] at starts
        simp [Rule.labelled_first applies p starts] at plain
    · constructor
      · exact List.isChain_cons.2 ⟨fun q next _ => first q next, later⟩
      · rintro p ⟨⟩ _
        rfl

theorem endsInToken_of_mem_cut {assigned : Bool} {here : LineState} {t : Text} {p : Piece}
    (mem : p ∈ (cut lexer assigned here t).1) : p.EndsInToken := by
  rcases exists_step_of_mem_cut mem with ⟨rule, _, _, _, s, found, inside⟩ | plain
  · exact Rule.endsInToken_step? found p inside
  · simp [Piece.EndsInToken, plain]

/-- A lexeme is plain text exactly if its last label is that of a region. -/
theorem endsInRegion_of_mem_lexemes {before : LineState} (rooted : Rooted before) {line : Text}
    {l : Lexeme} (mem : l ∈ (lexer.tokenizeLine line before).lexemes) :
    l.endsInRegion = l.isPlain := by
  have joined : l.toPiece ∈ Piece.joinPlain (linePieces lexer line before) := by
    rw [← toPiece_tokenizeLine]
    exact List.mem_map_of_mem mem
  obtain ⟨p, inside, around⟩ := Piece.exists_around_of_mem_joinPlain joined
  have all := ((acts_linePieces lexer line rooted).rests rfl (.inl ⟨rfl, rfl⟩) rooted).2
  refine Piece.endsInRegion_eq_isPlain (around ▸ all p inside) ?_
  cases plain : l.isPlain with
  | true => simp [Piece.EndsInToken, List.isEmpty_iff.1 plain]
  | false =>
    have labelled : l.own ≠ [] := fun none => by simp [Piece.isPlain, none] at plain
    exact endsInToken_of_mem_cut (mem_cut_of_mem_lexemes mem labelled)

theorem Text.stripTerminator_append_of_terminator {content ending : Text}
    (unended : ∀ c ∈ content.getLast?, c ≠ '\r' ∧ c ≠ '\n') (known : ending ∈ [] :: terminators) :
    stripTerminator (content ++ ending) = content := by
  have none : ∀ w ∈ [] :: terminators, stripTerminator w = [] := by decide
  cases last : content.getLast? with
  | none =>
    obtain rfl := List.getLast?_eq_none_iff.1 last
    exact none ending known
  | some c =>
    rw [stripTerminator_append_of_getLast? last (unended c last), none ending known,
      List.append_nil]

/-- A line whose terminator is known. -/
theorem tokenizeLine_terminated {content ending : Text}
    (unended : ∀ c ∈ content.getLast?, c ≠ '\r' ∧ c ≠ '\n')
    (known : ending ∈ [] :: Text.terminators) (before : LineState) :
    lexer.tokenizeLine (content ++ ending) before =
      ⟨Lexeme.place 0 (Piece.joinPlain (cutBefore lexer ending false before content)),
        (cut lexer false before content).2⟩ := by
  have strips := Text.stripTerminator_append_of_terminator unended known
  have left : Text.terminator (content ++ ending) = ending := by
    rw [Text.terminator, strips, List.drop_left]
  rw [tokenizeLine_eq, linePieces, strips, left]
  rfl

/-- A terminator goes on with the plain text in front of it, or stands apart. -/
theorem tokenizeLine_terminator (lexer : Lexer) {content ending : Text}
    (unended : ∀ c ∈ content.getLast?, c ≠ '\r' ∧ c ≠ '\n')
    (known : ending ∈ Text.terminators) (before : LineState) :
    let bare := lexer.tokenizeLine content before
    let ended := lexer.tokenizeLine (content ++ ending) before
    ended.state = bare.state ∧
      ((∃ front m, bare.lexemes = front ++ [m] ∧ m.isPlain = true ∧ m.around = bare.state ∧
          ended.lexemes = front ++ [{ m with text := m.text ++ ending }]) ∨
        (∀ m ∈ bare.lexemes.getLast?, m.isPlain = false) ∧
          ended.lexemes =
            bare.lexemes ++ [⟨⟨ending, bare.state, []⟩, Text.byteLength content⟩]) := by
  intro bare ended
  have some_text : ending ≠ [] := (by decide : ∀ w ∈ Text.terminators, w ≠ []) ending known
  have agree := (isChain_cutBefore lexer ending false before content).1
  have ended_eq : ended = _ := tokenizeLine_terminated unended (List.mem_cons_of_mem _ known) before
  have bare_eq : lexer.tokenizeLine (content ++ []) before = _ :=
    tokenizeLine_terminated unended List.mem_cons_self before
  rw [List.append_nil] at bare_eq
  change bare = _ at bare_eq
  have whole := texts_cut lexer false before content
  simp only [cutBefore, Piece.ofText, List.isEmpty_iff, some_text, if_false, if_true,
    List.append_nil] at agree ended_eq bare_eq
  rw [ended_eq, bare_eq]
  refine ⟨rfl, ?_⟩
  rcases Piece.joinPlain_concat rfl agree with ⟨front, p, joined, plain, around, longer⟩ |
      ⟨last, longer⟩
  · refine .inl ⟨Lexeme.place 0 front, ⟨p, Text.byteLength (Piece.texts front)⟩, ?_⟩
    rw [joined, longer, Lexeme.place_append, Lexeme.place_append, Nat.zero_add]
    exact ⟨rfl, plain, around, rfl⟩
  · refine .inr ⟨?_, ?_⟩
    · intro m ends
      refine last m.toPiece ?_
      rw [← Lexeme.map_toPiece_place 0 (Piece.joinPlain _), List.getLast?_map]
      exact Option.mem_map_of_mem Lexeme.toPiece ends
    · rw [longer, Lexeme.place_append, Piece.texts_joinPlain, whole, Nat.zero_add]
      rfl

/-- No two lexemes of a line that follow each other are plain text. A terminator goes on with the
plain text that the content of the line ends in, or is a lexeme of its own where it ends in a token,
and in either case has the labels of the regions that are open behind the line and no others. -/
theorem plain_runs_maximal (lexer : Lexer) {before : LineState} (reachable : before.Reachable) :
    (∀ line, (lexer.tokenizeLine line before).lexemes.IsChain
      fun l m => ¬(l.endsInRegion = true ∧ m.endsInRegion = true)) ∧
    ∀ content ending : Text, (∀ c ∈ content.getLast?, c ≠ '\r' ∧ c ≠ '\n') →
      ending ∈ Text.terminators →
      let bare := lexer.tokenizeLine content before
      let ended := lexer.tokenizeLine (content ++ ending) before
      ended.state = bare.state ∧ ∃ front l, ended.lexemes = front ++ [l] ∧
        ((∃ m, bare.lexemes = front ++ [m] ∧ m.endsInRegion = true ∧
            l = { m with text := m.text ++ ending }) ∨
          (∀ m ∈ bare.lexemes.getLast?, m.endsInRegion = false) ∧ front = bare.lexemes ∧
            l.text = ending ∧ l.offset = Text.byteLength content) ∧
        l.scope = ended.state.labels ∧ ∀ label ∈ l.scope, label.isRegional = true ∧
          label ∉ [.string, .slashComment, .hashComment, .inclusion] := by
  have rooted := rooted_of_reachable reachable
  constructor
  · intro line
    have chain := Piece.isChain_joinPlain (linePieces lexer line before)
    rw [← toPiece_tokenizeLine, List.isChain_map] at chain
    refine chain.imp_of_mem_imp fun l m first second apart both => apart ?_
    rwa [endsInRegion_of_mem_lexemes rooted first, endsInRegion_of_mem_lexemes rooted second]
      at both
  · intro content ending unended known bare ended
    have kind : ∀ m ∈ bare.lexemes, m.endsInRegion = m.isPlain := fun m mem =>
      endsInRegion_of_mem_lexemes rooted mem
    have regional : ∀ label ∈ ended.state.labels, label.isRegional = true ∧
        label ∉ [.string, .slashComment, .hashComment, .inclusion] := by
      intro label mem
      have given := LineState.isRegional_of_mem_labels label mem
      refine ⟨given, fun other => ?_⟩
      have none : ∀ l ∈ [Label.string, .slashComment, .hashComment, .inclusion],
          l.isRegional = false := by decide
      simp [none label other] at given
    have scope : ∀ p : Piece, p.isPlain = true → p.around = ended.state →
        p.scope = ended.state.labels := by
      intro p plain around
      rw [Piece.scope, around, List.isEmpty_iff.1 plain, List.append_nil]
    obtain ⟨state, cases⟩ := tokenizeLine_terminator lexer unended known before
    refine ⟨state, ?_⟩
    rcases cases with ⟨front, m, lexemes, plain, around, longer⟩ | ⟨last, longer⟩
    · have same := scope { m.toPiece with text := m.text ++ ending } plain (around.trans state.symm)
      refine ⟨front, _, longer, .inl ⟨m, lexemes, ?_, rfl⟩, same, same ▸ regional⟩
      rwa [kind m (by rw [lexemes]; simp)]
    · have same := scope ⟨ending, bare.state, []⟩ rfl state.symm
      refine ⟨_, _, longer, .inr ⟨fun m ends => ?_, rfl, rfl, rfl⟩, same, same ▸ regional⟩
      rw [kind m (List.mem_of_getLast? ends)]
      exact last m ends

/-- Blanks behind a statement of a model, in front of a terminator of two characters. -/
theorem plain_runs_maximal_in_model :
    let lexer : Lexer := ⟨{}, by decide, .prepending⟩
    let s := (lexer.tokenizeLine "model \x7b".toList .initial).state
    let content := "y  = 1;  ".toList
    let ended := lexer.tokenizeLine (content ++ ['\r', '\n']) s
    (s.Reachable ∧ (∀ c ∈ content.getLast?, c ≠ '\r' ∧ c ≠ '\n') ∧
        ['\r', '\n'] ∈ Text.terminators) ∧
      ended.lexemes.IsChain (fun l m => ¬(l.endsInRegion = true ∧ m.endsInRegion = true)) ∧
      ended.state = (lexer.tokenizeLine content s).state ∧
      ended.lexemes.getLast? = some ⟨⟨"  \r\n".toList, s, []⟩, 7⟩ := by
  intro lexer s content ended
  have reachable : s.Reachable := .line _ Segmentation.prepending_partsAscii _ .initial
  have unended : ∀ c ∈ content.getLast?, c ≠ '\r' ∧ c ≠ '\n' := by
    have last : content.getLast? = some ' ' := by decide
    simp [last]
  have known : ['\r', '\n'] ∈ Text.terminators := by decide
  obtain ⟨chain, joins⟩ := plain_runs_maximal lexer reachable
  exact ⟨⟨reachable, unended, known⟩, chain _, (joins content _ unended known).1, by decide +kernel⟩

end Lines

end StanHighlight

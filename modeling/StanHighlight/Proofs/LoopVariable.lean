import StanHighlight.Proofs.LookUp
import StanHighlight.Proofs.NameOnce

/-!
The variable in the header of a `for` loop. The header keeps a place for it, which is filled by the
first name that stands directly in the header, and by nothing else. As long as the header is open,
its variables are counted by what becomes of the place: one if it gets filled and none otherwise.
The keyword `in` does not fill the place, so in a header without a variable in front of it a name
behind it is taken for the variable.
-/

namespace StanHighlight

/-- Whether the loop variable has been named, if the region that lies on so many others is the
header of a `for` loop. -/
def LineState.namedAt? (d : Nat) (s : LineState) : Option Bool :=
  match s.stack[d]? with
  | some (.control .forLoop _ named) => some named
  | _ => none

/-- The loop variables that some steps cut directly in the region that lies on so many others. -/
def loopVariablesAt (d : Nat) (ss : List Step) : List Piece :=
  (ss.flatMap Step.pieces).filter fun p => p.own.contains .loopVariable && p.around.depth == d

section Stretch

variable {d : Nat} {here there : LineState} {s : Step} {ss : List Step} {named : Bool}

@[simp] theorem loopVariablesAt_nil : loopVariablesAt d [] = [] := rfl

theorem loopVariablesAt_append (ss ss' : List Step) :
    loopVariablesAt d (ss ++ ss') = loopVariablesAt d ss ++ loopVariablesAt d ss' := by
  simp [loopVariablesAt]

theorem loopVariablesAt_eq_nil (h : ∀ p ∈ s.pieces, .loopVariable ∈ p.own → p.around.depth ≠ d) :
    loopVariablesAt d [s] = [] := by
  rw [loopVariablesAt, List.flatMap_singleton, List.filter_eq_nil_iff]
  intro p mem
  simpa using h p mem

theorem Piece.IsUnnamed.notMem {p : Piece} (h : p.IsUnnamed) : .loopVariable ∉ p.own := fun mem =>
  List.any_eq_false.1 h _ mem rfl

theorem loopVariablesAt_of_unnamed (h : ∀ p ∈ s.pieces, p.IsUnnamed) :
    loopVariablesAt d [s] = [] :=
  loopVariablesAt_eq_nil fun p mem variable_ => absurd variable_ (h p mem).notMem

/-- The header of a loop stays the header of a loop, and keeps what it knows of its variable. -/
theorem Region.Grows.eq_control {r r' : Region} {opened : Bool} (h : r.Grows r')
    (header : r = .control .forLoop opened named) :
    ∃ opened', r' = .control .forLoop opened' named := by
  cases h with
  | same => exact ⟨opened, header⟩
  | header waits =>
    cases waits with
    | control kind named' =>
      cases header
      exact ⟨true, rfl⟩
    | function => cases header
  | passed => cases header

/-- Only the variable is a name in the header of a loop. -/
theorem Region.Names.of_control {opened : Bool} {r' : Region} {own : List Label}
    (h : Names (.control .forLoop opened named) r' own) :
    named = false ∧ r' = .control .forLoop true true ∧ own = [.loopVariable] := by
  cases h
  exact ⟨rfl, rfl, rfl⟩

theorem exists_of_namedAt? (header : here.namedAt? d = some named) :
    ∃ opened, here.stack[d]? = some (.control .forLoop opened named) := by
  unfold LineState.namedAt? at header
  split at header
  · next opened named' found =>
    cases header
    exact ⟨opened, found⟩
  · cases header

theorem namedAt?_eq_some {opened : Bool}
    (h : here.stack[d]? = some (.control .forLoop opened named)) :
    here.namedAt? d = some named := by
  rw [LineState.namedAt?, h]

/-- Where the innermost region is exchanged and others are opened in it, a region lies below it or
is the one that is exchanged. -/
theorem getElem?_exchange {below : List Region} {r q : Region} (above : List Region) (r' : Region)
    (found : (below ++ [r])[d]? = some q) :
    d < below.length ∧ (below ++ r' :: above)[d]? = some q ∨
      d = below.length ∧ r = q ∧ (below ++ r' :: above)[d]? = some r' := by
  have bound := (List.getElem?_eq_some_iff.1 found).1
  rw [List.length_append, List.length_singleton] at bound
  rcases Nat.lt_or_eq_of_le (Nat.le_of_lt_succ bound) with inside | rfl
  · rw [List.getElem?_append_left inside] at found
    exact .inl ⟨inside, by rwa [List.getElem?_append_left inside]⟩
  · exact .inr ⟨rfl, by simpa using found, by simp⟩

theorem LineState.length_stack (s : LineState) : s.stack.length = s.depth + 1 := by
  simp [stack, frames, depth]

/-- Behind a step that names no variable, one is waited for as before. -/
theorem namedAt?_of_quiet (quiet : loopVariablesAt d [s] = [])
    (kept : d ≤ s.after.depth → s.after.namedAt? d = some named) :
    (s.after.depth < d → loopVariablesAt d [s] = []) ∧
      (d ≤ s.after.depth → ∃ named', s.after.namedAt? d = some named' ∧
        (loopVariablesAt d [s]).length + named.toNat = named'.toNat) :=
  ⟨fun _ => quiet, fun inside => ⟨named, kept inside, by rw [quiet]; simp⟩⟩

section Named

variable {p : Piece} {ps : List Piece} (pieces : s.pieces = p :: ps)
  (unnamed : ∀ q ∈ ps, q.IsUnnamed)
include pieces unnamed

/-- The name of one region is no variable of another. -/
theorem loopVariablesAt_of_depth_ne (other : p.around.depth ≠ d) : loopVariablesAt d [s] = [] := by
  refine loopVariablesAt_eq_nil fun q mem variable_ => ?_
  rw [pieces] at mem
  rcases List.mem_cons.1 mem with rfl | later
  · exact other
  · exact absurd variable_ (unnamed q later).notMem

theorem loopVariablesAt_of_own (own : p.own = [.loopVariable]) :
    loopVariablesAt p.around.depth [s] = [p] := by
  have others : (ps.filter fun q => q.own.contains .loopVariable &&
      q.around.depth == p.around.depth) = [] := by
    refine List.filter_eq_nil_iff.2 fun q mem => ?_
    simp [(unnamed q mem).notMem]
  rw [loopVariablesAt, List.flatMap_singleton, pieces, List.filter_cons, others]
  simp [own]

end Named

/-- A step that leaves the header open cuts a variable of it exactly if it fills the place. One
that closes the header cuts none. -/
theorem Turn.namedAt? (turn : Turn here s) (header : here.namedAt? d = some named) :
    (s.after.depth < d → loopVariablesAt d [s] = []) ∧
      (d ≤ s.after.depth → ∃ named', s.after.namedAt? d = some named' ∧
        (loopVariablesAt d [s]).length + named.toNat = named'.toNat) := by
  obtain ⟨opened, found⟩ := exists_of_namedAt? header
  cases turn with
  | close unnamed closed =>
    refine namedAt?_of_quiet (loopVariablesAt_of_unnamed unnamed) fun inside => ?_
    obtain ⟨more, whole⟩ := List.reverse_prefix.2 closed
    rw [← LineState.stack_eq_reverse, ← LineState.stack_eq_reverse] at whole
    have size := s.after.length_stack
    rw [← whole, List.getElem?_append_left (by omega)] at found
    exact namedAt?_eq_some found
  | @grow above r unnamed grows regions =>
    refine namedAt?_of_quiet (loopVariablesAt_of_unnamed unnamed) fun _ => ?_
    obtain ⟨below, size, stack, stack'⟩ := stack_of_regions regions
    rw [stack] at found
    rcases getElem?_exchange above.reverse r found with ⟨_, same⟩ | ⟨_, top, same⟩
    · exact namedAt?_eq_some (stack' ▸ same)
    · obtain ⟨opened', rfl⟩ := grows.eq_control top
      exact namedAt?_eq_some (stack' ▸ same)
  | @name above p ps pieces fills depth unnamed regions =>
    obtain ⟨below, size, stack, stack'⟩ := stack_of_regions regions
    rw [stack] at found
    rcases getElem?_exchange above.reverse p.around.innermost found with
      ⟨inside, same⟩ | ⟨rfl, top, same⟩
    · -- The name is one of another region, which lies above the header.
      have quiet : loopVariablesAt d [s] = [] :=
        loopVariablesAt_of_depth_ne pieces unnamed (by omega)
      exact namedAt?_of_quiet quiet fun _ => namedAt?_eq_some (stack' ▸ same)
    · rw [top] at fills
      obtain ⟨rfl, filled, own⟩ := fills.of_control
      rw [← stack', filled] at same
      have one := loopVariablesAt_of_own pieces unnamed own
      rw [depth, ← size] at one
      have bound := s.after.length_stack
      rw [stack', List.length_append, List.length_cons] at bound
      refine ⟨fun closed => absurd closed (by omega), fun _ => ⟨true, namedAt?_eq_some same, ?_⟩⟩
      rw [one]
      rfl

/-- While the header of a loop is open, its variables are counted by what becomes of the place. -/
theorem StepRow.namedAt? (row : StepRow Turn here ss there) (header : here.namedAt? d = some named)
    (stays : ∀ s ∈ ss, d ≤ s.after.depth) :
    ∃ named', there.namedAt? d = some named' ∧
      (loopVariablesAt d ss).length + named.toNat = named'.toNat := by
  induction row generalizing named with
  | nil => exact ⟨named, header, by simp⟩
  | @cons here there s ss turn more ih =>
    obtain ⟨open_, later⟩ := List.forall_mem_cons.1 stays
    obtain ⟨middle, header', first⟩ := (turn.namedAt? header).2 open_
    obtain ⟨last, header'', rest⟩ := ih header' later
    refine ⟨last, header'', ?_⟩
    rw [← List.singleton_append, loopVariablesAt_append, List.length_append]
    omega

/-- A header whose variable has been named gets no other one until it is closed. -/
theorem StepRow.loopVariablesAt_eq_nil (row : StepRow Turn here ss there)
    (header : here.namedAt? d = some true) (stays : ∀ s ∈ ss.dropLast, d ≤ s.after.depth) :
    loopVariablesAt d ss = [] := by
  have none : ∀ {qs : List Step} {there : LineState}, StepRow Turn here qs there →
      (∀ s ∈ qs, d ≤ s.after.depth) →
        loopVariablesAt d qs = [] ∧ there.namedAt? d = some true := by
    intro qs there row stays
    obtain ⟨named', header', count⟩ := row.namedAt? header stays
    cases named' with
    | true => exact ⟨List.length_eq_zero_iff.1 (by simpa using count), header'⟩
    | false => simp at count
  rcases List.eq_nil_or_concat ss with rfl | ⟨qs, last, rfl⟩
  · rfl
  · rw [List.concat_eq_append] at row stays ⊢
    rw [List.dropLast_concat] at stays
    obtain ⟨middle, front, back⟩ := row.of_append
    obtain ⟨quiet, header'⟩ := none front stays
    rw [loopVariablesAt_append, quiet, List.nil_append]
    cases back with
    | cons turn _ =>
      rcases Nat.lt_or_ge last.after.depth d with closed | open_
      · exact (turn.namedAt? header').1 closed
      · obtain ⟨named', _, count⟩ := (turn.namedAt? header').2 open_
        cases named' with
        | true => exact List.length_eq_zero_iff.1 (by simpa using count)
        | false => simp at count

theorem StepRow.after_last {P : LineState → Step → Prop} (row : StepRow P here (s :: ss) there)
    {last : Step} (ends : (s :: ss).getLast? = some last) : there = last.after := by
  induction ss generalizing here s with
  | nil =>
    cases ends
    cases row with
    | cons _ more =>
      cases more
      rfl
  | cons q ss ih =>
    cases row with
    | cons _ more => exact ih more (by rwa [List.getLast?_cons_cons] at ends)

theorem LineState.stack_depth (s : LineState) : s.stack[s.depth]? = some s.innermost := by
  rw [stack_eq_reverse, regions_eq_cons, List.reverse_cons]
  have size : s.regions.tail.reverse.length = s.depth := by simp [regions, frames, depth]
  rw [← size, List.getElem?_concat_length]

end Stretch

/-- What follows a control keyword, such as `in`, that stands directly in the header of a loop. If
the variable has been named in front of the keyword, no other name is taken for it as long as the
header is open. Otherwise one is, namely if the place is filled behind the keyword while the header
is open: so it is the state at the keyword and no word behind it that decides whether a loop
variable may follow. All labelled lexemes of the run are cut by its steps. -/
theorem loopVariables_behind_keyword (lexer : Lexer) (lines : List Text)
    {front stretch back : List Step} {s : Step} {p : Piece} {opened named : Bool}
    (run : lexer.steps .initial lines = front ++ s :: (stretch ++ back)) (mem : p ∈ s.pieces)
    (keyword : .controlKeyword ∈ p.own) (header : p.around.innermost = .control .forLoop opened named)
    (stays : ∀ q ∈ stretch.dropLast, p.around.depth ≤ q.after.depth) :
    ((lexer.lexemes .initial lines).map Lexeme.toPiece).filter (fun p => !p.isPlain) =
        ((lexer.steps .initial lines).flatMap Step.pieces).filter (fun p => !p.isPlain) ∧
      (named = true → loopVariablesAt p.around.depth stretch = []) ∧
      (named = false → ∀ last, (s :: stretch).getLast? = some last →
        p.around.depth ≤ last.after.depth →
          (loopVariablesAt p.around.depth stretch ≠ [] ↔
            last.after.namedAt? p.around.depth = some true)) := by
  have row := lexer.stepRow_steps .initial (fun _ _ _ _ => turn_take) lines
  have suited : ∀ q ∈ lexer.steps .initial lines, q.Suited := fun q inside =>
    ((lexer.stepRow_steps .initial (P := fun _ q => q.Suited) (fun _ _ _ _ => suited_take)
      lines).exists_of_mem inside).elim fun _ found => found
  -- The keyword is a step of its own, so what is open behind it is what is open around it.
  have alone : s = .single p.around [.controlKeyword] p.text s.rest :=
    suited s (by rw [run]; simp) p mem _ keyword
  have after : s.after = p.around := by rw [alone]; rfl
  have open_ : s.after.namedAt? p.around.depth = some named := by
    rw [after]
    exact namedAt?_eq_some (by rw [LineState.stack_depth, header])
  rw [run] at row
  obtain ⟨_, _, row⟩ := row.of_append
  obtain ⟨turn, row⟩ : Turn _ s ∧ StepRow Turn s.after (stretch ++ back) _ := by
    cases row with
    | cons turn more => exact ⟨turn, more⟩
  obtain ⟨there, row, _⟩ := row.of_append
  refine ⟨lexer.labelled_lexemes .initial lines, ?_, ?_⟩
  · rintro rfl
    exact row.loopVariablesAt_eq_nil open_ stays
  · rintro rfl last ends inside
    have same : there = last.after := (StepRow.cons turn row).after_last ends
    have all : ∀ q ∈ stretch, p.around.depth ≤ q.after.depth := by
      rcases List.eq_nil_or_concat stretch with rfl | ⟨qs, q, rfl⟩
      · exact nofun
      · rw [List.concat_eq_append] at stays ends ⊢
        rw [List.dropLast_concat] at stays
        rw [← List.cons_append, List.getLast?_concat] at ends
        cases ends
        exact List.forall_mem_append.2 ⟨stays, List.forall_mem_singleton.2 inside⟩
    obtain ⟨named', header', count⟩ := row.namedAt? open_ all
    rw [← same, header', ← List.length_pos_iff]
    cases named' with
    | true =>
      have one : (loopVariablesAt p.around.depth stretch).length = 1 := by simpa using count
      simp [one]
    | false =>
      have none : (loopVariablesAt p.around.depth stretch).length = 0 := by simpa using count
      simp [none]

/-- A header that goes on behind a line break, with its variable in front of that. -/
theorem loopVariables_behind_line_break :
    let lexer : Lexer := ⟨{}, by decide, .prepending⟩
    let lines := ["for (i\n".toList, "  in 1:n) x".toList]
    let ss := lexer.steps .initial lines
    let header := LineState.initial.enter (.control .forLoop true true)
    let keyword : Step := ⟨[⟨"in".toList, header, [.controlKeyword]⟩], header, " 1:n) x".toList⟩
    let stretch := (ss.drop 7).take 5
    (ss = ss.take 6 ++ keyword :: (stretch ++ ss.drop 12) ∧
      ∀ q ∈ stretch.dropLast, header.depth ≤ q.after.depth) ∧
      loopVariablesAt header.depth stretch = [] := by
  intro lexer lines ss header keyword stretch
  have run : ss = ss.take 6 ++ keyword :: (stretch ++ ss.drop 12) := by decide +kernel
  have stays : ∀ q ∈ stretch.dropLast, header.depth ≤ q.after.depth := by decide +kernel
  exact ⟨⟨run, stays⟩, (loopVariables_behind_keyword lexer lines run (List.mem_singleton_self _)
    (List.mem_singleton_self _) rfl stays).2.1 rfl⟩

/-- In a header without a variable the name behind `in` is taken for one. -/
theorem loopVariable_behind_in :
    let lexer : Lexer := ⟨{}, by decide, .prepending⟩
    let line := "for (in x)".toList
    let header (named : Bool) := LineState.initial.enter (.control .forLoop true named)
    let keyword : Piece := ⟨"in".toList, header false, [.controlKeyword]⟩
    let name : Piece := ⟨['x'], header true, [.loopVariable]⟩
    let stretch : List Step := [⟨[⟨[' '], header false, []⟩], header false, "x)".toList⟩,
      ⟨[name], header true, [')']⟩]
    (∃ front back, lexer.steps .initial [line] =
        front ++ ⟨[keyword], header false, " x)".toList⟩ :: (stretch ++ back)) ∧
      (∀ q ∈ stretch, keyword.around.depth ≤ q.after.depth) ∧
      loopVariablesAt keyword.around.depth stretch = [name] ∧
      ⟨keyword, 5⟩ ∈ (lexer.tokenizeLine line .initial).lexemes ∧
      ⟨name, 8⟩ ∈ (lexer.tokenizeLine line .initial).lexemes := by
  intro lexer line header keyword name stretch
  refine ⟨⟨(lexer.steps .initial [line]).take 3, (lexer.steps .initial [line]).drop 6, ?_⟩, ?_⟩
  · decide +kernel
  · decide +kernel

end StanHighlight

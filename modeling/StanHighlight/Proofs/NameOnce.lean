import StanHighlight.Proofs.Naming
import StanHighlight.Proofs.StepPieces
import StanHighlight.Proofs.Steps

/-!
One name for each place. A step closes some of the innermost regions, or it keeps the innermost
region and may open others in it, or it fills the place that the innermost region keeps for a name.
A region whose place is filled keeps it filled. So as long as a region is open it gets at most one
name, whatever is opened and closed in it meanwhile and however many lines that takes.
-/

namespace StanHighlight

namespace Region

def awaitsName : Region → Bool
  | declaration named | functionDeclaration named _ | control .forLoop _ named => !named
  | sampling filled => !filled
  | _ => false

theorem Names.awaitsName {r r' : Region} {own : List Label} (h : Names r r' own) :
    r.awaitsName = true ∧ r'.awaitsName = false := by
  cases h <;> exact ⟨rfl, rfl⟩

theorem Heads.awaitsName {r r' : Region} {e : Enclosure} (h : Heads r r' e) :
    r'.awaitsName = r.awaitsName := by
  cases h with
  | control kind named => cases kind <;> rfl
  | function named => rfl

/-- What the innermost region becomes where others are opened in it, or as it loses the place that
it keeps for a distribution. -/
inductive Grows : Region → Region → Prop
  | same (r : Region) : Grows r r
  | header {r r' : Region} {e : Enclosure} (waits : Heads r r' e) : Grows r r'
  | passed : Grows (.sampling false) (.sampling true)

theorem Grows.awaitsName {r r' : Region} (h : Grows r r') (awaits : r'.awaitsName = true) :
    r.awaitsName = true := by
  cases h with
  | same => exact awaits
  | header waits => rwa [← waits.awaitsName]
  | passed => cases awaits

end Region

def Piece.IsUnnamed (p : Piece) : Prop := p.own.any Label.isNaming = false

/-- What a step does to the open regions, and which names it cuts. -/
inductive Turn (here : LineState) (s : Step) : Prop
  | close (unnamed : ∀ p ∈ s.pieces, p.IsUnnamed) (closed : s.after.regions <:+ here.regions)
  | grow (above : List Region) {r : Region} (unnamed : ∀ p ∈ s.pieces, p.IsUnnamed)
      (grows : here.innermost.Grows r)
      (regions : s.after.regions = above ++ r :: here.regions.tail)
  | name (above : List Region) {p : Piece} {ps : List Piece} (pieces : s.pieces = p :: ps)
      (fills : here.innermost.Names p.around.innermost p.own) (depth : p.around.depth = here.depth)
      (unnamed : ∀ q ∈ ps, q.IsUnnamed)
      (regions : s.after.regions = above ++ p.around.innermost :: here.regions.tail)

namespace Turn

variable {here : LineState} {s : Step}

theorem keep (unnamed : ∀ p ∈ s.pieces, p.IsUnnamed) (same : s.after.regions = here.regions) :
    Turn here s := .close unnamed (same ▸ List.suffix_rfl)

theorem enter {r : Region} (unnamed : ∀ p ∈ s.pieces, p.IsUnnamed)
    (opened : s.after = here.enter r) : Turn here s :=
  .grow [r] unnamed (.same _) (opened ▸ rfl)

end Turn

namespace Rule

variable {config : Config} {assigned : Bool} {here : LineState} {t w after rest : Text} {s : Step}
  {own : List Label}

theorem unnamed_ofText {around : LineState} (h : own.any Label.isNaming = false) :
    ∀ p ∈ Piece.ofText t around own, p.IsUnnamed := by
  intro p mem
  unfold Piece.ofText at mem
  split at mem
  · cases mem
  · rw [List.mem_singleton.1 mem]
    exact h

theorem unnamed_delimitedName {start close : Char} {style : FileName} :
    ∀ p ∈ (delimitedName here start close style t).1, p.IsUnnamed := by
  have name : ∀ p ∈ Piece.ofText (t.takeWhile (· != close)) here [.inclusion, .fileName style],
      p.IsUnnamed := unnamed_ofText rfl
  unfold delimitedName
  split
  · exact List.forall_mem_cons.2 ⟨rfl, name⟩
  · exact List.forall_mem_append.2
      ⟨List.forall_mem_cons.2 ⟨rfl, name⟩, List.forall_mem_singleton.2 rfl⟩

theorem unnamed_fileName : ∀ p ∈ (fileName here t).1, p.IsUnnamed := by
  unfold fileName
  split
  · exact nofun
  · exact unnamed_delimitedName
  · exact unnamed_delimitedName
  · exact unnamed_delimitedName
  · exact unnamed_ofText rfl

theorem turn_single (unnamed : own.any Label.isNaming = false) :
    Turn here (.single here own w rest) :=
  .keep (List.forall_mem_singleton.2 unnamed) rfl

theorem turn_inclusion (found : include? here t = some s) : Turn here s := by
  unfold include? at found
  split at found
  · cases found
  · split at found
    · cases found
      refine .keep (List.forall_mem_cons.2 ⟨rfl, ?_⟩) rfl
      exact List.forall_mem_append.2 ⟨unnamed_ofText rfl, unnamed_fileName⟩
    · cases found

theorem turn_lineComment (found : lineComment? here t = some s) : Turn here s := by
  unfold lineComment? at found
  split at found <;> cases found
  · exact .keep (List.forall_mem_cons.2 ⟨rfl, unnamed_ofText rfl⟩) rfl
  · exact .keep (List.forall_mem_cons.2 ⟨rfl, unnamed_ofText rfl⟩) rfl

theorem turn_string (found : string? config here t = some s) : Turn here s := by
  have body : ∀ t : Text, ∀ p ∈ bodyPieces config here t, p.IsUnnamed := by
    intro t p mem
    obtain ⟨run, _, rfl⟩ := List.mem_map.1 mem
    simp only [Piece.IsUnnamed, runLabels]
    split <;> rfl
  unfold string? at found
  split at found
  · split at found <;> cases found
    · exact .keep (List.forall_mem_cons.2 ⟨rfl, body _⟩) rfl
    · exact .keep (List.forall_mem_append.2
        ⟨List.forall_mem_cons.2 ⟨rfl, body _⟩, List.forall_mem_singleton.2 rfl⟩) rfl
  · cases found

theorem turn_sectionHeader (found : sectionHeader? here t = some s) : Turn here s := by
  unfold sectionHeader? at found
  split at found
  · split at found <;> cases found
    refine .enter (List.forall_mem_cons.2 ⟨rfl, ?_⟩) rfl
    exact List.forall_mem_append.2 ⟨unnamed_ofText rfl, List.forall_mem_singleton.2 rfl⟩
  · cases found

theorem unnamed_close {bracket : Char} {stray : Enclosure} :
    ∀ p ∈ (close here bracket stray rest).pieces, p.IsUnnamed := by
  unfold Rule.close
  split
  · split <;> exact List.forall_mem_singleton.2 rfl
  · exact List.forall_mem_singleton.2 rfl

theorem turn_closer (found : closer? here t = some s) : Turn here s := by
  refine .close ?_ (regions_closer_suffix found)
  unfold closer? at found
  split at found <;> cases found <;> exact unnamed_close

theorem turn_terminator (found : terminator? here t = some s) : Turn here s := by
  refine .close ?_ (regions_terminator_suffix found)
  unfold terminator? at found
  split at found <;> cases found
  exact List.forall_mem_singleton.2 rfl

/-- A parenthesis opens a region or the header that waits for it. -/
theorem regions_openParen (here : LineState) : ∃ above r,
    (openParen here).1.regions = above ++ r :: here.regions.tail ∧ here.innermost.Grows r := by
  unfold openParen
  split
  · next kind named waits =>
    exact ⟨[], .control kind true named, rfl, waits ▸ .header (.control kind named)⟩
  · next named waits =>
    exact ⟨[], .functionDeclaration named true, rfl, waits ▸ .header (.function named)⟩
  · exact ⟨[.parens], here.innermost, rfl, .same _⟩

theorem turn_opener (found : opener? assigned here t = some s) : Turn here s := by
  unfold opener? at found
  split at found <;> cases found
  · obtain ⟨above, r, regions, grows⟩ := regions_openParen here
    exact .grow above (List.forall_mem_singleton.2 rfl) grows regions
  · exact .enter (List.forall_mem_singleton.2 rfl) rfl
  · unfold openBrace
    split
    · exact .enter (List.forall_mem_singleton.2 rfl) rfl
    · exact .enter (List.forall_mem_singleton.2 rfl) rfl

theorem turn_operator (found : operator? here t = some s) : Turn here s := by
  refine .keep ?_ (regions_operator found)
  unfold operator? at found
  split at found
  · cases found
    exact List.forall_mem_singleton.2 rfl
  · split at found <;> cases found <;> exact List.forall_mem_singleton.2 rfl
  · obtain ⟨entry, mem, spelled⟩ := List.exists_of_findSome?_eq_some found
    obtain ⟨rest, _, rfl⟩ := Option.map_eq_some_iff.1 spelled
    have others : ∀ e ∈ operators, [e.2].any Label.isNaming = false := by decide
    exact List.forall_mem_singleton.2 (others entry mem)

/-- The pieces behind the head of a region in parentheses, and what is open behind them. -/
theorem pieces_heads (head : Piece) (r : Region) (e : Enclosure) (after : Text) :
    ∃ ps above, (heads head (head.around.enter r) e after).pieces = head :: ps ∧
      (∀ p ∈ ps, p.IsUnnamed) ∧
      (heads head (head.around.enter r) e after).after.regions = above ++ head.around.regions := by
  unfold heads
  split
  · refine ⟨_, [r], rfl, ?_, rfl⟩
    exact List.forall_mem_append.2 ⟨unnamed_ofText rfl, List.forall_mem_singleton.2 rfl⟩
  · exact ⟨[], [], rfl, nofun, rfl⟩

theorem turn_name {r r' : Region} (slot : here.innermost = r) (names : r.Names r' own) :
    Turn here (.single (here.become r') own w rest) :=
  .name [] rfl (slot ▸ names) rfl nofun rfl

theorem turn_nameSlot (found : nameSlot? here w after = some s) : Turn here s := by
  simp only [nameSlot?] at found
  split at found
  · next slot =>
    split at found
    · cases found
      exact turn_single rfl
    · split at found <;> cases found
      exact turn_name slot .variable
  · next slot =>
    split at found <;> cases found
    exact turn_name slot .function
  · repeat' split at found
    all_goals cases found
    all_goals exact turn_single rfl
  · next slot =>
    split at found <;> cases found
    exact turn_name slot .loop
  · split at found <;> cases found
    exact turn_single rfl
  · next slot =>
    split at found <;> cases found
    have named := Region.Names.distribution (Vocabulary.isDistribution (String.ofList w))
    obtain ⟨ps, above, pieces, unnamed, regions⟩ := pieces_heads
      ⟨w, here.become (.sampling true), [.distributionCall,
        if Vocabulary.isDistribution (String.ofList w) then .knownDistribution
          else .distributionName]⟩ (.call .distribution) .arguments after
    exact .name above pieces (slot ▸ named) rfl unnamed regions
  · cases found

/-- A keyword that is not taken for a name leaves the place of a distribution filled. -/
theorem regions_passDistribution (here : LineState) : ∃ r,
    (passDistribution here).regions = r :: here.regions.tail ∧ here.innermost.Grows r := by
  unfold passDistribution
  split
  · next slot => exact ⟨.sampling true, rfl, slot ▸ .passed⟩
  · exact ⟨here.innermost, rfl, .same _⟩

theorem turn_passed (above : List Region) (unnamed : ∀ p ∈ s.pieces, p.IsUnnamed)
    (regions : s.after.regions = above ++ (passDistribution here).regions) : Turn here s := by
  obtain ⟨r, passed, grows⟩ := regions_passDistribution here
  exact .grow above unnamed grows (regions.trans (congrArg _ passed))

theorem turn_heads {head : Piece} {r : Region} {e : Enclosure} (unnamed : head.IsUnnamed)
    (passed : head.around = passDistribution here) :
    Turn here (heads head ((passDistribution here).enter r) e after) := by
  rw [← passed]
  obtain ⟨ps, above, pieces, others, regions⟩ := pieces_heads head r e after
  refine turn_passed above ?_ (by rw [regions, passed])
  rw [pieces]
  exact List.forall_mem_cons.2 ⟨unnamed, others⟩

theorem turn_keyword (found : keyword? (passDistribution here) w after = some s) :
    Turn here s := by
  have single : ∀ own, own.any Label.isNaming = false →
      Turn here (.single (passDistribution here) own w after) := fun own unnamed =>
    turn_passed [] (List.forall_mem_singleton.2 unnamed) rfl
  simp only [keyword?] at found
  split at found
  · cases found
    split
    · exact turn_passed [_] (List.forall_mem_singleton.2 rfl) rfl
    · exact single _ rfl
  · repeat' split at found
    all_goals cases found
    all_goals first
      | exact single _ rfl
      | exact turn_heads rfl rfl
      | exact turn_passed [_] (List.forall_mem_cons.2
          ⟨rfl, List.forall_mem_singleton.2 rfl⟩) rfl

theorem turn_identifier : Turn here (identifier (passDistribution here) w after) := by
  unfold identifier
  split
  · have called : ∀ there, [Label.functionCall, calledName there (String.ofList w)].any
        Label.isNaming = false := by
      intro there
      rw [List.any_cons, List.any_cons, Label.isNaming_of_isFree (isFree_calledName _)]
      rfl
    exact turn_passed [_] (List.forall_mem_cons.2
      ⟨called _, List.forall_mem_singleton.2 rfl⟩) rfl
  · refine turn_passed [] (List.forall_mem_singleton.2 ?_) rfl
    cases Vocabulary.builtin? (String.ofList w) <;> rfl

theorem turn_wordStep : Turn here (wordStep here w after) := by
  unfold wordStep
  split
  · exact turn_single rfl
  · split
    · exact turn_single rfl
    · split
      · next found => exact turn_nameSlot found
      · cases found : keyword? (passDistribution here) w after with
        | none => exact turn_identifier
        | some s => exact turn_keyword found

/-- Every rule takes such a turn. -/
theorem turn_step? {rule : Rule} (found : step? config assigned here t rule = some s) :
    Turn here s := by
  cases rule with
  | inclusion => exact turn_inclusion found
  | lineComment => exact turn_lineComment found
  | sectionHeader => exact turn_sectionHeader found
  | string => exact turn_string found
  | terminator => exact turn_terminator found
  | opener => exact turn_opener found
  | closer => exact turn_closer found
  | operator => exact turn_operator found
  | word =>
    simp only [step?, word?] at found
    split at found <;> cases found
    exact turn_wordStep
  | initializer =>
    obtain ⟨rest, _, rfl⟩ := Option.map_eq_some_iff.1 found
    exact .enter (List.forall_mem_singleton.2 rfl) rfl
  | constraintEquals =>
    obtain ⟨rest, _, rfl⟩ := Option.map_eq_some_iff.1 found
    exact turn_single rfl
  | blockCommentEnd | constraintsEnd =>
    simp only [step?] at found
    first
      | unfold blockCommentEnd? at found
      | unfold constraintsEnd? at found
    repeat' split at found
    all_goals cases found
    all_goals exact .close (List.forall_mem_singleton.2 rfl) here.regions_leave_suffix
  | blockCommentBegin | documentationTag | functionDeclaration | variableDeclaration
  | constraintsBegin | number | accumulator | sampling | delimiter =>
    simp only [step?] at found
    first
      | unfold blockCommentBegin? at found
      | unfold documentationTag? at found
      | unfold functionDeclaration? at found
      | unfold variableDeclaration? at found
      | unfold constraintsBegin? at found
      | unfold number? at found
      | unfold accumulator? at found
      | unfold sampling? at found
      | unfold delimiter? at found
    repeat' split at found
    all_goals cases found
    all_goals first
      | exact turn_single rfl
      | exact .enter (List.forall_mem_singleton.2 rfl) rfl

end Rule

/-- So does every step. -/
theorem turn_take {lexer : Lexer} {assigned : Bool} {here : LineState} {t : Text} :
    Turn here (Step.take lexer assigned here t) := by
  obtain ⟨s, taken⟩ : ∃ s, s = Step.take lexer assigned here t := ⟨_, rfl⟩
  rw [← taken]
  rcases Step.take_cases taken with ⟨rule, found⟩ | ⟨_, skip⟩
  · exact Rule.turn_step? found
  · rw [skip]
    exact .keep (List.forall_mem_singleton.2 rfl) rfl

def Piece.isName (p : Piece) : Bool := Slot.all.any fun slot => slot.isNamed p.scope

/-- How many of some steps' pieces are names directly in a region that lies on so many others. -/
def namesAt (d : Nat) (ss : List Step) : Nat :=
  (ss.flatMap Step.pieces).countP fun p => p.isName && p.around.depth == d

/-- How many names the region that lies on so many others may yet get. -/
def LineState.awaitedAt (d : Nat) (s : LineState) : Nat :=
  if s.stack[d]?.any Region.awaitsName then 1 else 0

section Stretch

variable {d : Nat} {here there : LineState} {s : Step} {ss : List Step}

theorem Piece.IsUnnamed.isName {p : Piece} (h : p.IsUnnamed) : p.isName = false := by
  have none : ∀ slot : Slot, slot.isNamed p.scope = false := fun slot =>
    isNamed_eq_false fun l mem => Bool.eq_false_iff.2 (List.any_eq_false.1 h l mem)
  simp [Piece.isName, none]

theorem namesAt_cons : namesAt d (s :: ss) = namesAt d [s] + namesAt d ss := by
  simp [namesAt]

theorem namesAt_eq_zero (h : ∀ p ∈ s.pieces, p.isName = true → p.around.depth ≠ d) :
    namesAt d [s] = 0 := by
  rw [namesAt, List.flatMap_singleton, List.countP_eq_zero]
  intro p mem
  simpa using h p mem

theorem awaitedAt_le_one : here.awaitedAt d ≤ 1 := by
  rw [LineState.awaitedAt]
  split <;> omega

/-- Of regions that lie under the same ones, those get no more names that await none. -/
theorem awaitedAt_le {below above above' : List Region} {r r' : Region}
    (stack : here.stack = below ++ r :: above) (stack' : there.stack = below ++ r' :: above')
    (open_ : d ≤ below.length) (awaits : r'.awaitsName = true → r.awaitsName = true) :
    there.awaitedAt d ≤ here.awaitedAt d := by
  rw [LineState.awaitedAt, LineState.awaitedAt, stack, stack']
  rcases Nat.lt_or_eq_of_le open_ with inside | rfl
  · rw [List.getElem?_append_left inside, List.getElem?_append_left inside]
  · simp only [List.getElem?_append_right (Nat.le_refl _), Nat.sub_self,
      List.getElem?_cons_zero, Option.any_some]
    split
    · next awaited => rw [if_pos (awaits awaited)]
    · exact Nat.zero_le _

/-- Regions that are opened leave those below as they are. -/
theorem stack_of_regions {above : List Region} {r : Region}
    (regions : there.regions = above ++ r :: here.regions.tail) :
    ∃ below, below.length = here.depth ∧ here.stack = below ++ [here.innermost] ∧
      there.stack = below ++ r :: above.reverse := by
  refine ⟨here.regions.tail.reverse, ?_, ?_, ?_⟩
  · simp [LineState.regions, LineState.frames, LineState.depth]
  · rw [LineState.stack_eq_reverse, here.regions_eq_cons, List.reverse_cons]
    rfl
  · rw [LineState.stack_eq_reverse, regions]
    simp

/-- A region that is open in front of a step gets no more names than it awaits. -/
theorem Turn.names_le (turn : Turn here s) (open_ : d ≤ here.depth) :
    namesAt d [s] + s.after.awaitedAt d ≤ here.awaitedAt d := by
  have quiet : (∀ p ∈ s.pieces, p.IsUnnamed) → namesAt d [s] = 0 := fun unnamed =>
    namesAt_eq_zero fun p mem named => by simp [(unnamed p mem).isName] at named
  cases turn with
  | close unnamed closed =>
    rw [quiet unnamed, Nat.zero_add]
    obtain ⟨more, whole⟩ := List.reverse_prefix.2 closed
    rw [← LineState.stack_eq_reverse, ← LineState.stack_eq_reverse] at whole
    rw [LineState.awaitedAt, LineState.awaitedAt, ← whole]
    by_cases inside : d < s.after.stack.length
    · rw [List.getElem?_append_left inside]
    · rw [List.getElem?_eq_none (Nat.le_of_not_lt inside)]
      exact Nat.zero_le _
  | grow above unnamed grows regions =>
    rw [quiet unnamed, Nat.zero_add]
    obtain ⟨below, size, stack, stack'⟩ := stack_of_regions regions
    exact awaitedAt_le stack stack' (size ▸ open_) grows.awaitsName
  | @name above p ps pieces fills depth unnamed regions =>
    obtain ⟨below, size, stack, stack'⟩ := stack_of_regions regions
    obtain ⟨empty, filled⟩ := fills.awaitsName
    rcases Nat.lt_or_eq_of_le open_ with inside | rfl
    · have elsewhere : namesAt d [s] = 0 := by
        refine namesAt_eq_zero fun q mem named at_ => ?_
        rw [pieces] at mem
        rcases List.mem_cons.1 mem with rfl | other
        · omega
        · simp [(unnamed q other).isName] at named
      rw [elsewhere, Nat.zero_add]
      exact awaitedAt_le stack stack' (size ▸ open_) fun _ => empty
    · have one : namesAt here.depth [s] ≤ 1 := by
        have others : ps.countP (fun p => p.isName && p.around.depth == here.depth) = 0 :=
          List.countP_eq_zero.2 fun q mem => by simp [(unnamed q mem).isName]
        rw [namesAt, List.flatMap_singleton, pieces, List.countP_cons, others]
        split <;> omega
      have after : s.after.awaitedAt here.depth = 0 := by
        simp [LineState.awaitedAt, stack', ← size, filled]
      have before : here.awaitedAt here.depth = 1 := by
        simp [LineState.awaitedAt, stack, ← size, empty]
      omega

/-- A step names nothing directly in a region that is open behind it but not in front of it. -/
theorem Turn.namesAt_eq_zero (turn : Turn here s) (closed : here.depth < d) : namesAt d [s] = 0 := by
  refine StanHighlight.namesAt_eq_zero fun p mem named at_ => ?_
  cases turn with
  | close unnamed => simp [(unnamed p mem).isName] at named
  | grow above unnamed => simp [(unnamed p mem).isName] at named
  | name above pieces fills depth unnamed =>
    rw [pieces] at mem
    rcases List.mem_cons.1 mem with rfl | other
    · omega
    · simp [(unnamed p other).isName] at named

/-- While a region stays open it gets no more names than it awaits. -/
theorem StepRow.names_le (row : StepRow Turn here ss there) (open_ : d ≤ here.depth)
    (stays : ∀ s ∈ ss.dropLast, d ≤ s.after.depth) : namesAt d ss ≤ here.awaitedAt d := by
  induction row with
  | nil => exact Nat.zero_le _
  | @cons here there s ss turn more ih =>
    rw [namesAt_cons]
    have first := turn.names_le open_
    cases ss with
    | nil => exact Nat.le_trans (Nat.le_add_right _ _) first
    | cons next ss =>
      have later := ih (stays s (by simp)) fun q mem => stays q (by simp [mem])
      omega

/-- From its opening on a region gets one name at most as long as it stays open. -/
theorem StepRow.names_le_one (row : StepRow Turn here ss there)
    (stays : ∀ s ∈ ss.dropLast, d ≤ s.after.depth) : namesAt d ss ≤ 1 := by
  by_cases open_ : d ≤ here.depth
  · exact Nat.le_trans (row.names_le open_ stays) awaitedAt_le_one
  · cases row with
    | nil => exact Nat.zero_le _
    | @cons _ _ s ss turn more =>
      rw [namesAt_cons, turn.namesAt_eq_zero (Nat.lt_of_not_le open_), Nat.zero_add]
      cases ss with
      | nil => exact Nat.zero_le _
      | cons next ss =>
        have later := more.names_le (stays s (by simp)) fun q mem => stays q (by simp [mem])
        exact Nat.le_trans later awaitedAt_le_one

end Stretch

/-- A name that a step cuts stands directly in the region whose place it fills. -/
theorem Turn.exists_names {here : LineState} {s : Step} (turn : Turn here s) {p : Piece}
    (mem : p ∈ s.pieces) (named : p.isName = true) :
    ∃ r, Region.Names r p.around.innermost p.own := by
  cases turn with
  | close unnamed => simp [(unnamed p mem).isName] at named
  | grow above unnamed => simp [(unnamed p mem).isName] at named
  | name above pieces fills depth unnamed =>
    rw [pieces] at mem
    rcases List.mem_cons.1 mem with rfl | other
    · exact ⟨_, fills⟩
    · simp [(unnamed p other).isName] at named

/-- How the names of a run are placed: in declarations, in headers of `for` loops, in declarations
of functions and in sampling statements, and nowhere twice. -/
structure NamesArePlaced (lexer : Lexer) (lines : List Text) : Prop where
  /-- Wherever one stops reading, there are no more names of a kind than tokens that a place for
  one comes with. -/
  sources : ∀ (slot : Slot) (ls : List Lexeme), ls <+: lexer.lexemes .initial lines →
    (ls.countP fun l => slot.isNamed l.scope) ≤ ls.countP fun l => l.scope.contains slot.source
  /-- The steps of the run cut all its labelled lexemes. -/
  whole : ((lexer.lexemes .initial lines).map Lexeme.toPiece).filter (fun p => !p.isPlain) =
    ((lexer.steps .initial lines).flatMap Step.pieces).filter fun p => !p.isPlain
  /-- A name stands directly in the region whose place it fills. -/
  placed : ∀ s ∈ lexer.steps .initial lines, ∀ p ∈ s.pieces, p.isName = true →
    ∃ r, Region.Names r p.around.innermost p.own
  /-- As long as a region stays open, whatever is opened in it, it gets one name at most. -/
  once : ∀ (before stretch after : List Step) (d : Nat),
    lexer.steps .initial lines = before ++ stretch ++ after →
      (∀ s ∈ stretch.dropLast, d ≤ s.after.depth) → namesAt d stretch ≤ 1

theorem namesArePlaced (lexer : Lexer) (lines : List Text) : NamesArePlaced lexer lines where
  sources slot _ front := names_le_sources lexer lines slot front
  whole := lexer.labelled_lexemes .initial lines
  placed s mem p inside named := by
    have row := lexer.stepRow_steps .initial (fun _ _ _ _ => turn_take) lines
    obtain ⟨here, turn⟩ := row.exists_of_mem mem
    exact turn.exists_names inside named
  once before stretch after d split stays := by
    have row := lexer.stepRow_steps .initial (fun _ _ _ _ => turn_take) lines
    rw [split] at row
    obtain ⟨_, front, _⟩ := row.of_append
    obtain ⟨_, _, row⟩ := front.of_append
    exact row.names_le_one stays

/-- A declaration that follows another one gets a name of its own. -/
example :
    let lexer : Lexer := ⟨{}, by decide, .prepending⟩
    (lexer.steps .initial ["int a; int b".toList]).map (namesAt 1 [·]) =
      [0, 0, 1, 0, 0, 0, 0, 1] := by
  decide +kernel

end StanHighlight

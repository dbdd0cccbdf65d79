import StanHighlight.Proofs.PlainRun
import StanHighlight.Proofs.WalkTurn

/-!
The latest label on a line. A brace opens an array behind an assignment. One who walks looks for the
assignment among what has been given out already, where blanks do not count; one who cuts notes it
with each step. Both find the same, since every step takes something visible and only operators are
labelled as assignments.
-/

namespace StanHighlight

open Text (byteLength)

def Step.IsQuiet (s : Step) : Prop := ∀ p ∈ s.pieces, .assignmentOperator ∉ p.own

namespace Rule

variable {config : Config} {assigned : Bool} {here : LineState} {t w after rest : Text} {s : Step}

theorem quiet_ofText {around : LineState} {own : List Label} (h : .assignmentOperator ∉ own) :
    ∀ p ∈ Piece.ofText t around own, .assignmentOperator ∉ p.own := by
  intro p mem
  unfold Piece.ofText at mem
  split at mem
  · cases mem
  · rw [List.mem_singleton.1 mem]
    exact h

theorem quiet_single {own : List Label} (h : .assignmentOperator ∉ own) :
    (Step.single here own w rest).IsQuiet :=
  List.forall_mem_singleton.2 h

theorem quiet_opening {head : Piece} {gap : Text} {bracket : Char} {inside : LineState}
    {e : Enclosure} (first : .assignmentOperator ∉ head.own) :
    (Step.opening head gap bracket inside e rest).IsQuiet :=
  List.forall_mem_cons.2 ⟨first, List.forall_mem_append.2
    ⟨quiet_ofText (by simp), List.forall_mem_singleton.2 (by simp)⟩⟩

theorem quiet_heads {head : Piece} {inside : LineState} {e : Enclosure}
    (first : .assignmentOperator ∉ head.own) : (heads head inside e after).IsQuiet := by
  unfold heads
  split
  · exact quiet_opening first
  · exact List.forall_mem_singleton.2 first

theorem quiet_delimitedName {start close : Char} {style : FileName} :
    ∀ p ∈ (delimitedName here start close style t).1, .assignmentOperator ∉ p.own := by
  have front : ∀ p ∈ (⟨[start], here, [.inclusion, .fileName style, .begins .string]⟩ : Piece) ::
      Piece.ofText (t.takeWhile (· != close)) here [.inclusion, .fileName style],
      .assignmentOperator ∉ p.own :=
    List.forall_mem_cons.2 ⟨by simp, quiet_ofText (by simp)⟩
  unfold delimitedName
  split
  · exact front
  · exact List.forall_mem_append.2 ⟨front, List.forall_mem_singleton.2 (by simp)⟩

theorem quiet_fileName : ∀ p ∈ (fileName here t).1, .assignmentOperator ∉ p.own := by
  unfold fileName
  split
  · exact nofun
  · exact quiet_delimitedName
  · exact quiet_delimitedName
  · exact quiet_delimitedName
  · exact quiet_ofText (by simp)

theorem quiet_inclusion (found : include? here t = some s) : s.IsQuiet := by
  unfold include? at found
  split at found
  · cases found
  · split at found <;> cases found
    exact List.forall_mem_cons.2
      ⟨by simp, List.forall_mem_append.2 ⟨quiet_ofText (by simp), quiet_fileName⟩⟩

theorem quiet_lineComment (found : lineComment? here t = some s) : s.IsQuiet := by
  unfold lineComment? at found
  split at found <;> cases found
  · exact List.forall_mem_cons.2 ⟨by simp, quiet_ofText (by simp)⟩
  · exact List.forall_mem_cons.2 ⟨by simp, quiet_ofText (by simp)⟩

theorem quiet_string (found : string? config here t = some s) : s.IsQuiet := by
  have body : ∀ t, ∀ p ∈ bodyPieces config here t, .assignmentOperator ∉ p.own := by
    intro t p mem
    obtain ⟨run, _, rfl⟩ := List.mem_map.1 mem
    simp only [runLabels]
    split <;> simp
  unfold string? at found
  split at found
  · split at found <;> cases found
    · exact List.forall_mem_cons.2 ⟨by simp, body _⟩
    · exact List.forall_mem_append.2
        ⟨List.forall_mem_cons.2 ⟨by simp, body _⟩, List.forall_mem_singleton.2 (by simp)⟩
  · cases found

theorem quiet_nameSlot (found : nameSlot? here w after = some s) : s.IsQuiet := by
  simp only [nameSlot?] at found
  repeat' split at found
  all_goals cases found
  all_goals first
    | exact quiet_single (by simp)
    | exact quiet_heads (by simp)

theorem quiet_keyword (found : keyword? here w after = some s) : s.IsQuiet := by
  simp only [keyword?] at found
  repeat' split at found
  all_goals cases found
  all_goals first
    | exact quiet_single (by simp)
    | exact quiet_heads (by simp)
    | exact quiet_opening (by simp)

theorem quiet_identifier : (identifier here w after).IsQuiet := by
  unfold identifier
  split
  · refine quiet_opening ?_
    unfold calledName
    split
    · simp
    · split <;> simp
  · refine quiet_single ?_
    cases Vocabulary.builtin? (String.ofList w) <;> simp

theorem quiet_wordStep : (wordStep here w after).IsQuiet := by
  unfold wordStep
  split
  · exact quiet_single (by simp)
  · split
    · exact quiet_single (by simp)
    · split
      · next found => exact quiet_nameSlot found
      · cases found : keyword? (passDistribution here) w after with
        | none => exact quiet_identifier
        | some s => exact quiet_keyword found

/-- Only operators are labelled as assignments. -/
theorem quiet_step? {rule : Rule} (other : rule ≠ .operator)
    (found : step? config assigned here t rule = some s) : s.IsQuiet := by
  cases rule with
  | operator => exact absurd rfl other
  | inclusion => exact quiet_inclusion found
  | lineComment => exact quiet_lineComment found
  | string => exact quiet_string found
  | sectionHeader =>
    simp only [step?, sectionHeader?] at found
    split at found
    · split at found <;> cases found
      exact quiet_opening (by simp)
    · cases found
  | word =>
    simp only [step?, word?] at found
    split at found <;> cases found
    exact quiet_wordStep
  | _ =>
    obtain ⟨w, around, l, pieces, quiet⟩ := exists_sole (.assignmentOperator ≠ ·) found
      (by decide) (by decide) fun _ => ⟨by simp, by simp⟩
    rw [Step.IsQuiet, pieces]
    exact List.forall_mem_singleton.2 (by simpa using quiet)

end Rule

theorem LineState.assignmentOperator_notMem_labels (s : LineState) :
    .assignmentOperator ∉ s.labels := fun mem => by
  have regional := LineState.isRegional_of_mem_labels _ mem
  cases regional

/-- What a step of a rule takes begins visibly. -/
theorem Rule.visible_of_step? {config : Config} {assigned : Bool} {here : LineState} {t : Text}
    {s : Step} {rule : Rule} (found : step? config assigned here t rule = some s) :
    ∃ p ∈ s.pieces, p.text.all Text.isSpace = false := by
  obtain ⟨c, rest, rfl, starts⟩ := starts_of_step? found
  have covers := step?_covers found
  have visible : Text.isSpace c = false := by
    rw [Bool.eq_false_iff]
    intro blank
    simp [startsAt_of_isSpace blank rule] at starts
  obtain ⟨p, ps, first⟩ := List.exists_cons_of_ne_nil covers.some_piece
  have whole := covers.whole
  have some_text := covers.visible p (by simp [first])
  obtain ⟨d, text, shown⟩ := List.exists_cons_of_ne_nil some_text
  rw [first, Piece.texts_cons, shown] at whole
  obtain rfl : d = c := (List.cons.inj whole).1
  exact ⟨p, by simp [first], by simp [shown, visible]⟩

/-- If something visible is given out last, the latest label is that of a stretch among it. -/
theorem Cursor.exists_latestLabel? {c : Cursor} {front back : List Stretch}
    (given : c.given = front ++ back) (visible : ∃ s ∈ back, s.text.all Text.isSpace = false) :
    ∃ s ∈ back, c.latestLabel? = s.scope.getLast? := by
  obtain ⟨s, mem, shown⟩ := visible
  have some_stretch : (back.reverse.find? fun s => !s.text.all Text.isSpace).isSome = true :=
    List.find?_isSome.2 ⟨s, List.mem_reverse.2 mem, by simp [shown]⟩
  obtain ⟨last, found⟩ := Option.isSome_iff_exists.1 some_stretch
  refine ⟨last, List.mem_reverse.1 (List.mem_of_find?_eq_some found), ?_⟩
  rw [latestLabel?, given, List.reverse_append, List.find?_append, found]
  rfl

/-- Stretches have the texts and the labels of their pieces. -/
theorem map_stretches (n : Nat) (ps : List Piece) :
    (stretches n ps).map (fun s => (s.text, s.scope)) = ps.map fun p => (p.text, p.scope) := by
  induction ps generalizing n with
  | nil => rfl
  | cons p ps ih => simp [ih]

theorem exists_of_mem_stretches {n : Nat} {ps : List Piece} {s : Stretch} (h : s ∈ stretches n ps) :
    ∃ p ∈ ps, p.text = s.text ∧ p.scope = s.scope := by
  have mem : (s.text, s.scope) ∈ ps.map fun p => (p.text, p.scope) :=
    map_stretches n ps ▸ List.mem_map_of_mem h
  simpa using mem

theorem exists_mem_stretches {n : Nat} {ps : List Piece} {p : Piece} (h : p ∈ ps) :
    ∃ s ∈ stretches n ps, s.text = p.text ∧ s.scope = p.scope := by
  have mem : (p.text, p.scope) ∈ (stretches n ps).map fun s => (s.text, s.scope) :=
    map_stretches n ps ▸ List.mem_map_of_mem h
  simpa using mem

/-- The step of an operator takes one token. -/
theorem Rule.exists_of_operator? {here : LineState} {t : Text} {s : Step}
    (found : operator? here t = some s) : ∃ w there l, s.pieces = [⟨w, there, [l]⟩] := by
  unfold operator? at found
  split at found
  · cases found
    exact ⟨_, _, _, rfl⟩
  · split at found <;> cases found <;> exact ⟨_, _, _, rfl⟩
  · obtain ⟨entry, _, spelled⟩ := List.exists_of_findSome?_eq_some found
    obtain ⟨rest, _, rfl⟩ := Option.map_eq_some_iff.1 spelled
    exact ⟨_, _, _, rfl⟩

namespace Footing

variable {p : Footing} {config : Config} {assigned : Bool} {s : Step} {rule : Rule}

/-- The latest label behind a step tells what the step notes about it. -/
theorem latestLabel?_take
    (found : Rule.step? config assigned p.state p.ahead rule = some s) :
    s.assigns assigned =
      ((p.take s.pieces s.after s.rest).cursor.latestLabel? == some .assignmentOperator) := by
  obtain ⟨first, mem, visible⟩ := Rule.visible_of_step? found
  have given : (p.take s.pieces s.after s.rest).cursor.given =
      (p.given ++ stretches (byteLength p.past) (Piece.ofText p.plain p.state [])) ++
        stretches (byteLength p.past + byteLength p.plain) s.pieces := by
    simp [cursor, take, stretches_append]
  obtain ⟨shown, inside, same, -⟩ := exists_mem_stretches mem
  obtain ⟨last, mem, latest⟩ := Cursor.exists_latestLabel? given
    ⟨shown, inside, same ▸ visible⟩
  obtain ⟨q, mem, -, scope⟩ := exists_of_mem_stretches mem
  rw [latest, ← scope]
  by_cases operator : rule = .operator
  · subst operator
    obtain ⟨w, there, l, pieces⟩ := Rule.exists_of_operator? found
    obtain rfl : q = ⟨w, there, [l]⟩ := by simpa [pieces] using mem
    simp [Step.assigns, pieces, Piece.isPlain, Piece.scope]
  · have quiet := Rule.quiet_step? operator found
    have other : q.scope.getLast? ≠ some .assignmentOperator := fun last => by
      rcases List.mem_append.1 (List.mem_of_getLast? last) with region | own
      · exact LineState.assignmentOperator_notMem_labels _ region
      · exact quiet q mem own
    have labelled := (Rule.isChain_step? found).2
    cases ends : s.pieces.getLast? with
    | none => exact absurd (List.getLast?_eq_none_iff.1 ends) (Rule.step?_covers found).some_piece
    | some r =>
      have unassigned : r.own.getLast? ≠ some .assignmentOperator := fun last =>
        quiet r (List.mem_of_getLast? ends) (List.mem_of_getLast? last)
      simp [Step.assigns, ends, labelled r ends, other, unassigned]

end Footing

end StanHighlight

import StanHighlight.Proofs.Nesting

/-!
How deep a step leads. A step opens one region at most; where it leaves some before that, what it
leads to is no deeper than where it began.
-/

namespace StanHighlight

namespace LineState

variable {s there : LineState}

theorem length_frames (s : LineState) : s.frames.length = s.depth + 1 := rfl

theorem depth_le_of_suffix (suffix : there.regions <:+ s.regions) : there.depth ≤ s.depth := by
  have := suffix.length_le
  simp only [regions, List.length_map, length_frames] at this
  omega

end LineState

namespace Rule

variable {config : Config} {assigned : Bool} {here : LineState} {t w after : Text} {s : Step}

theorem depth_passDistribution (here : LineState) : (passDistribution here).depth = here.depth := by
  unfold passDistribution
  split <;> rfl

theorem depth_heads (head : Piece) {r : Region} {e : Enclosure} :
    (heads head (head.around.enter r) e after).after.depth ≤ head.around.depth + 1 := by
  unfold heads
  split
  · exact Nat.le_refl _
  · exact Nat.le_succ _

theorem depth_nameSlot (found : nameSlot? here w after = some s) :
    s.after.depth ≤ here.depth + 1 := by
  simp only [nameSlot?] at found
  repeat' split at found
  all_goals cases found
  all_goals first
    | exact Nat.le_succ _
    | exact depth_heads _

theorem depth_keyword (found : keyword? here w after = some s) :
    s.after.depth ≤ here.depth + 1 := by
  simp only [keyword?] at found
  repeat' split at found
  all_goals cases found
  all_goals first
    | exact Nat.le_succ _
    | exact Nat.le_refl _
    | exact depth_heads ⟨_, here, _⟩

theorem depth_identifier : (identifier here w after).after.depth ≤ here.depth + 1 := by
  unfold identifier
  split
  · exact Nat.le_refl _
  · exact Nat.le_succ _

theorem depth_wordStep : (wordStep here w after).after.depth ≤ here.depth + 1 := by
  have passed := depth_passDistribution here
  unfold wordStep
  split
  · exact Nat.le_succ _
  · split
    · exact Nat.le_succ _
    · split
      · next found => exact depth_nameSlot found
      · rw [← passed]
        cases found : keyword? (passDistribution here) w after with
        | none => exact depth_identifier
        | some s => exact depth_keyword found

theorem depth_opener (found : opener? assigned here t = some s) :
    s.after.depth ≤ here.depth + 1 := by
  unfold opener? at found
  split at found <;> cases found
  · simp only [Step.single]
    unfold openParen
    split
    · exact Nat.le_succ _
    · exact Nat.le_succ _
    · exact Nat.le_refl _
  · exact Nat.le_refl _
  · simp only [Step.single]
    unfold openBrace
    split
    · exact Nat.le_refl _
    · exact Nat.le_refl _

/-- No rule opens more than one region. -/
theorem depth_step? {rule : Rule} (found : step? config assigned here t rule = some s) :
    s.after.depth ≤ here.depth + 1 := by
  have keeps : s.after = here → s.after.depth ≤ here.depth + 1 := fun same => by
    rw [same]
    exact Nat.le_succ _
  have leaves : s.after.regions <:+ here.regions → s.after.depth ≤ here.depth + 1 := fun suffix =>
    Nat.le_succ_of_le (LineState.depth_le_of_suffix suffix)
  cases rule with
  | word =>
    simp only [step?, word?] at found
    split at found <;> cases found
    exact depth_wordStep
  | opener => exact depth_opener found
  | terminator => exact leaves (regions_terminator_suffix found)
  | closer => exact leaves (regions_closer_suffix found)
  | operator => exact leaves (regions_operator found ▸ List.suffix_rfl)
  | inclusion | lineComment | documentationTag | constraintEquals | string | number | delimiter =>
    exact keeps (after_of_keeps (by decide) found)
  | blockCommentBegin | blockCommentEnd | sectionHeader | functionDeclaration
  | variableDeclaration | constraintsBegin | initializer | constraintsEnd | accumulator
  | sampling =>
    simp only [step?] at found
    first
      | unfold blockCommentBegin? at found
      | unfold blockCommentEnd? at found
      | unfold sectionHeader? at found
      | unfold functionDeclaration? at found
      | unfold variableDeclaration? at found
      | unfold constraintsBegin? at found
      | unfold initializer? afterEquals? at found
      | unfold constraintsEnd? at found
      | unfold accumulator? at found
      | unfold sampling? at found
    repeat' split at found
    all_goals cases found
    all_goals first
      | exact Nat.le_refl _
      | exact leaves here.regions_leave_suffix

end Rule

end StanHighlight

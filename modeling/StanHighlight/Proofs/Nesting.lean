import StanHighlight.Proofs.Reachable
import StanHighlight.Proofs.Start

/-!
How open regions are nested. Each region may be opened only directly inside certain others,
and every rule keeps to that. A control statement is opened in front of its parenthesis,
and until that is read only blanks are: so between lines no header is left unopened.
-/

namespace StanHighlight

namespace Region

/-- Whether the parenthesis of a control statement's header has been read, or there is none
to read. -/
def isOpened : Region → Bool
  | control _ opened _ => opened
  | _ => true

def isDeclaring : Region → Bool
  | declaration _ | functionDeclaration _ _ => true
  | _ => false

/-- Whether a region may lie directly inside another, as far as its own kind decides. -/
def belongsIn (lower : Region) : Region → Bool
  | program => false
  | sectionBody _ => lower = program
  | block | declaration _ | functionDeclaration _ _ => lower.isStatementLevel
  | constraints => lower = declaration false
  | initializer => lower = declaration false || lower = declaration true
  | call .distribution => lower = sampling true
  | control kind opened named => !named || (kind = .forLoop && opened)
  | _ => true

/-- Whether a region may lie directly inside another. Nothing lies in a comment, or in a
control statement in front of its parenthesis. -/
def fitsIn (upper lower : Region) : Bool :=
  lower.isOpened && !lower.isBlockComment && belongsIn lower upper

theorem fitsIn_iff {upper lower : Region} : upper.fitsIn lower = true ↔
    lower.isOpened = true ∧ lower.isBlockComment = false ∧ lower.belongsIn upper = true := by
  simp [fitsIn, and_assoc]

/-- Only a declaration may be initialized. -/
theorem belongsIn_initializer_of_mem_rules {r : Region} (h : Rule.initializer ∈ r.rules) :
    r.belongsIn initializer = true := by
  have other : ∀ table ∈ [Rule.statement, Rule.expression, Rule.constraints, Rule.blockComment],
      Rule.initializer ∉ table := by decide
  cases r with
  | declaration named => cases named <;> rfl
  | _ => exact absurd h (other _ (by simp [rules]))

end Region

/-- Regions, innermost first, each of which may lie directly inside the next, down to the
program. -/
inductive Nested : List Region → Prop
  | program : Nested [.program]
  | on {upper lower : Region} {rest : List Region} (fits : upper.fitsIn lower = true)
      (h : Nested (lower :: rest)) : Nested (upper :: lower :: rest)

namespace Nested

theorem of_suffix {rs qs : List Region} (h : Nested rs) (suffix : qs <:+ rs) (some_region : qs ≠ []) :
    Nested qs := by
  induction h with
  | program =>
    rcases List.suffix_cons_iff.1 suffix with rfl | none
    · exact .program
    · exact absurd (List.suffix_nil.1 none) some_region
  | on fits h ih =>
    rcases List.suffix_cons_iff.1 suffix with rfl | inside
    · exact .on fits h
    · exact ih inside

theorem fits {upper lower : Region} {rest : List Region} (h : Nested (upper :: lower :: rest)) :
    upper.fitsIn lower = true := by
  cases h with
  | on fits _ => exact fits

theorem isOpened_of_mem {r q : Region} {rs : List Region} (h : Nested (r :: rs)) (mem : q ∈ rs) :
    q.isOpened = true := by
  induction rs generalizing r with
  | nil => cases mem
  | cons lower rest ih =>
    cases h with
    | on fits h =>
      rcases List.mem_cons.1 mem with rfl | inside
      · exact (Region.fitsIn_iff.1 fits).1
      · exact ih h inside

/-- The innermost region may be exchanged for one that fits wherever it does. -/
theorem exchange {r r' : Region} {rs : List Region} (h : Nested (r :: rs)) (visible : r ≠ .program)
    (fits : ∀ lower, r.fitsIn lower = true → r'.fitsIn lower = true) : Nested (r' :: rs) := by
  cases h with
  | program => exact absurd rfl visible
  | on old h => exact .on (fits _ old) h

end Nested

namespace LineState

def regions (s : LineState) : List Region := s.frames.map fun f => f.region

@[simp] theorem regions_ask (s : LineState) : s.ask.regions = s.regions := rfl

@[simp] theorem regions_forget (s : LineState) : s.forget.regions = s.regions := rfl

theorem regions_eq_cons (s : LineState) : s.regions = s.innermost :: s.regions.tail := rfl

theorem regions_answer? {s s' : LineState} (h : s.answer? = some s') : s'.regions = s.regions := by
  unfold answer? at h
  split at h
  · cases h
  · cases h
    rfl

theorem regions_leave_suffix (s : LineState) : s.leave.regions <:+ s.regions := by
  obtain ⟨inner, outer⟩ := s
  cases outer with
  | nil => exact List.suffix_rfl
  | cons f outer => exact List.suffix_cons _ _

theorem regions_leaveWhile_suffix (p : Region → Bool) (inner : OpenRegion)
    (outer : List OpenRegion) : (leaveWhile p inner outer).regions <:+ regions ⟨inner, outer⟩ := by
  induction outer generalizing inner with
  | nil => exact List.suffix_rfl
  | cons f outer ih =>
    rw [leaveWhile]
    split
    · exact (ih f).trans (List.suffix_cons _ _)
    · exact List.suffix_rfl

theorem regions_toBrace?_suffix {s s' : LineState} (h : s.toBrace? = some s') :
    s'.regions <:+ s.regions := by
  unfold toBrace? at h
  split at h
  · cases h
  · next f outer found =>
    cases h
    have dropped : f :: outer <:+ s.frames := found ▸ List.dropWhile_suffix _
    exact dropped.map _

end LineState

namespace Rule

variable {here : LineState} {t : Text} {s : Step}

/-- A closing bracket leaves the innermost region or none. -/
theorem regions_close_suffix (here : LineState) (bracket : Char) (stray : Enclosure)
    (rest : Text) : (close here bracket stray rest).after.regions <:+ here.regions := by
  unfold close
  split
  · split
    · exact here.regions_leave_suffix
    · exact List.suffix_rfl
  · exact List.suffix_rfl

theorem regions_closer_suffix (found : closer? here t = some s) :
    s.after.regions <:+ here.regions := by
  unfold closer? at found
  split at found <;> cases found
  · exact regions_close_suffix ..
  · exact regions_close_suffix ..
  · cases brace : here.toBrace? with
    | none => exact regions_close_suffix ..
    | some there =>
      exact (regions_close_suffix ..).trans (LineState.regions_toBrace?_suffix brace)

theorem regions_beforeTerminator_suffix (here : LineState) :
    (beforeTerminator here).regions <:+ here.regions :=
  LineState.regions_leaveWhile_suffix ..

theorem regions_afterTerminator_suffix (here : LineState) :
    (afterTerminator here).regions <:+ here.regions := by
  have forgets : ∀ there : LineState,
      (if there.innermost.isStatementLevel then there.forget else there).regions =
        there.regions := by
    intro there
    split
    · exact there.regions_forget
    · rfl
  rw [afterTerminator, forgets]
  split
  · exact here.regions_leave_suffix
  · exact List.suffix_rfl

/-- A `;` leaves regions and opens none. -/
theorem regions_terminator_suffix (found : terminator? here t = some s) :
    s.after.regions <:+ here.regions := by
  unfold terminator? at found
  split at found <;> cases found
  exact (regions_afterTerminator_suffix _).trans (regions_beforeTerminator_suffix here)

theorem regions_operator (found : operator? here t = some s) : s.after.regions = here.regions := by
  unfold operator? at found
  split at found
  · cases found
    exact here.regions_ask
  · split at found <;> cases found
    · next answered => exact LineState.regions_answer? answered
    · rfl
  · obtain ⟨entry, _, spelled⟩ := List.exists_of_findSome?_eq_some found
    obtain ⟨rest, _, rfl⟩ := Option.map_eq_some_iff.1 spelled
    rfl

end Rule

structure Settled (s : LineState) : Prop where
  nested : Nested s.regions
  opened : s.innermost.isOpened = true

/-- The regions are nested, and a header is in front of its parenthesis only if that is the
first character left to read, apart from blanks. -/
structure Sound (s : LineState) (rest : Text) : Prop where
  nested : Nested s.regions
  opened : s.innermost.isOpened = true ∨ (Rule.parenAfterGap? rest).isSome = true

namespace Settled

theorem sound {s : LineState} (h : Settled s) (rest : Text) : Sound s rest := ⟨h.nested, .inl h.opened⟩

variable {here there : LineState} {r : Region}

/-- Closing regions leaves the others settled. -/
theorem of_suffix (h : Settled here) (suffix : there.regions <:+ here.regions) : Settled there := by
  refine ⟨h.nested.of_suffix suffix (List.cons_ne_nil _ _), ?_⟩
  have mem : there.innermost ∈ here.regions := suffix.subset List.mem_cons_self
  rcases List.mem_cons.1 mem with same | inside
  · rw [same]
    exact h.opened
  · exact Nested.isOpened_of_mem h.nested inside

theorem of_regions_eq (h : Settled here) (same : there.regions = here.regions) : Settled there :=
  h.of_suffix (same ▸ List.suffix_rfl)

theorem nested_enter (h : Settled here) (comment : here.innermost.isBlockComment = false)
    (belongs : here.innermost.belongsIn r = true) : Nested (here.enter r).regions := by
  have fits : r.fitsIn here.innermost = true := Region.fitsIn_iff.2 ⟨h.opened, comment, belongs⟩
  exact .on fits h.nested

theorem enter (h : Settled here) (comment : here.innermost.isBlockComment = false)
    (opened : r.isOpened = true) (belongs : here.innermost.belongsIn r = true) :
    Settled (here.enter r) :=
  ⟨h.nested_enter comment belongs, opened⟩

/-- The innermost region may become one that belongs wherever it does. -/
theorem become {old : Region} (h : Nested here.regions) (current : here.innermost = old)
    (visible : old ≠ .program) (opened : r.isOpened = true)
    (belongs : ∀ lower : Region, lower.belongsIn old = true → lower.belongsIn r = true) :
    Settled (here.become r) := by
  subst current
  refine ⟨Nested.exchange h visible fun lower fits => ?_, opened⟩
  obtain ⟨opened, comment, fits⟩ := Region.fitsIn_iff.1 fits
  exact Region.fitsIn_iff.2 ⟨opened, comment, belongs lower fits⟩

theorem leave (h : Settled here) : Settled here.leave := h.of_suffix here.regions_leave_suffix

end Settled

namespace Rule

variable {config : Config} {assigned : Bool} {here : LineState} {t : Text} {s : Step}

theorem settled_blockCommentBegin (h : Settled here) (comment : here.innermost.isBlockComment = false)
    (found : blockCommentBegin? here t = some s) : Settled s.after := by
  unfold blockCommentBegin? at found
  split at found
  · split at found
    · split at found <;> cases found <;> exact h.enter comment rfl rfl
    · cases found
      exact h.enter comment rfl rfl
  · cases found

theorem settled_sectionHeader (h : Settled here) (found : sectionHeader? here t = some s) :
    Settled s.after := by
  unfold sectionHeader? at found
  split at found
  · next top =>
    split at found
    · cases found
    · cases found
      exact h.enter (by rw [top]; rfl) rfl (by simp [top, Region.belongsIn])
  · cases found

theorem settled_functionDeclaration (h : Settled here)
    (level : here.innermost.isStatementLevel = true)
    (found : functionDeclaration? here t = some s) : Settled s.after := by
  unfold functionDeclaration? at found
  split at found
  · cases found
  · split at found
    · cases found
      exact h.enter (Region.isBlockComment_of_isStatementLevel level) rfl level
    · cases found

theorem settled_variableDeclaration (h : Settled here)
    (level : here.innermost.isStatementLevel = true)
    (found : variableDeclaration? here t = some s) : Settled s.after := by
  unfold variableDeclaration? at found
  split at found
  · cases found
    exact h.enter (Region.isBlockComment_of_isStatementLevel level) rfl level
  · cases found

theorem settled_constraintsBegin (h : Settled here) (found : constraintsBegin? here t = some s) :
    Settled s.after := by
  unfold constraintsBegin? at found
  split at found
  · split at found
    · next begins =>
      cases found
      exact h.enter (by rw [begins.1]; rfl) rfl (by rw [begins.1]; rfl)
    · cases found
  · cases found

theorem settled_constraintsEnd (h : Settled here) (found : constraintsEnd? here t = some s) :
    Settled s.after := by
  unfold constraintsEnd? at found
  split at found
  · split at found
    · cases found
    · cases found
      exact h.leave
  · cases found

theorem settled_accumulator (h : Settled here) (comment : here.innermost.isBlockComment = false)
    (found : accumulator? here t = some s) : Settled s.after := by
  unfold accumulator? at found
  split at found
  · cases found
  · split at found
    · cases found
      exact h.enter comment rfl rfl
    · cases found

/-- A parenthesis opens the header that waits for it. -/
theorem settled_openParen_of_nested (h : Nested here.regions)
    (waits : here.innermost.isOpened = false) : Settled (openParen here).1 := by
  cases e : here.innermost with
  | control kind opened named =>
    obtain rfl : opened = false := by simpa [e, Region.isOpened] using waits
    simp only [openParen, e]
    refine .become h e (by simp) rfl fun lower old => ?_
    have unnamed : named = false := by simpa [Region.belongsIn] using old
    rw [unnamed]
    rfl
  | _ => simp [e, Region.isOpened] at waits

theorem settled_openParen (h : Settled here) (comment : here.innermost.isBlockComment = false) :
    Settled (openParen here).1 := by
  unfold openParen
  split
  · next header => exact absurd h.opened (by simp [header, Region.isOpened])
  · next header => exact .become h.nested header (by simp) rfl fun _ => id
  · exact h.enter comment rfl rfl

theorem settled_opener (h : Settled here) (comment : here.innermost.isBlockComment = false)
    (found : opener? assigned here t = some s) : Settled s.after := by
  unfold opener? at found
  split at found
  · cases found
    exact settled_openParen h comment
  · cases found
    exact h.enter comment rfl rfl
  · cases found
    simp only [openBrace]
    split
    · next level =>
      simp only [Bool.and_eq_true] at level
      exact h.enter comment rfl level.1
    · exact h.enter comment rfl rfl
  · cases found

theorem settled_closer (h : Settled here) (found : closer? here t = some s) : Settled s.after :=
  h.of_suffix (regions_closer_suffix found)

theorem settled_terminator (h : Settled here) (found : terminator? here t = some s) :
    Settled s.after :=
  h.of_suffix (regions_terminator_suffix found)

theorem settled_operator (h : Settled here) (found : operator? here t = some s) :
    Settled s.after :=
  h.of_regions_eq (regions_operator found)

theorem settled_heads {head : Piece} {inside : LineState} {e : Enclosure} {after : Text}
    (around : Settled head.around) (h : Settled inside) :
    Settled (heads head inside e after).after := by
  unfold heads
  split
  · exact h
  · exact around

theorem settled_nameSlot {w after : Text} (h : Settled here)
    (found : nameSlot? here w after = some s) : Settled s.after := by
  simp only [nameSlot?] at found
  split at found
  · next slot =>
    split at found
    · cases found
      exact h
    · split at found <;> cases found
      exact .become h.nested slot (by simp) rfl fun _ => id
  · next slot =>
    split at found <;> cases found
    exact .become h.nested slot (by simp) rfl fun _ => id
  · repeat' split at found
    all_goals cases found
    all_goals exact h
  · next slot =>
    split at found <;> cases found
    exact .become h.nested slot (by simp) rfl fun _ _ => rfl
  · split at found <;> cases found
    exact h
  · next slot =>
    split at found <;> cases found
    have filled : Settled (here.become (.sampling true)) :=
      .become h.nested slot (by simp) rfl fun _ => id
    exact settled_heads filled (filled.enter rfl rfl rfl)
  · cases found

theorem settled_passDistribution (h : Settled here) : Settled (passDistribution here) := by
  unfold passDistribution
  split
  · next slot => exact .become h.nested slot (by simp) rfl fun _ => id
  · exact h

theorem isBlockComment_passDistribution (comment : here.innermost.isBlockComment = false) :
    (passDistribution here).innermost.isBlockComment = false := by
  unfold passDistribution
  split
  · rfl
  · exact comment

/-- A keyword opens a control statement only if its parenthesis follows. -/
theorem sound_keyword {w after : Text} (h : Settled here)
    (comment : here.innermost.isBlockComment = false) (found : keyword? here w after = some s) :
    Sound s.after s.rest := by
  simp only [keyword?] at found
  split at found
  · cases found
    split
    · next header => exact ⟨h.nested_enter comment rfl, .inr header⟩
    · exact h.sound _
  · have print : ∀ {head : Piece}, head.around = here →
        Settled (heads head (here.enter .printArguments) .printArguments after).after := by
      intro head around
      exact settled_heads (around ▸ h) (h.enter comment rfl rfl)
    repeat' split at found
    all_goals cases found
    all_goals first
      | exact h.sound _
      | exact (print rfl).sound _
      | exact (h.enter comment rfl rfl).sound _

theorem settled_identifier {w after : Text} (h : Settled here)
    (comment : here.innermost.isBlockComment = false) : Settled (identifier here w after).after := by
  unfold identifier
  split
  · exact h.enter comment rfl rfl
  · exact h

theorem sound_wordStep {w after : Text} (h : Settled here)
    (comment : here.innermost.isBlockComment = false) :
    Sound (wordStep here w after).after (wordStep here w after).rest := by
  unfold wordStep
  split
  · exact h.sound _
  · split
    · exact h.sound _
    · split
      · next found => exact (settled_nameSlot h found).sound _
      · have passed := settled_passDistribution h
        have outside := isBlockComment_passDistribution comment
        cases found : keyword? (passDistribution here) w after with
        | none => exact (settled_identifier passed outside).sound _
        | some s => exact sound_keyword passed outside found

/-- Rules of this kind keep the state as it is. -/
theorem after_of_keeps {rule : Rule}
    (keeps : rule ∈ [inclusion, lineComment, documentationTag, constraintEquals, string, number,
      delimiter]) (found : step? config assigned here t rule = some s) : s.after = here := by
  simp only [List.mem_cons, List.not_mem_nil, or_false] at keeps
  rcases keeps with rfl | rfl | rfl | rfl | rfl | rfl | rfl
  all_goals
    simp only [step?] at found
    first
      | unfold include? at found
      | unfold lineComment? at found
      | unfold documentationTag? at found
      | unfold constraintEquals? at found
      | unfold string? at found
      | unfold number? at found
      | unfold delimiter? at found
  case inr.inr.inr.inl =>
    obtain ⟨rest, _, rfl⟩ := Option.map_eq_some_iff.1 found
    rfl
  all_goals
    repeat' split at found
    all_goals
      cases found
      try rfl

/-- Every rule of the innermost region keeps the regions nested. -/
theorem sound_step? {rule : Rule} (h : Settled here) (mem : rule ∈ here.innermost.rules)
    (found : step? config assigned here t rule = some s) : Sound s.after s.rest := by
  have comment : rule ∉ blockComment → here.innermost.isBlockComment = false :=
    Region.isBlockComment_of_mem_rules mem
  have level := Region.isStatementLevel_of_mem_rules mem
  cases rule with
  | inclusion | lineComment | documentationTag | constraintEquals | string | number | delimiter =>
    rw [after_of_keeps (by decide) found]
    exact h.sound _
  | blockCommentBegin => exact (settled_blockCommentBegin h (comment (by decide)) found).sound _
  | blockCommentEnd =>
    simp only [step?, blockCommentEnd?] at found
    split at found <;> cases found
    exact h.leave.sound _
  | sectionHeader => exact (settled_sectionHeader h found).sound _
  | functionDeclaration => exact (settled_functionDeclaration h (level (by decide)) found).sound _
  | variableDeclaration => exact (settled_variableDeclaration h (level (by decide)) found).sound _
  | constraintsBegin => exact (settled_constraintsBegin h found).sound _
  | initializer =>
    obtain ⟨rest, _, rfl⟩ := Option.map_eq_some_iff.1 found
    have belongs := Region.belongsIn_initializer_of_mem_rules mem
    exact (h.enter (comment (by decide)) rfl belongs).sound _
  | constraintsEnd => exact (settled_constraintsEnd h found).sound _
  | accumulator => exact (settled_accumulator h (comment (by decide)) found).sound _
  | word =>
    simp only [step?, word?] at found
    split at found <;> cases found
    exact sound_wordStep h (comment (by decide))
  | sampling =>
    simp only [step?, sampling?] at found
    split at found <;> cases found
    exact (h.enter (comment (by decide)) rfl rfl).sound _
  | terminator => exact (settled_terminator h found).sound _
  | opener => exact (settled_opener h (comment (by decide)) found).sound _
  | closer => exact (settled_closer h found).sound _
  | operator => exact (settled_operator h found).sound _

end Rule

variable {lexer : Lexer} {assigned : Bool} {here : LineState} {t : Text}

/-- While a header waits for its parenthesis, blanks are skipped and then the parenthesis
opens it. -/
theorem sound_take_of_waiting (parts : lexer.clusters.PartsAscii) (nested : Nested here.regions)
    (waits : here.innermost.isOpened = false) (header : (Rule.parenAfterGap? t).isSome = true) :
    Sound (Step.take lexer assigned here t).after (Step.take lexer assigned here t).rest := by
  cases t with
  | nil => cases header
  | cons c t =>
    rw [Rule.isSome_parenAfterGap?_iff] at header
    cases blank : Text.isSpace c with
    | true =>
      -- The cluster may take up several blanks, but it ends in front of the parenthesis.
      obtain ⟨rest, visible⟩ := List.head?_eq_some_iff.1 header
      have gap : Text.gap (c :: t) ≠ [] := by simp [Text.gap, blank]
      have later := Segmentation.trimStart_drop_first parts gap visible (by decide) (by decide)
      rw [Step.take_of_isSpace blank]
      exact ⟨nested, .inr (Rule.isSome_parenAfterGap?_iff.2 (by rw [Step.skip, later]; rfl))⟩
    | false =>
      rw [Text.trimStart_cons_of_not_isSpace blank] at header
      obtain rfl : c = '(' := Option.some.inj header
      have comment : here.innermost.isBlockComment = false := by
        cases e : here.innermost with
        | control => rfl
        | _ => simp [e, Region.isOpened] at waits
      rw [Step.take_mark comment (by decide : ∀ table ∈ Rule.tables,
        (table.filter fun rule => rule.startsAt '(').head? = some .opener) rfl]
      exact (Rule.settled_openParen_of_nested nested waits).sound _

/-- Every step keeps the regions nested. -/
theorem sound_take (parts : lexer.clusters.PartsAscii) (h : Sound here t) :
    Sound (Step.take lexer assigned here t).after (Step.take lexer assigned here t).rest := by
  by_cases opened : here.innermost.isOpened = true
  · have settled : Settled here := ⟨h.nested, opened⟩
    unfold Step.take
    cases found : here.innermost.rules.findSome? (Rule.step? lexer.config assigned here t) with
    | none => exact settled.sound _
    | some s =>
      obtain ⟨rule, mem, applies⟩ := List.exists_of_findSome?_eq_some found
      exact Rule.sound_step? settled mem applies
  · have header := h.opened.resolve_left opened
    exact sound_take_of_waiting parts h.nested (by simpa using opened) header

/-- Between lines the regions are nested and no header waits for its parenthesis. -/
theorem settled_of_reachable {s : LineState} (h : s.Reachable) : Settled s := by
  induction h with
  | initial => exact ⟨.program, rfl⟩
  | line lexer parts t _ ih =>
    have sound := cut_preserves Sound lexer
      (fun _ _ _ _ h => sound_take parts h) false (ih.sound (Text.stripTerminator t))
    rw [state_tokenizeLine]
    exact ⟨sound.nested, sound.opened.resolve_right (by decide)⟩

end StanHighlight

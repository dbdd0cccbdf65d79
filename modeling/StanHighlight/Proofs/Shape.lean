import StanHighlight.Proofs.Nesting

/-!
The shape of the stack between lines, read from the program outwards: the program, at most
one of its blocks, blocks of statements, and above them at most one declaration and whatever
is open inside a statement.
-/

namespace StanHighlight

/-- The open regions, outermost first. -/
def LineState.stack (s : LineState) : List Region := s.frames.reverse.map fun f => f.region

theorem LineState.stack_eq_reverse (s : LineState) : s.stack = s.regions.reverse := by
  rw [stack, regions, List.map_reverse]

/-- Regions, innermost first, of which those where a statement may begin lie together on the
program, a section only directly on it, and only directly on these is anything declared. -/
def Leveled (rs : List Region) : Prop :=
  ∃ (sec : Option Section) (blocks : Nat) (above : List Region),
    rs = above ++ (List.replicate blocks .block ++ (sec.toList.map .sectionBody ++ [.program])) ∧
      (∀ r ∈ above, r.isStatementLevel = false) ∧ ∀ r ∈ above.dropLast, r.isDeclaring = false

namespace Leveled

variable {upper lower : Region} {rest : List Region}

/-- Nothing but statement levels lies below one. -/
theorem bare (h : Leveled (lower :: rest)) (level : lower.isStatementLevel = true) :
    ∃ (sec : Option Section) (blocks : Nat),
      lower :: rest = List.replicate blocks .block ++ (sec.toList.map .sectionBody ++ [.program]) := by
  obtain ⟨sec, blocks, above, whole, inner, _⟩ := h
  cases above with
  | nil => exact ⟨sec, blocks, whole⟩
  | cons r above =>
    obtain rfl : lower = r := (List.cons.inj whole).1
    exact absurd level (by simp [inner lower])

/-- Anything that neither declares nor is a statement level may lie on top. -/
theorem plain (h : Leveled (lower :: rest)) (level : upper.isStatementLevel = false)
    (declaring : upper.isDeclaring = false) : Leveled (upper :: lower :: rest) := by
  obtain ⟨sec, blocks, above, whole, inner, declares⟩ := h
  refine ⟨sec, blocks, upper :: above, by rw [whole]; rfl, by simpa [level] using inner, ?_⟩
  cases above with
  | nil => simp
  | cons r above => simpa [declaring] using declares

theorem declaring (h : Leveled (lower :: rest)) (level : lower.isStatementLevel = true)
    (inside : upper.isStatementLevel = false) : Leveled (upper :: lower :: rest) := by
  obtain ⟨sec, blocks, whole⟩ := h.bare level
  exact ⟨sec, blocks, [upper], by rw [whole]; rfl, by simp [inside], by simp⟩

theorem block (h : Leveled (lower :: rest)) (level : lower.isStatementLevel = true) :
    Leveled (.block :: lower :: rest) := by
  obtain ⟨sec, blocks, whole⟩ := h.bare level
  exact ⟨sec, blocks + 1, [], by rw [whole]; rfl, by simp, by simp⟩

theorem sectionBody (h : Leveled (.program :: rest)) (sec : Section) :
    Leveled (.sectionBody sec :: .program :: rest) := by
  obtain ⟨other, blocks, whole⟩ := h.bare rfl
  cases blocks with
  | succ blocks => cases (List.cons.inj whole).1
  | zero =>
    cases other with
    | some other => cases (List.cons.inj whole).1
    | none => exact ⟨some sec, 0, [], by rw [whole]; rfl, by simp, by simp⟩

end Leveled

theorem Nested.leveled {rs : List Region} (h : Nested rs) : Leveled rs := by
  induction h with
  | program => exact ⟨none, 0, [], rfl, by simp, by simp⟩
  | @on upper lower rest fits h ih =>
    have belongs := (Region.fitsIn_iff.1 fits).2.2
    cases upper with
    | program => cases belongs
    | sectionBody sec =>
      obtain rfl : lower = .program := by simpa [Region.belongsIn] using belongs
      exact ih.sectionBody sec
    | block => exact ih.block belongs
    | declaration | functionDeclaration => exact ih.declaring belongs rfl
    | _ => exact ih.plain rfl rfl

/-- A region in the stack is the program at the bottom or fits in the one that it lies on. -/
theorem Settled.on_or_bottom {s : LineState} (h : Settled s) {r : Region} {below above : List Region}
    (at_ : s.stack = below ++ r :: above) :
    r = .program ∧ below = [] ∨ ∃ lower, below.getLast? = some lower ∧ r.fitsIn lower = true := by
  have inside : s.regions = above.reverse ++ r :: below.reverse := by
    simpa [LineState.stack_eq_reverse] using congrArg List.reverse at_
  have here : Nested (r :: below.reverse) :=
    h.nested.of_suffix ⟨above.reverse, inside.symm⟩ (List.cons_ne_nil _ _)
  rw [← List.head?_reverse]
  cases reversed : below.reverse with
  | nil =>
    rw [reversed] at here
    cases here
    exact .inl ⟨rfl, List.reverse_eq_nil_iff.1 reversed⟩
  | cons lower rest =>
    rw [reversed] at here
    exact .inr ⟨lower, rfl, here.fits⟩

structure StackShape (s : LineState) : Prop where
  program : ∃ above, s.stack = .program :: above ∧ .program ∉ above
  levels : ∃ (sec : Option Section) (blocks : Nat) (above : List Region),
    s.stack = .program :: (sec.toList.map .sectionBody ++ (List.replicate blocks .block ++ above)) ∧
      (∀ r ∈ above, r.isStatementLevel = false) ∧ ∀ r ∈ above.tail, r.isDeclaring = false
  declarations : s.stack.countP Region.isDeclaring ≤ 1
  constraints : ∀ below above, s.stack = below ++ .constraints :: above →
    below.getLast? = some (.declaration false)
  initializer : ∀ below above, s.stack = below ++ .initializer :: above →
    ∃ named, below.getLast? = some (.declaration named)
  distribution : ∀ below above, s.stack = below ++ .call .distribution :: above →
    below.getLast? = some (.sampling true)
  comment : ∀ below documentation above,
    s.stack = below ++ .blockComment documentation :: above → above = []
  inBlockComment : s.inBlockComment = true ↔ ∃ r ∈ s.stack, r.isBlockComment = true
  header : ∀ kind opened named, .control kind opened named ∈ s.stack →
    opened = true ∧ (named = true → kind = .forLoop)

theorem Settled.levels {s : LineState} (h : Settled s) :
    ∃ (sec : Option Section) (blocks : Nat) (above : List Region),
      s.stack = .program :: (sec.toList.map .sectionBody ++ (List.replicate blocks .block ++ above)) ∧
        (∀ r ∈ above, r.isStatementLevel = false) ∧ ∀ r ∈ above.tail, r.isDeclaring = false := by
  obtain ⟨sec, blocks, above, whole, inner, declares⟩ := h.nested.leveled
  refine ⟨sec, blocks, above.reverse, ?_, by simpa using inner, ?_⟩
  · rw [LineState.stack_eq_reverse, whole]
    cases sec <;> simp
  · rw [List.tail_reverse]
    simpa using declares

/-- A comment is the innermost region. -/
theorem Settled.comment {s : LineState} (h : Settled s) {below above : List Region} {doc : Bool}
    (at_ : s.stack = below ++ .blockComment doc :: above) : above = [] := by
  cases above with
  | nil => rfl
  | cons r above =>
    have next : s.stack = (below ++ [.blockComment doc]) ++ r :: above := by simp [at_]
    rcases h.on_or_bottom next with ⟨_, none⟩ | ⟨lower, last, fits⟩
    · simp at none
    · obtain rfl : .blockComment doc = lower := by simpa using last
      exact absurd (Region.fitsIn_iff.1 fits).2.1 (by simp [Region.isBlockComment])

theorem Settled.isOpened_of_mem {s : LineState} (h : Settled s) {r : Region} (mem : r ∈ s.stack) :
    r.isOpened = true := by
  rw [LineState.stack_eq_reverse, List.mem_reverse, LineState.regions_eq_cons] at mem
  rcases List.mem_cons.1 mem with rfl | inside
  · exact h.opened
  · exact Nested.isOpened_of_mem h.nested inside

theorem LineState.innermost_of_stack {s : LineState} {below : List Region} {r : Region}
    (h : s.stack = below ++ [r]) : s.innermost = r := by
  have inside : s.regions = r :: below.reverse := by
    simpa [stack_eq_reverse] using congrArg List.reverse h
  exact (List.cons.inj inside).1

theorem Settled.shape {s : LineState} (h : Settled s) : StackShape s where
  program := by
    obtain ⟨sec, blocks, above, whole, inner, _⟩ := h.levels
    refine ⟨_, whole, fun mem => ?_⟩
    rcases List.mem_append.1 mem with mem | mem
    · simp at mem
    · rcases List.mem_append.1 mem with mem | mem
      · simp [List.mem_replicate] at mem
      · cases inner _ mem
  levels := h.levels
  declarations := by
    obtain ⟨sec, blocks, above, whole, _, declares⟩ := h.levels
    have section_ : (sec.toList.map Region.sectionBody).countP Region.isDeclaring = 0 := by
      cases sec <;> rfl
    have block : (List.replicate blocks Region.block).countP Region.isDeclaring = 0 := by
      simp [List.countP_replicate, Region.isDeclaring]
    have tail : above.tail.countP Region.isDeclaring = 0 := by
      simpa [List.countP_eq_zero] using declares
    rw [whole, List.countP_cons_of_neg (by decide), List.countP_append, List.countP_append, section_,
      block]
    cases above with
    | nil => simp
    | cons r above =>
      rw [List.tail_cons] at tail
      rw [List.countP_cons, tail]
      split <;> omega
  constraints := by
    intro below above at_
    rcases h.on_or_bottom at_ with ⟨none, _⟩ | ⟨lower, last, fits⟩
    · cases none
    · simpa [Region.belongsIn, last] using (Region.fitsIn_iff.1 fits).2.2
  initializer := by
    intro below above at_
    rcases h.on_or_bottom at_ with ⟨none, _⟩ | ⟨lower, last, fits⟩
    · cases none
    · have belongs := (Region.fitsIn_iff.1 fits).2.2
      simp only [Region.belongsIn, Bool.or_eq_true, decide_eq_true_eq] at belongs
      rcases belongs with rfl | rfl
      · exact ⟨false, last⟩
      · exact ⟨true, last⟩
  distribution := by
    intro below above at_
    rcases h.on_or_bottom at_ with ⟨none, _⟩ | ⟨lower, last, fits⟩
    · cases none
    · simpa [Region.belongsIn, last] using (Region.fitsIn_iff.1 fits).2.2
  comment := by
    intro below doc above at_
    exact h.comment at_
  inBlockComment := by
    constructor
    · intro inside
      refine ⟨s.innermost, ?_, inside⟩
      rw [LineState.stack_eq_reverse, List.mem_reverse]
      exact List.mem_cons_self
    · rintro ⟨r, mem, inside⟩
      obtain ⟨below, above, at_⟩ := List.append_of_mem mem
      cases r with
      | blockComment doc =>
        obtain rfl := h.comment at_
        rw [LineState.inBlockComment, LineState.innermost_of_stack at_]
        rfl
      | _ => cases inside
  header := by
    intro kind opened named mem
    have paren : opened = true := h.isOpened_of_mem mem
    refine ⟨paren, fun loops => ?_⟩
    obtain ⟨below, above, at_⟩ := List.append_of_mem mem
    rcases h.on_or_bottom at_ with ⟨none, _⟩ | ⟨lower, _, fits⟩
    · cases none
    · have belongs := (Region.fitsIn_iff.1 fits).2.2
      simpa [Region.belongsIn, loops, paren] using belongs

/-- Every reachable state is stacked so. -/
theorem shape_of_reachable {s : LineState} (h : s.Reachable) : StackShape s :=
  (settled_of_reachable h).shape

/-- Inside the header of a loop the stack holds the program, a section and the header. -/
theorem shape_in_loop_header :
    let lexer : Lexer := ⟨{}, by decide, .prepending⟩
    let s := (lexer.tokenizeLine "model \x7b for (i".toList .initial).state
    s.stack = [.program, .sectionBody .model, .control .forLoop true true] ∧ StackShape s :=
  ⟨by decide +kernel, shape_of_reachable (.line _ Segmentation.prepending_partsAscii _ .initial)⟩

end StanHighlight

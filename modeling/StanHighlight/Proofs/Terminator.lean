import StanHighlight.Proofs.Reachable
import StanHighlight.Proofs.Start

/-!
What a `;` ends. It closes the initializers and additions to the target that lie on top of the
stack, and then one declaration or sampling statement. That is the whole statement unless a
sampling statement was begun inside another one, as in `real x = y ~ z;`: then the regions around
the sampling statement stay open behind the `;`.
-/

namespace StanHighlight

namespace Region

/-- Regions that are part of a statement and have no bracket of their own to end them. -/
def isStatement (r : Region) : Bool := r.endsBeforeTerminator || r.endsWithTerminator

theorem isStatementLevel_of_isStatement {r : Region} (h : r.isStatement = true) :
    r.isStatementLevel = false := by
  cases r with
  | declaration | initializer | sampling | accumulation => rfl
  | _ => cases h

theorem isStatement_of_isStatementLevel {r : Region} (h : r.isStatementLevel = true) :
    r.isStatement = false := by
  cases r with
  | program | sectionBody | block => rfl
  | _ => cases h

theorem isBlockComment_of_isStatement {r : Region} (h : r.isStatement = true) :
    r.isBlockComment = false := by
  cases r with
  | blockComment => cases h
  | _ => rfl

end Region

namespace LineState

def pastTerminator (frames : List OpenRegion) : List OpenRegion :=
  frames.dropWhile fun f => f.region.endsBeforeTerminator

/-- The regions with a property that lie on top of a state are closed together. -/
theorem frames_leaveWhile {p : Region → Bool} {level : LineState} (stops : p level.innermost = false)
    {above : List OpenRegion} {inner : OpenRegion} {outer : List OpenRegion}
    (whole : inner :: outer = above ++ level.frames) :
    (leaveWhile p inner outer).frames = (above.dropWhile fun f => p f.region) ++ level.frames := by
  induction above generalizing inner outer with
  | nil =>
    obtain ⟨rfl, rfl⟩ := List.cons.inj whole
    have stays : p level.inner.region = false := stops
    cases below : level.outer with
    | nil => simp [leaveWhile, frames, below]
    | cons f fs => simp [leaveWhile, frames, below, stays]
  | cons f above ih =>
    obtain ⟨rfl, rfl⟩ := List.cons.inj whole
    obtain ⟨g, more, next⟩ := List.exists_cons_of_ne_nil
      (l := above ++ level.frames) (by simp [frames])
    cases leaves : p inner.region with
    | false =>
      have stays : leaveWhile p inner (g :: more) = ⟨inner, g :: more⟩ := by
        simp [leaveWhile, leaves]
      change (leaveWhile p inner (above ++ level.frames)).frames = _
      rw [next, stays, List.dropWhile_cons_of_neg (by simp [leaves]), List.cons_append, next]
      rfl
    | true =>
      have goes : leaveWhile p inner (g :: more) = leaveWhile p g more := by
        simp [leaveWhile, leaves]
      change (leaveWhile p inner (above ++ level.frames)).frames = _
      rw [next, goes, List.dropWhile_cons_of_pos (by simp [leaves])]
      exact ih next.symm

end LineState

section Ends

variable {s level : LineState} {above : List OpenRegion}

/-- At statement level there is nothing to end but the `?` that wait. -/
theorem afterTerminator_level (base : level.innermost.isStatementLevel = true) :
    Rule.afterTerminator level = level.forget := by
  have other := Region.isStatement_of_isStatementLevel base
  simp only [Region.isStatement, Bool.or_eq_false_iff] at other
  simp [Rule.afterTerminator, other.2, base]

/-- Of the regions that are left once those on top that end before a `;` are closed, the `;` ends
the innermost one. -/
theorem frames_afterTerminator {f : OpenRegion} (whole : s.frames = f :: (above ++ level.frames))
    (ends : f.region.endsWithTerminator = true)
    (statements : ∀ g ∈ above, g.region.isStatement = true)
    (base : level.innermost.isStatementLevel = true) :
    (Rule.afterTerminator s).frames =
      if above = [] then level.forget.frames else above ++ level.frames := by
  have top : s.innermost.endsWithTerminator = true := by
    rw [LineState.innermost, (List.cons.inj whole).1]
    exact ends
  cases above with
  | nil =>
    have left : s.leave = level := by
      obtain ⟨rfl, below⟩ := List.cons.inj whole
      rw [← LineState.leave_enter level s.innermost]
      obtain ⟨inner, outer⟩ := s
      cases below
      rfl
    simp [Rule.afterTerminator, top, left, base]
  | cons g above =>
    have left : s.leave.frames = g :: above ++ level.frames := by
      obtain ⟨inner, outer⟩ := s
      obtain ⟨rfl, rfl⟩ := List.cons.inj whole
      rfl
    have inside : s.leave.innermost.isStatementLevel = false := by
      rw [LineState.innermost, (List.cons.inj left).1]
      exact Region.isStatementLevel_of_isStatement (statements g List.mem_cons_self)
    simp [Rule.afterTerminator, top, inside, left]

/-- The stack behind a `;`: the regions that end before it are closed, then one that ends with it,
and nothing waits for a `:` if that was all. -/
theorem frames_terminated (whole : s.frames = above ++ level.frames)
    (statements : ∀ f ∈ above, f.region.isStatement = true)
    (base : level.innermost.isStatementLevel = true) :
    (Rule.afterTerminator (Rule.beforeTerminator s)).frames =
      if (LineState.pastTerminator above).length ≤ 1 then level.forget.frames
      else (LineState.pastTerminator above).tail ++ level.frames := by
  have stops : level.innermost.endsBeforeTerminator = false := by
    have other := Region.isStatement_of_isStatementLevel base
    simp only [Region.isStatement, Bool.or_eq_false_iff] at other
    exact other.1
  have before : (Rule.beforeTerminator s).frames = LineState.pastTerminator above ++ level.frames :=
    LineState.frames_leaveWhile stops whole
  cases left : LineState.pastTerminator above with
  | nil =>
    have all : Rule.beforeTerminator s = level :=
      LineState.eq_of_frames_eq (by rw [before, left, List.nil_append])
    simp [all, afterTerminator_level base]
  | cons f more =>
    have inside : ∀ g ∈ f :: more, g.region.isStatement = true := fun g mem =>
      statements g (List.dropWhile_subset _ (left ▸ mem))
    have stays : f.region.endsBeforeTerminator = false := by
      have first := List.head?_dropWhile_not (fun f : OpenRegion => f.region.endsBeforeTerminator) above
      rw [LineState.pastTerminator] at left
      simpa [left] using first
    have ends : f.region.endsWithTerminator = true := by
      simpa [Region.isStatement, stays] using inside f List.mem_cons_self
    rw [left] at before
    rw [frames_afterTerminator before ends (fun g mem => inside g (List.mem_cons_of_mem f mem)) base]
    simp

end Ends

theorem cut_semicolon (lexer : Lexer) (assigned : Bool) {s : LineState}
    (comment : s.inBlockComment = false) : (cut lexer assigned s [';']).2 =
      Rule.afterTerminator (Rule.beforeTerminator s) := by
  have first : ∀ table ∈ Rule.tables,
      (table.filter fun rule => rule.startsAt ';').head? = some .terminator := by decide
  have step : Step.take lexer assigned s [';'] = ⟨[⟨[';'], Rule.beforeTerminator s, [.terminator]⟩],
      Rule.afterTerminator (Rule.beforeTerminator s), []⟩ := Step.take_mark comment first rfl
  rw [cut_eq (by simp), step]
  simp

/-- A line with a `;` alone ends all that has begun since the statement level exactly if at most
one region is left once those on top that end before a `;` are closed. -/
theorem state_semicolon_iff (lexer : Lexer) {s level : LineState} {above : List OpenRegion}
    (whole : s.frames = above ++ level.frames)
    (statements : ∀ f ∈ above, f.region.isStatement = true)
    (base : level.innermost.isStatementLevel = true) :
    (lexer.tokenizeLine [';'] s).state = level.forget ↔
      (LineState.pastTerminator above).length ≤ 1 := by
  have comment : s.inBlockComment = false := by
    cases above with
    | nil =>
      obtain rfl : s = level := LineState.eq_of_frames_eq whole
      exact Region.isBlockComment_of_isStatementLevel base
    | cons f above =>
      rw [LineState.inBlockComment, LineState.innermost, (List.cons.inj whole).1]
      exact Region.isBlockComment_of_isStatement (statements f List.mem_cons_self)
  have state : (lexer.tokenizeLine [';'] s).state =
      Rule.afterTerminator (Rule.beforeTerminator s) := by
    rw [state_tokenizeLine]
    exact cut_semicolon lexer false comment
  have frames := frames_terminated whole statements base
  rw [state]
  constructor
  · intro ended
    rw [ended] at frames
    split at frames
    · assumption
    · have size := congrArg List.length frames
      simp only [LineState.forget, LineState.frames, List.length_cons, List.length_append,
        List.length_tail] at size
      omega
  · intro few
    rw [if_pos few] at frames
    exact LineState.eq_of_frames_eq frames

/-- Behind `x = y ? z` in a declaration, with another `?` waiting outside it, a `;` leaves only the
program, where nothing waits. -/
theorem state_semicolon_behind_initializer :
    ((⟨{}, by decide, .prepending⟩ : Lexer).tokenizeLine [';']
      ⟨⟨.initializer, 1⟩, [⟨.declaration true, 0⟩, ⟨.program, 1⟩]⟩).state = .initial :=
  (@state_semicolon_iff _ _ ⟨⟨.program, 1⟩, []⟩ [⟨.initializer, 1⟩, ⟨.declaration true, 0⟩] rfl
    (by decide) rfl).2 (by decide)

/-- In `real x = y ~ z;` the `;` ends the sampling statement alone. -/
theorem declaration_outlasts_semicolon :
    let lexer : Lexer := ⟨{}, by decide, .prepending⟩
    let s := (lexer.tokenizeLine "real x = y ~ z".toList .initial).state
    s.Reachable ∧
      s.frames = [⟨.sampling true, 0⟩, ⟨.initializer, 0⟩, ⟨.declaration true, 0⟩] ++
        LineState.initial.frames ∧
      (lexer.tokenizeLine [';'] s).state.frames =
        [⟨.initializer, 0⟩, ⟨.declaration true, 0⟩] ++ LineState.initial.frames ∧
      (lexer.tokenizeLine [';'] s).state ≠ LineState.initial.forget := by
  refine ⟨.line _ Segmentation.prepending_partsAscii _ .initial, ?_, ?_, ?_⟩
  · decide +kernel
  · decide +kernel
  · decide +kernel

end StanHighlight

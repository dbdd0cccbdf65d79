import StanHighlight.Proofs.Act
import StanHighlight.Proofs.FirstToken
import StanHighlight.Proofs.Nesting

/-!
What closing brackets end. A `}` ends the nearest region in braces, whatever is still open inside
it, and nothing around it; a `)` or `]` ends the innermost region if that is its own. A bracket
that ends nothing leaves the state as it was. So a program whose section is open can be closed by
braces alone.
-/

namespace StanHighlight

def Region.closedBy? : Region → Option Char
  | sectionBody _ | block | array => some '}'
  | parens | call _ | printArguments | control _ true _ | functionDeclaration _ true => some ')'
  | brackets | truncation => some ']'
  | constraints => some '>'
  | program | blockComment _ | control _ false _ | declaration _ | initializer
  | functionDeclaration _ false | sampling _ | accumulation => none

theorem Region.closedBy?_eq (r : Region) : r.closedBy? = r.enclosure?.map Enclosure.closer := by
  cases r with
  | control kind opened named => cases opened <;> rfl
  | functionDeclaration named parameters => cases parameters <;> rfl
  | _ => rfl

theorem Region.isBraced_iff_closedBy? (r : Region) : r.isBraced = true ↔ r.closedBy? = some '}' := by
  rw [closedBy?_eq, isBraced_iff]

theorem LineState.leave_of_frames {s lower : LineState} (whole : s.frames = s.inner :: lower.frames) :
    s.leave = lower := by
  obtain ⟨inner, outer⟩ := s
  obtain rfl : outer = lower.frames := List.tail_eq_of_cons_eq whole
  rfl

/-- Any region but the program lies on another, and what it lies on is settled. -/
theorem Settled.below {s : LineState} (h : Settled s) {above below : List OpenRegion}
    {f : OpenRegion} (whole : s.frames = above ++ f :: below) (visible : f.region ≠ .program) :
    ∃ lower : LineState, lower.frames = below ∧ Settled lower ∧
      f.region.fitsIn lower.innermost = true := by
  have inside : s.regions =
      above.map OpenRegion.region ++ f.region :: below.map OpenRegion.region := by
    simp [LineState.regions, whole]
  have here : Nested (f.region :: below.map OpenRegion.region) :=
    h.nested.of_suffix ⟨_, inside.symm⟩ (List.cons_ne_nil _ _)
  cases below with
  | nil =>
    generalize f.region = r at here visible
    cases here
    exact absurd rfl visible
  | cons g more =>
    refine ⟨⟨g, more⟩, rfl, h.of_suffix ⟨above.map OpenRegion.region ++ [f.region], ?_⟩, here.fits⟩
    rw [inside]
    simp [LineState.regions, LineState.frames]

section Steps

variable {lexer : Lexer} {assigned : Bool} {s : LineState} {above below : List OpenRegion}
  {f : OpenRegion} {rest : Text}

/-- One rule decides where a closing bracket stands, and no terminator goes on behind one. -/
theorem facts_of_closer {c : Char} (bracket : c ∈ [')', ']', '}']) :
    (∀ table ∈ Rule.tables, (table.filter fun rule => rule.startsAt c).head? = some .closer) ∧
      c ≠ '\r' ∧ c ≠ '\n' := by
  have one : c = ')' ∨ c = ']' ∨ c = '}' := by simpa using bracket
  rcases one with rfl | rfl | rfl <;> decide

theorem take_closer {c : Char} (code : s.inBlockComment = false) (bracket : c ∈ [')', ']', '}'])
    {step : Step} (closes : Rule.closer? s (c :: rest) = some step) :
    Step.take lexer assigned s (c :: rest) = step :=
  Step.take_mark code (facts_of_closer bracket).1 closes

/-- A bracket ends the innermost region if that is its own. -/
theorem close_of_closedBy? {c : Char} (own : s.innermost.closedBy? = some c) (stray : Enclosure)
    (rest : Text) :
    ∃ e, s.innermost.enclosure? = some e ∧
      Rule.close s c stray rest = ⟨[⟨[c], s, [.ends e]⟩], s.leave, rest⟩ := by
  rw [Region.closedBy?_eq] at own
  obtain ⟨e, enclosure, closer⟩ := Option.map_eq_some_iff.1 own
  exact ⟨e, enclosure, by simp [Rule.close, enclosure, closer]⟩

theorem close_of_ne {c : Char} {stray : Enclosure} (other : s.innermost.closedBy? ≠ some c) :
    Rule.close s c stray rest = .single s [.ends stray] [c] rest := by
  rw [Region.closedBy?_eq] at other
  unfold Rule.close
  split
  · next e enclosure => rw [if_neg fun same => other (by simp [enclosure, same])]
  · rfl

theorem LineState.toBrace?_eq_some (whole : s.frames = above ++ f :: below)
    (loose : ∀ g ∈ above, g.region.isBraced = false) (braced : f.region.isBraced = true) :
    s.toBrace? = some ⟨f, below⟩ := by
  have found : s.frames.dropWhile (fun g => !g.region.isBraced) = f :: below := by
    rw [whole, List.dropWhile_append_of_pos (by simpa using loose)]
    simp [braced]
  rw [toBrace?, found]

theorem LineState.toBrace?_eq_none (loose : ∀ g ∈ s.frames, g.region.isBraced = false) :
    s.toBrace? = none := by
  have none : s.frames.dropWhile (fun g => !g.region.isBraced) = [] :=
    List.dropWhile_eq_nil_iff.2 (by simpa using loose)
  rw [toBrace?, none]

/-- A brace ends the nearest region in braces. -/
theorem take_brace (lexer : Lexer) (assigned : Bool) (rest : Text) (code : s.inBlockComment = false)
    (whole : s.frames = above ++ f :: below) (loose : ∀ g ∈ above, g.region.isBraced = false)
    (braced : f.region.isBraced = true) :
    ∃ e, f.region.enclosure? = some e ∧ Step.take lexer assigned s ('}' :: rest) =
      ⟨[⟨['}'], ⟨f, below⟩, [.ends e]⟩], LineState.leave ⟨f, below⟩, rest⟩ := by
  obtain ⟨e, enclosure, closes⟩ := close_of_closedBy? (s := ⟨f, below⟩)
    ((Region.isBraced_iff_closedBy? _).1 braced) .block rest
  refine ⟨e, enclosure, take_closer code (by decide) ?_⟩
  rw [Rule.closer?, LineState.toBrace?_eq_some whole loose braced, Option.getD_some, closes]

end Steps

section Lines

variable (lexer : Lexer) {s : LineState} {above below : List OpenRegion} {f : OpenRegion}

/-- Behind a brace the line is read in what the brace leaves. -/
theorem tokenizeLine_brace (settled : Settled s) (code : s.inBlockComment = false)
    (whole : s.frames = above ++ f :: below) (loose : ∀ g ∈ above, g.region.isBraced = false)
    (braced : f.region.isBraced = true) (rest : Text) :
    ∃ e lower, f.region.enclosure? = some e ∧ lower.frames = below ∧ Settled lower ∧
      f.region.fitsIn lower.innermost = true ∧ lexer.tokenizeLine ('}' :: rest) s =
        (lexer.tokenizeLine rest lower).behind [⟨⟨['}'], ⟨f, below⟩, [.ends e]⟩, 0⟩] 1 := by
  have visible : f.region ≠ .program := by
    intro program
    rw [program] at braced
    cases braced
  obtain ⟨lower, frames, settled, fits⟩ := settled.below whole visible
  obtain ⟨e, enclosure, taken⟩ :=
    take_brace lexer false (Text.stripTerminator rest) code whole loose braced
  rw [LineState.leave_of_frames (s := ⟨f, below⟩) (congrArg (f :: ·) frames.symm)] at taken
  have strips : Text.stripTerminator (['}'] ++ rest) = ['}'] ++ Text.stripTerminator rest :=
    Text.stripTerminator_append_of_getLast? (c := '}') rfl (by decide) rest
  exact ⟨e, lower, enclosure, frames, settled, fits, tokenizeLine_of_take lexer
    ⟨['}'], ⟨f, below⟩, [.ends e]⟩ rfl (by simp) (List.cons_ne_nil _ _) strips taken⟩

/-- A line with a closing bracket alone is one lexeme. -/
theorem tokenizeLine_closer {c : Char} {e : Enclosure} {after : LineState}
    (code : s.inBlockComment = false) (bracket : c ∈ [')', ']', '}'])
    (closes : Rule.closer? s [c] = some ⟨[⟨[c], s, [.ends e]⟩], after, []⟩) :
    lexer.tokenizeLine [c] s = ⟨[⟨⟨[c], s, [.ends e]⟩, 0⟩], after⟩ := by
  have strips : Text.stripTerminator ([c] ++ []) = [c] ++ Text.stripTerminator [] :=
    Text.stripTerminator_append_of_getLast? (c := c) rfl (facts_of_closer bracket).2 []
  have line := tokenizeLine_of_take lexer ⟨[c], s, [.ends e]⟩ rfl (by simp)
    (List.cons_ne_nil _ _) strips (take_closer code bracket closes)
  rw [tokenizeLine_nil] at line
  exact line

theorem tokenizeLine_strayBrace (code : s.inBlockComment = false)
    (loose : ∀ g ∈ s.frames, g.region.isBraced = false) :
    lexer.tokenizeLine ['}'] s = ⟨[⟨⟨['}'], s, [.ends .block]⟩, 0⟩], s⟩ := by
  have other : s.innermost.closedBy? ≠ some '}' := fun own => by
    have braced := (Region.isBraced_iff_closedBy? _).2 own
    rw [LineState.innermost, loose s.inner List.mem_cons_self] at braced
    cases braced
  refine tokenizeLine_closer lexer code (by decide) ?_
  rw [Rule.closer?, LineState.toBrace?_eq_none loose, Option.getD_none, close_of_ne other]
  rfl

/-- A parenthesis or square bracket ends the innermost region or nothing. -/
theorem tokenizeLine_bracket (code : s.inBlockComment = false) {c : Char}
    (bracket : c ∈ [')', ']']) : ∃ e, lexer.tokenizeLine [c] s =
      ⟨[⟨⟨[c], s, [.ends e]⟩, 0⟩], if s.innermost.closedBy? = some c then s.leave else s⟩ ∧
      (s.innermost.closedBy? = some c → s.innermost.enclosure? = some e) := by
  obtain ⟨stray, closes⟩ : ∃ stray, Rule.closer? s [c] = some (Rule.close s c stray []) := by
    simp only [List.mem_cons, List.not_mem_nil, or_false] at bracket
    rcases bracket with rfl | rfl <;> exact ⟨_, rfl⟩
  have closer : c ∈ [')', ']', '}'] := List.mem_append_left ['}'] bracket
  by_cases own : s.innermost.closedBy? = some c
  · obtain ⟨e, enclosure, ends⟩ := close_of_closedBy? own stray []
    rw [ends] at closes
    rw [if_pos own]
    exact ⟨e, tokenizeLine_closer lexer code closer closes, fun _ => enclosure⟩
  · rw [close_of_ne own] at closes
    rw [if_neg own]
    exact ⟨stray, tokenizeLine_closer lexer code closer closes, fun ends => absurd ends own⟩

end Lines

section Runs

variable (lexer : Lexer) {s : LineState}

/-- As many braces as there are regions in braces down to some one of them close that one. -/
theorem state_braces (settled : Settled s) (code : s.inBlockComment = false)
    {inside below : List OpenRegion} {f : OpenRegion} (whole : s.frames = inside ++ f :: below)
    (braced : f.region.isBraced = true) :
    (lexer.tokenizeLine
      (List.replicate (inside.countP (fun g => g.region.isBraced) + 1) '}') s).state.frames =
        below := by
  induction count : inside.countP (fun g => g.region.isBraced) generalizing s inside with
  | zero =>
    have loose : ∀ g ∈ inside, g.region.isBraced = false := by
      simpa [List.countP_eq_zero] using count
    obtain ⟨e, lower, _, frames, _, _, line⟩ :=
      tokenizeLine_brace lexer settled code whole loose braced []
    rw [List.replicate_one, line, tokenizeLine_nil]
    exact frames
  | succ n ih =>
    -- The first brace ends the nearest region in braces, and the others do the rest.
    have some_brace : 0 < inside.countP (fun g => g.region.isBraced) := by omega
    obtain ⟨nearest, found⟩ := Option.isSome_iff_exists.1
      (List.find?_isSome.2 (List.countP_pos_iff.1 some_brace))
    obtain ⟨first, above, inner, rfl, loose⟩ := List.find?_eq_some_iff_append.1 found
    have left : inner.countP (fun g => g.region.isBraced) = n := by
      have none : above.countP (fun g => g.region.isBraced) = 0 := by
        simpa [List.countP_eq_zero] using loose
      simpa [none, first] using count
    obtain ⟨e, lower, _, frames, settled, fits, line⟩ := tokenizeLine_brace lexer settled code
      (whole.trans (List.append_assoc _ _ _)) (by simpa using loose) first
      (List.replicate (n + 1) '}')
    have code : lower.inBlockComment = false := (Region.fitsIn_iff.1 fits).2.1
    rw [List.replicate_succ, line, LineTokens.state_behind]
    exact ih settled code frames left

/-- A section lies on the program alone. -/
theorem Settled.below_sectionBody (settled : Settled s) {sec : Section}
    (mem : .sectionBody sec ∈ s.regions) : ∃ inside f base,
      s.frames = inside ++ [f, base] ∧ f.region = .sectionBody sec ∧ base.region = .program := by
  obtain ⟨f, opened, same⟩ := List.mem_map.1 mem
  obtain ⟨inside, below, whole⟩ := List.append_of_mem opened
  obtain ⟨lower, rfl, settled, fits⟩ := settled.below whole (by rw [same]; nofun)
  have program : lower.innermost = .program := by
    simpa [same, Region.belongsIn] using (Region.fitsIn_iff.1 fits).2.2
  have nested := settled.nested
  rw [LineState.regions_eq_cons, program] at nested
  cases bottom : lower.regions.tail with
  | nil =>
    have alone : lower.outer = [] := by simpa [LineState.regions, LineState.frames] using bottom
    refine ⟨inside, f, lower.inner, ?_, same, program⟩
    rw [whole, LineState.frames, alone]
  | cons r rest =>
    rw [bottom] at nested
    exact absurd (Region.fitsIn_iff.1 nested.fits).2.2 (by simp [Region.belongsIn])

/-- What lines of closing brackets give in a state. -/
structure ClosersEnd (lexer : Lexer) (s : LineState) : Prop where
  /-- A `}` ends the nearest region in braces. Its label is that of the region's end, with the
  labels of the region and of those around it, which stay as they were. -/
  brace : ∀ above f below, s.frames = above ++ f :: below →
    (∀ g ∈ above, g.region.isBraced = false) → f.region.isBraced = true →
    ∃ e, f.region.enclosure? = some e ∧
      (lexer.tokenizeLine ['}'] s).lexemes = [⟨⟨['}'], ⟨f, below⟩, [.ends e]⟩, 0⟩] ∧
      (lexer.tokenizeLine ['}'] s).state.frames = below
  /-- Where nothing is in braces a `}` ends nothing. -/
  strayBrace : (∀ g ∈ s.frames, g.region.isBraced = false) →
    lexer.tokenizeLine ['}'] s = ⟨[⟨⟨['}'], s, [.ends .block]⟩, 0⟩], s⟩
  /-- A `)` or `]` ends the innermost region if it is its own. -/
  bracket : ∀ c ∈ [')', ']'], s.innermost.closedBy? = some c →
    ∃ e, s.innermost.enclosure? = some e ∧
      (lexer.tokenizeLine [c] s).lexemes = [⟨⟨[c], s, [.ends e]⟩, 0⟩] ∧
      s.frames = s.inner :: (lexer.tokenizeLine [c] s).state.frames
  /-- Any other `)` or `]` ends nothing. -/
  strayBracket : ∀ c ∈ [')', ']'], s.innermost.closedBy? ≠ some c →
    ∃ e, lexer.tokenizeLine [c] s = ⟨[⟨⟨[c], s, [.ends e]⟩, 0⟩], s⟩
  /-- Braces alone close all that is open in a section. -/
  sectionBody : ∀ sec, .sectionBody sec ∈ s.regions →
    (lexer.tokenizeLine (List.replicate (s.count Region.isBraced) '}') s).state.depth = 0

/-- Closing brackets end their own region and what is open inside it, and nothing else. -/
theorem closersEnd_of_reachable (lexer : Lexer) (h : s.Reachable) (code : s.inBlockComment = false) :
    ClosersEnd lexer s where
  brace above f below whole loose braced := by
    obtain ⟨e, lower, enclosure, frames, _, _, line⟩ :=
      tokenizeLine_brace lexer (settled_of_reachable h) code whole loose braced []
    refine ⟨e, enclosure, ?_, ?_⟩
    · rw [line, tokenizeLine_nil]
      rfl
    · rw [line, tokenizeLine_nil]
      exact frames
  strayBrace := tokenizeLine_strayBrace lexer code
  bracket c mem own := by
    obtain ⟨e, line, enclosure⟩ := tokenizeLine_bracket lexer code mem
    have visible : s.inner.region ≠ .program := by
      intro program
      rw [LineState.innermost, program] at own
      cases own
    obtain ⟨lower, frames, _⟩ :=
      (settled_of_reachable h).below (List.nil_append s.frames).symm visible
    have whole : s.frames = s.inner :: lower.frames := congrArg (s.inner :: ·) frames.symm
    rw [line, if_pos own, LineState.leave_of_frames whole]
    exact ⟨e, enclosure own, rfl, whole⟩
  strayBracket c mem other := by
    obtain ⟨e, line, _⟩ := tokenizeLine_bracket lexer code mem
    rw [if_neg other] at line
    exact ⟨e, line⟩
  sectionBody sec mem := by
    have settled := settled_of_reachable h
    obtain ⟨inside, f, base, whole, body, program⟩ := settled.below_sectionBody mem
    have count : s.count Region.isBraced = inside.countP (fun g => g.region.isBraced) + 1 := by
      simp [LineState.count, whole, body, program, Region.isBraced]
    have bottom := state_braces lexer settled code whole (by rw [body]; rfl)
    rw [count]
    simpa [LineState.frames, LineState.depth] using congrArg List.length bottom

/-- In an index inside the block of a loop, with an argument list open and a `?` waiting. -/
theorem closersEnd_in_loop :
    let lexer : Lexer := ⟨{}, by decide, .prepending⟩
    let s := (lexer.tokenizeLine
      "model \x7b for (i in 1:n) \x7b y[f(x ? ".toList .initial).state
    (s.Reachable ∧ s.inBlockComment = false ∧ .sectionBody .model ∈ s.regions ∧
      s.count Region.isBraced = 2) ∧ ClosersEnd lexer s := by
  intro lexer s
  have reachable : s.Reachable := .line _ Segmentation.prepending_partsAscii _ .initial
  have code : s.inBlockComment = false := by decide +kernel
  exact ⟨⟨reachable, code, by decide +kernel, by decide +kernel⟩,
    closersEnd_of_reachable lexer reachable code⟩

end Runs

end StanHighlight

import StanHighlight.Proofs.Join
import StanHighlight.Proofs.Shape

/-!
What braces hold together. A region in braces ends only at a `}`, and so does all that lies below
it: no terminator, no other bracket, no comment and no abandoned statement reaches past it. Each
`}` closes at most one such region, and each `{` opens at most one.
-/

namespace StanHighlight

namespace LineState

/-- Where the highest region in braces lies, counted from the program, or else the program. -/
def braceHeight (s : LineState) : Nat :=
  (s.frames.dropWhile fun f => !f.region.isBraced).length - 1

end LineState

namespace Region

theorem isFirm_of_isBraced {r : Region} (h : r.isBraced = true) : r.isFirm = true := by
  cases r with
  | sectionBody | block | array => rfl
  | _ => cases h

theorem isBraced_of_not_isFirm {r : Region} (h : r.isFirm = false) : r.isBraced = false := by
  cases braced : r.isBraced with
  | false => rfl
  | true => rw [isFirm_of_isBraced braced] at h; cases h

theorem isBraced_of_sign? {r : Region} {l : Label} (h : r.sign? = some l) : r.isBraced = false := by
  cases r with
  | sectionBody | block | array => cases h
  | _ => rfl

theorem Names.isBraced {r r' : Region} {own : List Label} (h : Names r r' own) :
    r'.isBraced = r.isBraced := by
  cases h <;> rfl

theorem Heads.isBraced {r r' : Region} {e : Enclosure} (h : Heads r r' e) :
    r'.isBraced = r.isBraced := by
  cases h <;> rfl

end Region

/-- The height of the braces is that of a region in braces with none above it, or of the program
where there is no such region. -/
theorem rests_braceHeight {s : LineState} (rooted : Rooted s) :
    ∃ r below, Rests r below s ∧ below.length = s.braceHeight ∧
      (r.isBraced = true ∨ below = [] ∧ r = .program) := by
  have front : s.frames.takeWhile (fun f => !f.region.isBraced) ++
      s.frames.dropWhile (fun f => !f.region.isBraced) = s.frames :=
    List.takeWhile_append_dropWhile
  cases found : s.frames.dropWhile fun f => !f.region.isBraced with
  | nil => exact ⟨.program, [], rooted, by simp [LineState.braceHeight, found], .inr ⟨rfl, rfl⟩⟩
  | cons f below =>
    have first := List.head?_dropWhile_not (fun f : OpenRegion => !f.region.isBraced) s.frames
    rw [found] at first
    rw [found] at front
    have rests : Rests f.region below s := ⟨_, f.ternaries, front.symm⟩
    have braced : f.region.isBraced = true := by simpa using first
    exact ⟨f.region, below, rests, by simp [LineState.braceHeight, found], .inl braced⟩

namespace Rests

variable {r : Region} {below : List OpenRegion} {s : LineState}

theorem take_stack (h : Rests r below s) :
    s.stack.take (below.length + 1) = (below.map OpenRegion.region).reverse ++ [r] := by
  obtain ⟨above, n, whole⟩ := h
  have size : ((below.map OpenRegion.region).reverse ++ [r]).length = below.length + 1 := by simp
  have stack : s.stack = ((below.map OpenRegion.region).reverse ++ [r]) ++
      (above.map OpenRegion.region).reverse := by
    simp [LineState.stack, whole]
  rw [stack, ← size, List.take_left]

theorem take_frames (h : Rests r below s) : s.frames.reverse.take below.length = below.reverse := by
  obtain ⟨above, n, whole⟩ := h
  have frames : s.frames.reverse = below.reverse ++ (⟨r, n⟩ :: above.reverse) := by simp [whole]
  rw [frames, ← List.length_reverse, List.take_left]

/-- What lies inside has the labels of the region and of what lies below it. -/
theorem labels (h : Rests r below s) :
    ((below.map OpenRegion.region).reverse ++ [r]).flatMap Region.labels <+: s.labels := by
  have whole : s.stack.flatMap Region.labels = s.labels := by
    rw [LineState.stack, List.flatMap_map, LineState.labels]
  rw [← h.take_stack, ← whole]
  nth_rewrite 2 [← List.take_append_drop (below.length + 1) s.stack]
  rw [List.flatMap_append]
  exact List.prefix_append _ _

end Rests

/-- A line leaves the highest region in braces open, and all that lies below it as it was, and
each of its lexemes is inside. -/
structure Shielded (s : LineState) (line : LineTokens) : Prop where
  regions : line.state.stack.take (s.braceHeight + 1) = s.stack.take (s.braceHeight + 1)
  below : line.state.frames.reverse.take s.braceHeight = s.frames.reverse.take s.braceHeight
  scopes : ∀ l ∈ line.lexemes,
    (s.stack.take (s.braceHeight + 1)).flatMap Region.labels <+: l.scope

theorem shielded_tokenizeLine (lexer : Lexer) {s : LineState} (rooted : Rooted s) {line : Text}
    (none : '}' ∉ line) : Shielded s (lexer.tokenizeLine line s) := by
  obtain ⟨r, below, rests, height, kind⟩ := rests_braceHeight rooted
  have firm : r.isFirm = true := by
    rcases kind with braced | ⟨_, rfl⟩
    · exact Region.isFirm_of_isBraced braced
    · rfl
  have clean : '}' ∉ Piece.texts (linePieces lexer line s) := by rwa [texts_linePieces]
  obtain ⟨after, inside⟩ := (acts_linePieces lexer line rooted).rests firm (.inr clean) rests
  refine ⟨?_, ?_, fun l mem => ?_⟩
  · rw [← height, after.take_stack, rests.take_stack]
  · rw [← height, after.take_frames, rests.take_frames]
  · have joined : l.toPiece ∈ Piece.joinPlain (linePieces lexer line s) := by
      rw [← toPiece_tokenizeLine]
      exact List.mem_map_of_mem mem
    obtain ⟨p, hp, around⟩ := Piece.exists_around_of_mem_joinPlain joined
    have labels := (inside p hp).labels
    rw [around] at labels
    rw [← height, rests.take_stack]
    exact labels.trans (List.prefix_append _ _)

/-- An act closes no more regions in braces than it cuts `}`, and opens no more than it cuts `{`. -/
theorem Act.count_isBraced {s s' : LineState} {ps : List Piece} (act : Act s ps s') :
    s.count Region.isBraced ≤ s'.count Region.isBraced + (Piece.texts ps).count '}' ∧
      s'.count Region.isBraced ≤ s.count Region.isBraced + (Piece.texts ps).count '{' := by
  have same : s'.count Region.isBraced = s.count Region.isBraced →
      s.count Region.isBraced ≤ s'.count Region.isBraced + (Piece.texts ps).count '}' ∧
        s'.count Region.isBraced ≤ s.count Region.isBraced + (Piece.texts ps).count '{' := by
    intro equal
    rw [equal]
    exact ⟨Nat.le_add_right _ _, Nat.le_add_right _ _⟩
  have closed : s.frames = s.inner :: s'.frames → s.innermost.isBraced = false →
      s'.count Region.isBraced = s.count Region.isBraced := by
    intro top loose
    rw [LineState.count_of_top top, loose]
    rfl
  cases act with
  | token t free => exact same rfl
  | quoted kinds c d free loose ending => exact same rfl
  | count n => exact same rfl
  | pass slot => exact same (LineState.count_become (by rw [slot]; rfl))
  | name slot w => exact same (LineState.count_become slot.isBraced)
  | header waits => exact same (LineState.count_become waits.isBraced)
  | enter sign t =>
    refine same ?_
    rw [LineState.count_enter, Region.isBraced_of_sign? sign]
    rfl
  | accumulate t => exact same LineState.count_enter
  | @bracket r c e opens head free =>
    rw [LineState.count_enter, Piece.texts_append, List.count_append, List.count_append]
    refine ⟨by omega, ?_⟩
    split
    · next braced =>
      obtain rfl : c = '{' := (Region.brace_of_bracket? opens).1 braced
      have one : (Piece.texts [⟨['{'], s.enter r, [.begins e]⟩]).count '{' = 1 := rfl
      omega
    · omega
  | leave top ends =>
    exact same (closed top (Region.isBraced_of_not_isFirm (Region.isFirm_of_endsPlainly ends)))
  | close top enclosure loose c => exact same (closed top loose)
  | @closeBrace m _ e dropped unwound loose top enclosure braced =>
    have none : dropped.countP (fun f => f.region.isBraced) = 0 :=
      List.countP_eq_zero.2 fun f mem => by simp [loose f mem]
    have one : (Piece.texts [⟨['}'], m, [.ends e]⟩]).count '}' = 1 := rfl
    rw [LineState.count_of_append unwound, LineState.count_of_top top, none, if_pos braced, one]
    omega

theorem Acts.count_isBraced {s s' : LineState} {ps : List Piece} (acts : Acts s ps s') :
    s.count Region.isBraced ≤ s'.count Region.isBraced + (Piece.texts ps).count '}' ∧
      s'.count Region.isBraced ≤ s.count Region.isBraced + (Piece.texts ps).count '{' := by
  induction acts with
  | nil => exact ⟨Nat.le_add_right _ _, Nat.le_add_right _ _⟩
  | cons act _ ih =>
    obtain ⟨falls, rises⟩ := act.count_isBraced
    rw [Piece.texts_append, List.count_append, List.count_append]
    omega

/-- Only a `}` closes a region in braces or anything below it. A line closes no more such regions
than it has `}`, and opens no more than it has `{`. -/
theorem braces_outlast_line (lexer : Lexer) {s : LineState} (h : s.Reachable) (line : Text) :
    let tokens := lexer.tokenizeLine line s
    ('}' ∉ line → Shielded s tokens) ∧
      s.count Region.isBraced ≤ tokens.state.count Region.isBraced + line.count '}' ∧
      tokens.state.count Region.isBraced ≤ s.count Region.isBraced + line.count '{' := by
  have rooted := rooted_of_reachable h
  refine ⟨shielded_tokenizeLine lexer rooted, ?_⟩
  have counts := (acts_linePieces lexer line rooted).count_isBraced
  rwa [texts_linePieces] at counts

/-- Neither the end of a comment nor a terminator nor stray brackets close the block of a loop. -/
theorem braces_outlast_comment :
    let lexer : Lexer := ⟨{}, by decide, .prepending⟩
    let s := (lexer.tokenizeLine
      "model \x7b for (i in 1:n) \x7b y ~ normal(/* (".toList .initial).state
    let line := "\x7b */ ) ] ; y = f(".toList
    let tokens := lexer.tokenizeLine line s
    (s.Reachable ∧ '\x7d' ∉ line ∧ s.braceHeight = 2) ∧
      Shielded s tokens ∧
      s.count Region.isBraced ≤ tokens.state.count Region.isBraced + line.count '\x7d' ∧
      tokens.state.count Region.isBraced ≤ s.count Region.isBraced + line.count '\x7b' :=
  have reachable := .line _ Segmentation.prepending_partsAscii _ .initial
  have kept := braces_outlast_line _ reachable _
  ⟨⟨reachable, by decide, by decide +kernel⟩, kept.1 (by decide), kept.2⟩

end StanHighlight

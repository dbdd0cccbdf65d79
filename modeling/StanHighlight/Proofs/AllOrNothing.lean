import StanHighlight.Proofs.StepDepth
import StanHighlight.Proofs.WalkTurn

/-!
Every rule does all that it does or nothing. The rules change the cursor as they go, some of them
before they have decided, and take nothing back. But wherever tokenizing comes by, a rule of the
innermost region that declines leaves the cursor as it was, and one that applies leads further on in
the line. So of the rules that are tried in order only the first that applies has an effect.
-/

namespace StanHighlight

open Text (byteLength)

/-- The cursors that tokenizing comes by: in front of a line, behind each rule that is tried, and
behind each turn but the last. -/
inductive Visited (lexer : Lexer) : Cursor → Prop
  | start (line : Text) {state : LineState} (h : state.Reachable) :
      Visited lexer (.ofLine line state)
  | tried {c c' : Cursor} {f : OpenRegion} {rule : Rule} {applied : Bool} (h : Visited lexer c)
      (inner : c.frames.head? = some f) (mem : rule ∈ f.region.rules)
      (result : (Walk.apply lexer.config rule).run c = some (applied, c')) : Visited lexer c'
  | turned {c c' : Cursor} (h : Visited lexer c)
      (result : (Walk.turn lexer).run c = some (true, c')) : Visited lexer c'

structure Advances (c c' : Cursor) : Prop where
  line : c'.line = c.line
  stop : c'.stop = c.stop
  farther : c.pos < c'.pos
  inside : c'.pos ≤ c'.stop
  boundary : ∃ read rest, c'.line = read ++ rest ∧ c'.pos = byteLength read
  program : ∃ above n, c'.frames = above ++ [⟨.program, n⟩]
  height : c'.height ≤ c.height + 1
  flushed : c'.waiting = none

def Walk.applies (config : Config) (c : Cursor) (rule : Rule) : Bool :=
  ((Walk.apply config rule).run c).any Prod.fst

namespace Footing

variable {p : Footing}

/-- A step leads further on in the content of the line. -/
theorem advances_take {s : Step} (covers : s.Covers p.ahead) (rooted : Rooted s.after)
    (depth : s.after.depth ≤ p.state.depth + 1) :
    Advances p.cursor (p.take s.pieces s.after s.rest).cursor where
  line := by simp [cursor, take, ← covers.whole]
  stop := by
    simp [cursor, take, ← covers.whole]
    omega
  farther := by
    have visible : Piece.texts s.pieces ≠ [] := fun none => by
      obtain ⟨p, ps, first⟩ := List.exists_cons_of_ne_nil covers.some_piece
      simp [first, covers.visible p (by simp [first])] at none
    have := Text.byteLength_pos visible
    simp only [cursor, take, Text.byteLength_append, Text.byteLength_nil]
    omega
  inside := by
    simp only [cursor]
    omega
  boundary := ⟨(p.take s.pieces s.after s.rest).past, s.rest ++ p.ending, rfl, rfl⟩
  program := rooted
  height := Nat.succ_le_succ depth
  flushed := rfl

/-- A rule of the innermost region declines or leads further on. -/
theorem apply_cases (config : Config) (rooted : Rooted p.state) {rule : Rule}
    (mem : rule ∈ p.state.innermost.rules) :
    (Walk.apply config rule).run p.cursor = some (false, p.cursor) ∨
      ∃ q : Footing, (Walk.apply config rule).run p.cursor = some (true, q.cursor) ∧
        Rooted q.state ∧ Advances p.cursor q.cursor := by
  have tried := Walk.agrees_apply config rooted mem rfl
  cases found : Rule.step? config (p.cursor.latestLabel? == some .assignmentOperator) p.state
      p.ahead rule with
  | none =>
    rw [found] at tried
    exact .inl tried.declined
  | some s =>
    rw [found] at tried
    have after := (Rule.acts_step? rooted mem found).rooted rooted
    exact .inr ⟨_, tried.applied, after,
      advances_take (Rule.step?_covers found) after (Rule.depth_step? found)⟩

end Footing

/-- Where tokenizing comes by there is a place in the line, with the program at the bottom of what is
open. -/
theorem Visited.exists_footing {lexer : Lexer} {c : Cursor} (h : Visited lexer c) :
    ∃ p : Footing, p.cursor = c ∧ Rooted p.state := by
  induction h with
  | @start line state reachable =>
    exact ⟨.ofLine line state, Footing.cursor_ofLine line state, rooted_of_reachable reachable⟩
  | tried _ inner mem result ih =>
    obtain ⟨p, rfl, rooted⟩ := ih
    obtain rfl := Option.some.inj inner
    rcases p.apply_cases lexer.config rooted mem with declined | ⟨q, applied, after, -⟩
    · rw [declined] at result
      cases result
      exact ⟨p, rfl, rooted⟩
    · rw [applied] at result
      cases result
      exact ⟨q, rfl, after⟩
  | turned _ result ih =>
    obtain ⟨p, rfl, rooted⟩ := ih
    by_cases none : p.ahead = []
    · rw [Walk.walks_turn_last lexer none] at result
      cases result
    · rcases Walk.walks_turn lexer rooted rfl none with ⟨_, s, -, taken, turned⟩ | ⟨-, turned⟩
      · rw [turned] at result
        cases result
        exact ⟨_, rfl, taken ▸ (acts_take rooted).rooted rooted⟩
      · rw [turned] at result
        cases result
        exact ⟨_, rfl, rooted⟩

/-- Of rules that leave the cursor as it was when they decline, the first that applies decides. -/
theorem Walk.applyFirst_eq {config : Config} {c : Cursor} {rules : List Rule}
    (sound : ∀ rule ∈ rules, (apply config rule).run c = some (false, c) ∨
      ∃ c', (apply config rule).run c = some (true, c')) :
    (applyFirst config rules).run c = match rules.find? (applies config c) with
      | some rule => (apply config rule).run c
      | none => some (false, c) := by
  induction rules with
  | nil => rfl
  | cons rule rules ih =>
    obtain ⟨first, others⟩ := List.forall_mem_cons.1 sound
    rw [applyFirst, StateT.run_bind]
    rcases first with declined | ⟨c', applied⟩
    · have passed : applies config c rule = false := by simp [applies, declined]
      rw [declined, List.find?_cons_of_neg (by simp [passed]), ← ih others]
      rfl
    · have found : applies config c rule = true := by simp [applies, applied]
      rw [applied, List.find?_cons_of_pos found]
      simp [applied]

/-- Wherever tokenizing comes by, every rule of the innermost region leaves the cursor as it was or
leads further on, and trying all of them does what the first does that applies. -/
theorem rules_all_or_nothing (lexer : Lexer) {c : Cursor} (visited : Visited lexer c) :
    ∃ f, c.frames.head? = some f ∧
      (∀ rule ∈ f.region.rules, (Walk.apply lexer.config rule).run c = some (false, c) ∨
        ∃ c', (Walk.apply lexer.config rule).run c = some (true, c') ∧ Advances c c') ∧
      (Walk.applyFirst lexer.config f.region.rules).run c =
        match f.region.rules.find? (Walk.applies lexer.config c) with
        | some rule => (Walk.apply lexer.config rule).run c
        | none => some (false, c) := by
  obtain ⟨p, rfl, rooted⟩ := visited.exists_footing
  have sound : ∀ rule ∈ p.state.innermost.rules,
      (Walk.apply lexer.config rule).run p.cursor = some (false, p.cursor) ∨
        ∃ c', (Walk.apply lexer.config rule).run p.cursor = some (true, c') ∧
          Advances p.cursor c' := by
    intro rule mem
    rcases p.apply_cases lexer.config rooted mem with declined | ⟨q, applied, -, advances⟩
    · exact .inl declined
    · exact .inr ⟨q.cursor, applied, advances⟩
  refine ⟨p.state.inner, rfl, sound, Walk.applyFirst_eq fun rule mem => ?_⟩
  exact (sound rule mem).imp_right fun ⟨c', applied, _⟩ => ⟨c', applied⟩

/-- In front of a keyword in the empty place of a distribution's name. The word fills the place, is
not taken for a name there, and opens a region as a keyword. -/
theorem rules_all_or_nothing_in_sampling :
    let lexer : Lexer := ⟨{}, by decide, .prepending⟩
    let s := (lexer.tokenizeLine "model \x7b y ~ ".toList .initial).state
    let c := Cursor.ofLine "for (i in 1:n)".toList s
    (Visited lexer c ∧ c.frames.head? = some ⟨.sampling false, 0⟩) ∧
      (Walk.applyFirst lexer.config (Region.sampling false).rules).run c =
        (Walk.apply lexer.config .word).run c ∧
      ((Walk.apply lexer.config .word).run c).map (fun done => done.2.frames.map (·.region)) =
        some [.control .forLoop false false, .sampling true, .sectionBody .model, .program] := by
  intro lexer s c
  have visited : Visited lexer c := .start _ (.line _ Segmentation.prepending_partsAscii _ .initial)
  have top : c.frames.head? = some ⟨.sampling false, 0⟩ := by decide +kernel
  have found : (Region.sampling false).rules.find? (Walk.applies lexer.config c) = some .word := by
    decide +kernel
  obtain ⟨f, inner, -, first⟩ := rules_all_or_nothing lexer visited
  obtain rfl : f = ⟨.sampling false, 0⟩ := Option.some.inj (inner.symm.trans top)
  exact ⟨⟨visited, top⟩, by rw [first, found], by decide +kernel⟩

end StanHighlight

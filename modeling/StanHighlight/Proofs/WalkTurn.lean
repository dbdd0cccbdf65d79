import StanHighlight.Proofs.StepPieces
import StanHighlight.Proofs.WalkBrackets
import StanHighlight.Proofs.WalkWords

/-!
Trying the rules of a region. Each rule does what its step does or leaves the cursor as it was, so
those in front of the first that applies might as well not have been tried.
-/

namespace StanHighlight

open Text (byteLength)

namespace Walk

variable {p : Footing} {assigned : Bool}

/-- Trying a rule of the innermost region does what its step does, or nothing at all. -/
theorem agrees_apply (config : Config) (rooted : Rooted p.state) {rule : Rule}
    (mem : rule ∈ p.state.innermost.rules)
    (latest : assigned = (p.cursor.latestLabel? == some .assignmentOperator)) :
    Agrees (apply config rule) p (rule.step? config assigned p.state p.ahead) := by
  cases rule with
  | inclusion => exact agrees_inclusion p
  | lineComment => exact agrees_lineComment p
  | blockCommentBegin => exact agrees_blockCommentBegin p
  | blockCommentEnd => exact agrees_blockCommentEnd p
  | documentationTag => exact agrees_documentationTag p
  | sectionHeader => exact agrees_sectionHeader p
  | functionDeclaration =>
    exact agrees_functionDeclaration (Region.isStatementLevel_of_mem_rules mem (by decide))
  | variableDeclaration =>
    exact agrees_variableDeclaration (Region.isStatementLevel_of_mem_rules mem (by decide))
  | constraintsBegin => exact agrees_constraintsBegin p
  | initializer => exact agrees_initializer p
  | constraintEquals => exact agrees_constraintEquals p
  | constraintsEnd => exact agrees_constraintsEnd p
  | string => exact agrees_string p
  | number => exact agrees_number p
  | accumulator => exact agrees_accumulator p
  | word => exact agrees_word p
  | sampling => exact agrees_sampling p
  | terminator => exact agrees_terminator rooted
  | delimiter => exact agrees_delimiter p
  | opener => exact agrees_opener latest
  | closer => exact agrees_closer p
  | operator => exact agrees_operator p

theorem agrees_applyFirst (config : Config) (rooted : Rooted p.state)
    (latest : assigned = (p.cursor.latestLabel? == some .assignmentOperator)) {rules : List Rule}
    (table : ∀ rule ∈ rules, rule ∈ p.state.innermost.rules) :
    Agrees (applyFirst config rules) p
      (rules.findSome? (Rule.step? config assigned p.state p.ahead)) := by
  induction rules with
  | nil => exact .declines (.pure false p)
  | cons rule rules ih =>
    obtain ⟨mem, others⟩ := List.forall_mem_cons.1 table
    have first := agrees_apply config rooted mem latest
    rw [List.findSome?_cons]
    cases found : Rule.step? config assigned p.state p.ahead rule with
    | none =>
      rw [found] at first
      exact .after first.declined (ih others)
    | some s =>
      rw [found] at first
      exact .applies (.bind first.applied (.pure true _))

theorem walks_skipCluster (clusters : Segmentation) (some_text : p.ahead ≠ []) :
    Walks (skipCluster clusters) p ()
      (p.pass (clusters.cluster p.ahead) (p.ahead.drop (clusters.first p.ahead))) := by
  refine .bind (walks_rest p) (walks_skip (clusters.cluster_ne_nil some_text) ?_ (if_neg some_text))
  exact (List.take_append_drop _ _).symm

/-- A turn takes a step, or passes a cluster where no rule applies. -/
theorem walks_turn (lexer : Lexer) (rooted : Rooted p.state)
    (latest : assigned = (p.cursor.latestLabel? == some .assignmentOperator))
    (some_text : p.ahead ≠ []) :
    (∃ rule s, Rule.step? lexer.config assigned p.state p.ahead rule = some s ∧
      s = Step.take lexer assigned p.state p.ahead ∧
      Walks (turn lexer) p true (p.take s.pieces s.after s.rest)) ∨
    (Step.take lexer assigned p.state p.ahead = Step.skip lexer.clusters p.state p.ahead ∧
      Walks (turn lexer) p true
        (p.pass (lexer.clusters.cluster p.ahead) (p.ahead.drop (lexer.clusters.first p.ahead)))) := by
  have inside : p.cursor.pos < p.cursor.stop := by
    have := Text.byteLength_pos some_text
    simp only [Footing.cursor]
    omega
  have tried := agrees_applyFirst lexer.config rooted latest (fun _ mem => mem)
  unfold Step.take
  cases found : p.state.innermost.rules.findSome?
      (Rule.step? lexer.config assigned p.state p.ahead) with
  | some s =>
    rw [found] at tried
    obtain ⟨rule, -, applies⟩ := List.exists_of_findSome?_eq_some found
    exact .inl ⟨rule, s, applies, rfl, .bind (a := p.cursor) rfl (.ite_pos inside
      (.bind (walks_innermost p) (.bind tried.applied (.pure true _))))⟩
  | none =>
    rw [found] at tried
    exact .inr ⟨rfl, .bind (a := p.cursor) rfl (.ite_pos inside
      (.bind (walks_innermost p) (.bind tried.declined
        (.bind (walks_skipCluster _ some_text) (.pure true _)))))⟩

/-- The last turn is taken at the end of the content. -/
theorem walks_turn_last (lexer : Lexer) (none : p.ahead = []) : Walks (turn lexer) p false p := by
  refine .bind (a := p.cursor) rfl (.ite_neg ?_ (.pure false p))
  simp [Footing.cursor, none]

end Walk

end StanHighlight

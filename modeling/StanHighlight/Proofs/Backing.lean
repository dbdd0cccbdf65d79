import StanHighlight.Proofs.Join

/-!
Pieces that must be paid for. Some pieces cost something, others earn as much, and the open regions
are a stock that is drawn on and added to. If no act spends more than there is, no part of a run
does from its start on.
-/

namespace StanHighlight

/-- From a stock of `m`, wherever one stops no more pieces cost than the stock and the pieces
before have earned, and at least `n` is left at the end. -/
structure Backed (costs earns : Piece → Bool) (m n : Nat) (ps : List Piece) : Prop where
  front : ∀ qs, qs <+: ps → qs.countP costs ≤ m + qs.countP earns
  whole : n + ps.countP costs ≤ m + ps.countP earns

namespace Backed

variable {costs earns : Piece → Bool} {k m n : Nat} {p : Piece} {ps qs : List Piece}

theorem append (h : Backed costs earns m k ps) (h' : Backed costs earns k n qs) :
    Backed costs earns m n (ps ++ qs) where
  front := by
    intro rs front
    have compared := List.prefix_or_prefix_of_prefix front (List.prefix_append ps qs)
    rcases compared with inside | ⟨more, rfl⟩
    · exact h.front rs inside
    · have first := h.whole
      have second := h'.front more ((List.prefix_append_right_inj ps).1 front)
      rw [List.countP_append, List.countP_append]
      omega
  whole := by
    have first := h.whole
    have second := h'.whole
    rw [List.countP_append, List.countP_append]
    omega

/-- Pieces that cost nothing. -/
theorem of_free (none : ∀ p ∈ ps, costs p = false) (less : n ≤ m) : Backed costs earns m n ps where
  front qs front := by
    have free : qs.countP costs = 0 :=
      List.countP_eq_zero.2 fun p mem => by simp [none p (front.subset mem)]
    omega
  whole := by
    have free : ps.countP costs = 0 := List.countP_eq_zero.2 fun p mem => by simp [none p mem]
    omega

theorem singleton (h : n + [p].countP costs ≤ m + [p].countP earns) :
    Backed costs earns m n [p] where
  front qs front := by
    rcases List.prefix_cons_iff.1 front with rfl | ⟨more, rfl, rest⟩
    · exact Nat.zero_le _
    · rw [List.prefix_nil.1 rest]
      omega
  whole := h

/-- If plain pieces cost and earn nothing, only the labelled ones matter. -/
theorem of_filter (h : Backed costs earns m n ps) (costly : ∀ p, costs p = true → p.isPlain = false)
    (earning : ∀ p, earns p = true → p.isPlain = false)
    (same : (qs.filter fun p => !p.isPlain) = ps.filter fun p => !p.isPlain) :
    Backed costs earns m n qs := by
  have labelled : ∀ {kind : Piece → Bool}, (∀ p, kind p = true → p.isPlain = false) →
      ∀ rs : List Piece, (rs.filter fun p => !p.isPlain).countP kind = rs.countP kind := by
    intro kind only rs
    rw [List.countP_filter]
    refine List.countP_congr fun p _ => ?_
    simpa using only p
  constructor
  · intro rs front
    have inside := front.filter fun p => !p.isPlain
    rw [same] at inside
    obtain ⟨os, among, same⟩ := List.prefix_filter_iff.1 inside
    have backed := h.front os among
    rw [← labelled costly, ← labelled earning, ← same, labelled costly, labelled earning] at backed
    exact backed
  · have backed := h.whole
    rw [← labelled costly, ← labelled earning, ← same, labelled costly, labelled earning] at backed
    exact backed

end Backed

section Runs

variable {costs earns : Piece → Bool} {stock : LineState → Nat} {s s' : LineState} {ps : List Piece}

/-- What every act keeps backed a row of acts keeps backed. -/
theorem Acts.backed (act : ∀ {s ps s'}, Act s ps s' → Backed costs earns (stock s) (stock s') ps)
    (acts : Acts s ps s') : Backed costs earns (stock s) (stock s') ps := by
  induction acts with
  | nil => exact .of_free nofun (Nat.le_refl _)
  | cons first _ ih => exact (act first).append ih

/-- What every act keeps backed a run over lines keeps backed. -/
theorem backed_lexemes (lexer : Lexer) {before : LineState} (rooted : Rooted before)
    (act : ∀ {s ps s'}, Act s ps s' → Backed costs earns (stock s) (stock s') ps)
    (costly : ∀ p, costs p = true → p.isPlain = false)
    (earning : ∀ p, earns p = true → p.isPlain = false) (lines : List Text) :
    Backed costs earns (stock before) (stock (lexer.stateAfter before lines))
      ((lexer.lexemes before lines).map Lexeme.toPiece) := by
  induction lines generalizing before with
  | nil => exact .of_free nofun (Nat.le_refl _)
  | cons line lines ih =>
    have acts := acts_linePieces lexer line rooted
    have first : Backed costs earns (stock before) (stock (lexer.tokenizeLine line before).state)
        ((lexer.tokenizeLine line before).lexemes.map Lexeme.toPiece) := by
      rw [toPiece_tokenizeLine]
      exact (acts.backed act).of_filter costly earning (Piece.filter_joinPlain _)
    rw [Lexer.lexemes_cons, List.map_append]
    exact first.append (ih (acts.rooted rooted))

end Runs

end StanHighlight

/-!
Places in a document. Places are ordered as they are read: by line, and within a line
by offset.
-/

namespace StanHighlight

/-- A line, counted from zero, and a distance in bytes from its start. -/
structure Position where
  line : Nat
  offset : Nat
  deriving DecidableEq, Repr

namespace Position

def start : Position := ⟨0, 0⟩

def Before (p q : Position) : Prop := p.line < q.line ∨ p.line = q.line ∧ p.offset < q.offset

instance : LT Position := ⟨Before⟩

instance (p q : Position) : Decidable (p < q) :=
  inferInstanceAs (Decidable (p.line < q.line ∨ p.line = q.line ∧ p.offset < q.offset))

def sort (ps : List Position) : List Position := ps.mergeSort fun p q => !decide (q < p)

end Position

end StanHighlight

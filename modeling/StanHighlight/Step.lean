import StanHighlight.LineState

/-!
The pieces that a line is cut into. A piece remembers the state that it was cut in,
which gives the labels of the regions around it, and has labels of its own; a piece
without any is plain text. One step of the tokenizer cuts a few pieces off the start
of a line and says in which state the rest is read.
-/

namespace StanHighlight

/-- A stretch of text, the state around it, and the labels that it has besides. -/
structure Piece where
  text : Text
  around : LineState
  own : List Label
  deriving DecidableEq, Repr

namespace Piece

/-- All labels of a piece, from the most general on. -/
def scope (p : Piece) : List Label := p.around.labels ++ p.own

/-- Whether a piece has no labels but those of the regions around it. -/
def isPlain (p : Piece) : Bool := p.own.isEmpty

/-- A text that may be empty as at most one piece. -/
def ofText (t : Text) (around : LineState) (own : List Label) : List Piece :=
  if t.isEmpty then [] else [⟨t, around, own⟩]

def texts (ps : List Piece) : Text := ps.flatMap Piece.text

@[simp] theorem texts_nil : texts [] = [] := rfl

@[simp] theorem texts_cons (p : Piece) (ps : List Piece) :
    texts (p :: ps) = p.text ++ texts ps := rfl

@[simp] theorem texts_append (ps qs : List Piece) : texts (ps ++ qs) = texts ps ++ texts qs := by
  simp [texts]

@[simp] theorem texts_ofText (t : Text) (around : LineState) (own : List Label) :
    texts (ofText t around own) = t := by
  cases t <;> simp [ofText]

theorem text_ne_nil_of_mem_ofText {t : Text} {around : LineState} {own : List Label} {p : Piece}
    (h : p ∈ ofText t around own) : p.text ≠ [] := by
  cases t <;> simp_all [ofText]

end Piece

structure Step where
  pieces : List Piece
  after : LineState
  rest : Text
  deriving DecidableEq, Repr

namespace Step

def single (here : LineState) (own : List Label) (t rest : Text) : Step :=
  ⟨[⟨t, here, own⟩], here, rest⟩

/-- The step that cuts off a head, the blanks after it, and the bracket that opens a
region after both. -/
def opening (head : Piece) (gap : Text) (bracket : Char) (inside : LineState) (e : Enclosure)
    (rest : Text) : Step :=
  ⟨head :: (Piece.ofText gap head.around [] ++ [⟨[bracket], inside, [.begins e]⟩]), inside, rest⟩

/-- A step takes at least one piece and no empty one, and its pieces and the remaining text
make up the text that it was taken on. -/
structure Covers (s : Step) (t : Text) : Prop where
  whole : Piece.texts s.pieces ++ s.rest = t
  some_piece : s.pieces ≠ []
  visible : ∀ p ∈ s.pieces, p.text ≠ []

theorem Covers.rest_length_lt {s : Step} {t : Text} (h : s.Covers t) :
    s.rest.length < t.length := by
  obtain ⟨whole, some_piece, visible⟩ := h
  cases first : s.pieces with
  | nil => exact absurd first some_piece
  | cons p ps =>
    have : 0 < p.text.length := List.length_pos_iff.2 (visible p (by simp [first]))
    rw [← whole, first]
    simp only [Piece.texts_cons, List.length_append]
    omega

theorem single_covers {here : LineState} {own : List Label} {t rest line : Text} (h : t ≠ [])
    (whole : t ++ rest = line) : (single here own t rest).Covers line :=
  ⟨by simpa [single] using whole, by simp [single], by simpa [single] using h⟩

theorem opening_covers {head : Piece} {gap : Text} {bracket : Char} {inside : LineState}
    {e : Enclosure} {rest line : Text} (h : head.text ≠ [])
    (whole : head.text ++ gap ++ bracket :: rest = line) :
    (opening head gap bracket inside e rest).Covers line := by
  refine ⟨by simpa [opening] using whole, by simp [opening], fun p hp => ?_⟩
  simp only [opening, List.mem_cons, List.mem_append, List.not_mem_nil, or_false] at hp
  rcases hp with rfl | hp | rfl
  · exact h
  · exact Piece.text_ne_nil_of_mem_ofText hp
  · simp

end Step

end StanHighlight

import StanHighlight.Proofs.Join
import StanHighlight.Proofs.LineReading
import StanHighlight.Walk

/-!
Where a cursor stands. A footing tells a place by the characters around it: those that have been
given out, the plain ones that wait, those ahead and the terminator. The cursor of a footing counts
their bytes, so its offsets are never within a character. Each act of a walk leads from the cursor
of one footing to the cursor of another, and what these acts do to a footing adds up to cutting
pieces off its text.
-/

namespace StanHighlight

open Text (byteLength)

namespace Text

/-- What stands in front of a text ends at its length in bytes. -/
@[simp] theorem upTo?_append (s t : Text) : upTo? (s ++ t) (byteLength s) = some s := by
  induction s with
  | nil => simp [upTo?]
  | cons c s ih =>
    obtain ⟨n, width⟩ := Nat.exists_eq_add_one.2 (c.utf8Size_pos.trans_le
      (Nat.le_add_right _ (byteLength s)))
    have behind : n + 1 - c.utf8Size = byteLength s := by omega
    rw [byteLength_cons, width, List.cons_append, upTo?, if_pos (by omega), behind, ih]
    rfl

theorem between?_append (s t u : Text) :
    between? (s ++ (t ++ u)) (byteLength s) (byteLength s + byteLength t) = some t := by
  rw [between?, if_pos (Nat.le_add_right _ _), from?_append, Nat.add_sub_cancel_left]
  exact upTo?_append t u

end Text

@[simp] theorem Piece.ofText_nil (around : LineState) (own : List Label) :
    ofText [] around own = [] := rfl

theorem Piece.ofText_of_ne_nil {t : Text} (h : t ≠ []) (around : LineState) (own : List Label) :
    ofText t around own = [⟨t, around, own⟩] := by
  cases t with
  | nil => exact absurd rfl h
  | cons c t => rfl

/-- Pieces from a distance on, as they are given out. -/
def stretches (offset : Nat) (ps : List Piece) : List Stretch :=
  (Lexeme.place offset ps).map Lexeme.stretch

@[simp] theorem stretches_nil (offset : Nat) : stretches offset [] = [] := rfl

@[simp] theorem stretches_cons (offset : Nat) (p : Piece) (ps : List Piece) :
    stretches offset (p :: ps) =
      ⟨p.text, p.scope, offset⟩ :: stretches (offset + byteLength p.text) ps := by
  simp [stretches, Lexeme.stretch]

theorem stretches_append (offset : Nat) (ps qs : List Piece) : stretches offset (ps ++ qs) =
    stretches offset ps ++ stretches (offset + byteLength (Piece.texts ps)) qs := by
  simp [stretches, Lexeme.place_append]

structure Footing where
  /-- What has been given out. -/
  past : Text
  /-- Plain text that waits to be given out. -/
  plain : Text
  /-- The content ahead. -/
  ahead : Text
  /-- The terminator of the line. -/
  ending : Text
  given : List Stretch
  state : LineState

namespace Footing

def cursor (p : Footing) : Cursor where
  line := p.past ++ (p.plain ++ (p.ahead ++ p.ending))
  stop := byteLength p.past + (byteLength p.plain + byteLength p.ahead)
  pos := byteLength p.past + byteLength p.plain
  frames := p.state.frames
  given := p.given
  waiting := if p.plain = [] then none else some (byteLength p.past)

def ofLine (line : Text) (state : LineState) : Footing where
  past := []
  plain := []
  ahead := Text.stripTerminator line
  ending := Text.terminator line
  given := []
  state := state

/-- The place once pieces are cut off the text ahead. Plain text that waits is given out first. -/
def take (p : Footing) (ps : List Piece) (there : LineState) (rest : Text) : Footing where
  past := p.past ++ (p.plain ++ Piece.texts ps)
  plain := []
  ahead := rest
  ending := p.ending
  given := p.given ++ stretches (byteLength p.past) (Piece.ofText p.plain p.state [] ++ ps)
  state := there

def pass (p : Footing) (t rest : Text) : Footing := { p with plain := p.plain ++ t, ahead := rest }

def into (p : Footing) (there : LineState) : Footing := { p with state := there }

variable {p : Footing}

@[simp] theorem take_state (ps : List Piece) (there : LineState) (rest : Text) :
    (p.take ps there rest).state = there := rfl

@[simp] theorem take_ahead (ps : List Piece) (there : LineState) (rest : Text) :
    (p.take ps there rest).ahead = rest := rfl

@[simp] theorem take_plain (ps : List Piece) (there : LineState) (rest : Text) :
    (p.take ps there rest).plain = [] := rfl

@[simp] theorem pass_state (t rest : Text) : (p.pass t rest).state = p.state := rfl

@[simp] theorem pass_ahead (t rest : Text) : (p.pass t rest).ahead = rest := rfl

@[simp] theorem into_state (there : LineState) : (p.into there).state = there := rfl

@[simp] theorem into_ahead (there : LineState) : (p.into there).ahead = p.ahead := rfl

@[simp] theorem take_take (ps qs : List Piece) (there last : LineState) (rest more : Text) :
    (p.take ps there rest).take qs last more = p.take (ps ++ qs) last more := by
  simp [take, stretches_append, Nat.add_assoc]

@[simp] theorem cursor_ofLine (line : Text) (state : LineState) :
    (ofLine line state).cursor = Cursor.ofLine line state := by
  simp [ofLine, cursor, Cursor.ofLine]

/-- What lies ahead of the cursor is the content ahead. -/
theorem ahead_cursor (p : Footing) : p.cursor.ahead = byteLength p.ahead := by
  simp only [Cursor.ahead, cursor]
  omega

/-- Text that waits has the labels of the regions that are open when it is given out. -/
theorem take_into {there : LineState} (same : there.labels = p.state.labels) (ps : List Piece)
    (last : LineState) (rest : Text) : (p.into there).take ps last rest = p.take ps last rest := by
  have waiting : ∀ t, stretches (byteLength p.past) (Piece.ofText t there [] ++ ps) =
      stretches (byteLength p.past) (Piece.ofText t p.state [] ++ ps) := by
    intro t
    unfold Piece.ofText
    split
    · rfl
    · simp [Piece.scope, same]
  simp only [take, into, waiting]

theorem take_pass (none : p.plain = []) (t passed : Text) (ps : List Piece) (last : LineState)
    (rest : Text) :
    (p.pass t passed).take ps last rest = p.take (Piece.ofText t p.state [] ++ ps) last rest := by
  simp [take, pass, none]

theorem take_nil (none : p.plain = []) : p.take [] p.state p.ahead = p := by
  cases p
  simp_all [take]

end Footing

/-- Some walking leads from the cursor of one place to the cursor of another, and has a result. -/
def Walks {α : Type} (walk : Walk α) (p : Footing) (a : α) (q : Footing) : Prop :=
  walk.run p.cursor = some (a, q.cursor)

namespace Walks

variable {α β : Type} {p q r : Footing} {a : α} {b : β}

theorem pure (a : α) (p : Footing) : Walks (Pure.pure a) p a p := rfl

theorem bind {walk : Walk α} {next : α → Walk β} (h : Walks walk p a q)
    (more : Walks (next a) q b r) : Walks (walk >>= next) p b r := by
  unfold Walks at *
  rw [StateT.run_bind, h]
  exact more

theorem of_eq {walk : Walk α} (h : Walks walk p a q) (same : q = r) : Walks walk p a r :=
  same ▸ h

theorem ite_pos {c : Prop} [Decidable c] {walk other : Walk α} (holds : c)
    (h : Walks walk p a q) : Walks (if c then walk else other) p a q := by
  rwa [if_pos holds]

theorem ite_neg {c : Prop} [Decidable c] {walk other : Walk α} (fails : ¬c)
    (h : Walks other p a q) : Walks (if c then walk else other) p a q := by
  rwa [if_neg fails]

/-- A loop ends with the turn that says so. -/
theorem last {size : Cursor → Nat} {turn : Walk Bool} (h : Walks turn p false q) :
    Walks (Walk.loop size turn) p () q := by
  have h : turn p.cursor = some (false, q.cursor) := h
  change Walk.loop size turn p.cursor = _
  rw [Walk.loop, h]

/-- A loop goes on behind any other turn that makes something smaller. -/
theorem turn {size : Cursor → Nat} {turn : Walk Bool} (h : Walks turn p true q)
    (less : size q.cursor < size p.cursor) (more : Walks (Walk.loop size turn) q () r) :
    Walks (Walk.loop size turn) p () r := by
  have h : turn p.cursor = some (true, q.cursor) := h
  change Walk.loop size turn p.cursor = _
  rw [Walk.loop, h]
  exact (if_pos less).trans more

end Walks

namespace Walk

variable {p : Footing} {t after : Text} {len : Nat} {own : List Label}

theorem walks_rest (p : Footing) : Walks rest p p.ahead p := by
  have found := Text.between?_append (p.past ++ p.plain) p.ahead p.ending
  simp only [List.append_assoc, Text.byteLength_append, Nat.add_assoc] at found
  simp [Walks, rest, Footing.cursor, found]

theorem walks_sees (h : p.ahead = t) : Walks rest p t p := h ▸ walks_rest p

theorem walks_behind (whole : p.ahead = t ++ after) : Walks (behind t) p after p := by
  refine .bind (walks_rest p) ?_
  simp [Walks, whole]

theorem walks_inner (p : Footing) : Walks inner p p.state.inner p := rfl

theorem walks_innermost (p : Footing) : Walks innermost p p.state.innermost p := rfl

theorem walks_change (f : OpenRegion → OpenRegion) (p : Footing) :
    Walks (change f) p () (p.into { p.state with inner := f p.state.inner }) := rfl

theorem walks_become (r : Region) (p : Footing) :
    Walks (become r) p () (p.into (p.state.become r)) := rfl

theorem walks_within (r : Region) (p : Footing) :
    Walks (within r) p (p.state.within r) p := rfl

/-- Text that waits is given out in the state in which it is flushed. -/
theorem walks_flush (p : Footing) : Walks flush p () (p.take [] p.state p.ahead) := by
  by_cases none : p.plain = []
  · rw [Footing.take_nil none]
    simp [Walks, flush, Footing.cursor, none]
  · have found := Text.between?_append p.past p.plain (p.ahead ++ p.ending)
    have visible := Text.byteLength_pos none
    simp [Walks, flush, give, Footing.cursor, Footing.take, none, found, visible, Cursor.labels,
      Piece.ofText_of_ne_nil none, Piece.scope, LineState.labels, Nat.add_assoc]

theorem walks_enter (r : Region) (p : Footing) :
    Walks (enter r) p () (p.take [] (p.state.enter r) p.ahead) :=
  .bind (walks_flush p) rfl

theorem walks_leave (p : Footing) : Walks leave p () (p.take [] p.state.leave p.ahead) := by
  refine .bind (walks_flush p) ?_
  obtain ⟨past, plain, ahead, ending, given, inner, outer⟩ := p
  cases outer with
  | nil => rfl
  | cons f outer => rfl

theorem walks_emit (whole : p.ahead = t ++ after) (width : len = byteLength t) :
    Walks (emit len own) p () (p.take [⟨t, p.state, own⟩] p.state after) := by
  refine .bind (walks_flush p) ?_
  have found := Text.between?_append (p.past ++ p.plain) t (after ++ p.ending)
  simp only [List.append_assoc, Text.byteLength_append, Nat.add_assoc] at found
  simp [Walks, give, Footing.cursor, Footing.take, whole, width, found, stretches_append,
    Nat.add_assoc, Cursor.labels, Piece.scope, LineState.labels]

theorem walks_emitSome (none : p.plain = []) (whole : p.ahead = t ++ after)
    (width : len = byteLength t) :
    Walks (emitSome len own) p () (p.take (Piece.ofText t p.state own) p.state after) := by
  unfold emitSome
  by_cases empty : t = []
  · obtain rfl : p.ahead = after := by simpa [empty] using whole
    rw [if_neg (by simp [width, empty]), empty]
    exact (Walks.pure () p).of_eq (Footing.take_nil none).symm
  · rw [if_pos (width ▸ Text.byteLength_pos empty), Piece.ofText_of_ne_nil empty]
    exact walks_emit whole width

theorem walks_skip (visible : t ≠ []) (whole : p.ahead = t ++ after) (width : len = byteLength t) :
    Walks (skip len) p () (p.pass t after) := by
  by_cases none : p.plain = []
  · simp [Walks, skip, Footing.cursor, Footing.pass, whole, width, none, visible]
  · simp [Walks, skip, Footing.cursor, Footing.pass, whole, width, none, Nat.add_assoc]

theorem walks_skipSome (whole : p.ahead = t ++ after) (width : len = byteLength t) :
    Walks (skipSome len) p () (p.pass t after) := by
  unfold skipSome
  by_cases empty : t = []
  · rw [if_neg (by simp [width, empty]), empty]
    obtain rfl : p.ahead = after := by simpa [empty] using whole
    refine (Walks.pure () p).of_eq ?_
    simp [Footing.pass]
  · rw [if_pos (width ▸ Text.byteLength_pos empty)]
    exact walks_skip empty whole width

theorem walks_skipBlanks (p : Footing) :
    Walks skipBlanks p () (p.pass (Text.gap p.ahead) (Text.trimStart p.ahead)) :=
  .bind (walks_rest p) (walks_skipSome (Text.gap_append_trimStart _).symm rfl)

end Walk

end StanHighlight

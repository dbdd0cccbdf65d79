import StanHighlight.Proofs.Lines
import StanHighlight.Proofs.Reachable

/-!
Running the tokenizer over laid out tokens. A layout puts a space or a line break in front
of each token. The tokenizer is at a place in the text: it takes one step there, or goes on
to the next line where nothing is left of the current one. A run that reaches the end of the
text ends in the state after all its lines.
-/

namespace StanHighlight

inductive Gap where
  | space | lineFeed | returnLineFeed
  deriving DecidableEq, Repr

namespace Gap

def text : Gap → Text
  | space => [' ']
  | lineFeed => ['\n']
  | returnLineFeed => ['\r', '\n']

def breaks : Gap → Bool
  | space => false
  | lineFeed | returnLineFeed => true

end Gap

/-- Tokens, each with the gap in front of it. -/
abbrev Layout := List (Gap × Text)

/-- What is left to read: the rest of a line and the lines after it, without terminators. -/
structure Remaining where
  line : Text
  ahead : List Text
  deriving DecidableEq, Repr

namespace Layout

def tokens (laid : Layout) : List Text := laid.map Prod.snd

/-- The text of a layout with the gap in front of its first token. -/
def spread (laid : Layout) : Text := laid.flatMap fun entry => entry.1.text ++ entry.2

def render : Layout → Text
  | [] => []
  | (_, w) :: laid => w ++ spread laid

/-- What is left to read where a layout comes first. -/
def before (laid : Layout) (r : Remaining) : Remaining :=
  match laid with
  | [] => r
  | (g, w) :: laid =>
    let later := before laid r
    if g.breaks then ⟨[], (w ++ later.line) :: later.ahead⟩
    else ⟨' ' :: (w ++ later.line), later.ahead⟩

@[simp] theorem before_nil (r : Remaining) : before [] r = r := rfl

theorem before_append (laid more : Layout) (r : Remaining) :
    before (laid ++ more) r = before laid (before more r) := by
  induction laid with
  | nil => rfl
  | cons entry laid ih => simp [before, ih]

def spaced (ts : List Text) : Layout := ts.map fun w => (.space, w)

@[simp] theorem tokens_spaced (ts : List Text) : tokens (spaced ts) = ts := by
  rw [tokens, spaced, List.map_map]
  exact List.map_id' ts

theorem tokens_eq_cons {laid : Layout} {w : Text} {ts : List Text} (h : laid.tokens = w :: ts) :
    ∃ g later, laid = (g, w) :: later ∧ tokens later = ts := by
  obtain ⟨⟨g, _⟩, later, rfl, rfl, rest⟩ := List.map_eq_cons_iff.1 h
  exact ⟨g, later, rfl, rest⟩

theorem tokens_eq_append {laid : Layout} {ts us : List Text} (h : laid.tokens = ts ++ us) :
    ∃ first later : Layout, laid = first ++ later ∧ first.tokens = ts ∧ later.tokens = us := by
  obtain ⟨first, later, rfl, hfirst, hlater⟩ := List.map_eq_append_iff.1 h
  exact ⟨first, later, rfl, hfirst, hlater⟩

end Layout

/-- A token ends in front of a text that is empty or begins with a space. -/
def Parted (t : Text) : Prop := t = [] ∨ ∃ rest, t = ' ' :: rest

theorem Layout.parted_before {laid : Layout} {r : Remaining} (h : Parted r.line) :
    Parted (before laid r).line := by
  cases laid with
  | nil => exact h
  | cons entry laid =>
    rw [before]
    split
    · exact .inl rfl
    · exact .inr ⟨_, rfl⟩

/-- A token that stays as it is on any line: it is not empty, begins with an ASCII character,
has no line break, and does not end like a terminator. -/
structure Clean (w : Text) : Prop where
  visible : w ≠ []
  ascii : (w.head?.all fun c => c.toNat < 128) = true
  newline : '\n' ∉ w
  return_ : w.getLast? ≠ some '\r'

instance (w : Text) : Decidable (Clean w) :=
  decidable_of_iff (w ≠ [] ∧ (w.head?.all fun c => c.toNat < 128) = true ∧ '\n' ∉ w ∧
      w.getLast? ≠ some '\r')
    ⟨fun h => ⟨h.1, h.2.1, h.2.2.1, h.2.2.2⟩, fun h => ⟨h.visible, h.ascii, h.newline, h.return_⟩⟩

namespace Clean

theorem append {s w : Text} (hs : Clean s) (h : Clean w) : Clean (s ++ w) where
  visible := by simp [h.visible]
  ascii := by
    obtain ⟨c, t, rfl⟩ := List.exists_cons_of_ne_nil hs.visible
    exact hs.ascii
  newline := by simp [hs.newline, h.newline]
  return_ := by
    rw [List.getLast?_append]
    cases last : w.getLast? with
    | none => exact absurd (List.getLast?_eq_none_iff.1 last) h.visible
    | some c => simpa [last] using h.return_

/-- A line without a terminator of its own keeps all its characters when it ends in a token. -/
theorem stripTerminator_append {w : Text} (h : Clean w) (g : Gap) (breaks : g.breaks = true) :
    ∃ front, g.text = front ++ ['\n'] ∧ '\n' ∉ front ∧
      Text.stripTerminator (w ++ g.text) = w := by
  cases g with
  | space => cases breaks
  | lineFeed =>
    refine ⟨[], rfl, by simp, ?_⟩
    rcases Text.terminator_of_newline w with ⟨strip, _⟩ | ⟨strip, _⟩
    · exact strip
    · exact absurd (by rw [strip]; simp) h.return_
  | returnLineFeed => exact ⟨['\r'], rfl, by simp, by simp [Gap.text, Text.stripTerminator]⟩

end Clean

/-- The lines of a text that goes on as a layout, without their terminators. -/
theorem contents_append_spread {w : Text} (h : Clean w) (laid : Layout)
    (clean : ∀ x ∈ laid.tokens, Clean x) :
    (w ++ laid.spread).lines.map Text.stripTerminator =
      (w ++ (laid.before ⟨[], []⟩).line) :: (laid.before ⟨[], []⟩).ahead := by
  induction laid generalizing w with
  | nil =>
    have whole := (Text.stripTerminator_eq_self_iff h.newline).2 h.return_
    simp [Layout.spread, Text.lines_of_notMem h.newline, whole]
  | cons entry laid ih =>
    obtain ⟨g, x⟩ := entry
    have hx : Clean x := clean x List.mem_cons_self
    have rest : ∀ y ∈ Layout.tokens laid, Clean y := fun y hy => clean y (List.mem_cons_of_mem x hy)
    have spread : w ++ Layout.spread ((g, x) :: laid) =
        w ++ g.text ++ (x ++ Layout.spread laid) := by
      simp [Layout.spread]
    rw [spread, Layout.before]
    by_cases breaks : g.breaks = true
    · obtain ⟨front, text, hfront, strip⟩ := h.stripTerminator_append g breaks
      have first : '\n' ∉ w ++ front := by simp [h.newline, hfront]
      have line : w ++ g.text ++ (x ++ Layout.spread laid) =
          (w ++ front) ++ '\n' :: (x ++ Layout.spread laid) := by simp [text]
      rw [line, Text.lines_append_newline first, List.map_cons, ih hx rest, List.append_assoc,
        ← text, strip]
      simp [breaks]
    · have space : g.text = [' '] := by
        cases g with
        | space => rfl
        | _ => exact absurd rfl breaks
      have longer : Clean (w ++ [' '] ++ x) := h.append (by decide) |>.append hx
      rw [space, ← List.append_assoc, ih longer rest]
      simp [breaks]

def Layout.inline (ts : List Text) : Text := ts.flatMap fun w => ' ' :: w

theorem Layout.before_spaced (ts : List Text) (r : Remaining) :
    before (spaced ts) r = ⟨inline ts ++ r.line, r.ahead⟩ := by
  induction ts with
  | nil => rfl
  | cons w ts ih =>
    change before ((.space, w) :: spaced ts) r = _
    simp [before, ih, Gap.breaks, inline]

theorem Layout.parted_inline {t : Text} (h : Parted t) (ts : List Text) :
    Parted (inline ts ++ t) := by
  cases ts with
  | nil => exact h
  | cons w ts => exact .inr ⟨_, rfl⟩

/-- A layout keeps all its tokens on one line, or the line breaks in front of one of them. -/
theorem Layout.before_cases (laid : Layout) (r : Remaining) :
    laid = spaced laid.tokens ∨ ∃ ts w us, laid.tokens = ts ++ w :: us ∧
      (before laid r).line = inline ts := by
  induction laid with
  | nil => exact .inl rfl
  | cons entry laid ih =>
    obtain ⟨g, w⟩ := entry
    by_cases breaks : g.breaks = true
    · exact .inr ⟨[], w, tokens laid, rfl, by simp [before, breaks, inline]⟩
    · have space : g = .space := by
        cases g with
        | space => rfl
        | _ => exact absurd rfl breaks
      subst space
      rcases ih with same | ⟨ts, v, us, split, line⟩
      · left
        change (Gap.space, w) :: laid = (Gap.space, w) :: spaced (tokens laid)
        rw [← same]
      · right
        refine ⟨w :: ts, v, us, ?_, ?_⟩
        · change w :: tokens laid = _
          rw [split]
          rfl
        · simp [before, Gap.breaks, line, inline]

/-- A line goes on with the next token or ends in front of it. -/
theorem Layout.line_cases {laid : Layout} {w : Text} {ts : List Text} (h : laid.tokens = w :: ts)
    (r : Remaining) : (before laid r).line = [] ∨ ∃ later : Layout, later.tokens = ts ∧
      (before laid r).line = ' ' :: (w ++ (before later r).line) := by
  obtain ⟨g, later, rfl, rest⟩ := Layout.tokens_eq_cons h
  rw [before]
  split
  · exact .inl rfl
  · exact .inr ⟨later, rest, rfl⟩

/-- Where the tokenizer is in a text: whether an assignment operator is the latest token on
the line, the state, and what is left to read. -/
structure Place where
  assigned : Bool
  here : LineState
  left : Remaining
  deriving DecidableEq, Repr

namespace Place

variable {lexer : Lexer}

/-- Takes one step, or goes on to the next line where nothing is left of the current one. -/
def next (lexer : Lexer) (p : Place) : Place :=
  match p.left.line, p.left.ahead with
  | [], [] => p
  | [], line :: ahead => ⟨false, p.here, ⟨line, ahead⟩⟩
  | c :: t, ahead =>
    let s := Step.take lexer p.assigned p.here (c :: t)
    ⟨s.assigns p.assigned, s.after, ⟨s.rest, ahead⟩⟩

def run (lexer : Lexer) : Nat → Place → Place
  | 0, p => p
  | n + 1, p => run lexer n (p.next lexer)

def Reaches (lexer : Lexer) (p q : Place) : Prop := ∃ n, run lexer n p = q

theorem run_add (m n : Nat) (p : Place) : run lexer (m + n) p = run lexer n (run lexer m p) := by
  induction m generalizing p with
  | zero => simp [run]
  | succ m ih => simpa [run, Nat.succ_add] using ih (p.next lexer)

theorem Reaches.refl (p : Place) : Reaches lexer p p := ⟨0, rfl⟩

theorem Reaches.trans {p q r : Place} (h : Reaches lexer p q) (h' : Reaches lexer q r) :
    Reaches lexer p r := by
  obtain ⟨m, hm⟩ := h
  obtain ⟨n, hn⟩ := h'
  exact ⟨m + n, by rw [run_add, hm, hn]⟩

theorem Reaches.step {p q : Place} (h : p.next lexer = q) : Reaches lexer p q := ⟨1, h⟩

def final (lexer : Lexer) (p : Place) : LineState :=
  p.left.ahead.foldl (fun s line => (cut lexer false s line).2)
    (cut lexer p.assigned p.here p.left.line).2

@[simp] theorem final_nil (assigned : Bool) (here : LineState) :
    final lexer ⟨assigned, here, ⟨[], []⟩⟩ = here := by
  simp [final]

theorem final_next (p : Place) : final lexer (p.next lexer) = final lexer p := by
  obtain ⟨assigned, here, line, ahead⟩ := p
  cases line with
  | nil =>
    cases ahead with
    | nil => rfl
    | cons line ahead => simp [next, final]
  | cons c t => simp [next, final, cut_eq (List.cons_ne_nil c t)]

theorem Reaches.final_eq {p q : Place} (h : Reaches lexer p q) :
    final lexer q = final lexer p := by
  obtain ⟨n, rfl⟩ := h
  induction n generalizing p with
  | zero => rfl
  | succ n ih => rw [run, ih, final_next]

def start (before : LineState) (t : Text) : Place :=
  ⟨false, before, ⟨[], t.lines.map Text.stripTerminator⟩⟩

/-- In front of a layout the first gap may as well be a line break. -/
theorem start_render {before : LineState} {g : Gap} {w : Text} {laid : Layout}
    (clean : ∀ x ∈ Layout.tokens ((g, w) :: laid), Clean x) :
    start before (Layout.render ((g, w) :: laid)) =
      ⟨false, before, Layout.before ((.lineFeed, w) :: laid) ⟨[], []⟩⟩ := by
  have hw : Clean w := clean w List.mem_cons_self
  have rest : ∀ y ∈ Layout.tokens laid, Clean y := fun y hy => clean y (List.mem_cons_of_mem w hy)
  rw [start, Layout.render, contents_append_spread hw laid rest]
  rfl

/-- The state after the lines of a text is the one that running through it ends in. -/
theorem final_start (lexer : Lexer) (before : LineState) (t : Text) :
    final lexer (start before t) = lexer.stateAfter before t.lines := by
  simp only [final, start, cut_nil, List.foldl_map, Lexer.stateAfter, state_tokenizeLine]

end Place

end StanHighlight

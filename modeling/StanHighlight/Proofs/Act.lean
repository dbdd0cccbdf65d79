import StanHighlight.Proofs.Start

/-!
What a step does, taken apart. A step is a row of acts, each of which cuts a piece, changes
the innermost region, opens a region or closes some. What every act preserves every step
preserves, and so every line. The acts say which labels come with a change: a region in
brackets begins and ends with a label of its own, and the label of a name comes with the
place that the name fills.
-/

namespace StanHighlight

namespace Enclosure

/-- Constructs whose last token is never a stray bracket. -/
def isPaired : Enclosure → Bool
  | parens | brackets | block => false
  | _ => true

end Enclosure

/-- Labels that may stand on any token. -/
def Label.isFree : Label → Bool
  | begins _ => false
  | ends e => !e.isPaired
  | declaredVariable | declaredFunction | loopVariable | distributionCall => false
  | _ => true

namespace Region

/-- The bracket that opens a region of its own, and the construct that it begins. -/
def bracket? : Region → Option (Char × Enclosure)
  | sectionBody s => some ('{', .sectionBody s)
  | block => some ('{', .block)
  | array => some ('{', .array)
  | parens => some ('(', .parens)
  | brackets => some ('[', .brackets)
  | truncation => some ('[', .truncation)
  | call _ => some ('(', .arguments)
  | printArguments => some ('(', .printArguments)
  | constraints => some ('<', .constraints)
  | program | blockComment _ | control _ _ _ | declaration _ | initializer
  | functionDeclaration _ _ | sampling _ | accumulation => none

/-- The label of the token that opens a region without a bracket. -/
def sign? : Region → Option Label
  | blockComment _ => some .commentDelimiter
  | control _ false false => some .controlKeyword
  | declaration false => some .declaredType
  | initializer => some .initializerSign
  | functionDeclaration false false => some .returnType
  | sampling false => some .samplingOperator
  | _ => none

/-- Regions that end without a bracket: in front of a `;` or behind it, or behind `*/`. -/
def endsPlainly (r : Region) : Bool :=
  r.endsBeforeTerminator || r.endsWithTerminator || r.isBlockComment

/-- A place for a name, the same place filled, and the labels of the name. -/
inductive Names : Region → Region → List Label → Prop
  | variable : Names (.declaration false) (.declaration true) [.declaredVariable]
  | function : Names (.functionDeclaration false false) (.functionDeclaration true false)
      [.declaredFunction]
  | loop : Names (.control .forLoop true false) (.control .forLoop true true) [.loopVariable]
  | distribution (known : Bool) : Names (.sampling false) (.sampling true)
      [.distributionCall, if known then .knownDistribution else .distributionName]

inductive Heads : Region → Region → Enclosure → Prop
  | control (kind : Control) (named : Bool) :
      Heads (.control kind false named) (.control kind true named) (.header kind)
  | function (named : Bool) :
      Heads (.functionDeclaration named false) (.functionDeclaration named true) .parameters

theorem enclosure?_of_bracket? {r : Region} {c : Char} {e : Enclosure}
    (h : r.bracket? = some (c, e)) : r.enclosure? = some e := by
  cases r <;> simp_all [bracket?, enclosure?]

theorem brace_of_bracket? {r : Region} {c : Char} {e : Enclosure}
    (h : r.bracket? = some (c, e)) : r.isBraced = true ↔ c = '{' := by
  cases r <;> simp [bracket?] at h <;> simp [isBraced, ← h.1]

theorem Names.enclosure? {r r' : Region} {own : List Label} (h : Names r r' own) :
    r'.enclosure? = r.enclosure? := by
  cases h <;> rfl

end Region

def Piece.IsLoose (s : LineState) (p : Piece) : Prop :=
  p.around = s ∧ p.own.all Label.isFree = true

theorem Piece.isLoose_of_mem_ofText {s : LineState} {t : Text} {own : List Label} {p : Piece}
    (free : own.all Label.isFree = true) (h : p ∈ ofText t s own) : p.IsLoose s := by
  unfold ofText at h
  split at h
  · cases h
  · rw [List.mem_singleton.1 h]
    exact ⟨rfl, free⟩

/-- One act in a state: the pieces that are cut with it, and the state after it. -/
inductive Act : LineState → List Piece → LineState → Prop
  | token (s : LineState) (t : Text) {own : List Label} (free : own.all Label.isFree = true) :
      Act s [⟨t, s, own⟩] s
  /-- A literal ends with a quote or with the line. -/
  | quoted (s : LineState) (kinds : List Label) (c d : Char) {body last : List Piece}
      (free : kinds.all Label.isFree = true) (loose : ∀ p ∈ body, p.IsLoose s)
      (ending : last = [] ∨ last = [⟨[d], s, kinds ++ [.ends .string]⟩]) :
      Act s (⟨[c], s, kinds ++ [.begins .string]⟩ :: (body ++ last)) s
  | count (s : LineState) (n : Nat) : Act s [] { s with inner.ternaries := n }
  /-- A keyword takes the place of a distribution's name. -/
  | pass {s : LineState} (slot : s.innermost = .sampling false) :
      Act s [] (s.become (.sampling true))
  | name {s : LineState} {r' : Region} {own : List Label} (slot : s.innermost.Names r' own)
      (w : Text) : Act s [⟨w, s.become r', own⟩] (s.become r')
  | header {s : LineState} {r' : Region} {e : Enclosure} (waits : s.innermost.Heads r' e) :
      Act s [⟨['('], s.become r', [.begins e]⟩] (s.become r')
  | enter (s : LineState) {r : Region} {l : Label} (sign : r.sign? = some l) (t : Text) :
      Act s [⟨t, s.enter r, [l]⟩] (s.enter r)
  | accumulate (s : LineState) (t : Text) :
      Act s [⟨t, s, [.target]⟩] (s.enter .accumulation)
  /-- A bracket opens a region, in which its head may stand already. -/
  | bracket (s : LineState) {r : Region} {c : Char} {e : Enclosure}
      (opens : r.bracket? = some (c, e)) (head : List Piece)
      (free : ∀ p ∈ head, p.IsLoose (s.enter r)) :
      Act s (head ++ [⟨[c], s.enter r, [.begins e]⟩]) (s.enter r)
  | leave {s s' : LineState} (top : s.frames = s.inner :: s'.frames)
      (ends : s.innermost.endsPlainly = true) : Act s [] s'
  | close {s s' : LineState} {e : Enclosure} (top : s.frames = s.inner :: s'.frames)
      (enclosure : s.innermost.enclosure? = some e) (loose : s.innermost.isBraced = false)
      (c : Char) : Act s [⟨[c], s, [.ends e]⟩] s'
  /-- A brace closes the nearest region in braces, and all that is open in it. -/
  | closeBrace {s m s' : LineState} {e : Enclosure} (dropped : List OpenRegion)
      (unwound : s.frames = dropped ++ m.frames)
      (loose : ∀ f ∈ dropped, f.region.isBraced = false) (top : m.frames = m.inner :: s'.frames)
      (enclosure : m.innermost.enclosure? = some e) (braced : m.innermost.isBraced = true) :
      Act s [⟨['}'], m, [.ends e]⟩] s'

inductive Acts : LineState → List Piece → LineState → Prop
  | nil (s : LineState) : Acts s [] s
  | cons {s m s' : LineState} {ps qs : List Piece} (act : Act s ps m) (more : Acts m qs s') :
      Acts s (ps ++ qs) s'

namespace Acts

variable {s m s' : LineState} {ps qs : List Piece}

theorem one (act : Act s ps s') : Acts s ps s' := by
  have row := cons act (nil s')
  rwa [List.append_nil] at row

theorem append (h : Acts s ps m) (h' : Acts m qs s') : Acts s (ps ++ qs) s' := by
  induction h with
  | nil => exact h'
  | cons act _ ih =>
    rw [List.append_assoc]
    exact .cons act (ih h')

/-- Pieces that are cut where the regions stay as they are. -/
theorem tokens (h : ∀ p ∈ ps, p.IsLoose s) : Acts s ps s := by
  induction ps with
  | nil => exact .nil s
  | cons p ps ih =>
    obtain ⟨around, free⟩ := h p List.mem_cons_self
    have rest := ih fun q hq => h q (List.mem_cons_of_mem p hq)
    subst around
    exact .cons (.token p.around p.text free) rest

/-- A head and the blanks after it, cut where a bracket then opens a region. -/
theorem opening {head : Piece} {gap rest : Text} {r : Region} {c : Char} {e : Enclosure}
    (first : Acts s [head] head.around) (opens : r.bracket? = some (c, e)) :
    Acts s (Step.opening head gap c (head.around.enter r) e rest).pieces (head.around.enter r) := by
  have blanks : Acts head.around (Piece.ofText gap head.around []) head.around :=
    tokens fun p hp => Piece.isLoose_of_mem_ofText rfl hp
  have bracket : Act head.around [⟨[c], head.around.enter r, [.begins e]⟩] (head.around.enter r) :=
    .bracket head.around opens [] nofun
  exact first.append (blanks.append (one bracket))

end Acts

def LineState.count (p : Region → Bool) (s : LineState) : Nat :=
  s.frames.countP fun f => p f.region

namespace LineState

variable {p : Region → Bool} {s s' : LineState} {r : Region}

theorem count_eq (p : Region → Bool) (s : LineState) :
    s.count p = s.outer.countP (fun f => p f.region) + if p s.innermost = true then 1 else 0 :=
  List.countP_cons

theorem count_enter : (s.enter r).count p = s.count p + if p r = true then 1 else 0 :=
  List.countP_cons

theorem count_become (same : p r = p s.innermost) : (s.become r).count p = s.count p := by
  rw [count_eq, count_eq, innermost_become, same]
  rfl

/-- The innermost region is closed. -/
theorem count_of_top (top : s.frames = s.inner :: s'.frames) :
    s.count p = s'.count p + if p s.innermost = true then 1 else 0 := by
  rw [count, top]
  exact List.countP_cons

theorem count_of_append {dropped : List OpenRegion} (whole : s.frames = dropped ++ s'.frames) :
    s.count p = dropped.countP (fun f => p f.region) + s'.count p := by
  rw [count, whole]
  exact List.countP_append

end LineState

def Rests (r : Region) (below : List OpenRegion) (s : LineState) : Prop :=
  ∃ above n, s.frames = above ++ ⟨r, n⟩ :: below

def Rooted (s : LineState) : Prop := Rests .program [] s

namespace Rests

variable {r : Region} {below : List OpenRegion} {s s' : LineState}

/-- It stays open when something is opened on top. -/
theorem enter (h : Rests r below s) (q : Region) : Rests r below (s.enter q) := by
  obtain ⟨above, n, whole⟩ := h
  refine ⟨⟨q, 0⟩ :: above, n, ?_⟩
  change ⟨q, 0⟩ :: s.frames = _
  rw [whole]
  rfl

/-- It stays open when something changes about the innermost region, unless that is the region and
becomes another one. -/
theorem of_outer (h : Rests r below s) (same : s'.outer = s.outer)
    (keeps : s.innermost = r → s'.innermost = r) : Rests r below s' := by
  obtain ⟨above, n, whole⟩ := h
  cases above with
  | nil =>
    obtain ⟨inner, outer⟩ := List.cons.inj whole
    have region : s'.innermost = r := keeps (congrArg OpenRegion.region inner)
    refine ⟨[], s'.inner.ternaries, ?_⟩
    change s'.inner :: s'.outer = ⟨r, s'.inner.ternaries⟩ :: below
    rw [same, outer, ← region]
    rfl
  | cons f above =>
    obtain ⟨_, outer⟩ := List.cons.inj whole
    refine ⟨s'.inner :: above, n, ?_⟩
    change s'.inner :: s'.outer = s'.inner :: (above ++ ⟨r, n⟩ :: below)
    rw [same, outer]
    rfl

/-- It stays open when others are closed, and also when nothing lies below it. -/
theorem of_append (h : Rests r below s) (dropped : List OpenRegion)
    (whole : s.frames = dropped ++ s'.frames)
    (other : below = [] ∨ ∀ f ∈ dropped, f.region ≠ r) : Rests r below s' := by
  obtain ⟨above, n, stack⟩ := h
  rw [whole] at stack
  rcases List.append_eq_append_iff.1 stack with ⟨more, _, rest⟩ | ⟨more, front, rest⟩
  · exact ⟨more, n, rest⟩
  · cases more with
    | nil => exact ⟨[], n, rest.symm⟩
    | cons f more =>
      obtain ⟨top, lower⟩ := List.cons.inj rest
      rcases other with none | other
      · -- The last region of a state cannot be closed.
        rw [none] at lower
        exact absurd (List.append_eq_nil_iff.1 lower.symm).2 (List.cons_ne_nil _ _)
      · exact absurd (congrArg OpenRegion.region top.symm) (other f (by simp [front]))

end Rests

namespace Region

/-- The regions that only a `}` closes, and the program. -/
def isFirm : Region → Bool
  | program | sectionBody _ | block | array => true
  | _ => false

theorem isFirm_of_endsPlainly {r : Region} (h : r.endsPlainly = true) : r.isFirm = false := by
  cases r with
  | program | sectionBody | block | array => cases h
  | _ => rfl

theorem isFirm_of_enclosure? {r : Region} {e : Enclosure} (h : r.enclosure? = some e)
    (loose : r.isBraced = false) : r.isFirm = false := by
  cases r with
  | program => cases h
  | sectionBody | block | array => cases loose
  | _ => rfl

theorem Names.isFirm {r r' : Region} {own : List Label} (h : Names r r' own) :
    r.isFirm = false := by
  cases h <;> rfl

theorem Heads.isFirm {r r' : Region} {e : Enclosure} (h : Heads r r' e) : r.isFirm = false := by
  cases h <;> rfl

end Region

/-- A region in braces and what lies below it outlast every act without a `}`, and the program
outlasts every act. -/
theorem Act.rests {s s' : LineState} {ps : List Piece} {r : Region} {below : List OpenRegion}
    (act : Act s ps s') (firm : r.isFirm = true)
    (brace : below = [] ∧ r = .program ∨ '}' ∉ Piece.texts ps) (h : Rests r below s) :
    Rests r below s' ∧ ∀ p ∈ ps, Rests r below p.around := by
  have other : ∀ {q : Region}, q.isFirm = false → q ≠ r := by
    rintro q loose rfl
    rw [firm] at loose
    cases loose
  have become : ∀ {q : Region}, s.innermost.isFirm = false → Rests r below (s.become q) :=
    fun loose => h.of_outer rfl fun same => absurd same (other loose)
  cases act with
  | token t free => exact ⟨h, by simpa using h⟩
  | quoted kinds c d free loose ending =>
    refine ⟨h, fun p hp => ?_⟩
    have same : p.around = s := by
      rcases List.mem_cons.1 hp with rfl | hp
      · rfl
      · rcases List.mem_append.1 hp with hp | hp
        · exact (loose p hp).1
        · rcases ending with rfl | rfl
          · cases hp
          · rw [List.mem_singleton.1 hp]
    rwa [same]
  | count n => exact ⟨h.of_outer rfl id, nofun⟩
  | pass slot => exact ⟨become (by rw [slot]; rfl), nofun⟩
  | name slot w => exact ⟨become slot.isFirm, by simpa using become slot.isFirm⟩
  | header waits => exact ⟨become waits.isFirm, by simpa using become waits.isFirm⟩
  | enter sign t => exact ⟨h.enter _, by simpa using h.enter _⟩
  | accumulate t => exact ⟨h.enter _, by simpa using h⟩
  | bracket opens head free =>
    refine ⟨h.enter _, fun p hp => ?_⟩
    rcases List.mem_append.1 hp with first | last
    · rw [(free p first).1]
      exact h.enter _
    · rw [List.mem_singleton.1 last]
      exact h.enter _
  | leave top ends =>
    refine ⟨h.of_append [s.inner] top (.inr fun f mem => ?_), nofun⟩
    rw [List.mem_singleton.1 mem]
    exact other (Region.isFirm_of_endsPlainly ends)
  | close top enclosure loose c =>
    refine ⟨h.of_append [s.inner] top (.inr fun f mem => ?_), by simpa using h⟩
    rw [List.mem_singleton.1 mem]
    exact other (Region.isFirm_of_enclosure? enclosure loose)
  | @closeBrace m _ _ dropped unwound loose top enclosure braced =>
    rcases brace with ⟨none, rfl⟩ | brace
    · have middle : Rests .program below m := h.of_append dropped unwound (.inl none)
      exact ⟨middle.of_append [m.inner] top (.inl none), by simpa using middle⟩
    · exact absurd (List.mem_cons_self) brace

/-- A region in braces and what lies below it outlast acts without a `}`, and the program outlasts
all acts. -/
theorem Acts.rests {s s' : LineState} {ps : List Piece} {r : Region} {below : List OpenRegion}
    (acts : Acts s ps s') (firm : r.isFirm = true)
    (brace : below = [] ∧ r = .program ∨ '}' ∉ Piece.texts ps) (h : Rests r below s) :
    Rests r below s' ∧ ∀ p ∈ ps, Rests r below p.around := by
  induction acts with
  | nil => exact ⟨h, nofun⟩
  | cons act _ ih =>
    rw [Piece.texts_append, List.mem_append, not_or] at brace
    obtain ⟨middle, first⟩ := act.rests firm (brace.imp_right And.left) h
    obtain ⟨last, rest⟩ := ih (brace.imp_right And.right) middle
    refine ⟨last, fun p hp => ?_⟩
    rcases List.mem_append.1 hp with hp | hp
    · exact first p hp
    · exact rest p hp

theorem Acts.rooted {s s' : LineState} {ps : List Piece} (acts : Acts s ps s') (h : Rooted s) :
    Rooted s' :=
  (acts.rests rfl (.inl ⟨rfl, rfl⟩) h).1

end StanHighlight

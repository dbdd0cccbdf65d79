import StanHighlight.Region

/-!
What the tokenizer carries from one line to the next: the stack of open regions. The
innermost region comes first and the program, which never ends, lies at the bottom,
so the stack cannot be empty. Each region counts the `?` in it that still wait for
their `:`.
-/

namespace StanHighlight

/-- An open region and the number of `?` directly in it that wait for a `:`. -/
structure OpenRegion where
  region : Region
  ternaries : Nat
  deriving DecidableEq, Repr

structure LineState where
  inner : OpenRegion
  outer : List OpenRegion
  deriving DecidableEq, Repr

namespace LineState

def initial : LineState := ⟨⟨.program, 0⟩, []⟩

/-- All open regions, innermost first. -/
def frames (s : LineState) : List OpenRegion := s.inner :: s.outer

def innermost (s : LineState) : Region := s.inner.region

/-- How many regions are open besides the program. -/
def depth (s : LineState) : Nat := s.outer.length

def isTopLevel (s : LineState) : Bool := s.depth == 0

def inBlockComment (s : LineState) : Bool := s.innermost.isBlockComment

/-- The labels of all open regions, outermost first. -/
def labels (s : LineState) : List Label := s.frames.reverse.flatMap fun f => f.region.labels

def within (r : Region) (s : LineState) : Bool := s.frames.any fun f => f.region = r

def enter (s : LineState) (r : Region) : LineState := ⟨⟨r, 0⟩, s.frames⟩

/-- Closes the innermost region, except that the program stays open. -/
def leave : LineState → LineState
  | ⟨inner, []⟩ => ⟨inner, []⟩
  | ⟨_, f :: outer⟩ => ⟨f, outer⟩

def become (s : LineState) (r : Region) : LineState := { s with inner.region := r }

/-- The state once the innermost regions with a property are closed. -/
def leaveWhile (p : Region → Bool) (inner : OpenRegion) : List OpenRegion → LineState
  | [] => ⟨inner, []⟩
  | f :: outer => if p inner.region then leaveWhile p f outer else ⟨inner, f :: outer⟩

/-- The nearest braced region made the innermost one, if there is one. -/
def toBrace? (s : LineState) : Option LineState :=
  match s.frames.dropWhile fun f => !f.region.isBraced with
  | [] => none
  | f :: outer => some ⟨f, outer⟩

def maxTernaries : Nat := 65535

def ask (s : LineState) : LineState :=
  { s with inner.ternaries := min (s.inner.ternaries + 1) maxTernaries }

/-- The state after a `:` for the innermost region's latest `?`, if one waits. -/
def answer? (s : LineState) : Option LineState :=
  match s.inner.ternaries with
  | 0 => none
  | n + 1 => some { s with inner.ternaries := n }

def forget (s : LineState) : LineState := { s with inner.ternaries := 0 }

theorem eq_of_frames_eq {s s' : LineState} (h : s.frames = s'.frames) : s = s' := by
  obtain ⟨inner, outer⟩ := s
  obtain ⟨rfl, rfl⟩ := List.cons.inj h
  rfl

@[simp] theorem innermost_enter (s : LineState) (r : Region) : (s.enter r).innermost = r := rfl

@[simp] theorem innermost_become (s : LineState) (r : Region) : (s.become r).innermost = r := rfl

@[simp] theorem leave_enter (s : LineState) (r : Region) : (s.enter r).leave = s := rfl

@[simp] theorem depth_enter (s : LineState) (r : Region) : (s.enter r).depth = s.depth + 1 := rfl

@[simp] theorem labels_enter (s : LineState) (r : Region) :
    (s.enter r).labels = s.labels ++ r.labels := by
  simp [labels, enter, frames, List.flatMap_append]

end LineState

end StanHighlight

import StanHighlight.Label
import StanHighlight.LineState
import StanHighlight.Text.Cluster
import StanHighlight.Text.LineReader

/-!
A walk over a line in place. The cursor keeps the whole line, the byte where it stands, the open
regions and what it has given out; plain text in front of it may still wait to be given out. What
walks changes the cursor as it goes and takes nothing back. It fails where it would read what the
line does not have, from within a character or in a stack without regions, and also where it would
turn round and round without headway.
-/

namespace StanHighlight

namespace Text

/-- What a text has up to one of its bytes. There is nothing to be had up to a byte within a
character, nor up to one behind the last. -/
def upTo? : Text → Nat → Option Text
  | _, 0 => some []
  | [], _ + 1 => none
  | c :: t, n + 1 =>
    if c.utf8Size ≤ n + 1 then (upTo? t (n + 1 - c.utf8Size)).map (c :: ·) else none

def between? (t : Text) (start stop : Nat) : Option Text :=
  if start ≤ stop then (t.from? start).bind fun rest => rest.upTo? (stop - start) else none

end Text

structure Stretch where
  text : Text
  scope : List Label
  offset : Nat
  deriving DecidableEq, Repr

structure Cursor where
  line : Text
  /-- The byte where the content of the line ends. Only a terminator lies behind it. -/
  stop : Nat
  pos : Nat
  /-- The open regions, innermost first. -/
  frames : List OpenRegion
  given : List Stretch
  /-- Where the plain text starts that waits to be given out. -/
  waiting : Option Nat
  deriving DecidableEq, Repr

namespace Cursor

def ofLine (line : Text) (state : LineState) : Cursor :=
  ⟨line, Text.byteLength (Text.stripTerminator line), 0, state.frames, [], none⟩

/-- The labels of all open regions, outermost first. -/
def labels (c : Cursor) : List Label := c.frames.reverse.flatMap fun f => f.region.labels

/-- The innermost label of the latest visible stretch on the line. -/
def latestLabel? (c : Cursor) : Option Label :=
  (c.given.reverse.find? fun s => !s.text.all Text.isSpace).bind fun s => s.scope.getLast?

def ahead (c : Cursor) : Nat := c.stop - c.pos

def height (c : Cursor) : Nat := c.frames.length

end Cursor

abbrev Walk := StateT Cursor Option

namespace Walk

def rest : Walk Text := do
  let c ← get
  c.line.between? c.pos c.stop

/-- What follows a word at the start of the content ahead. -/
def behind (w : Text) : Walk Text := do
  let t ← rest
  t.from? (Text.byteLength w)

def inner : Walk OpenRegion := do
  let c ← get
  c.frames.head?

def innermost : Walk Region := do
  let f ← inner
  return f.region

def change (f : OpenRegion → OpenRegion) : Walk Unit := do
  let c ← get
  let r ← inner
  set { c with frames := f r :: c.frames.tail }

def become (r : Region) : Walk Unit := change fun f => { f with region := r }

def within (r : Region) : Walk Bool := do
  let c ← get
  return c.frames.any fun f => f.region = r

/-- Gives out the part of the line from a byte up to the cursor. -/
def give (start : Nat) (own : List Label) : Walk Unit := do
  let c ← get
  let t ← c.line.between? start c.pos
  set { c with given := c.given ++ [Stretch.mk t (c.labels ++ own) start] }

/-- Gives out the plain text that waits. -/
def flush : Walk Unit := do
  let c ← get
  match c.waiting with
  | none => return
  | some start =>
    set { c with waiting := none }
    if start < c.pos then give start []

def enter (r : Region) : Walk Unit := do
  flush
  modify fun c => { c with frames := ⟨r, 0⟩ :: c.frames }

/-- Closes the innermost region, unless no other is open. -/
def leave : Walk Unit := do
  flush
  modify fun c => if 1 < c.frames.length then { c with frames := c.frames.tail } else c

/-- Passes some bytes and gives them out with labels of their own. -/
def emit (len : Nat) (own : List Label) : Walk Unit := do
  flush
  let start := (← get).pos
  modify fun c => { c with pos := start + len }
  give start own

/-- Passes some bytes, which wait as plain text. -/
def skip (len : Nat) : Walk Unit :=
  modify fun c => { c with waiting := some (c.waiting.getD c.pos), pos := c.pos + len }

def emitSome (len : Nat) (own : List Label) : Walk Unit :=
  if 0 < len then emit len own else pure ()

def skipSome (len : Nat) : Walk Unit :=
  if 0 < len then skip len else pure ()

def skipBlanks : Walk Unit := do
  skipSome (Text.byteLength (Text.gap (← rest)))

/-- Passes the first cluster ahead, or a byte where there is none. -/
def skipCluster (clusters : Segmentation) : Walk Unit := do
  let t ← rest
  skip (if t = [] then 1 else Text.byteLength (clusters.cluster t))

/-- Takes turns until one says that it was the last. Every turn but that has to make something
smaller, or the loop fails. -/
def loop (size : Cursor → Nat) (turn : Walk Bool) : Walk Unit := fun c =>
  match turn c with
  | none => none
  | some (false, c') => some ((), c')
  | some (true, c') => if size c' < size c then loop size turn c' else none
termination_by c => size c

end Walk

end StanHighlight

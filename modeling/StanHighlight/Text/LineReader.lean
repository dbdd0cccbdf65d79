import StanHighlight.Text.Line

/-!
Reading a text line by line. The reader keeps the whole text and the byte at which the next
line starts, so each call searches for one line break only. A text that ends in a line break
has an empty line behind it, and a flag tells that the last line has been given out.
-/

namespace StanHighlight

/-- What a text has from one of its bytes on. There is nothing to be had from within a
character, nor from behind the last byte. -/
def Text.from? : Text → Nat → Option Text
  | t, 0 => some t
  | [], _ + 1 => none
  | c :: t, n + 1 => if c.utf8Size ≤ n + 1 then from? t (n + 1 - c.utf8Size) else none

structure LineReader where
  text : Text
  /-- The number of the next line. -/
  number : Nat
  /-- The byte at which the next line starts. -/
  start : Nat
  /-- Whether the last line has been given out. -/
  done : Bool
  deriving DecidableEq, Repr

namespace LineReader

def ofText (t : Text) : LineReader := ⟨t, 0, 0, false⟩

/-- Asks for the next line, which comes with its number; nothing comes behind the last one.
The call fails when the text has no character that starts where the line should. -/
def next (r : LineReader) : Option (Option (Nat × Text) × LineReader) :=
  if r.done then some (none, r) else
  match r.text.from? r.start with
  | none => none
  | some rest =>
    let (line, done) :=
      match rest.idxOf? '\n' with
      | some newline => (rest.take (newline + 1), false)
      | none => (rest, true)
    some (some (r.number, line), ⟨r.text, r.number + 1, r.start + Text.byteLength line, done⟩)

end LineReader

end StanHighlight

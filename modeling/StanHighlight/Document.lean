import StanHighlight.TokenStream

/-!
Documents: the text of a program and where it was read from.
-/

namespace StanHighlight

structure Document where
  text : Text
  path : Option String
  deriving DecidableEq, Repr

namespace Document

def ofText (text : Text) : Document := ⟨text, none⟩

/-- The document in a file, given the bytes found at its path. -/
def ofFile (path : String) (bytes : Option ByteArray) : Except Error Document :=
  match bytes with
  | none => .error (.unreadable .notFound)
  | some bytes =>
    match String.fromUTF8? bytes with
    | none => .error (.unreadable .invalidData)
    | some text => .ok ⟨text.toList, some path⟩

/-- The stream of a document, with the first line as the current one. -/
def stream (d : Document) (lexer : Lexer) : TokenStream :=
  match d.text.lines with
  | [] => ⟨lexer, [], 0, .initial, []⟩
  | line :: ahead => .enterLine lexer 0 line .initial ahead

end Document

end StanHighlight

/-!
What can go wrong before a text is tokenized. Tokenizing itself never fails.
-/

namespace StanHighlight

inductive Unreadable where
  | notFound | invalidData
  deriving DecidableEq, Repr

inductive Error where
  | illegalDelimiter (delimiter : Char)
  | unreadable (cause : Unreadable)
  deriving DecidableEq, Repr

def Error.message : Error → String
  | illegalDelimiter c =>
    "'" ++ c.toString ++ "' terminates string literals and can't be flagged as illegal"
  | unreadable .notFound => "NotFound"
  | unreadable .invalidData => "InvalidData"

end StanHighlight

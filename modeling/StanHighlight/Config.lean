/-!
What a user may choose: the characters that are flagged inside string literals.
-/

namespace StanHighlight

structure Config where
  /-- Characters that should not stand in a string literal as they are. -/
  illegal : List Char := ['\t']
  deriving DecidableEq, Repr

namespace Config

/-- Whether a character is flagged inside a string literal. -/
def isIllegal (config : Config) (c : Char) : Bool := config.illegal.contains c

end Config

end StanHighlight

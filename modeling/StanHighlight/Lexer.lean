import StanHighlight.Config
import StanHighlight.Error
import StanHighlight.Text.Cluster

/-!
The lexer: a configuration that has been checked, and the clusters that text without tokens
is skipped by.
-/

namespace StanHighlight

structure Lexer where
  config : Config
  /-- A quote ends a literal, so it cannot stand inside one. -/
  quote_legal : config.isIllegal '"' = false
  clusters : Segmentation

namespace Lexer

/-- A lexer for a configuration, unless that flags the quote. -/
def ofConfig (config : Config) : Except Error Lexer :=
  if illegal : config.isIllegal '"' = true then .error (.illegalDelimiter '"')
  else .ok ⟨config, by simpa using illegal, .prepending⟩

end Lexer

end StanHighlight

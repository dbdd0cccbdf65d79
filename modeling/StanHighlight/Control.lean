import StanHighlight.Text.Basic

/-!
Statements that begin with a keyword and a header in parentheses.
-/

namespace StanHighlight

inductive Control where
  | forLoop | whileLoop | conditional
  deriving DecidableEq, Repr

namespace Control

def keyword : Control → String
  | forLoop => "for"
  | whileLoop => "while"
  | conditional => "if"

def ofKeyword? (word : String) : Option Control :=
  [forLoop, whileLoop, conditional].find? fun c => c.keyword == word

theorem ofKeyword?_keyword (c : Control) : ofKeyword? c.keyword = some c := by
  cases c <;> decide

theorem keyword_of_ofKeyword? {word : String} {c : Control} (h : ofKeyword? word = some c) :
    c.keyword = word := by
  simpa using List.find?_some h

end Control

end StanHighlight

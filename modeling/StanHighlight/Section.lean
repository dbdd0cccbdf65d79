import StanHighlight.Text.Space

/-!
The seven blocks of a Stan program. A block is named by one or two words, which
its header may separate by any blanks and its labels join with a hyphen.
-/

namespace StanHighlight

inductive Section where
  | functions | data | transformedData | parameters | transformedParameters | model
  | generatedQuantities
  deriving DecidableEq, Repr

namespace Section

def all : List Section :=
  [functions, data, transformedData, parameters, transformedParameters, model,
   generatedQuantities]

theorem mem_all (s : Section) : s ∈ all := by cases s <;> decide

def words : Section → List String
  | functions => ["functions"]
  | data => ["data"]
  | transformedData => ["transformed", "data"]
  | parameters => ["parameters"]
  | transformedParameters => ["transformed", "parameters"]
  | model => ["model"]
  | generatedQuantities => ["generated", "quantities"]

/-- The words of a header joined by hyphens, as labels spell them. -/
def slug (s : Section) : String := "-".intercalate s.words

/-- The block that a header names, whatever blanks stand around its words. -/
def ofHeader? (header : Text) : Option Section :=
  all.find? fun s => s.words.map String.toList == Text.words header

end Section

end StanHighlight

import StanHighlight.Label

/-!
Regions of a program that can be open at some place: comments, blocks, brackets,
and statements that wait for their end. A region has labels of its own, which every
text inside it carries, and most regions are closed by one particular bracket.
-/

namespace StanHighlight

inductive Callee where
  | function | distribution
  deriving DecidableEq, Repr

inductive Region where
  /-- The program as a whole, which encloses everything else and never ends. -/
  | program
  | blockComment (documentation : Bool)
  | sectionBody (s : Section)
  | block | array | parens | brackets | truncation
  | call (callee : Callee)
  | printArguments
  /-- A control statement up to the end of its header: whether the header's parenthesis
  is open, and whether the loop variable has been seen. -/
  | control (kind : Control) (opened named : Bool)
  /-- A variable declaration, and whether the variable's name has been seen. -/
  | declaration (named : Bool)
  | constraints
  | initializer
  /-- A function declaration up to the end of its parameters: whether the function's name
  has been seen, and whether the parenthesis is open. -/
  | functionDeclaration (named parameters : Bool)
  /-- What follows `~`, and whether the place of the distribution's name is filled. -/
  | sampling (filled : Bool)
  /-- What follows `target +=`. -/
  | accumulation
  deriving DecidableEq, Repr

namespace Region

def labels : Region → List Label
  | program => [.source]
  | blockComment false => [.blockComment]
  | blockComment true => [.documentation]
  | sectionBody s => [.sectionBody s]
  | call .function => [.functionCall, .arguments]
  | call .distribution => [.distributionCall, .arguments]
  | printArguments => [.printArguments]
  | control kind _ _ => [.statement kind]
  | declaration _ => [.declaration]
  | constraints => [.constraints]
  | initializer => [.initializer]
  | functionDeclaration _ _ => [.functionDeclaration]
  | sampling _ => [.samplingStatement]
  | block | array | parens | brackets | truncation | accumulation => []

/-- The construct whose last token closes a region, once its first token has been seen. -/
def enclosure? : Region → Option Enclosure
  | sectionBody s => some (.sectionBody s)
  | block => some .block
  | array => some .array
  | parens => some .parens
  | brackets => some .brackets
  | truncation => some .truncation
  | call _ => some .arguments
  | printArguments => some .printArguments
  | control kind true _ => some (.header kind)
  | constraints => some .constraints
  | functionDeclaration _ true => some .parameters
  | program | blockComment _ | control _ false _ | declaration _ | initializer
  | functionDeclaration _ false | sampling _ | accumulation => none

/-- Regions in which a statement may begin. -/
def isStatementLevel : Region → Bool
  | program | sectionBody _ | block => true
  | _ => false

def isBraced : Region → Bool
  | sectionBody _ | block | array => true
  | _ => false

/-- Regions that end before a `;`, which belongs to the statement around them. -/
def endsBeforeTerminator : Region → Bool
  | initializer | accumulation => true
  | _ => false

def endsWithTerminator : Region → Bool
  | declaration _ | sampling _ => true
  | _ => false

def isBlockComment : Region → Bool
  | blockComment _ => true
  | _ => false

theorem isBraced_iff (r : Region) :
    r.isBraced = true ↔ r.enclosure?.map Enclosure.closer = some '}' := by
  cases r with
  | control kind opened named => cases opened <;> simp [isBraced, enclosure?, Enclosure.closer]
  | functionDeclaration named parameters =>
    cases parameters <;> simp [isBraced, enclosure?, Enclosure.closer]
  | _ => simp [isBraced, enclosure?, Enclosure.closer]

end Region

end StanHighlight

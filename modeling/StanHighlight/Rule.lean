import StanHighlight.Rule.Bracket
import StanHighlight.Rule.Comment
import StanHighlight.Rule.Header
import StanHighlight.Rule.Include
import StanHighlight.Rule.Literal
import StanHighlight.Rule.Operator
import StanHighlight.Rule.Statement
import StanHighlight.Rule.Word

/-!
The rules of the language and the order in which they are tried. The innermost open
region has a table of rules; the first of them that applies decides, however short
the token that it takes. Every rule that applies takes at least one character and
accounts for all the text that it takes.
-/

namespace StanHighlight

inductive Rule where
  | inclusion | lineComment | blockCommentBegin | blockCommentEnd | documentationTag
  | sectionHeader | functionDeclaration | variableDeclaration
  | constraintsBegin | initializer | constraintEquals | constraintsEnd
  | string | number | accumulator | word | sampling | terminator
  | delimiter | opener | closer | operator
  deriving DecidableEq, Repr

namespace Rule

/-- Rules for the inside of expressions, which hold in every region but comments. -/
def expression : List Rule :=
  [lineComment, blockCommentBegin, string, number, accumulator, word, sampling, terminator,
   delimiter, opener, closer, operator]

def statement : List Rule :=
  inclusion :: sectionHeader :: functionDeclaration :: variableDeclaration :: expression

def declaration : List Rule := constraintsBegin :: initializer :: expression

def constraints : List Rule := constraintEquals :: constraintsEnd :: expression

def blockComment : List Rule := [blockCommentEnd, documentationTag]

/-- The step that a rule takes at the start of a text, if it applies. Whether an assignment
operator is the latest token on the line matters only to braces. -/
def step? (config : Config) (assigned : Bool) (here : LineState) (t : Text) :
    Rule → Option Step
  | inclusion => include? here t
  | lineComment => lineComment? here t
  | blockCommentBegin => blockCommentBegin? here t
  | blockCommentEnd => blockCommentEnd? here t
  | documentationTag => documentationTag? here t
  | sectionHeader => sectionHeader? here t
  | functionDeclaration => functionDeclaration? here t
  | variableDeclaration => variableDeclaration? here t
  | constraintsBegin => constraintsBegin? here t
  | initializer => initializer? here t
  | constraintEquals => constraintEquals? here t
  | constraintsEnd => constraintsEnd? here t
  | string => string? config here t
  | number => number? here t
  | accumulator => accumulator? here t
  | word => word? here t
  | sampling => sampling? here t
  | terminator => terminator? here t
  | delimiter => delimiter? here t
  | opener => opener? assigned here t
  | closer => closer? here t
  | operator => operator? here t

theorem step?_covers {config : Config} {assigned : Bool} {here : LineState} {t : Text}
    {rule : Rule} {s : Step} (h : step? config assigned here t rule = some s) : s.Covers t := by
  cases rule
  · exact include?_covers h
  · exact lineComment?_covers h
  · exact blockCommentBegin?_covers h
  · exact blockCommentEnd?_covers h
  · exact documentationTag?_covers h
  · exact sectionHeader?_covers h
  · exact functionDeclaration?_covers h
  · exact variableDeclaration?_covers h
  · exact constraintsBegin?_covers h
  · exact initializer?_covers h
  · exact constraintEquals?_covers h
  · exact constraintsEnd?_covers h
  · exact string?_covers h
  · exact number?_covers h
  · exact accumulator?_covers h
  · exact word?_covers h
  · exact sampling?_covers h
  · exact terminator?_covers h
  · exact delimiter?_covers h
  · exact opener?_covers h
  · exact closer?_covers h
  · exact operator?_covers h

end Rule

/-- The rules that are tried inside a region, in order. -/
def Region.rules : Region → List Rule
  | program | sectionBody _ | block => Rule.statement
  | blockComment _ => Rule.blockComment
  | declaration _ => Rule.declaration
  | constraints => Rule.constraints
  | array | parens | brackets | truncation | call _ | printArguments | control _ _ _
  | initializer | functionDeclaration _ _ | sampling _ | accumulation => Rule.expression

end StanHighlight

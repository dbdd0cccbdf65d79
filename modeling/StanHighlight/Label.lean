import StanHighlight.Control
import StanHighlight.Section

/-!
The labels that a highlighter colours by. A label is a dotted path from the general
to the particular that ends in the language. Constructs with a first and a last
token share one type, `Enclosure`, so that both ends of a construct are labelled by
the same value.
-/

namespace StanHighlight

/-- Constructs whose first and last token are labelled as a pair. -/
inductive Enclosure where
  | string | arguments | truncation | header (statement : Control) | printArguments | parens
  | brackets | block | array | constraints | parameters | sectionBody (s : Section)
  deriving DecidableEq, Repr

inductive FileName where
  | bare | doubleQuoted | singleQuoted | angled
  deriving DecidableEq, Repr

inductive Builtin where
  | deprecated | ode | algebraSolver | function
  deriving DecidableEq, Repr

inductive Label where
  | source
  | slashComment | hashComment | blockComment | documentation | commentDelimiter
  | documentationTag
  | string | illegalCharacter
  | inclusion | includeDirective | fileName (style : FileName)
  | integer | real
  | identifier | malformed | reserved | deprecatedAssignment
  | functionCall | functionName | builtin (family : Builtin) | arguments
  | samplingStatement | samplingOperator | distributionCall | distributionName
  | knownDistribution | truncation
  | controlKeyword | returnKeyword | printKeyword | rejectKeyword | target
  | statement (kind : Control) | loopVariable
  | printArguments
  | logicalOperator | arithmeticOperator | ternaryOperator | colonOperator
  | assignmentOperator
  | comma | bar | terminator
  | storageType | declaration | declaredType | declaredVariable
  | constraints | rangeKeyword | equals | initializer | initializerSign
  | functionDeclaration | returnType | declaredFunction | dataModifier | parameterType
  | parameter
  | sectionBody (s : Section) | sectionName (s : Section)
  | begins (e : Enclosure) | ends (e : Enclosure)
  deriving DecidableEq, Repr

namespace Enclosure

def beginText : Enclosure → String
  | string => "punctuation.definition.string.begin.stan"
  | arguments => "punctuation.definition.arguments.begin.bracket.round.stan"
  | truncation => "punctuation.defintion.begin.truncation.backets.square.stan"
  | header .forLoop => "punctuation.definition.for.begin.round.bracket.stan"
  | header .whileLoop => "punctuation.definition.while.begin.round.bracket.stan"
  | header .conditional => "punctuation.definition.if.begin.round.bracket.stan"
  | printArguments => "punctuation.definition.print-arguments.begin.round.bracket.stan"
  | parens => "punctuation.section.parens.begin.bracket.round.stan"
  | brackets => "punctuation.section.brackets.begin.bracket.square.stan"
  | block => "punctuation.section.block.begin.bracket.curly.stan"
  | array => "punctuation.section.array.begin.bracket.curly.stan"
  | constraints => "punctuation.definition.range-constraints.begin.angle.bracket.stan"
  | parameters => "punctuation.definition.function-params.begin.bracket.round.stan"
  | sectionBody s => "punctuation.definition." ++ s.slug ++ ".begin.bracket.curly.stan"

def endText : Enclosure → String
  | string => "punctuation.definition.string.end.stan"
  | arguments => "punctuation.definition.arguments.end.bracket.round.stan"
  | truncation => "punctuation.defintion.end.truncation.backets.square.stan"
  | header .forLoop => "punctuation.definition.for.end.round.bracket.stan"
  | header .whileLoop => "punctuation.definition.while.end.round.bracket.stan"
  | header .conditional => "punctuation.definition.if.end.round.bracket.stan"
  | printArguments => "punctuation.definition.print-arguments.end.round.bracket.stan"
  | parens => "punctuation.section.parens.end.bracket.round.stan"
  | brackets => "punctuation.section.brackets.end.bracket.square.stan"
  | block => "punctuation.section.block.end.bracket.curly.stan"
  | array => "punctuation.section.array.end.bracket.curly.stan"
  | constraints => "punctuation.definition.range-constraints.end.angle.bracket.stan"
  | parameters => "punctuation.definition.function-params.end.bracket.round.stan"
  | sectionBody s => "punctuation.definition." ++ s.slug ++ ".end.bracket.curly.stan"

def closer : Enclosure → Char
  | string => '"'
  | arguments | header _ | printArguments | parens | parameters => ')'
  | truncation | brackets => ']'
  | block | array | sectionBody _ => '}'
  | constraints => '>'

end Enclosure

namespace Label

def text : Label → String
  | source => "source.stan"
  | slashComment => "comment.line.double-slash.stan"
  | hashComment => "comment.line.number-sign.stan"
  | blockComment => "comment.block.stan"
  | documentation => "comment.block.documentation.stan"
  | commentDelimiter => "punctuation.definition.comment.stan"
  | documentationTag => "storage.type.class.standoc"
  | string => "string.quoted.double.stan"
  | illegalCharacter => "invalid.illegal.string.stan"
  | inclusion => "meta.preprocessor.include.stan"
  | includeDirective => "keyword.control.directive.include.stan"
  | fileName .bare => "string.unquoted.include.stan"
  | fileName .doubleQuoted => "string.quoted.double.include.stan"
  | fileName .singleQuoted => "string.quoted.single.include.stan"
  | fileName .angled => "string.quoted.other.lt-gt.include.stan"
  | integer => "constant.numeric.integer.stan"
  | real => "constant.numeric.real.stan"
  | identifier => "meta.identifier.variable.stan"
  | malformed => "invalid.illegal.variable.stan"
  | reserved => "invalid.illegal.reserved.stan"
  | deprecatedAssignment => "invalid.deprecated.assignment.stan"
  | functionCall => "meta.function-call.stan"
  | functionName => "meta.identifier.function.stan"
  | builtin .deprecated => "invalid.deprecated.function.stan"
  | builtin .ode => "support.function.integrate_ode.stan"
  | builtin .algebraSolver => "support.function.algebra_solver.stan"
  | builtin .function => "support.function.stan"
  | arguments => "meta.arguments.stan"
  | samplingStatement => "meta.sampling.statement.stan"
  | samplingOperator => "keyword.operator.sampling.stan"
  | distributionCall => "meta.distribution-call.stan"
  | distributionName => "meta.identifier.distribution.stan"
  | knownDistribution => "support.function.distribution.stan"
  | truncation => "keyword.other.truncation.stan"
  | controlKeyword => "keyword.control.stan"
  | returnKeyword => "keyword.other.return.stan"
  | printKeyword => "keyword.other.print.stan"
  | rejectKeyword => "keyword.other.reject.stan"
  | target => "keyword.other.target.stan"
  | statement .forLoop => "meta.for.statement.stan"
  | statement .whileLoop => "meta.while.statement.stan"
  | statement .conditional => "meta.if.statement.stan"
  | loopVariable => "entity.name.variable.for.stan"
  | printArguments => "meta.section.print-arguments.stan"
  | logicalOperator => "keyword.operator.logical.stan"
  | arithmeticOperator => "keyword.operator.arithmetic.stan"
  | ternaryOperator => "keyword.operator.ternary.stan"
  | colonOperator => "keyword.operator.colon.stan"
  | assignmentOperator => "keyword.operator.assignment.stan"
  | comma => "punctuation.delimiter.comma.stan"
  | bar => "punctuation.delimiter.bar.stan"
  | terminator => "punctuation.terminator.statement.stan"
  | storageType => "storage.type.stan"
  | declaration => "meta.variable.declaration.stan"
  | declaredType => "storage.type.variable.stan"
  | declaredVariable => "entity.name.variable.stan"
  | constraints => "meta.range-constraints.stan"
  | rangeKeyword => "keyword.other.range.stan"
  | equals => "punctuation.delimiter.equals.stan"
  | initializer => "meta.section.assignment-rhs.stan"
  | initializerSign => "keyword.assignment.stan"
  | functionDeclaration => "meta.function-declaration.stan"
  | returnType => "storage.type.return.stan"
  | declaredFunction => "entity.name.function.stan"
  | dataModifier => "storage.modifier.data.stan"
  | parameterType => "storage.type.function-param.stan"
  | parameter => "variable.parameter.function.stan"
  | sectionBody s => "meta.section." ++ s.slug ++ ".stan"
  | sectionName s => "entity.name.section." ++ s.slug ++ ".stan"
  | begins e => e.beginText
  | ends e => e.endText

/-- The labels that do not depend on a block of the program. -/
def fixed : List Label :=
  [source,
   slashComment, hashComment, blockComment, documentation, commentDelimiter, documentationTag,
   string, begins .string, ends .string, illegalCharacter,
   inclusion, includeDirective, fileName .bare, fileName .doubleQuoted, fileName .singleQuoted,
   fileName .angled,
   integer, real,
   identifier, malformed, reserved, builtin .deprecated, deprecatedAssignment,
   functionCall, functionName, builtin .function, builtin .ode, builtin .algebraSolver,
   arguments, begins .arguments, ends .arguments,
   samplingStatement, samplingOperator, distributionCall, distributionName, knownDistribution,
   truncation, begins .truncation, ends .truncation,
   controlKeyword, returnKeyword, printKeyword, rejectKeyword, target,
   statement .forLoop, begins (.header .forLoop), ends (.header .forLoop), loopVariable,
   statement .whileLoop, begins (.header .whileLoop), ends (.header .whileLoop),
   statement .conditional, begins (.header .conditional), ends (.header .conditional),
   printArguments, begins .printArguments, ends .printArguments,
   logicalOperator, arithmeticOperator, ternaryOperator, colonOperator, assignmentOperator,
   comma, bar, terminator, begins .parens, ends .parens, begins .brackets, ends .brackets,
   begins .block, ends .block, begins .array, ends .array,
   storageType, declaration, declaredType, declaredVariable,
   constraints, begins .constraints, ends .constraints, rangeKeyword, equals,
   initializer, initializerSign,
   functionDeclaration, returnType, declaredFunction, begins .parameters, ends .parameters,
   dataModifier, parameterType, parameter]

end Label

end StanHighlight

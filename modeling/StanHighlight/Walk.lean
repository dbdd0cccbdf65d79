import StanHighlight.Cursor
import StanHighlight.Lexeme

/-!
The rules as they walk. Each rule looks at what lies ahead of the cursor and either declines or
passes some of it, and on the way it opens and closes regions. A few change the innermost region
before they decide: a keyword fills the place of a distribution's name before it is found to be a
keyword, and a closing brace leaves what is open inside the nearest braces before it closes
anything. At each place the rules of the innermost region are tried in order, on whatever cursor
the rules in front of them have left.
-/

namespace StanHighlight

def Lexeme.stretch (l : Lexeme) : Stretch := ⟨l.text, l.scope, l.offset⟩

namespace Walk

open Text (byteLength gap trimStart afterWord)
open Vocabulary

/-- A file name, from the delimiter that begins it up to the one that ends it. -/
def delimitedName (close : Char) (style : FileName) : Walk Unit := do
  emit 1 [.inclusion, .fileName style, .begins .string]
  let t ← rest
  emitSome (byteLength (t.takeWhile (· != close))) [.inclusion, .fileName style]
  if close ∈ t then emit 1 [.inclusion, .fileName style, .ends .string]

def fileName : Walk Unit := do
  match ← rest with
  | [] => return
  | '"' :: _ => delimitedName '"' .doubleQuoted
  | '\'' :: _ => delimitedName '\'' .singleQuoted
  | '<' :: _ => delimitedName '>' .angled
  | c :: t =>
    emit (byteLength ((c :: t).takeWhile fun d => !Text.isSpace d)) [.inclusion, .fileName .bare]

def inclusion : Walk Bool := do
  match (← rest).after? Rule.directive with
  | none => return false
  | some after =>
    if Text.word after ≠ [] then return false
    else
      emit (byteLength Rule.directive) [.inclusion, .includeDirective]
      emitSome (byteLength (gap (← rest))) [.inclusion]
      fileName
      return true

/-- A line comment behind the width of its delimiter. -/
def remark (delimiter : Nat) (kind : Label) : Walk Bool := do
  emit delimiter [kind, .commentDelimiter]
  emitSome (byteLength (← rest)) [kind]
  return true

def lineComment : Walk Bool := do
  match ← rest with
  | '/' :: '/' :: _ => remark 2 .slashComment
  | '#' :: _ => remark 1 .hashComment
  | _ => return false

def blockCommentBegin : Walk Bool := do
  match ← rest with
  | '/' :: '*' :: after =>
    let documentation := after.head? == some '*' && after.tail.head? != some '/'
    enter (.blockComment documentation)
    emit (if documentation then 3 else 2) [.commentDelimiter]
    return true
  | _ => return false

def blockCommentEnd : Walk Bool := do
  match ← rest with
  | '*' :: '/' :: _ =>
    emit 2 [.commentDelimiter]
    leave
    return true
  | _ => return false

def documentationTag : Walk Bool := do
  if (← innermost) ≠ .blockComment true then return false
  else
    match ← rest with
    | '@' :: after =>
      if Text.word after = [] then return false
      else
        emit (1 + byteLength (Text.word after)) [.documentationTag]
        return true
    | _ => return false

def sectionHeader : Walk Bool := do
  if (← innermost) ≠ .program then return false
  else
    match Rule.header? (← rest) with
    | none => return false
    | some (_, header, blanks, _) =>
      match Section.ofHeader? header with
      | none => return false
      | some s =>
        enter (.sectionBody s)
        emit (byteLength header) [.sectionName s]
        skipSome (byteLength blanks)
        emit 1 [.begins (.sectionBody s)]
        return true

/-- The return type of a declared function. -/
def functionDeclaration : Walk Bool := do
  if !(← innermost).isStatementLevel then return false
  else
    match Rule.returnType? (← rest) with
    | none => return false
    | some (type, after) =>
      if !Rule.startsSignature after then return false
      else
        enter (.functionDeclaration false false)
        emit (byteLength type) [.returnType]
        return true

def variableDeclaration : Walk Bool := do
  if !(← innermost).isStatementLevel then return false
  else
    let word := Text.word (← rest)
    if !isStorageType (String.ofList word) then return false
    else
      enter (.declaration false)
      emit (byteLength word) [.declaredType]
      return true

def constraintsBegin : Walk Bool := do
  if (← innermost) ≠ .declaration false then return false
  else
    match ← rest with
    | '<' :: after =>
      if after.head? = some '=' ∨ after.head? = some '-' then return false
      else
        enter .constraints
        emit 1 [.begins .constraints]
        return true
    | _ => return false

def initializer : Walk Bool := do
  if (Rule.afterEquals? (← rest)).isNone then return false
  else
    enter .initializer
    emit 1 [.initializerSign]
    return true

/-- The equals sign between a range keyword and its bound. -/
def constraintEquals : Walk Bool := do
  if (Rule.afterEquals? (← rest)).isNone then return false
  else
    emit 1 [.equals]
    return true

def constraintsEnd : Walk Bool := do
  match ← rest with
  | '>' :: after =>
    if after.head? = some '=' then return false
    else
      emit 1 [.ends .constraints]
      leave
      return true
  | _ => return false

/-- Passes a string up to its next illegal character or its end, and tells whether more of it
follows. -/
def stringTurn (config : Config) : Walk Bool := do
  let t ← rest
  match t.dropWhile fun c => !(c == '"' || config.isIllegal c) with
  | c :: _ =>
    emitSome (byteLength (t.takeWhile fun c => !(c == '"' || config.isIllegal c))) [.string]
    if c = '"' then
      emit 1 [.string, .ends .string]
      return false
    else
      emit c.utf8Size [.string, .illegalCharacter]
      return true
  | [] =>
    emitSome (byteLength t) [.string]
    return false

def string (config : Config) : Walk Bool := do
  match ← rest with
  | '"' :: _ =>
    emit 1 [.string, .begins .string]
    loop Cursor.ahead (stringTurn config)
    return true
  | _ => return false

/-- A number, or a malformed name that begins with one. -/
def number : Walk Bool := do
  match Text.numeral? (← rest) with
  | none => return false
  | some (kind, taken, after) =>
    if Text.word after ≠ [] then
      emit (byteLength taken + byteLength (Text.word after)) [.malformed]
      return true
    else
      emit (byteLength taken) [if kind = .real then .real else .integer]
      return true

def accumulator : Walk Bool := do
  match (← rest).after? Rule.targetWord with
  | none => return false
  | some after =>
    match trimStart after with
    | '+' :: '=' :: _ =>
      emit (byteLength Rule.targetWord + byteLength (gap after) + 2) [.target]
      enter .accumulation
      return true
    | _ => return false

/-- Opens a region if its parenthesis follows, perhaps behind blanks. -/
def openAhead (r : Region) (e : Enclosure) : Walk Unit := do
  if (trimStart (← rest)).head? = some '(' then
    skipBlanks
    enter r
    emit 1 [.begins e]

/-- A word in the place that the innermost region keeps for a name. -/
def nameSlot (w : Text) : Walk Bool := do
  let after ← behind w
  let word := String.ofList w
  match ← innermost with
  | .declaration false =>
    if isStorageType word then
      emit (byteLength w) [.declaredType]
      return true
    else if !isKeyword word then
      become (.declaration true)
      emit (byteLength w) [.declaredVariable]
      return true
    else return false
  | .functionDeclaration false false =>
    if isKeyword word then return false
    else
      become (.functionDeclaration true false)
      emit (byteLength w) [.declaredFunction]
      return true
  | .functionDeclaration _ true =>
    if word = "data" then
      emit (byteLength w) [.dataModifier]
      return true
    else if isStorageType word then
      emit (byteLength w + byteLength (Rule.dimensions after).1) [.parameterType]
      return true
    else if !isKeyword word then
      emit (byteLength w) [.parameter]
      return true
    else return false
  | .control .forLoop true false =>
    if isKeyword word then return false
    else
      become (.control .forLoop true true)
      emit (byteLength w) [.loopVariable]
      return true
  | .constraints =>
    if !isRangeKeyword word || (Rule.afterEquals? (trimStart after)).isNone then return false
    else
      emit (byteLength w) [.rangeKeyword]
      return true
  | .sampling false =>
    -- The place counts as filled from here on, whatever the word turns out to be.
    become (.sampling true)
    if isKeyword word then return false
    else
      let name := if isDistribution word then .knownDistribution else .distributionName
      emit (byteLength w) [.distributionCall, name]
      openAhead (.call .distribution) .arguments
      return true
  | _ => return false

/-- Opens a region if a parenthesis follows, perhaps behind blanks, but passes neither. -/
def enterBefore (r : Region) (after : Text) : Walk Unit :=
  if (trimStart after).head? = some '(' then enter r else pure ()

def keyword (w : Text) : Walk Bool := do
  let after ← behind w
  let word := String.ofList w
  match Control.ofKeyword? word with
  | some kind =>
    enterBefore (.control kind false false) after
    emit (byteLength w) [.controlKeyword]
    return true
  | none =>
    if isControlKeyword word then
      emit (byteLength w) [.controlKeyword]
      return true
    else
      match word with
      | "T" =>
        if after.head? = some '[' then
          emit 1 [.truncation]
          enter .truncation
          emit 1 [.begins .truncation]
          return true
        else return false
      | "return" =>
        emit (byteLength w) [.returnKeyword]
        return true
      | "print" =>
        emit (byteLength w) [.printKeyword]
        openAhead .printArguments .printArguments
        return true
      | "reject" =>
        emit (byteLength w) [.rejectKeyword]
        openAhead .printArguments .printArguments
        return true
      | "target" =>
        emit (byteLength w) [.target]
        return true
      | "void" =>
        emit (byteLength w) [.storageType]
        return true
      | _ =>
        if isStorageType word then
          emit (byteLength w) [.storageType]
          return true
        else return false

/-- A name that has no other meaning. -/
def identifier (w : Text) : Walk Unit := do
  let word := String.ofList w
  if (← behind w).head? ≠ some '(' then
    emit (byteLength w) [(builtin? word).elim .identifier .builtin]
  else
    let accumulating ← within .accumulation
    let name := match builtin? word with
      | some family => .builtin family
      | none => if accumulating && isDensity word then .knownDistribution else .functionName
    emit (byteLength w) [.functionCall, name]
    enter (.call .function)
    emit 1 [.begins .arguments]

def word : Walk Bool := do
  let t ← rest
  if !t.head?.any Text.startsWord then return false
  else
    let w := Text.word t
    if Rule.isMalformed w then
      emit (byteLength w) [.malformed]
      return true
    else if isReserved (String.ofList w) then
      emit (byteLength w) [.reserved]
      return true
    else if ← nameSlot w then return true
    else if ← keyword w then return true
    else
      identifier w
      return true

def sampling : Walk Bool := do
  match ← rest with
  | '~' :: _ =>
    enter (.sampling false)
    emit 1 [.samplingOperator]
    return true
  | _ => return false

/-- Leaves the innermost region if it has a property, and tells whether it had. -/
def leaveIf (p : Region → Bool) : Walk Bool := do
  if p (← innermost) then
    leave
    return true
  else return false

/-- No `?` waits any longer where a statement may begin. -/
def forget : Walk Unit := do
  if (← innermost).isStatementLevel then change fun f => { f with ternaries := 0 }

def terminator : Walk Bool := do
  match ← rest with
  | ';' :: _ =>
    loop Cursor.height (leaveIf Region.endsBeforeTerminator)
    emit 1 [.terminator]
    let _ ← leaveIf Region.endsWithTerminator
    forget
    return true
  | _ => return false

/-- A comma, or a bar between the arguments of a call. -/
def delimiter : Walk Bool := do
  match ← rest with
  | ',' :: _ =>
    emit 1 [.comma]
    return true
  | '|' :: after =>
    if after.head? = some '|' then return false
    else
      match ← innermost with
      | .call _ =>
        emit 1 [.bar]
        return true
      | _ => return false
  | _ => return false

def opener : Walk Bool := do
  let around ← innermost
  match ← rest with
  | '(' :: _ =>
    match around with
    | .control kind false named =>
      become (.control kind true named)
      emit 1 [.begins (.header kind)]
      return true
    | .functionDeclaration named false =>
      become (.functionDeclaration named true)
      emit 1 [.begins .parameters]
      return true
    | _ =>
      enter .parens
      emit 1 [.begins .parens]
      return true
  | '[' :: _ =>
    enter .brackets
    emit 1 [.begins .brackets]
    return true
  | '{' :: _ =>
    let assigned := (← get).latestLabel? == some .assignmentOperator
    if around.isStatementLevel && !assigned then
      enter .block
      emit 1 [.begins .block]
      return true
    else
      enter .array
      emit 1 [.begins .array]
      return true
  | _ => return false

/-- Leaves all regions inside the nearest braces, and tells whether there are braces. -/
def leaveToBrace : Walk Bool := do
  let c ← get
  if !c.frames.any fun f => f.region.isBraced then return false
  else
    loop Cursor.height (leaveIf fun r => !r.isBraced)
    return true

/-- What a closing bracket ends in a region, and whether it closes the region by that. -/
def closing? : Option Char → Region → Option (Enclosure × Bool)
  | some ')', .parens => some (.parens, true)
  | some ')', .call _ => some (.arguments, true)
  | some ')', .printArguments => some (.printArguments, true)
  | some ')', .control kind true _ => some (.header kind, true)
  | some ')', .functionDeclaration _ true => some (.parameters, true)
  | some ')', _ => some (.parens, false)
  | some ']', .brackets => some (.brackets, true)
  | some ']', .truncation => some (.truncation, true)
  | some ']', _ => some (.brackets, false)
  | some '}', .sectionBody s => some (.sectionBody s, true)
  | some '}', .block => some (.block, true)
  | some '}', .array => some (.array, true)
  | some '}', _ => some (.block, false)
  | _, _ => none

/-- Whether a closing brace is ahead whose braces are not innermost, once the regions inside them
are left. Without braces the brace is a stray one and nothing is left. -/
def unwindTurn : Walk Bool := do
  let t ← rest
  let around ← innermost
  if t.head? == some '}' && !around.isBraced then leaveToBrace else return false

/-- A closing bracket. It starts over once regions inside the nearest braces are left. -/
def closer : Walk Bool := do
  loop Cursor.height unwindTurn
  match closing? (← rest).head? (← innermost) with
  | none => return false
  | some (e, closes) =>
    emit 1 [.ends e]
    let _ ← leaveIf fun _ => closes
    return true

def operator : Walk Bool := do
  match ← rest with
  | '?' :: _ =>
    change fun f => { f with ternaries := min (f.ternaries + 1) LineState.maxTernaries }
    emit 1 [.ternaryOperator]
    return true
  | ':' :: _ =>
    if 0 < (← inner).ternaries then
      change fun f => { f with ternaries := f.ternaries - 1 }
      emit 1 [.ternaryOperator]
      return true
    else
      emit 1 [.colonOperator]
      return true
  | t =>
    match Rule.operators.find? fun entry => entry.1.isPrefixOf t with
    | none => return false
    | some (spelling, label) =>
      emit (byteLength spelling) [label]
      return true

def apply (config : Config) : Rule → Walk Bool
  | .inclusion => inclusion
  | .lineComment => lineComment
  | .blockCommentBegin => blockCommentBegin
  | .blockCommentEnd => blockCommentEnd
  | .documentationTag => documentationTag
  | .sectionHeader => sectionHeader
  | .functionDeclaration => functionDeclaration
  | .variableDeclaration => variableDeclaration
  | .constraintsBegin => constraintsBegin
  | .initializer => initializer
  | .constraintEquals => constraintEquals
  | .constraintsEnd => constraintsEnd
  | .string => string config
  | .number => number
  | .accumulator => accumulator
  | .word => word
  | .sampling => sampling
  | .terminator => terminator
  | .delimiter => delimiter
  | .opener => opener
  | .closer => closer
  | .operator => operator

/-- Tries rules in order until one applies, and tells whether one did. -/
def applyFirst (config : Config) : List Rule → Walk Bool
  | [] => return false
  | rule :: rules => do
    if ← apply config rule then return true else applyFirst config rules

/-- Passes a token or else a cluster, unless the content is at its end. -/
def turn (lexer : Lexer) : Walk Bool := do
  let c ← get
  if c.pos < c.stop then
    if ← applyFirst lexer.config (← innermost).rules then return true
    else
      skipCluster lexer.clusters
      return true
  else return false

/-- Passes a whole line. Its terminator is plain text in whatever is still open. -/
def wholeLine (lexer : Lexer) : Walk Unit := do
  loop Cursor.ahead (turn lexer)
  let c ← get
  set { c with stop := byteLength c.line }
  skipSome (byteLength c.line - c.stop)
  flush

end Walk

/-- What is given out on a line, and the regions open behind it, unless the walk fails. -/
def Lexer.walkLine (lexer : Lexer) (line : Text) (state : LineState) :
    Option (List Stretch × List OpenRegion) :=
  ((Walk.wholeLine lexer).run (.ofLine line state)).map fun done => (done.2.given, done.2.frames)

end StanHighlight

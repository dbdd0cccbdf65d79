import StanHighlight.Step

/-!
Brackets and the delimiters between what they enclose. A closing bracket closes the
innermost region if that is the kind of region it ends. A closing brace first abandons
whatever is open inside the nearest braces, so that a missing `;` or `)` cannot swallow
it. A bracket that closes nothing is labelled as an end but changes no region.
-/

namespace StanHighlight.Rule

/-- A comma, or a bar between the arguments of a call. -/
def delimiter? (here : LineState) : Text → Option Step
  | ',' :: rest => some (.single here [.comma] [','] rest)
  | '|' :: rest =>
    match here.innermost with
    | .call _ => if rest.head? = some '|' then none else some (.single here [.bar] ['|'] rest)
    | _ => none
  | _ => none

/-- The state inside an opening parenthesis, and what it begins. -/
def openParen (here : LineState) : LineState × Enclosure :=
  match here.innermost with
  | .control kind false named => (here.become (.control kind true named), .header kind)
  | .functionDeclaration named false => (here.become (.functionDeclaration named true), .parameters)
  | _ => (here.enter .parens, .parens)

/-- The state inside an opening brace, and what it begins: an array where an expression is
expected, which is anywhere but at statement level and also right after an assignment. -/
def openBrace (assigned : Bool) (here : LineState) : LineState × Enclosure :=
  if here.innermost.isStatementLevel && !assigned then (here.enter .block, .block)
  else (here.enter .array, .array)

def opener? (assigned : Bool) (here : LineState) : Text → Option Step
  | '(' :: rest =>
    let inside := openParen here
    some (.single inside.1 [.begins inside.2] ['('] rest)
  | '[' :: rest => some (.single (here.enter .brackets) [.begins .brackets] ['['] rest)
  | '{' :: rest =>
    let inside := openBrace assigned here
    some (.single inside.1 [.begins inside.2] ['{'] rest)
  | _ => none

/-- The step over a closing bracket, which is labelled as the end of `stray` if it closes
nothing. -/
def close (here : LineState) (bracket : Char) (stray : Enclosure) (rest : Text) : Step :=
  match here.innermost.enclosure? with
  | some e =>
    if e.closer = bracket then ⟨[⟨[bracket], here, [.ends e]⟩], here.leave, rest⟩
    else .single here [.ends stray] [bracket] rest
  | none => .single here [.ends stray] [bracket] rest

def closer? (here : LineState) : Text → Option Step
  | ')' :: rest => some (close here ')' .parens rest)
  | ']' :: rest => some (close here ']' .brackets rest)
  | '}' :: rest => some (close (here.toBrace?.getD here) '}' .block rest)
  | _ => none

variable {here : LineState} {t : Text} {s : Step}

theorem delimiter?_covers (h : delimiter? here t = some s) : s.Covers t := by
  unfold delimiter? at h
  repeat' split at h
  all_goals first
    | cases h; done
    | obtain rfl := Option.some.inj h; exact Step.single_covers (List.cons_ne_nil _ _) rfl

theorem opener?_covers {assigned : Bool} (h : opener? assigned here t = some s) : s.Covers t := by
  unfold opener? at h
  split at h
  all_goals first
    | cases h; done
    | obtain rfl := Option.some.inj h; exact Step.single_covers (List.cons_ne_nil _ _) rfl

theorem close_covers {bracket : Char} {stray : Enclosure} {rest : Text} :
    (close here bracket stray rest).Covers (bracket :: rest) := by
  unfold close
  split
  · split
    · exact ⟨rfl, by simp, by simp⟩
    · exact Step.single_covers (List.cons_ne_nil _ _) rfl
  · exact Step.single_covers (List.cons_ne_nil _ _) rfl

theorem closer?_covers (h : closer? here t = some s) : s.Covers t := by
  unfold closer? at h
  split at h
  all_goals first
    | cases h; done
    | obtain rfl := Option.some.inj h; exact close_covers

end StanHighlight.Rule

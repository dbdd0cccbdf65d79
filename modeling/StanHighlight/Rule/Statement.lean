import StanHighlight.Step
import StanHighlight.Text.Space

/-!
Tokens that open or end a statement. The sign `~` opens a sampling statement and
`target +=` an addition to the target; both last until the `;` that ends them.
-/

namespace StanHighlight.Rule

def targetWord : Text := "target".toList

/-- An addition to the target, which is one token with the blanks inside it. -/
def accumulator? (here : LineState) (t : Text) : Option Step :=
  match t.after? targetWord with
  | none => none
  | some rest =>
    match Text.trimStart rest with
    | '+' :: '=' :: after =>
      some ⟨[⟨targetWord ++ Text.gap rest ++ ['+', '='], here, [.target]⟩],
        here.enter .accumulation, after⟩
    | _ => none

def sampling? (here : LineState) : Text → Option Step
  | '~' :: rest => some (.single (here.enter (.sampling false)) [.samplingOperator] ['~'] rest)
  | _ => none

/-- The state in which a `;` stands: what ends before it has been left. -/
def beforeTerminator (here : LineState) : LineState :=
  .leaveWhile Region.endsBeforeTerminator here.inner here.outer

/-- The state after a `;`: one statement that it ends is left, and a `?` that waits in the
statement does not outlive it. -/
def afterTerminator (here : LineState) : LineState :=
  let left := if here.innermost.endsWithTerminator then here.leave else here
  if left.innermost.isStatementLevel then left.forget else left

def terminator? (here : LineState) : Text → Option Step
  | ';' :: rest =>
    some ⟨[⟨[';'], beforeTerminator here, [.terminator]⟩],
      afterTerminator (beforeTerminator here), rest⟩
  | _ => none

variable {here : LineState} {t : Text} {s : Step}

theorem accumulator?_covers (h : accumulator? here t = some s) : s.Covers t := by
  unfold accumulator? at h
  split at h
  · cases h
  · next rest opened =>
    split at h
    · next after sign =>
      obtain rfl := Option.some.inj h
      have blanks : Text.gap rest ++ '+' :: '=' :: after = rest :=
        sign ▸ Text.gap_append_trimStart rest
      exact ⟨by simp [blanks, Text.after?_eq_some_iff.1 opened], by simp, by simp⟩
    · cases h

theorem sampling?_covers (h : sampling? here t = some s) : s.Covers t := by
  unfold sampling? at h
  split at h
  · obtain rfl := Option.some.inj h
    exact Step.single_covers (List.cons_ne_nil _ _) rfl
  · cases h

theorem terminator?_covers (h : terminator? here t = some s) : s.Covers t := by
  unfold terminator? at h
  split at h
  · obtain rfl := Option.some.inj h
    exact ⟨rfl, by simp, by simp⟩
  · cases h

end StanHighlight.Rule

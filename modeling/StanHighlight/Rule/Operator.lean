import StanHighlight.Step

/-!
Operators. The first spelling in the table that a text starts with is taken, and no
spelling comes after one that it extends. A colon belongs to the latest `?` that still
waits for one in the same region; otherwise it separates the ends of a range.
-/

namespace StanHighlight.Rule

/-- The spellings of operators with their labels, longer ones in front. -/
def operators : List (Text × Label) :=
  [(".*=", .assignmentOperator), ("./=", .assignmentOperator), ("%/%", .arithmeticOperator),
   ("<-", .deprecatedAssignment),
   ("+=", .assignmentOperator), ("-=", .assignmentOperator), ("*=", .assignmentOperator),
   ("/=", .assignmentOperator),
   ("==", .logicalOperator), ("!=", .logicalOperator), ("<=", .logicalOperator),
   (">=", .logicalOperator), ("&&", .logicalOperator), ("||", .logicalOperator),
   (".*", .arithmeticOperator), ("./", .arithmeticOperator),
   ("=", .assignmentOperator),
   ("<", .logicalOperator), (">", .logicalOperator), ("!", .logicalOperator),
   ("+", .arithmeticOperator), ("-", .arithmeticOperator), ("*", .arithmeticOperator),
   ("/", .arithmeticOperator), ("\\", .arithmeticOperator), ("^", .arithmeticOperator),
   ("%", .arithmeticOperator), ("'", .arithmeticOperator)].map fun entry =>
    (entry.1.toList, entry.2)

def spelledOperator? (here : LineState) (t : Text) : Option Step :=
  operators.findSome? fun entry =>
    (t.after? entry.1).map fun rest => .single here [entry.2] entry.1 rest

def operator? (here : LineState) : Text → Option Step
  | '?' :: rest => some (.single here.ask [.ternaryOperator] ['?'] rest)
  | ':' :: rest =>
    match here.answer? with
    | some answered => some (.single answered [.ternaryOperator] [':'] rest)
    | none => some (.single here [.colonOperator] [':'] rest)
  | t => spelledOperator? here t

variable {here : LineState} {t : Text} {s : Step}

theorem spelledOperator?_covers (h : spelledOperator? here t = some s) : s.Covers t := by
  obtain ⟨entry, mem, found⟩ := List.exists_of_findSome?_eq_some h
  obtain ⟨rest, opened, rfl⟩ := Option.map_eq_some_iff.1 found
  exact Step.single_covers ((by decide : ∀ e ∈ operators, e.1 ≠ []) entry mem)
    (Text.after?_eq_some_iff.1 opened).symm

theorem operator?_covers (h : operator? here t = some s) : s.Covers t := by
  unfold operator? at h
  split at h
  · obtain rfl := Option.some.inj h
    exact Step.single_covers (List.cons_ne_nil _ _) rfl
  · split at h
    · obtain rfl := Option.some.inj h
      exact Step.single_covers (List.cons_ne_nil _ _) rfl
    · obtain rfl := Option.some.inj h
      exact Step.single_covers (List.cons_ne_nil _ _) rfl
  · exact spelledOperator?_covers h

end StanHighlight.Rule

import StanHighlight.Proofs.Flagged
import StanHighlight.Proofs.Inert

/-!
Tokens that may run on. A literal, a line comment and the file name of a directive have no end of
their own at blanks or quotes, and may go on to the end of the line. What they do in front of more
text depends on whether they are closed before it.
-/

namespace StanHighlight

theorem Text.forall_bne_of_notMem {c : Char} {t : Text} (h : c ∉ t) : ∀ d ∈ t, (d != c) = true :=
  fun _ mem => bne_iff_ne.2 fun same => h (same ▸ mem)

namespace Rule

variable {here : LineState} {t rest : Text} {s : Step}

theorem dropWhile_ne_nil_of_mem {c : Char} (h : c ∈ t) : t.dropWhile (· != c) ≠ [] := by
  intro none
  simpa using List.dropWhile_eq_nil_iff.1 none c h

/-- A literal that is closed is the same in front of more text. -/
theorem string?_append (config : Config) (here : LineState) (closed : '"' ∈ t) (rest : Text) :
    string? config here ('"' :: (t ++ rest)) =
      (string? config here ('"' :: t)).map (Step.onto rest) := by
  have stops := dropWhile_ne_nil_of_mem closed
  obtain ⟨taken, dropped⟩ := Text.takeWhile_append_of_stops stops rest
  obtain ⟨quote, after, ends⟩ := List.exists_cons_of_ne_nil stops
  simp only [string?_cons, literalEnd, taken, dropped, ends]
  rfl

theorem literalEnd_of_notMem (h : '"' ∉ t) : literalEnd here t = ([], []) := by
  have none := List.dropWhile_eq_nil_iff.2 (Text.forall_bne_of_notMem h)
  simp only [literalEnd, none]

theorem delimitedName_append {start close : Char} {style : FileName} (closed : close ∈ t)
    (rest : Text) : delimitedName here start close style (t ++ rest) =
      ((delimitedName here start close style t).1,
        (delimitedName here start close style t).2 ++ rest) := by
  have stops := dropWhile_ne_nil_of_mem closed
  obtain ⟨taken, dropped⟩ := Text.takeWhile_append_of_stops stops rest
  obtain ⟨c, after, ends⟩ := List.exists_cons_of_ne_nil stops
  simp only [delimitedName, taken, dropped, ends]
  rfl

/-- The delimiter that closes a file name with a first character, and the style of such names,
unless they are bare. -/
def nameStyle : Char → Option (Char × FileName)
  | '"' => some ('"', .doubleQuoted)
  | '\'' => some ('\'', .singleQuoted)
  | '<' => some ('>', .angled)
  | _ => none

theorem fileName_of_style {c close : Char} {style : FileName}
    (h : nameStyle c = some (close, style)) (t : Text) :
    fileName here (c :: t) = delimitedName here c close style t := by
  unfold nameStyle at h
  split at h <;> cases h <;> rfl

theorem fileName_of_bare {c : Char} (h : nameStyle c = none) (t : Text) : fileName here (c :: t) =
    (Piece.ofText ((c :: t).takeWhile fun d => !Text.isSpace d) here [.inclusion, .fileName .bare],
      (c :: t).dropWhile fun d => !Text.isSpace d) := by
  unfold nameStyle at h
  split at h
  · cases h
  · cases h
  · cases h
  · simp [fileName]

def ClosesName (c : Char) (t : Text) : Prop :=
  match nameStyle c with
  | some (close, _) => close ∈ t
  | none => ∃ d ∈ c :: t, Text.isSpace d = true

/-- A file name that is closed is the same in front of more text. -/
theorem fileName_append {c : Char} (closes : ClosesName c t) (rest : Text) :
    fileName here (c :: t ++ rest) =
      ((fileName here (c :: t)).1, (fileName here (c :: t)).2 ++ rest) := by
  rw [List.cons_append]
  unfold ClosesName at closes
  split at closes
  · next close _ found =>
    rw [fileName_of_style found, fileName_of_style found]
    exact delimitedName_append closes rest
  · next bare =>
    obtain ⟨d, mem, blank⟩ := closes
    have stops : (c :: t).dropWhile (fun d => !Text.isSpace d) ≠ [] := by
      intro none
      simpa [blank] using List.dropWhile_eq_nil_iff.1 none d mem
    obtain ⟨taken, dropped⟩ := Text.takeWhile_append_of_stops stops rest
    rw [fileName_of_bare bare, fileName_of_bare bare, ← List.cons_append, taken, dropped]

def includeStep (here : LineState) (t : Text) : Step :=
  ⟨⟨directive, here, [.inclusion, .includeDirective]⟩ ::
    (Piece.ofText (Text.gap t) here [.inclusion] ++ (fileName here (Text.trimStart t)).1), here,
    (fileName here (Text.trimStart t)).2⟩

theorem include?_eq_some_iff : include? here t = some s ↔
    ∃ after, t = directive ++ after ∧ Text.word after = [] ∧ s = includeStep here after := by
  simp only [← Text.after?_eq_some_iff]
  unfold include?
  split
  · next none => simp [none]
  · next after found =>
    simp only [found, Option.some.injEq, exists_eq_left']
    split
    · next ends => simp [ends, includeStep, eq_comm]
    · next more => simp [more]

/-- A directive with a file name that is the same in front of more text is the same there. -/
theorem includeStep_append {c : Char} {name : Text} (found : Text.trimStart t = c :: name)
    (same : fileName here (c :: name ++ rest) =
      ((fileName here (c :: name)).1, (fileName here (c :: name)).2 ++ rest)) :
    includeStep here (t ++ rest) = (includeStep here t).onto rest := by
  rcases Text.trimStart_append_cases t rest with ⟨none, _⟩ | ⟨_, more, blanks⟩
  · cases found.symm.trans none
  · simp only [includeStep, more, blanks, found, same]
    rfl

/-- A directive is found or not whatever inert text stands behind. -/
theorem include?_append (here : LineState) (inert : Inert rest) (t : Text) :
    (include? here t = none ∧ include? here (t ++ rest) = none) ∨
      ∃ after, t = directive ++ after ∧ include? here t = some (includeStep here after) ∧
        include? here (t ++ rest) = some (includeStep here (after ++ rest)) := by
  cases found : include? here t with
  | some s =>
    obtain ⟨after, rfl, ends, rfl⟩ := include?_eq_some_iff.1 found
    refine .inr ⟨after, rfl, rfl, include?_eq_some_iff.2 ⟨after ++ rest, ?_, ?_, rfl⟩⟩
    · rw [List.append_assoc]
    · rw [inert.word_append, ends]
  | none =>
    refine .inl ⟨rfl, ?_⟩
    cases more : include? here (t ++ rest) with
    | none => rfl
    | some s =>
      obtain ⟨after, whole, ends, _⟩ := include?_eq_some_iff.1 more
      have opened := inert.after?_append (w := directive) (by decide) t
      rw [Text.after?_eq_some_iff.2 whole] at opened
      obtain ⟨before, spelled, rfl⟩ := Option.map_eq_some_iff.1 opened.symm
      rw [inert.word_append] at ends
      have applies : include? here t = some (includeStep here before) :=
        include?_eq_some_iff.2 ⟨before, Text.after?_eq_some_iff.1 spelled, ends, rfl⟩
      cases found.symm.trans applies

end Rule

namespace Step

variable {lexer : Lexer} {assigned : Bool} {here : LineState} {t : Text} {s : Step}

/-- A line comment takes the rest of the line. -/
theorem take_slashes (code : here.innermost.isBlockComment = false) (t : Text) :
    take lexer assigned here ('/' :: '/' :: t) = Rule.remark here ['/', '/'] .slashComment t := by
  have first : ∀ table ∈ Rule.tables,
      (table.filter fun rule => rule.startsAt '/').head? = some .lineComment := by decide
  exact take_mark code first rfl

theorem take_quote (code : here.innermost.isBlockComment = false)
    (h : Rule.string? lexer.config here ('"' :: t) = some s) :
    take lexer assigned here ('"' :: t) = s := by
  have first : ∀ table ∈ Rule.tables,
      (table.filter fun rule => rule.startsAt '"').head? = some .string := by decide
  exact take_mark code first h

theorem take_quote_append (code : here.innermost.isBlockComment = false) (closed : '"' ∈ t)
    (rest : Text) : take lexer assigned here ('"' :: t ++ rest) =
      (take lexer assigned here ('"' :: t)).onto rest := by
  have same := Rule.string?_append lexer.config here closed rest
  rw [Rule.string?_cons, Rule.string?_cons] at same
  rw [List.cons_append, take_quote code (Rule.string?_cons ..),
    take_quote code (Rule.string?_cons ..)]
  exact Option.some.inj same

/-- A hash sign begins a directive where statements begin, and otherwise a comment. -/
theorem take_hash (code : here.innermost.isBlockComment = false) (t : Text) :
    take lexer assigned here ('#' :: t) =
      ((if here.innermost.isStatementLevel then Rule.include? here ('#' :: t) else none).getD
        (Rule.remark here ['#'] .hashComment t)) := by
  have remark : Rule.lineComment? here ('#' :: t) = some (Rule.remark here ['#'] .hashComment t) :=
    rfl
  rw [take_eq_filter]
  by_cases level : here.innermost.isStatementLevel = true
  · have both : Rule.statement.filter (fun rule => rule.startsAt '#') =
        [.inclusion, .lineComment] := by decide
    rw [Region.rules_of_isStatementLevel level, both, if_pos level]
    simp only [List.findSome?_cons, Rule.step?, remark]
    cases Rule.include? here ('#' :: t) <;> rfl
  · have one : here.innermost.rules.filter (fun rule => rule.startsAt '#') = [.lineComment] := by
      cases region : here.innermost with
      | program | sectionBody | block => simp [region, Region.isStatementLevel] at level
      | blockComment => simp [region, Region.isBlockComment] at code
      | _ =>
        simp only [Region.rules]
        decide
    rw [one, if_neg level]
    simp only [List.findSome?_cons, Rule.step?, remark]
    rfl

theorem take_directive (level : here.innermost.isStatementLevel = true) (ends : Text.word t = []) :
    take lexer assigned here (Rule.directive ++ t) = Rule.includeStep here t := by
  have found : Rule.include? here (Rule.directive ++ t) = some (Rule.includeStep here t) :=
    Rule.include?_eq_some_iff.2 ⟨t, rfl, ends, rfl⟩
  have spelled : Rule.directive ++ t = '#' :: ("include".toList ++ t) := rfl
  rw [spelled] at found ⊢
  rw [take_hash (Region.isBlockComment_of_isStatementLevel level), if_pos level, found]
  rfl

end Step

end StanHighlight

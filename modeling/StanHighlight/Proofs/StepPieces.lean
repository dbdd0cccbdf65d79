import StanHighlight.Proofs.Start

/-!
What steps cut. A step cuts tokens, and blanks only between a head and the bracket that the head
opens a region with. And only a string literal has tokens with the labels of one.
-/

namespace StanHighlight

def Label.isLiteral : Label → Bool
  | .string | .illegalCharacter => true
  | _ => false

structure Piece.IsToken (p : Piece) : Prop where
  labelled : p.own ≠ []
  code : ∀ l ∈ p.own, l.isLiteral = false

theorem Piece.IsToken.isPlain {p : Piece} (h : p.IsToken) : p.isPlain = false :=
  Bool.eq_false_iff.2 fun plain => h.labelled (List.isEmpty_iff.1 plain)

theorem Piece.IsToken.ofText {t : Text} {around : LineState} {own : List Label}
    (labelled : own ≠ []) (code : ∀ l ∈ own, l.isLiteral = false) :
    ∀ p ∈ Piece.ofText t around own, p.IsToken := by
  intro p hp
  unfold Piece.ofText at hp
  split at hp
  · cases hp
  · rw [List.mem_singleton.1 hp]
    exact ⟨labelled, code⟩

/-- A step outside literals: tokens, or a head and its bracket with blanks between them. -/
inductive Step.IsOrdinary (s : Step) : Prop
  | tokens (h : ∀ p ∈ s.pieces, p.IsToken)
  | opening {head bracket : Piece} {gap : Text}
      (pieces : s.pieces = head :: (Piece.ofText gap head.around [] ++ [bracket]))
      (first : head.IsToken) (blank : ∀ c ∈ gap, Text.isSpace c = true) (last : bracket.IsToken)

namespace Step.IsOrdinary

variable {here : LineState} {own : List Label} {t rest : Text} {s : Step}

theorem single (labelled : own ≠ []) (code : ∀ l ∈ own, l.isLiteral = false) :
    (Step.single here own t rest).IsOrdinary :=
  .tokens (List.forall_mem_singleton.2 ⟨labelled, code⟩)

theorem head {head : Piece} {gap : Text} {bracket : Char} {inside : LineState} {e : Enclosure}
    (first : head.IsToken) (blank : ∀ c ∈ gap, Text.isSpace c = true) :
    (Step.opening head gap bracket inside e rest).IsOrdinary :=
  .opening rfl first blank ⟨List.cons_ne_nil _ _, List.forall_mem_singleton.2 rfl⟩

/-- No piece outside literals has a label of literals. -/
theorem code (h : s.IsOrdinary) {p : Piece} (mem : p ∈ s.pieces) :
    ∀ l ∈ p.own, l.isLiteral = false := by
  cases h with
  | tokens tokens => exact (tokens p mem).code
  | @opening head bracket gap pieces first _ last =>
    rw [pieces, List.mem_cons, List.mem_append, List.mem_singleton] at mem
    rcases mem with rfl | mem | rfl
    · exact first.code
    · unfold Piece.ofText at mem
      split at mem
      · cases mem
      · rw [List.mem_singleton.1 mem]
        exact nofun
    · exact last.code

end Step.IsOrdinary

namespace Rule

theorem isSpace_of_mem_gap {t : Text} : ∀ c ∈ Text.gap t, Text.isSpace c = true :=
  List.all_eq_true.1 List.all_takeWhile

/-- Rules that take one token and give it one label. -/
def soleRules : List Rule :=
  [blockCommentBegin, blockCommentEnd, documentationTag, functionDeclaration, variableDeclaration,
   constraintsBegin, constraintsEnd, initializer, constraintEquals, number, accumulator, sampling,
   terminator, delimiter, opener, closer]

/-- The labels that these rules give besides those of brackets. -/
def soleLabels : Rule → List Label
  | blockCommentBegin | blockCommentEnd => [.commentDelimiter]
  | documentationTag => [.documentationTag]
  | functionDeclaration => [.returnType]
  | variableDeclaration => [.declaredType]
  | initializer => [.initializerSign]
  | constraintEquals => [.equals]
  | number => [.malformed, .real, .integer]
  | accumulator => [.target]
  | sampling => [.samplingOperator]
  | terminator => [.terminator]
  | delimiter => [.comma, .bar]
  | _ => []

variable {config : Config} {assigned : Bool} {here : LineState} {t w after : Text} {s : Step}

/-- What holds of the labels that such a rule may give holds of the label of its token. -/
theorem exists_sole {rule : Rule} (holds : Label → Prop)
    (found : step? config assigned here t rule = some s) (sole : rule ∈ soleRules)
    (labels : ∀ l ∈ rule.soleLabels, holds l) (brackets : ∀ e, holds (.begins e) ∧ holds (.ends e)) :
    ∃ w around l, s.pieces = [⟨w, around, [l]⟩] ∧ holds l := by
  cases rule with
  | inclusion | lineComment | sectionHeader | string | word | operator =>
    exact absurd sole (by decide)
  | initializer | constraintEquals =>
    obtain ⟨rest, _, rfl⟩ := Option.map_eq_some_iff.1 found
    exact ⟨_, _, _, rfl, labels _ List.mem_cons_self⟩
  | number =>
    simp only [step?, number?] at found
    split at found
    · cases found
    · split at found <;> cases found
      · next kind _ _ _ _ =>
        refine ⟨_, _, _, rfl, ?_⟩
        cases kind <;> exact labels _ (by decide)
      · exact ⟨_, _, _, rfl, labels _ List.mem_cons_self⟩
  | blockCommentBegin | blockCommentEnd | documentationTag | functionDeclaration
  | variableDeclaration | constraintsBegin | constraintsEnd | accumulator | sampling | terminator
  | delimiter | opener | closer =>
    simp only [step?] at found
    first
      | unfold blockCommentBegin? at found
      | unfold blockCommentEnd? at found
      | unfold documentationTag? at found
      | unfold functionDeclaration? at found
      | unfold variableDeclaration? at found
      | unfold constraintsBegin? at found
      | unfold constraintsEnd? at found
      | unfold accumulator? at found
      | unfold sampling? at found
      | unfold terminator? at found
      | unfold delimiter? at found
      | unfold opener? at found
      | unfold closer? close at found
    repeat' split at found
    all_goals cases found
    all_goals refine ⟨_, _, _, rfl, ?_⟩
    all_goals first
      | exact (brackets _).1
      | exact (brackets _).2
      | exact labels _ (by decide)

theorem isToken_delimitedName {start close : Char} {style : FileName} :
    ∀ p ∈ (delimitedName here start close style t).1, p.IsToken := by
  have name : ∀ p ∈ Piece.ofText (t.takeWhile (· != close)) here [.inclusion, .fileName style],
      p.IsToken := .ofText (List.cons_ne_nil _ _) (by simp [Label.isLiteral])
  have delimiter : ∀ (c : Char) (l : Label), l.isLiteral = false →
      Piece.IsToken ⟨[c], here, [.inclusion, .fileName style, l]⟩ :=
    fun c l code => ⟨List.cons_ne_nil _ _, by simpa [Label.isLiteral] using code⟩
  unfold delimitedName
  split
  · exact List.forall_mem_cons.2 ⟨delimiter _ _ rfl, name⟩
  · refine List.forall_mem_append.2 ⟨List.forall_mem_cons.2 ⟨delimiter _ _ rfl, name⟩, ?_⟩
    exact List.forall_mem_singleton.2 (delimiter _ _ rfl)

theorem isToken_fileName : ∀ p ∈ (fileName here t).1, p.IsToken := by
  unfold fileName
  split
  · exact nofun
  · exact isToken_delimitedName
  · exact isToken_delimitedName
  · exact isToken_delimitedName
  · exact .ofText (List.cons_ne_nil _ _) (by decide)

theorem ordinary_inclusion (found : include? here t = some s) : s.IsOrdinary := by
  unfold include? at found
  split at found
  · cases found
  · split at found
    · cases found
      refine .tokens (List.forall_mem_cons.2 ⟨⟨List.cons_ne_nil _ _, ?_⟩, ?_⟩)
      · simp [Label.isLiteral]
      · refine List.forall_mem_append.2 ⟨?_, isToken_fileName⟩
        exact .ofText (List.cons_ne_nil _ _) (by decide)
    · cases found

theorem ordinary_lineComment (found : lineComment? here t = some s) : s.IsOrdinary := by
  have remarks : ∀ (delimiter body : Text) (kind : Label), kind.isLiteral = false →
      (remark here delimiter kind body).IsOrdinary := by
    intro delimiter body kind code
    refine .tokens (List.forall_mem_cons.2 ⟨⟨List.cons_ne_nil _ _, ?_⟩, ?_⟩)
    · exact List.forall_mem_cons.2 ⟨code, List.forall_mem_singleton.2 rfl⟩
    · exact .ofText (List.cons_ne_nil _ _) (List.forall_mem_singleton.2 code)
  unfold lineComment? at found
  split at found <;> cases found
  · exact remarks _ _ _ rfl
  · exact remarks _ _ _ rfl

theorem blank_of_headerOf? {sec : Section} {header gap body : Text}
    (found : headerOf? t sec = some (header, gap, body)) : ∀ c ∈ gap, Text.isSpace c = true := by
  unfold headerOf? at found
  split at found
  · cases found
  · split at found <;> cases found
    exact isSpace_of_mem_gap

theorem ordinary_sectionHeader (found : sectionHeader? here t = some s) : s.IsOrdinary := by
  unfold sectionHeader? at found
  split at found
  · split at found
    · cases found
    · next header =>
      cases found
      exact .head ⟨List.cons_ne_nil _ _, List.forall_mem_singleton.2 rfl⟩
        (blank_of_headerOf? (headerOf?_of_header? header))
  · cases found

theorem ordinary_heads {head : Piece} {inside : LineState} {e : Enclosure}
    (first : head.IsToken) : (heads head inside e after).IsOrdinary := by
  unfold heads
  split
  · next gap rest found =>
    have blank : gap = Text.gap after := by
      unfold parenAfterGap? at found
      split at found <;> cases found
      rfl
    exact .head first (blank ▸ isSpace_of_mem_gap)
  · exact .tokens (List.forall_mem_singleton.2 first)

theorem ordinary_nameSlot (found : nameSlot? here w after = some s) : s.IsOrdinary := by
  simp only [nameSlot?] at found
  repeat' split at found
  all_goals cases found
  all_goals first
    | exact .single (List.cons_ne_nil _ _) (by decide)
    | exact ordinary_heads ⟨List.cons_ne_nil _ _, by simp [Label.isLiteral]⟩

theorem ordinary_keyword (found : keyword? here w after = some s) : s.IsOrdinary := by
  simp only [keyword?] at found
  split at found
  · cases found
    exact .single (List.cons_ne_nil _ _) (by decide)
  · repeat' split at found
    all_goals cases found
    all_goals first
      | exact .single (List.cons_ne_nil _ _) (by decide)
      | exact ordinary_heads ⟨List.cons_ne_nil _ _, by simp [Label.isLiteral]⟩
      | exact .head ⟨List.cons_ne_nil _ _, by simp [Label.isLiteral]⟩ (by simp)

theorem isLiteral_calledName (word : String) : (calledName here word).isLiteral = false := by
  unfold calledName
  split
  · rfl
  · split <;> rfl

theorem ordinary_identifier : (identifier here w after).IsOrdinary := by
  unfold identifier
  split
  · refine .head ⟨List.cons_ne_nil _ _, ?_⟩ (by simp)
    exact List.forall_mem_cons.2 ⟨rfl, List.forall_mem_singleton.2 (isLiteral_calledName _)⟩
  · refine .single (List.cons_ne_nil _ _) (List.forall_mem_singleton.2 ?_)
    cases Vocabulary.builtin? (String.ofList w) <;> rfl

theorem ordinary_wordStep : (wordStep here w after).IsOrdinary := by
  unfold wordStep
  split
  · exact .single (List.cons_ne_nil _ _) (by decide)
  · split
    · exact .single (List.cons_ne_nil _ _) (by decide)
    · split
      · next found => exact ordinary_nameSlot found
      · cases found : keyword? (passDistribution here) w after with
        | none => exact ordinary_identifier
        | some s => exact ordinary_keyword found

theorem ordinary_operator (found : operator? here t = some s) : s.IsOrdinary := by
  unfold operator? at found
  split at found
  · cases found
    exact .single (List.cons_ne_nil _ _) (by decide)
  · split at found <;> cases found <;> exact .single (List.cons_ne_nil _ _) (by decide)
  · obtain ⟨entry, mem, spelled⟩ := List.exists_of_findSome?_eq_some found
    obtain ⟨rest, _, rfl⟩ := Option.map_eq_some_iff.1 spelled
    have code : ∀ e ∈ operators, e.2.isLiteral = false := by decide
    exact .single (List.cons_ne_nil _ _) (List.forall_mem_singleton.2 (code entry mem))

/-- Every rule but the one of string literals takes a step outside literals. -/
theorem ordinary_step? {rule : Rule} (other : rule ≠ .string)
    (found : step? config assigned here t rule = some s) : s.IsOrdinary := by
  cases rule with
  | string => exact absurd rfl other
  | inclusion => exact ordinary_inclusion found
  | lineComment => exact ordinary_lineComment found
  | sectionHeader => exact ordinary_sectionHeader found
  | operator => exact ordinary_operator found
  | word =>
    simp only [step?, word?] at found
    split at found <;> cases found
    exact ordinary_wordStep
  | _ =>
    obtain ⟨w, around, l, pieces, code⟩ := exists_sole (fun l => l.isLiteral = false) found
      (by decide) (by decide) fun _ => ⟨rfl, rfl⟩
    refine .tokens (pieces ▸ List.forall_mem_singleton.2 ⟨List.cons_ne_nil _ _, ?_⟩)
    exact List.forall_mem_singleton.2 code

theorem labelled_bodyPieces {p : Piece} (h : p ∈ bodyPieces config here t) : p.isPlain = false := by
  obtain ⟨run, _, rfl⟩ := List.mem_map.1 h
  simp only [Piece.isPlain, runLabels]
  split <;> rfl

/-- A string literal is made of tokens. -/
theorem labelled_string (found : string? config here t = some s) :
    ∀ p ∈ s.pieces, p.isPlain = false := by
  unfold string? at found
  split at found
  · split at found
    · cases found
      exact List.forall_mem_cons.2 ⟨rfl, fun p => labelled_bodyPieces⟩
    · cases found
      refine List.forall_mem_append.2 ⟨?_, ?_⟩
      · exact List.forall_mem_cons.2 ⟨rfl, fun p => labelled_bodyPieces⟩
      · exact List.forall_mem_singleton.2 rfl
  · cases found

/-- What a rule takes starts with a token. -/
theorem labelled_first {rule : Rule} (found : step? config assigned here t rule = some s) :
    ∀ p ∈ s.pieces.head?, p.isPlain = false := by
  intro p first
  by_cases literal : rule = .string
  · subst literal
    exact labelled_string found p (List.mem_of_mem_head? first)
  · cases ordinary_step? literal found with
    | tokens tokens => exact (tokens p (List.mem_of_mem_head? first)).isPlain
    | opening pieces head =>
      rw [pieces] at first
      cases first
      exact head.isPlain

end Rule

section Rows

variable {lexer : Lexer} {ending : Text} {assigned : Bool} {here : LineState} {t : Text} {s : Step}

/-- A step is taken by a rule of the region, or skips what no rule recognises. -/
theorem Step.take_cases (taken : s = take lexer assigned here t) :
    (∃ rule, Rule.step? lexer.config assigned here t rule = some s) ∨
      ((∀ rule ∈ here.innermost.rules, Rule.step? lexer.config assigned here t rule = none) ∧
        s = skip lexer.clusters here t) := by
  unfold take at taken
  cases found : here.innermost.rules.findSome? (Rule.step? lexer.config assigned here t) with
  | none =>
    rw [found] at taken
    exact .inr ⟨List.findSome?_eq_none_iff.1 found, taken⟩
  | some by_rule =>
    rw [found] at taken
    obtain ⟨rule, _, applies⟩ := List.exists_of_findSome?_eq_some found
    exact .inl ⟨rule, applies.trans (congrArg some taken.symm)⟩

/-- A piece of a text is one of those that a rule takes, or plain. -/
theorem exists_step_of_mem_cut {p : Piece} (mem : p ∈ (cut lexer assigned here t).1) :
    (∃ rule before around rest s, Rule.step? lexer.config before around rest rule = some s ∧
      p ∈ s.pieces) ∨ p.own = [] := by
  induction assigned, here, t using cut_induction lexer with
  | nil => simp at mem
  | step assigned here t s nonempty taken covers ih =>
    rw [cut_eq nonempty, ← taken] at mem
    rcases List.mem_append.1 mem with inside | later
    · rcases Step.take_cases taken with ⟨rule, found⟩ | ⟨_, rfl⟩
      · exact .inl ⟨rule, _, _, _, s, found, inside⟩
      · rw [List.mem_singleton.1 inside]
        exact .inr rfl
    · exact ih later

/-- The pieces of a text, and what is left over behind it as plain text in the state that it ends
in. -/
def cutBefore (lexer : Lexer) (ending : Text) (assigned : Bool) (here : LineState) (t : Text) :
    List Piece :=
  (cut lexer assigned here t).1 ++ Piece.ofText ending (cut lexer assigned here t).2 []

theorem cutBefore_nil : cutBefore lexer ending assigned here [] = Piece.ofText ending here [] := by
  simp [cutBefore]

theorem cutBefore_eq (nonempty : t ≠ []) (taken : s = Step.take lexer assigned here t) :
    cutBefore lexer ending assigned here t =
      s.pieces ++ cutBefore lexer ending (s.assigns assigned) s.after s.rest := by
  simp only [cutBefore, cut_eq nonempty, ← taken, List.append_assoc]

@[simp] theorem texts_cutBefore :
    Piece.texts (cutBefore lexer ending assigned here t) = t ++ ending := by
  simp [cutBefore]

end Rows

end StanHighlight

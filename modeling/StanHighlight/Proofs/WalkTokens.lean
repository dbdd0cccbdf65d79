import StanHighlight.Proofs.Footing
import StanHighlight.Proofs.SectionHeader

/-!
Rules that walk over a token or a few: comments, directives, headers, declarations and literals. A
rule is tried on the cursor of some place and its step is taken on the content ahead of it. Either
both apply, and the walk leads to the place behind the pieces of the step, or there is no step and
the walk has changed nothing. Each rule is walked once here, so that nothing later follows a cursor.
-/

namespace StanHighlight

open Text (byteLength)

/-- Some walking does what a step does, or declines at some place where there is no step. -/
inductive Tries (walk : Walk Bool) (p left : Footing) : Option Step → Prop
  | declines (h : Walks walk p false left) : Tries walk p left none
  | applies {s : Step} (h : Walks walk p true (p.take s.pieces s.after s.rest)) :
      Tries walk p left (some s)

abbrev Agrees (walk : Walk Bool) (p : Footing) : Option Step → Prop := Tries walk p p

namespace Tries

variable {walk : Walk Bool} {p left : Footing} {s : Step}

theorem declined (h : Tries walk p left none) : Walks walk p false left := by
  cases h with
  | declines declined => exact declined

theorem applied (h : Tries walk p left (some s)) :
    Walks walk p true (p.take s.pieces s.after s.rest) := by
  cases h with
  | applies applied => exact applied

/-- Looking around does not change what comes of it. -/
theorem after {α : Type} {look : Walk α} {next : α → Walk Bool} {a : α} {step : Option Step}
    (h : Walks look p a p) (more : Tries (next a) p left step) :
    Tries (look >>= next) p left step := by
  cases more with
  | declines declined => exact .declines (.bind h declined)
  | applies applied => exact .applies (.bind h applied)

end Tries

/-- A state keeps its labels if its innermost region does. -/
theorem LineState.labels_of_inner {s : LineState} {f : OpenRegion}
    (same : f.region.labels = s.innermost.labels) : { s with inner := f }.labels = s.labels := by
  simp [labels, frames, innermost, same]

namespace Walk

variable {p : Footing} {t after : Text} {len : Nat} {own : List Label}

/-- One token in the state that it stands in. -/
theorem walks_token (whole : p.ahead = t ++ after) (width : len = byteLength t) :
    Walks (do emit len own; return true) p true (p.take [⟨t, p.state, own⟩] p.state after) :=
  .bind (walks_emit whole width) (.pure true _)

/-- One token in a region that it opens. -/
theorem walks_entrance (r : Region) (whole : p.ahead = t ++ after) (width : len = byteLength t) :
    Walks (do enter r; emit len own; return true) p true
      (p.take [⟨t, p.state.enter r, own⟩] (p.state.enter r) after) := by
  refine .of_eq (.bind (walks_enter r p) (walks_token whole width)) ?_
  simp

/-- One token that ends the region it stands in. -/
theorem walks_exit (whole : p.ahead = t ++ after) (width : len = byteLength t) :
    Walks (do emit len own; leave; return true) p true
      (p.take [⟨t, p.state, own⟩] p.state.leave after) := by
  refine .of_eq (.bind (walks_emit whole width) (.bind (walks_leave _) (.pure true _))) ?_
  simp

/-- One token behind a change of its region, which keeps its labels. -/
theorem walks_change_token (f : OpenRegion → OpenRegion)
    (same : (f p.state.inner).region.labels = p.state.innermost.labels)
    (whole : p.ahead = t ++ after) (width : len = byteLength t) :
    Walks (do change f; emit len own; return true) p true
      (p.take [⟨t, { p.state with inner := f p.state.inner }, own⟩]
        { p.state with inner := f p.state.inner } after) := by
  refine .of_eq (.bind (walks_change f p) (walks_token (p := p.into _) whole width)) ?_
  exact Footing.take_into (LineState.labels_of_inner same) _ _ _

/-- One token that notes progress in its region. -/
theorem walks_naming (r : Region) (same : r.labels = p.state.innermost.labels)
    (whole : p.ahead = t ++ after) (width : len = byteLength t) :
    Walks (do become r; emit len own; return true) p true
      (p.take [⟨t, p.state.become r, own⟩] (p.state.become r) after) :=
  walks_change_token _ same whole width

section Comments

theorem walks_remark {delimiter body : Text} {kind : Label} (whole : p.ahead = delimiter ++ body)
    (width : len = byteLength delimiter) : Walks (remark len kind) p true
      (p.take (Rule.remark p.state delimiter kind body).pieces p.state []) := by
  refine .of_eq (.bind (walks_emit whole width) (.bind (walks_rest _)
    (.bind (walks_emitSome rfl (List.append_nil _).symm rfl) (.pure true _)))) ?_
  simp [Rule.remark]

theorem agrees_lineComment (p : Footing) :
    Agrees lineComment p (Rule.lineComment? p.state p.ahead) := by
  unfold Rule.lineComment? lineComment
  split
  · next whole => exact .applies (.bind (walks_sees whole) (walks_remark whole rfl))
  · next whole => exact .applies (.bind (walks_sees whole) (walks_remark whole rfl))
  · next noSlashes noHash =>
    refine .after (walks_rest p) ?_
    split
    · next whole => exact absurd whole (noSlashes _)
    · next whole => exact absurd whole (noHash _)
    · exact .declines (.pure false p)

theorem agrees_blockCommentBegin (p : Footing) :
    Agrees blockCommentBegin p (Rule.blockCommentBegin? p.state p.ahead) := by
  unfold Rule.blockCommentBegin?
  split
  · next after whole =>
    split
    · next body =>
      split
      · next closes =>
        refine .applies (.bind (walks_sees whole) ?_)
        simp only [List.head?_cons, List.tail_cons, closes]
        exact walks_entrance _ whole rfl
      · next opens =>
        have documents : (('*' :: body).head? == some '*' && ('*' :: body).tail.head? != some '/') =
            true := by simpa using opens
        refine .applies (.bind (walks_sees whole) ?_)
        simp only [documents]
        exact walks_entrance _ whole rfl
    · next other =>
      have plain : (after.head? == some '*' && after.tail.head? != some '/') = false := by
        cases after with
        | nil => rfl
        | cons c after =>
          have differs : c ≠ '*' := fun same => other after (by rw [same])
          simp [differs]
      refine .applies (.bind (walks_sees whole) ?_)
      simp only [plain]
      exact walks_entrance _ whole rfl
  · next other =>
    refine .after (walks_rest p) ?_
    split
    · next whole => exact absurd whole (other _)
    · exact .declines (.pure false p)

theorem agrees_blockCommentEnd (p : Footing) :
    Agrees blockCommentEnd p (Rule.blockCommentEnd? p.state p.ahead) := by
  unfold Rule.blockCommentEnd? blockCommentEnd
  split
  · next whole => exact .applies (.bind (walks_sees whole) (walks_exit whole rfl))
  · next other =>
    refine .after (walks_rest p) ?_
    split
    · next whole => exact absurd whole (other _)
    · exact .declines (.pure false p)

theorem agrees_documentationTag (p : Footing) :
    Agrees documentationTag p (Rule.documentationTag? p.state p.ahead) := by
  refine .after (walks_innermost p) ?_
  by_cases inside : p.state.innermost = .blockComment true
  · rw [if_neg (not_not_intro inside)]
    unfold Rule.documentationTag?
    split
    · next after whole =>
      refine .after (walks_sees whole) ?_
      by_cases bare : Text.word after = []
      · rw [if_neg (by simp [bare])]
        exact .declines (.ite_pos bare (.pure false p))
      · rw [if_pos ⟨inside, bare⟩]
        exact .applies (.ite_neg bare (walks_token (by simp [whole, Step.single]) rfl))
    · next other =>
      refine .after (walks_rest p) ?_
      split
      · next whole => exact absurd whole (other _)
      · exact .declines (.pure false p)
  · have none : Rule.documentationTag? p.state p.ahead = none := by
      unfold Rule.documentationTag?
      split <;> simp [inside]
    rw [none]
    exact .declines (.ite_pos inside (.pure false p))

end Comments

section Directives

/-- A file name is passed up to its closing delimiter, or to the end of the line without one. -/
theorem walks_delimitedName {start close : Char} {style : FileName} (whole : p.ahead = start :: t)
    (ascii : start.utf8Size = 1 ∧ close.utf8Size = 1) :
    Walks (delimitedName close style) p () (p.take (Rule.delimitedName p.state start close style t).1
      p.state (Rule.delimitedName p.state start close style t).2) := by
  have width : ∀ c : Char, c.utf8Size = 1 → 1 = byteLength [c] := fun c h => by simp [h]
  have split := t.takeWhile_append_dropWhile (p := (· != close))
  unfold delimitedName Rule.delimitedName
  cases found : t.dropWhile (· != close) with
  | nil =>
    have unclosed : close ∉ t := fun mem => by
      simpa using List.dropWhile_eq_nil_iff.1 found close mem
    refine .of_eq (.bind (walks_emit (t := [start]) whole (width start ascii.1)) (.bind (walks_rest _)
      (.bind (walks_emitSome rfl split.symm rfl) (.ite_neg unclosed (.pure () _))))) ?_
    simp [found]
  | cons c rest =>
    have first := List.head?_dropWhile_not (· != close) t
    rw [found] at first
    obtain rfl : c = close := by simpa using first
    have closed : c ∈ t := (List.dropWhile_sublist _).subset (by rw [found]; exact List.mem_cons_self)
    refine .of_eq (.bind (walks_emit (t := [start]) whole (width start ascii.1)) (.bind (walks_rest _)
      (.bind (walks_emitSome rfl split.symm rfl)
        (.ite_pos closed (walks_emit (t := [c]) found (width c ascii.2)))))) ?_
    simp

/-- A bare file name starts behind the blanks, so it is not empty. -/
theorem walks_fileName (fresh : p.plain = []) (visible : ∀ c ∈ p.ahead.head?, Text.isSpace c = false) :
    Walks fileName p () (p.take (Rule.fileName p.state p.ahead).1 p.state
      (Rule.fileName p.state p.ahead).2) := by
  refine .bind (walks_rest p) ?_
  split
  · next none =>
    rw [none]
    exact (Walks.pure () p).of_eq (by simp [Rule.fileName, ← none, Footing.take_nil fresh])
  · next whole =>
    rw [whole]
    exact walks_delimitedName whole ⟨rfl, rfl⟩
  · next whole =>
    rw [whole]
    exact walks_delimitedName whole ⟨rfl, rfl⟩
  · next whole =>
    rw [whole]
    exact walks_delimitedName whole ⟨rfl, rfl⟩
  · next c t noQuote noApostrophe noAngle whole =>
    have first : Text.isSpace c = false := visible c (by rw [whole]; rfl)
    have some_char : (c :: t).takeWhile (fun d => !Text.isSpace d) ≠ [] := by simp [first]
    have bare : Rule.fileName p.state (c :: t) =
        (Piece.ofText ((c :: t).takeWhile fun d => !Text.isSpace d) p.state
          [.inclusion, .fileName .bare], (c :: t).dropWhile fun d => !Text.isSpace d) := by
      simp [Rule.fileName]
    rw [whole, bare, Piece.ofText_of_ne_nil some_char]
    exact walks_emit (whole.trans List.takeWhile_append_dropWhile.symm) rfl

theorem agrees_inclusion (p : Footing) :
    Agrees inclusion p (Rule.include? p.state p.ahead) := by
  refine .after (walks_rest p) ?_
  unfold Rule.include?
  cases opened : p.ahead.after? Rule.directive with
  | none => exact .declines (.pure false p)
  | some after =>
    have whole := Text.after?_eq_some_iff.1 opened
    dsimp only
    by_cases ends : Text.word after = []
    · rw [if_neg (not_not_intro ends), if_pos ends]
      refine .applies (.of_eq (.bind (walks_emit whole rfl) (.bind (walks_rest _)
        (.bind (walks_emitSome rfl (Text.gap_append_trimStart _).symm rfl)
        (.bind (walks_fileName rfl fun c mem => ?_) (.pure true _))))) ?_)
      · obtain ⟨t, found⟩ := List.head?_eq_some_iff.1 mem
        exact Text.isSpace_of_trimStart found
      · simp
    · rw [if_pos ends, if_neg ends]
      exact .declines (.pure false p)

end Directives

section Headers

theorem agrees_sectionHeader (p : Footing) :
    Agrees sectionHeader p (Rule.sectionHeader? p.state p.ahead) := by
  refine .after (walks_innermost p) ?_
  unfold Rule.sectionHeader?
  by_cases outside : p.state.innermost = .program
  · rw [if_pos outside, if_neg (not_not_intro outside)]
    refine .after (walks_rest p) ?_
    cases found : Rule.header? p.ahead with
    | none => exact .declines (.pure false p)
    | some parts =>
      obtain ⟨s, header, blanks, body⟩ := parts
      obtain ⟨whole, -, -, known⟩ := Rule.header?_eq_some_iff.1 found
      simp only [known]
      refine .applies (.of_eq (.bind (walks_enter _ p) (.bind (walks_emit (by simpa using whole) rfl)
        (.bind (walks_skipSome rfl rfl) (walks_token (t := ['\x7b']) rfl rfl)))) ?_)
      rw [Footing.take_pass rfl]
      simp [Step.opening]
  · rw [if_neg outside]
    exact .declines (.ite_pos outside (.pure false p))

end Headers

section Declarations

theorem agrees_functionDeclaration (level : p.state.innermost.isStatementLevel = true) :
    Agrees functionDeclaration p (Rule.functionDeclaration? p.state p.ahead) := by
  refine .after (walks_innermost p) ?_
  rw [if_neg (by simp [level])]
  refine .after (walks_rest p) ?_
  unfold Rule.functionDeclaration?
  cases found : Rule.returnType? p.ahead with
  | none => exact .declines (.pure false p)
  | some parts =>
    obtain ⟨type, after⟩ := parts
    dsimp only
    cases Rule.startsSignature after with
    | false => exact .declines (.pure false p)
    | true => exact .applies (walks_entrance _ (Rule.returnType?_append found).symm rfl)

theorem agrees_variableDeclaration (level : p.state.innermost.isStatementLevel = true) :
    Agrees variableDeclaration p (Rule.variableDeclaration? p.state p.ahead) := by
  refine .after (walks_innermost p) ?_
  rw [if_neg (by simp [level])]
  refine .after (walks_rest p) ?_
  unfold Rule.variableDeclaration?
  dsimp only
  cases Vocabulary.isStorageType (String.ofList (Text.word p.ahead)) with
  | false => exact .declines (.pure false p)
  | true => exact .applies (walks_entrance _ (Text.word_append_afterWord p.ahead).symm rfl)

theorem agrees_constraintsBegin (p : Footing) :
    Agrees constraintsBegin p (Rule.constraintsBegin? p.state p.ahead) := by
  refine .after (walks_innermost p) ?_
  by_cases inside : p.state.innermost = .declaration false
  · rw [if_neg (not_not_intro inside)]
    unfold Rule.constraintsBegin?
    split
    · next after whole =>
      refine .after (walks_sees whole) ?_
      by_cases operator : after.head? = some '=' ∨ after.head? = some '-'
      · rw [if_neg (by rintro ⟨-, noEquals, noMinus⟩; exact operator.elim noEquals noMinus)]
        exact .declines (.ite_pos operator (.pure false p))
      · rw [if_pos ⟨inside, not_or.1 operator⟩]
        exact .applies (.ite_neg operator (walks_entrance _ (t := ['<']) whole rfl))
    · next other =>
      refine .after (walks_rest p) ?_
      split
      · next whole => exact absurd whole (other _)
      · exact .declines (.pure false p)
  · have none : Rule.constraintsBegin? p.state p.ahead = none := by
      unfold Rule.constraintsBegin?
      split <;> simp [inside]
    rw [none]
    exact .declines (.ite_pos inside (.pure false p))

theorem agrees_initializer (p : Footing) :
    Agrees initializer p (Rule.initializer? p.state p.ahead) := by
  refine .after (walks_rest p) ?_
  unfold Rule.initializer?
  cases found : Rule.afterEquals? p.ahead with
  | none => exact .declines (.pure false p)
  | some after =>
    exact .applies (walks_entrance _ (t := ['=']) (Rule.afterEquals?_eq_some found) rfl)

theorem agrees_constraintEquals (p : Footing) :
    Agrees constraintEquals p (Rule.constraintEquals? p.state p.ahead) := by
  refine .after (walks_rest p) ?_
  unfold Rule.constraintEquals?
  cases found : Rule.afterEquals? p.ahead with
  | none => exact .declines (.pure false p)
  | some after => exact .applies (walks_token (t := ['=']) (Rule.afterEquals?_eq_some found) rfl)

theorem agrees_constraintsEnd (p : Footing) :
    Agrees constraintsEnd p (Rule.constraintsEnd? p.state p.ahead) := by
  unfold Rule.constraintsEnd? constraintsEnd
  split
  · next after whole =>
    split
    · next compares =>
      exact .declines (.bind (walks_sees whole) (.ite_pos compares (.pure false p)))
    · next ends =>
      exact .applies (.bind (walks_sees whole) (.ite_neg ends
        (walks_exit (t := ['>']) whole rfl)))
  · next other =>
    refine .after (walks_rest p) ?_
    split
    · next whole => exact absurd whole (other _)
    · exact .declines (.pure false p)

end Declarations

section Literals

variable {config : Config} {here : LineState}

/-- An illegal character of a string is a run of its own. -/
theorem stringRuns_illegal {c : Char} (illegal : config.isIllegal c = true) (body : Text) :
    Rule.stringRuns config (c :: body) = [c] :: Rule.stringRuns config body := by
  change Rule.addToRuns config c (Rule.stringRuns config body) = _
  unfold Rule.addToRuns
  split
  · next found => simp [illegal, found]
  · rfl

/-- The characters in front of the first illegal one are kept together. -/
theorem stringRuns_append {clean body : Text} (legal : ∀ c ∈ clean, config.isIllegal c = false)
    (visible : clean ≠ []) (stops : ∀ c ∈ body.head?, config.isIllegal c = true) :
    Rule.stringRuns config (clean ++ body) = clean :: Rule.stringRuns config body := by
  induction clean with
  | nil => exact absurd rfl visible
  | cons c clean ih =>
    change Rule.addToRuns config c (Rule.stringRuns config (clean ++ body)) = _
    have first := legal c List.mem_cons_self
    cases clean with
    | nil =>
      cases body with
      | nil => rfl
      | cons d body =>
        have second := stops d rfl
        simp [stringRuns_illegal second, Rule.addToRuns, second]
    | cons d clean =>
      have second := legal d (by simp)
      rw [ih (fun e mem => legal e (List.mem_cons_of_mem c mem)) (List.cons_ne_nil _ _)]
      simp [Rule.addToRuns, first, second]

@[simp] theorem bodyPieces_nil : Rule.bodyPieces config here [] = [] := rfl

theorem bodyPieces_illegal {c : Char} (illegal : config.isIllegal c = true) (body : Text) :
    Rule.bodyPieces config here (c :: body) =
      ⟨[c], here, [.string, .illegalCharacter]⟩ :: Rule.bodyPieces config here body := by
  simp [Rule.bodyPieces, stringRuns_illegal illegal, Rule.runLabels, illegal]

theorem bodyPieces_append {clean body : Text} (legal : ∀ c ∈ clean, config.isIllegal c = false)
    (stops : ∀ c ∈ body.head?, config.isIllegal c = true) :
    Rule.bodyPieces config here (clean ++ body) =
      Piece.ofText clean here [.string] ++ Rule.bodyPieces config here body := by
  by_cases visible : clean = []
  · simp [visible]
  · have labels : Rule.runLabels config clean = [.string] := by
      rw [Rule.runLabels, if_neg]
      simpa using legal
    simp [Rule.bodyPieces, stringRuns_append legal visible stops, labels,
      Piece.ofText_of_ne_nil visible]

/-- A turn in a literal passes what is legal and the character that follows it. -/
theorem walks_stringTurn (fresh : p.plain = []) {clean after : Text} {c : Char}
    (whole : p.ahead = clean ++ c :: after)
    (legal : ∀ d ∈ clean, (!(d == '"' || config.isIllegal d)) = true)
    (stops : (!(c == '"' || config.isIllegal c)) = false) :
    Walks (stringTurn config) p (c != '"') (p.take (Piece.ofText clean p.state [.string] ++
      [⟨[c], p.state, [.string, if c = '"' then .ends .string else .illegalCharacter]⟩])
      p.state after) := by
  obtain ⟨front, back⟩ := Text.takeWhile_append_cons legal stops after
  refine .bind (walks_sees whole) ?_
  simp only [front, back]
  rw [← Footing.take_take _ _ p.state _ (c :: after)]
  refine .bind (walks_emitSome fresh whole rfl) ?_
  split
  · next closes =>
    subst closes
    exact .bind (walks_emit (t := ['"']) rfl rfl) (.pure false _)
  · next inside =>
    have more : (c != '"') = true := by simpa using inside
    rw [more]
    exact walks_token (t := [c]) rfl rfl

/-- A literal without a quote takes all that is left of a line. -/
theorem walks_stringTurn_last (fresh : p.plain = [])
    (legal : ∀ d ∈ p.ahead, (!(d == '"' || config.isIllegal d)) = true) :
    Walks (stringTurn config) p false
      (p.take (Piece.ofText p.ahead p.state [.string]) p.state []) := by
  refine .bind (walks_rest p) ?_
  simp only [List.dropWhile_eq_nil_iff.2 legal]
  exact .bind (walks_emitSome fresh (List.append_nil _).symm rfl) (.pure false _)

/-- A literal is walked over up to its quote, or to the end of the line without one. -/
theorem walks_literal (fresh : p.plain = []) {body tail : Text} (whole : p.ahead = body ++ tail)
    (inside : ∀ c ∈ body, c ≠ '"') (closes : tail = [] ∨ ∃ rest, tail = '"' :: rest) :
    Walks (loop Cursor.ahead (stringTurn config)) p () (p.take
      (Rule.bodyPieces config p.state body ++
        Piece.ofText (tail.take 1) p.state [.string, .ends .string]) p.state (tail.drop 1)) := by
  -- On the characters in front of the quote: each turn but the last passes an illegal one.
  induction size : body.length using Nat.strong_induction_on generalizing body p with
  | _ n ih =>
    have parted := body.takeWhile_append_dropWhile (p := fun c => !config.isIllegal c)
    have first := List.head?_dropWhile_not (fun c => !config.isIllegal c) body
    have clean : ∀ c ∈ body.takeWhile (fun c => !config.isIllegal c), config.isIllegal c = false :=
      fun c mem => by simpa using List.mem_takeWhile_imp mem
    have legal : ∀ c ∈ body.takeWhile (fun c => !config.isIllegal c),
        (!(c == '"' || config.isIllegal c)) = true := fun c mem => by
      simp [clean c mem, inside c ((List.takeWhile_sublist _).subset mem)]
    generalize body.takeWhile (fun c => !config.isIllegal c) = front at *
    cases found : body.dropWhile (fun c => !config.isIllegal c) with
    | nil =>
      obtain rfl : front = body := by simpa [found] using parted
      have kept : Rule.bodyPieces config p.state front = Piece.ofText front p.state [.string] := by
        have kept : Rule.bodyPieces config p.state (front ++ []) =
            Piece.ofText front p.state [.string] ++ Rule.bodyPieces config p.state [] :=
          bodyPieces_append clean (by simp)
        rwa [List.append_nil, bodyPieces_nil, List.append_nil] at kept
      rw [kept]
      rcases closes with rfl | ⟨rest, rfl⟩
      · obtain rfl : p.ahead = front := by simpa using whole
        refine .of_eq (.last (walks_stringTurn_last fresh legal)) (by simp)
      · exact .last (walks_stringTurn fresh whole legal (by simp))
    | cons c more =>
      rw [found] at first parted
      have illegal : config.isIllegal c = true := by simpa using first
      subst parted
      have passed : (!(c == '"' || config.isIllegal c)) = false := by simp [illegal]
      have other : c ≠ '"' := inside c (by simp)
      have whole : p.ahead = front ++ c :: (more ++ tail) := by simpa using whole
      rw [bodyPieces_append clean (by simp [illegal]), bodyPieces_illegal illegal]
      have turned := walks_stringTurn fresh whole legal passed
      rw [if_neg other, bne_iff_ne.2 other] at turned
      have shorter : more.length < n := by
        simp only [← size, List.length_append, List.length_cons]
        omega
      refine .turn turned ?_ (.of_eq
        (ih _ shorter rfl rfl (fun d mem => inside d (by simp [mem])) rfl) (by simp))
      have width := c.utf8Size_pos
      simp only [Footing.ahead_cursor, whole, Footing.take_ahead, Text.byteLength_append,
        Text.byteLength_cons]
      omega

theorem agrees_string (p : Footing) :
    Agrees (string config) p (Rule.string? config p.state p.ahead) := by
  unfold Rule.string? string
  split
  · next t whole =>
    have parted := t.takeWhile_append_dropWhile (p := (· != '"'))
    have inside : ∀ c ∈ t.takeWhile (· != '"'), c ≠ '"' := fun c mem => by
      simpa using List.mem_takeWhile_imp mem
    have first := List.head?_dropWhile_not (· != '"') t
    split
    · next none =>
      rw [none] at parted
      exact .applies (.bind (walks_sees whole) (.of_eq (.bind (walks_emit (t := ['"']) whole rfl)
        (.bind (walks_literal rfl parted.symm inside (.inl rfl)) (.pure true _))) (by simp)))
    · next quote rest found =>
      rw [found] at parted first
      obtain rfl : quote = '"' := by simpa using first
      exact .applies (.bind (walks_sees whole) (.of_eq (.bind (walks_emit (t := ['"']) whole rfl)
        (.bind (walks_literal rfl parted.symm inside (.inr ⟨rest, rfl⟩)) (.pure true _)))
        (by simp [Piece.ofText_of_ne_nil])))
  · next other =>
    refine .after (walks_rest p) ?_
    split
    · next whole => exact absurd whole (other _)
    · exact .declines (.pure false p)

theorem agrees_number (p : Footing) : Agrees number p (Rule.number? p.state p.ahead) := by
  refine .after (walks_rest p) ?_
  unfold Rule.number?
  cases found : Text.numeral? p.ahead with
  | none => exact .declines (.pure false p)
  | some parts =>
    obtain ⟨kind, taken, after⟩ := parts
    have whole := (Text.numeral?_append found).symm
    dsimp only
    by_cases ends : Text.word after = []
    · rw [if_neg (not_not_intro ends), if_pos ends]
      exact .applies (walks_token whole rfl)
    · rw [if_pos ends, if_neg ends]
      exact .applies (walks_token (by simp [whole, Step.single]) (by simp))

end Literals

end Walk

end StanHighlight

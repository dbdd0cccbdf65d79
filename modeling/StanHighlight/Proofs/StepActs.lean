import Mathlib.Data.List.TakeWhile
import StanHighlight.Proofs.Act
import StanHighlight.Proofs.Reachable

/-!
Every step is a row of acts. The rules are gone through once, so that what is claimed of all
steps need only be proved of the acts.
-/

namespace StanHighlight

namespace LineState

/-- The nearest region in braces lies below regions that are not. -/
theorem of_toBrace?_eq_some {s s' : LineState} (h : s.toBrace? = some s') :
    ∃ dropped, s.frames = dropped ++ s'.frames ∧
      (∀ f ∈ dropped, f.region.isBraced = false) ∧ s'.innermost.isBraced = true := by
  unfold toBrace? at h
  split at h
  · cases h
  · next f outer found =>
    cases h
    refine ⟨s.frames.takeWhile fun f => !f.region.isBraced, ?_, fun g mem => ?_, ?_⟩
    · exact (List.takeWhile_append_dropWhile.symm.trans (congrArg _ found))
    · simpa using List.all_eq_true.1 List.all_takeWhile g mem
    · have first := List.head?_dropWhile_not (fun f : OpenRegion => !f.region.isBraced) s.frames
      rw [found] at first
      change f.region.isBraced = true
      simpa using first

theorem isBraced_of_toBrace?_eq_none {s : LineState} (h : s.toBrace? = none) :
    ∀ f ∈ s.frames, f.region.isBraced = false := by
  unfold toBrace? at h
  split at h
  · next none =>
    intro f mem
    simpa using List.dropWhile_eq_nil_iff.1 none f mem
  · cases h

end LineState

namespace Rule

variable {config : Config} {assigned : Bool} {here : LineState} {t : Text} {s : Step}

theorem acts_single {own : List Label} {w rest : Text} (free : own.all Label.isFree = true) :
    Acts here (Step.single here own w rest).pieces (Step.single here own w rest).after :=
  .one (.token here w free)

theorem acts_delimitedName {start close : Char} {style : FileName} :
    Acts here (delimitedName here start close style t).1 here := by
  have loose : ∀ p ∈ Piece.ofText (t.takeWhile (· != close)) here [.inclusion, .fileName style],
      p.IsLoose here := fun p hp => Piece.isLoose_of_mem_ofText rfl hp
  unfold delimitedName
  split
  · have row := Acts.one
      (.quoted here [.inclusion, .fileName style] start close rfl loose (.inl rfl))
    rwa [List.append_nil] at row
  · exact .one (.quoted here [.inclusion, .fileName style] _ _ rfl loose (.inr rfl))

theorem acts_fileName : Acts here (fileName here t).1 here := by
  unfold fileName
  split
  · exact .nil here
  · exact acts_delimitedName
  · exact acts_delimitedName
  · exact acts_delimitedName
  · exact .tokens fun p hp => Piece.isLoose_of_mem_ofText rfl hp

theorem acts_inclusion (found : include? here t = some s) : Acts here s.pieces s.after := by
  unfold include? at found
  split at found
  · cases found
  · next rest _ =>
    split at found
    · cases found
      have gap : Acts here (Piece.ofText (Text.gap rest) here [.inclusion]) here :=
        .tokens fun p hp => Piece.isLoose_of_mem_ofText rfl hp
      exact .cons (.token here directive rfl) (gap.append acts_fileName)
    · cases found

theorem acts_remark {delimiter body : Text} {kind : Label} (free : kind.isFree = true) :
    Acts here (remark here delimiter kind body).pieces (remark here delimiter kind body).after := by
  refine .tokens fun p hp => ?_
  rcases List.mem_cons.1 hp with rfl | hp
  · exact ⟨rfl, by rw [List.all_cons, free]; rfl⟩
  · exact Piece.isLoose_of_mem_ofText (by simp [free]) hp

theorem acts_lineComment (found : lineComment? here t = some s) : Acts here s.pieces s.after := by
  unfold lineComment? at found
  split at found
  · cases found
    exact acts_remark rfl
  · cases found
    exact acts_remark rfl
  · cases found

theorem acts_blockCommentBegin (found : blockCommentBegin? here t = some s) :
    Acts here s.pieces s.after := by
  unfold blockCommentBegin? at found
  split at found
  · split at found
    · split at found <;> cases found <;> exact .one (.enter here rfl _)
    · cases found
      exact .one (.enter here rfl _)
  · cases found

theorem acts_leave (ends : here.innermost.endsPlainly = true) : Acts here [] here.leave := by
  obtain ⟨f, outer⟩ := here
  cases outer with
  | nil => exact .nil _
  | cons g outer => exact .one (.leave rfl ends)

theorem acts_blockCommentEnd (comment : here.innermost.isBlockComment = true)
    (found : blockCommentEnd? here t = some s) : Acts here s.pieces s.after := by
  unfold blockCommentEnd? at found
  split at found
  · cases found
    have ends : here.innermost.endsPlainly = true := by simp [Region.endsPlainly, comment]
    exact .cons (.token here _ rfl) (acts_leave ends)
  · cases found

theorem acts_documentationTag (found : documentationTag? here t = some s) :
    Acts here s.pieces s.after := by
  unfold documentationTag? at found
  split at found
  · split at found
    · cases found
      exact acts_single rfl
    · cases found
  · cases found

theorem acts_sectionHeader (found : sectionHeader? here t = some s) :
    Acts here s.pieces s.after := by
  unfold sectionHeader? at found
  split at found
  · split at found
    · cases found
    · next sec header gap body _ =>
      cases found
      -- The header stands in the section already, in front of its brace.
      have head : ∀ p ∈ ⟨header, here.enter (.sectionBody sec), [.sectionName sec]⟩ ::
          Piece.ofText gap (here.enter (.sectionBody sec)) [],
          p.IsLoose (here.enter (.sectionBody sec)) := by
        intro p hp
        rcases List.mem_cons.1 hp with rfl | hp
        · exact ⟨rfl, rfl⟩
        · exact Piece.isLoose_of_mem_ofText rfl hp
      exact .one (.bracket here rfl _ head)
  · cases found

theorem acts_functionDeclaration (found : functionDeclaration? here t = some s) :
    Acts here s.pieces s.after := by
  unfold functionDeclaration? at found
  split at found
  · cases found
  · split at found
    · cases found
      exact .one (.enter here rfl _)
    · cases found

theorem acts_variableDeclaration (found : variableDeclaration? here t = some s) :
    Acts here s.pieces s.after := by
  unfold variableDeclaration? at found
  split at found
  · cases found
    exact .one (.enter here rfl _)
  · cases found

theorem acts_bracket {r : Region} {c : Char} {e : Enclosure} {rest : Text}
    (opens : r.bracket? = some (c, e)) :
    Acts here (Step.single (here.enter r) [.begins e] [c] rest).pieces (here.enter r) :=
  .one (.bracket here opens [] nofun)

theorem acts_constraintsBegin (found : constraintsBegin? here t = some s) :
    Acts here s.pieces s.after := by
  unfold constraintsBegin? at found
  split at found
  · split at found
    · cases found
      exact acts_bracket rfl
    · cases found
  · cases found

theorem acts_initializer (found : initializer? here t = some s) : Acts here s.pieces s.after := by
  obtain ⟨rest, _, rfl⟩ := Option.map_eq_some_iff.1 found
  exact .one (.enter here rfl _)

theorem acts_constraintEquals (found : constraintEquals? here t = some s) :
    Acts here s.pieces s.after := by
  obtain ⟨rest, _, rfl⟩ := Option.map_eq_some_iff.1 found
  exact acts_single rfl

/-- Every region but the program lies on another one. -/
theorem frames_eq_cons_leave (rooted : Rooted here) (other : here.innermost ≠ .program) :
    here.frames = here.inner :: here.leave.frames := by
  obtain ⟨f, outer⟩ := here
  cases outer with
  | cons g outer => rfl
  | nil =>
    obtain ⟨above, n, whole⟩ := rooted
    cases above with
    | nil => exact absurd (congrArg OpenRegion.region (List.cons.inj whole).1) other
    | cons g above => exact absurd (List.cons.inj whole).2.symm (by simp)

theorem ne_program_of_enclosure? {r : Region} {e : Enclosure} (h : r.enclosure? = some e) :
    r ≠ .program := by
  rintro rfl
  cases h

/-- A bracket closes the innermost region. -/
theorem acts_close {e : Enclosure} {c : Char} (rooted : Rooted here)
    (enclosure : here.innermost.enclosure? = some e) (closer : e.closer = c) :
    Acts here [⟨[c], here, [.ends e]⟩] here.leave := by
  have top := frames_eq_cons_leave rooted (ne_program_of_enclosure? enclosure)
  cases braced : here.innermost.isBraced with
  | false => exact .one (.close top enclosure braced c)
  | true =>
    have brace := (Region.isBraced_iff here.innermost).1 braced
    rw [enclosure] at brace
    obtain rfl : c = '}' := closer.symm.trans (Option.some.inj brace)
    exact .one (.closeBrace [] rfl nofun top enclosure braced)

theorem acts_constraintsEnd (rooted : Rooted here) (inside : here.innermost = .constraints)
    (found : constraintsEnd? here t = some s) : Acts here s.pieces s.after := by
  unfold constraintsEnd? at found
  split at found
  · split at found
    · cases found
    · cases found
      exact acts_close rooted (by rw [inside]; rfl) rfl
  · cases found

theorem isLoose_bodyPieces {p : Piece} (h : p ∈ bodyPieces config here t) : p.IsLoose here := by
  obtain ⟨run, _, rfl⟩ := List.mem_map.1 h
  refine ⟨rfl, ?_⟩
  unfold runLabels
  split <;> rfl

theorem acts_string (found : string? config here t = some s) : Acts here s.pieces s.after := by
  unfold string? at found
  split at found
  · next body =>
    have free : ∀ p ∈ bodyPieces config here (body.takeWhile (· != '"')), p.IsLoose here :=
      fun p hp => isLoose_bodyPieces hp
    split at found
    · cases found
      have row := Acts.one (.quoted here [.string] '"' '"' rfl free (.inl rfl))
      rwa [List.append_nil] at row
    · next quote rest closing =>
      have first := List.head?_dropWhile_not (· != '"') body
      rw [closing] at first
      obtain rfl : quote = '"' := by simpa using first
      cases found
      exact .one (.quoted here [.string] '"' '"' rfl free (.inr rfl))
  · cases found

theorem acts_number (found : number? here t = some s) : Acts here s.pieces s.after := by
  unfold number? at found
  split at found
  · cases found
  · split at found
    · cases found
      refine acts_single ?_
      split <;> rfl
    · cases found
      exact acts_single rfl

theorem acts_accumulator (found : accumulator? here t = some s) : Acts here s.pieces s.after := by
  unfold accumulator? at found
  split at found
  · cases found
  · split at found
    · cases found
      exact .one (.accumulate here _)
    · cases found

theorem acts_sampling (found : sampling? here t = some s) : Acts here s.pieces s.after := by
  unfold sampling? at found
  split at found
  · cases found
    exact .one (.enter here rfl _)
  · cases found

theorem acts_delimiter (found : delimiter? here t = some s) : Acts here s.pieces s.after := by
  unfold delimiter? at found
  split at found
  · cases found
    exact acts_single rfl
  · split at found
    · split at found
      · cases found
      · cases found
        exact acts_single rfl
    · cases found
  · cases found

theorem acts_openParen {rest : Text} :
    Acts here (Step.single (openParen here).1 [.begins (openParen here).2] ['('] rest).pieces
      (openParen here).1 := by
  unfold openParen
  split
  · next kind named waits => exact .one (.header (waits ▸ .control kind named))
  · next named waits => exact .one (.header (waits ▸ .function named))
  · exact acts_bracket rfl

theorem acts_opener (found : opener? assigned here t = some s) : Acts here s.pieces s.after := by
  unfold opener? at found
  split at found
  · cases found
    exact acts_openParen
  · cases found
    exact acts_bracket rfl
  · cases found
    unfold openBrace
    split
    · exact acts_bracket rfl
    · exact acts_bracket rfl
  · cases found

/-- A parenthesis or a square bracket closes the innermost region or nothing. -/
theorem acts_close_stray {c : Char} {stray : Enclosure} {rest : Text} (rooted : Rooted here)
    (free : stray.isPaired = false) :
    Acts here (close here c stray rest).pieces (close here c stray rest).after := by
  have none : Acts here (Step.single here [.ends stray] [c] rest).pieces here :=
    acts_single (by simp [Label.isFree, free])
  unfold Rule.close
  split
  · next e enclosure =>
    split
    · next closer => exact acts_close rooted enclosure closer
    · exact none
  · exact none

/-- A brace closes the nearest region in braces or nothing. -/
theorem acts_closeBrace {rest : Text} (rooted : Rooted here) :
    Acts here (close (here.toBrace?.getD here) '}' .block rest).pieces
      (close (here.toBrace?.getD here) '}' .block rest).after := by
  cases found : here.toBrace? with
  | none =>
    have loose : here.innermost.isBraced = false :=
      LineState.isBraced_of_toBrace?_eq_none found here.inner List.mem_cons_self
    rw [Option.getD_none]
    unfold Rule.close
    split
    · next e enclosure =>
      have other : e.closer ≠ '}' := by
        intro closer
        have braced := (Region.isBraced_iff here.innermost).2 (by rw [enclosure, ← closer]; rfl)
        rw [loose] at braced
        cases braced
      rw [if_neg other]
      exact acts_single rfl
    · exact acts_single rfl
  | some there =>
    obtain ⟨dropped, unwound, loose, braced⟩ := LineState.of_toBrace?_eq_some found
    obtain ⟨e, enclosure, closer⟩ := Option.map_eq_some_iff.1 ((Region.isBraced_iff _).1 braced)
    have middle : Rooted there := rooted.of_append dropped unwound (.inl rfl)
    have top := frames_eq_cons_leave middle (ne_program_of_enclosure? enclosure)
    rw [Option.getD_some]
    simp only [Rule.close, enclosure, closer, if_true]
    exact .one (.closeBrace dropped unwound loose top enclosure braced)

theorem acts_closer (rooted : Rooted here) (found : closer? here t = some s) :
    Acts here s.pieces s.after := by
  unfold closer? at found
  split at found
  · cases found
    exact acts_close_stray rooted rfl
  · cases found
    exact acts_close_stray rooted rfl
  · cases found
    exact acts_closeBrace rooted
  · cases found

theorem acts_answer {there : LineState} {own : List Label} {w : Text}
    (answered : here.answer? = some there) (free : own.all Label.isFree = true) :
    Acts here [⟨w, there, own⟩] there := by
  unfold LineState.answer? at answered
  split at answered
  · cases answered
  · cases answered
    exact .cons (.count here _) (.one (.token _ w free))

theorem acts_operator (found : operator? here t = some s) : Acts here s.pieces s.after := by
  unfold operator? at found
  split at found
  · cases found
    exact .cons (.count here _) (.one (.token here.ask _ rfl))
  · split at found
    · next answered =>
      cases found
      exact acts_answer answered rfl
    · cases found
      exact acts_single rfl
  · obtain ⟨entry, mem, spelled⟩ := List.exists_of_findSome?_eq_some found
    obtain ⟨rest, _, rfl⟩ := Option.map_eq_some_iff.1 spelled
    exact acts_single ((by decide : ∀ e ∈ operators, [e.2].all Label.isFree = true) entry mem)

/-- The regions that end in front of a `;` are left one after the other. -/
theorem acts_beforeTerminator (here : LineState) : Acts here [] (beforeTerminator here) := by
  obtain ⟨inner, outer⟩ := here
  change Acts ⟨inner, outer⟩ [] (LineState.leaveWhile Region.endsBeforeTerminator inner outer)
  induction outer generalizing inner with
  | nil => exact .nil _
  | cons f outer ih =>
    rw [LineState.leaveWhile]
    split
    · next before =>
      have ends : inner.region.endsPlainly = true := by simp [Region.endsPlainly, before]
      exact .cons (.leave (s := ⟨inner, f :: outer⟩) rfl ends) (ih f)
    · exact .nil _

theorem acts_afterTerminator (here : LineState) : Acts here [] (afterTerminator here) := by
  have left : Acts here [] (if here.innermost.endsWithTerminator then here.leave else here) := by
    split
    · next last => exact acts_leave (by simp [Region.endsPlainly, last])
    · exact .nil _
  have forgets : ∀ there : LineState,
      Acts there [] (if there.innermost.isStatementLevel then there.forget else there) := by
    intro there
    split
    · exact .one (.count there 0)
    · exact .nil _
  exact left.append (forgets _)

theorem acts_terminator (found : terminator? here t = some s) : Acts here s.pieces s.after := by
  unfold terminator? at found
  split at found
  · cases found
    exact (acts_beforeTerminator here).append
      (.cons (.token _ _ rfl) (acts_afterTerminator (beforeTerminator here)))
  · cases found

section Words

variable {w after : Text}

/-- A head that opens a region in parentheses, if they follow. -/
theorem acts_heads {head : Piece} {r : Region} {e : Enclosure}
    (first : Acts here [head] head.around) (opens : r.bracket? = some ('(', e)) :
    Acts here (heads head (head.around.enter r) e after).pieces
      (heads head (head.around.enter r) e after).after := by
  unfold heads
  split
  · exact .opening first opens
  · exact first

theorem acts_name {r r' : Region} {own : List Label} {rest : Text} (slot : here.innermost = r)
    (names : r.Names r' own) :
    Acts here (Step.single (here.become r') own w rest).pieces (here.become r') :=
  .one (.name (slot ▸ names) w)

theorem acts_nameSlot (found : nameSlot? here w after = some s) : Acts here s.pieces s.after := by
  simp only [nameSlot?] at found
  split at found
  · next slot =>
    split at found
    · cases found
      exact acts_single rfl
    · split at found <;> cases found
      exact acts_name slot .variable
  · next slot =>
    split at found <;> cases found
    exact acts_name slot .function
  · repeat' split at found
    all_goals cases found
    all_goals exact acts_single rfl
  · next slot =>
    split at found <;> cases found
    exact acts_name slot .loop
  · split at found <;> cases found
    exact acts_single rfl
  · next slot =>
    split at found <;> cases found
    have named := Region.Names.distribution (Vocabulary.isDistribution (String.ofList w))
    exact acts_heads (.one (.name (slot ▸ named) w)) rfl
  · cases found

theorem acts_passDistribution (here : LineState) : Acts here [] (passDistribution here) := by
  unfold passDistribution
  split
  · next slot => exact .one (.pass slot)
  · exact .nil _

theorem acts_keyword (found : keyword? here w after = some s) : Acts here s.pieces s.after := by
  simp only [keyword?] at found
  split at found
  · cases found
    split
    · exact .one (.enter here rfl _)
    · exact acts_single rfl
  · repeat' split at found
    all_goals cases found
    all_goals first
      | exact acts_single rfl
      | exact acts_heads (.one (.token here w rfl)) rfl
      | exact .opening (.one (.token here w rfl)) rfl

theorem isFree_calledName (word : String) : (calledName here word).isFree = true := by
  unfold calledName
  split
  · rfl
  · split <;> rfl

theorem acts_identifier :
    Acts here (identifier here w after).pieces (identifier here w after).after := by
  unfold identifier
  split
  · refine .opening (.one (.token here w ?_)) rfl
    rw [List.all_cons, List.all_cons, isFree_calledName]
    rfl
  · refine acts_single ?_
    cases Vocabulary.builtin? (String.ofList w) <;> rfl

theorem acts_wordStep : Acts here (wordStep here w after).pieces (wordStep here w after).after := by
  unfold wordStep
  split
  · exact acts_single rfl
  · split
    · exact acts_single rfl
    · split
      · next found => exact acts_nameSlot found
      · have passed := acts_passDistribution here
        cases found : keyword? (passDistribution here) w after with
        | none => exact passed.append acts_identifier
        | some s => exact passed.append (acts_keyword found)

end Words

/-- Every rule of the innermost region takes a row of acts. -/
theorem acts_step? {rule : Rule} (rooted : Rooted here) (mem : rule ∈ here.innermost.rules)
    (found : step? config assigned here t rule = some s) : Acts here s.pieces s.after := by
  cases rule with
  | inclusion => exact acts_inclusion found
  | lineComment => exact acts_lineComment found
  | blockCommentBegin => exact acts_blockCommentBegin found
  | blockCommentEnd =>
    exact acts_blockCommentEnd (Region.isBlockComment_of_blockCommentEnd_mem mem) found
  | documentationTag => exact acts_documentationTag found
  | sectionHeader => exact acts_sectionHeader found
  | functionDeclaration => exact acts_functionDeclaration found
  | variableDeclaration => exact acts_variableDeclaration found
  | constraintsBegin => exact acts_constraintsBegin found
  | initializer => exact acts_initializer found
  | constraintEquals => exact acts_constraintEquals found
  | constraintsEnd =>
    exact acts_constraintsEnd rooted (Region.eq_constraints_of_constraintsEnd_mem mem) found
  | string => exact acts_string found
  | number => exact acts_number found
  | accumulator => exact acts_accumulator found
  | word =>
    simp only [step?, word?] at found
    split at found <;> cases found
    exact acts_wordStep
  | sampling => exact acts_sampling found
  | terminator => exact acts_terminator found
  | delimiter => exact acts_delimiter found
  | opener => exact acts_opener found
  | closer => exact acts_closer rooted found
  | operator => exact acts_operator found

end Rule

variable {lexer : Lexer} {assigned : Bool} {here : LineState} {t : Text}

/-- Every step is a row of acts. -/
theorem acts_take (rooted : Rooted here) :
    Acts here (Step.take lexer assigned here t).pieces (Step.take lexer assigned here t).after := by
  unfold Step.take
  cases found : here.innermost.rules.findSome? (Rule.step? lexer.config assigned here t) with
  | none => exact .one (.token here _ rfl)
  | some s =>
    obtain ⟨rule, mem, applies⟩ := List.exists_of_findSome?_eq_some found
    exact Rule.acts_step? rooted mem applies

/-- Cutting a text is a row of acts. -/
theorem acts_cut (rooted : Rooted here) :
    Acts here (cut lexer assigned here t).1 (cut lexer assigned here t).2 := by
  induction assigned, here, t using cut_induction lexer with
  | nil assigned here =>
    rw [cut_nil]
    exact .nil here
  | step assigned here t s nonempty taken covers ih =>
    have first : Acts here s.pieces s.after := taken ▸ acts_take rooted
    rw [cut_eq nonempty, ← taken]
    exact first.append (ih (first.rooted rooted))

theorem rooted_of_reachable {s : LineState} (h : s.Reachable) : Rooted s := by
  induction h with
  | initial => exact ⟨[], 0, rfl⟩
  | line lexer _ t _ ih =>
    rw [state_tokenizeLine]
    exact (acts_cut ih).rooted ih

end StanHighlight

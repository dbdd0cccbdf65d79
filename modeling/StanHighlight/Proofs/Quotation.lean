import StanHighlight.Proofs.Balance
import StanHighlight.Proofs.Comment
import StanHighlight.Proofs.RunOn
import StanHighlight.Proofs.Stream

/-!
What a literal quotes decides nothing outside it. Whether a quote begins a literal is settled by
the text in front of it, which no rule reads beyond the quote. And the text behind the literal is
read like a line of its own, in the state that the literal stands in.
-/

namespace StanHighlight

namespace Text

def quoted (body : Text) : Text := '"' :: (body ++ ['"'])

theorem quoted_append (body rest : Text) : quoted body ++ rest = '"' :: (body ++ '"' :: rest) := by
  simp [quoted]

/-- What stands in front of the first occurrence of a character, and what follows from there. -/
theorem takeWhile_append_cons_of_notMem {c : Char} {t : Text} (h : c ∉ t) (rest : Text) :
    (t ++ c :: rest).takeWhile (· != c) = t ∧ (t ++ c :: rest).dropWhile (· != c) = c :: rest :=
  takeWhile_append_cons (forall_bne_of_notMem h) (by simp) rest

/-- Of two texts that a text starts with, none is longer if they have as many bytes. -/
theorem eq_of_byteLength_eq {s t whole : Text} (hs : s <+: whole) (ht : t <+: whole)
    (same : byteLength s = byteLength t) : s = t := by
  have nothing : ∀ {u v : Text}, byteLength u = byteLength v → u <+: v → u = v := by
    rintro u v size ⟨more, rfl⟩
    by_cases none : more = []
    · rw [none, List.append_nil]
    · have := byteLength_pos none
      rw [byteLength_append] at size
      omega
  rcases List.prefix_or_prefix_of_prefix hs ht with shorter | longer
  · exact nothing same shorter
  · exact (nothing same.symm longer).symm

end Text

inductive Quotation (here : LineState) (quotes : Text) : List Piece → Prop
  | mk (kinds : List Label) {body : List Piece} (texts : Piece.texts body = quotes)
      (labelled : ∀ p ∈ body, p.isPlain = false) :
      Quotation here quotes (⟨['"'], here, kinds ++ [.begins .string]⟩ ::
        (body ++ [⟨['"'], here, kinds ++ [.ends .string]⟩]))

namespace Piece

def BeginsBehind (x : Text) (ps : List Piece) : Prop :=
  ∃ front p back, ps = front ++ p :: back ∧ texts front = x ∧ .begins .string ∈ p.own

variable {x : Text} {p : Piece} {ps qs front back : List Piece}

/-- Of two rows of pieces one after the other, a piece lies in the first or in the second. -/
theorem append_eq_append_cons_cases (h : ps ++ qs = front ++ p :: back) :
    (∃ more, ps = front ++ p :: more) ∨ ∃ more, front = ps ++ more ∧ qs = more ++ p :: back := by
  rcases List.append_eq_append_iff.1 h with behind | ⟨more, rfl, split⟩
  · exact .inr behind
  · cases more with
    | nil => exact .inr ⟨[], by simp, split.symm⟩
    | cons q more =>
      obtain ⟨rfl, _⟩ := List.cons.inj split
      exact .inl ⟨more, rfl⟩

theorem notMem_own_of_mem_ofText {l : Label} {t : Text} {here : LineState} {own : List Label}
    (h : l ∉ own) (mem : p ∈ ofText t here own) : l ∉ p.own := by
  unfold ofText at mem
  split at mem
  · cases mem
  · rw [List.mem_singleton.1 mem]
    exact h

/-- What stands in front of a piece is shorter than a text that the piece is part of. -/
theorem length_texts_lt (front : List Piece) (visible : p.text ≠ []) (more : List Piece) :
    (texts front).length < (texts (front ++ p :: more)).length := by
  have some_text := List.length_pos_iff.2 visible
  simp only [texts_append, texts_cons, List.length_append]
  omega

theorem BeginsBehind.of_append (visible : ∀ p ∈ ps, p.text ≠ [])
    (h : BeginsBehind (texts ps ++ x) (ps ++ qs)) : BeginsBehind x qs := by
  obtain ⟨front, p, back, whole, behind, begins⟩ := h
  rcases append_eq_append_cons_cases whole with ⟨more, rfl⟩ | ⟨more, rfl, rfl⟩
  · have shorter := length_texts_lt front (visible p (by simp)) more
    rw [behind, List.length_append] at shorter
    omega
  · rw [texts_append] at behind
    exact ⟨more, p, back, rfl, List.append_cancel_left behind, begins⟩

/-- No literal begins behind a text that pieces reach over, if those that do not lie in it begin
none. -/
theorem not_beginsBehind {first more : List Piece} (visible : ∀ p ∈ first, p.text ≠ [])
    (inside : (texts first).length ≤ x.length) (quiet : ∀ p ∈ more, .begins .string ∉ p.own)
    (beyond : x.length < (texts (first ++ more)).length) (back : List Piece) :
    ¬BeginsBehind x (first ++ more ++ back) := by
  rintro ⟨front, p, rest, whole, rfl, begins⟩
  rcases append_eq_append_cons_cases whole with ⟨late, early⟩ | ⟨late, rfl, _⟩
  · rcases append_eq_append_cons_cases early with ⟨gap, rfl⟩ | ⟨gap, _, rfl⟩
    · exact absurd (length_texts_lt front (visible p (by simp)) gap) (Nat.not_lt.2 inside)
    · exact quiet p (by simp) begins
  · rw [texts_append, List.length_append] at beyond
    omega

/-- A labelled piece was there in front of joining, behind the same text. -/
theorem exists_of_joinPlain_eq (labelled : p.isPlain = false)
    (h : joinPlain ps = front ++ p :: back) :
    ∃ front' back', ps = front' ++ p :: back' ∧ texts front' = texts front := by
  induction ps generalizing front with
  | nil => simp [joinPlain] at h
  | cons q ps ih =>
    -- behind the first piece, which is joined or not
    have later : ∀ {more : List Piece}, joinPlain ps = more ++ p :: back →
        q.text ++ texts more = texts front →
        ∃ front' back', q :: ps = front' ++ p :: back' ∧ texts front' = texts front := by
      intro more split same
      obtain ⟨front', back', rfl, texts_front⟩ := ih split
      exact ⟨q :: front', back', rfl, by rw [texts_cons, texts_front, same]⟩
    rw [joinPlain_cons] at h
    cases joined : joinPlain ps with
    | nil =>
      rw [joined, join] at h
      obtain ⟨rfl, h⟩ | ⟨more, rfl, behind⟩ := List.cons_eq_append_iff.1 h
      · obtain ⟨rfl, _⟩ := List.cons.inj h
        exact ⟨[], ps, rfl, rfl⟩
      · simp at behind
    | cons r rs =>
      rw [joined, join] at h
      split at h
      · obtain ⟨rfl, h⟩ | ⟨more, rfl, behind⟩ := List.cons_eq_append_iff.1 h
        · obtain ⟨rfl, _⟩ := List.cons.inj h
          cases labelled
        · have split : joinPlain ps = r :: more ++ p :: back := by
            rw [joined, behind, List.cons_append]
          exact later split (by simp)
      · obtain ⟨rfl, h⟩ | ⟨more, rfl, behind⟩ := List.cons_eq_append_iff.1 h
        · obtain ⟨rfl, _⟩ := List.cons.inj h
          exact ⟨[], ps, rfl, rfl⟩
        · exact later (joined.trans behind) (texts_cons q more).symm

end Piece

namespace Rule

variable {config : Config} {here : LineState} {t rest : Text} {c close : Char} {style : FileName}

/-- A literal that is closed, with the text behind it. -/
theorem string?_append_cons (config : Config) (here : LineState) (h : '"' ∉ t) (rest : Text) :
    string? config here ('"' :: (t ++ '"' :: rest)) = some
      ⟨⟨['"'], here, [.string, .begins .string]⟩ ::
        (bodyPieces config here t ++ [⟨['"'], here, [.string, .ends .string]⟩]), here, rest⟩ := by
  obtain ⟨taken, dropped⟩ := Text.takeWhile_append_cons_of_notMem h rest
  rw [string?_cons, literalEnd, taken, dropped]

/-- A file name that is closed, with the text behind it. -/
theorem delimitedName_append_cons (h : close ∉ t) (start : Char) (rest : Text) :
    delimitedName here start close style (t ++ close :: rest) =
      (⟨[start], here, [.inclusion, .fileName style, .begins .string]⟩ ::
        (Piece.ofText t here [.inclusion, .fileName style] ++
          [⟨[close], here, [.inclusion, .fileName style, .ends .string]⟩]), rest) := by
  obtain ⟨taken, dropped⟩ := Text.takeWhile_append_cons_of_notMem h rest
  simp only [delimitedName, taken, dropped, List.cons_append]

/-- Only the first piece of a file name between delimiters begins anything. -/
theorem exists_delimitedName (here : LineState) (start close : Char) (style : FileName) (t : Text) :
    ∃ more, delimitedName here start close style t =
        (⟨[start], here, [.inclusion, .fileName style, .begins .string]⟩ :: more,
          (t.dropWhile (· != close)).tail) ∧
      ∀ p ∈ more, .begins .string ∉ p.own := by
  have name : ∀ p ∈ Piece.ofText (t.takeWhile (· != close)) here [.inclusion, .fileName style],
      Label.begins .string ∉ p.own := fun p => Piece.notMem_own_of_mem_ofText (by simp)
  unfold delimitedName
  split
  · next none => exact ⟨_, by rw [none]; rfl, name⟩
  · next c rest found =>
    refine ⟨_, by rw [found]; rfl, List.forall_mem_append.2 ⟨name, ?_⟩⟩
    exact List.forall_mem_singleton.2 (by simp)

/-- A file name that is open in front of a quote takes it in. -/
theorem fileName_of_not_closesName (here : LineState) (h : ¬ClosesName c t) (rest : Text) :
    (fileName here (c :: t ++ '"' :: rest)).2.length ≤ rest.length ∧
      ∃ first more, (fileName here (c :: t ++ '"' :: rest)).1 = first ++ more ∧
        (Piece.texts first).length ≤ 1 ∧ ∀ p ∈ more, .begins .string ∉ p.own := by
  rw [List.cons_append]
  unfold ClosesName at h
  split at h
  · next close style found =>
    obtain ⟨more, name, quiet⟩ := exists_delimitedName here c close style (t ++ '"' :: rest)
    have others := Text.forall_bne_of_notMem h
    rw [fileName_of_style found, name]
    refine ⟨?_, [_], more, rfl, Nat.le_refl 1, quiet⟩
    have shorter := (List.dropWhile_suffix (l := '"' :: rest) (· != close)).length_le
    rw [List.dropWhile_append_of_pos others, List.length_tail]
    rw [List.length_cons] at shorter
    omega
  · next bare =>
    have visible : ∀ d ∈ c :: t ++ ['"'], (!Text.isSpace d) = true := by
      refine List.forall_mem_append.2 ⟨fun d mem => ?_, List.forall_mem_singleton.2 (by decide)⟩
      rw [Bool.not_eq_true', Bool.eq_false_iff]
      exact fun blank => h ⟨d, mem, blank⟩
    have whole : c :: (t ++ '"' :: rest) = c :: t ++ ['"'] ++ rest := by simp
    rw [fileName_of_bare bare]
    refine ⟨?_, [], _, rfl, Nat.zero_le 1, fun p => Piece.notMem_own_of_mem_ofText (by simp)⟩
    rw [whole, List.dropWhile_append_of_pos visible]
    exact (List.dropWhile_suffix _).length_le

end Rule

/-- A step over a text and a quote behind it, which takes the quote in, but as no start of a
literal. -/
structure Step.Overruns (x rest : Text) (s : Step) : Prop where
  beyond : s.rest.length ≤ rest.length
  quiet : ∃ first more, s.pieces = first ++ more ∧ (Piece.texts first).length ≤ x.length ∧
    ∀ p ∈ more, .begins .string ∉ p.own

namespace Step.Overruns

variable {x rest : Text} {s : Step}

theorem of_quiet (beyond : s.rest.length ≤ rest.length)
    (quiet : ∀ p ∈ s.pieces, .begins .string ∉ p.own) : s.Overruns x rest :=
  ⟨beyond, [], s.pieces, rfl, Nat.zero_le _, quiet⟩

theorem of_remark {here : LineState} {delimiter body : Text} {kind : Label}
    (other : kind ≠ .begins .string) : (Rule.remark here delimiter kind body).Overruns x rest := by
  refine .of_quiet (Nat.zero_le _) (List.forall_mem_cons.2 ⟨?_, fun p => ?_⟩)
  · simp [other.symm]
  · exact Piece.notMem_own_of_mem_ofText (by simpa using other.symm)

theorem not_beginsBehind (h : s.Overruns x rest) (covers : s.Covers (x ++ '"' :: rest))
    (back : List Piece) : ¬Piece.BeginsBehind x (s.pieces ++ back) := by
  obtain ⟨beyond, first, more, pieces, inside, quiet⟩ := h
  have visible := covers.visible
  have sizes := congrArg List.length covers.whole
  simp only [List.length_append, List.length_cons] at sizes
  rw [pieces] at visible sizes ⊢
  exact Piece.not_beginsBehind (List.forall_mem_append.1 visible).1 inside quiet (by omega) back

end Step.Overruns

section Places

variable {lexer : Lexer} {assigned : Bool} {here : LineState} {x : Text}

/-- What the step at the start of a text does with a quote behind the text, whatever follows. -/
inductive Step.AtQuote (lexer : Lexer) (assigned : Bool) (here : LineState) (x : Text) : Prop
  | onto (h : ∀ rest, take lexer assigned here (x ++ '"' :: rest) =
      (take lexer assigned here x).onto ('"' :: rest))
  | overruns (h : ∀ rest, (take lexer assigned here (x ++ '"' :: rest)).Overruns x rest)
  | opens (front : List Piece) (texts : Piece.texts front = x)
      (h : ∀ b, '"' ∉ b → ∃ literal, Quotation here b literal ∧
        ∀ q, take lexer assigned here (x ++ (Text.quoted b ++ q)) = ⟨front ++ literal, here, q⟩)

namespace Step.AtQuote

/-- Where no token may run on, only a cluster takes in the quote. -/
theorem of_tame (sequential : lexer.clusters.Sequential) (tame : Tame here x) :
    AtQuote lexer assigned here x := by
  cases found : here.innermost.rules.findSome? (Rule.step? lexer.config assigned here x) with
  | some s => exact .onto fun rest => take_append_of_some tame (.quote rest) found
  | none =>
    -- whether the cluster at the start reaches the quote does not depend on what follows
    have reaches : ∀ rest, lexer.clusters.first (x ++ ['"']) =
        min (lexer.clusters.first (x ++ '"' :: rest)) (x.length + 1) := fun rest => by
      simpa using sequential (x ++ ['"']) rest
    by_cases within : lexer.clusters.first (x ++ ['"']) ≤ x.length
    · refine .onto fun rest => ?_
      rcases take_append_of_none sequential tame (.quote rest) found with ⟨_, same⟩ | ⟨beyond, _⟩
      · exact same
      · have := reaches rest
        omega
    · refine .overruns fun rest => ?_
      rcases take_append_of_none sequential tame (.quote rest) found with ⟨beyond, _⟩ | ⟨_, _, skips⟩
      · have := reaches rest
        omega
      · rw [skips]
        refine .of_quiet ?_ (List.forall_mem_singleton.2 nofun)
        have := reaches rest
        simp only [skip, List.length_drop, List.length_append, List.length_cons]
        omega

/-- A line comment takes in the quote. -/
theorem slashes (code : here.innermost.isBlockComment = false) (t : Text) :
    AtQuote lexer assigned here ('/' :: '/' :: t) := by
  refine .overruns fun rest => ?_
  have taken : take lexer assigned here ('/' :: '/' :: t ++ '"' :: rest) =
      Rule.remark here ['/', '/'] .slashComment (t ++ '"' :: rest) := take_slashes code _
  rw [taken]
  exact .of_remark (by simp)

/-- An open literal ends at the quote. -/
theorem quote (code : here.innermost.isBlockComment = false) (t : Text) :
    AtQuote lexer assigned here ('"' :: t) := by
  by_cases closed : '"' ∈ t
  · exact .onto fun rest => take_quote_append code closed _
  · refine .overruns fun rest => ?_
    rw [List.cons_append, take_quote code (Rule.string?_append_cons _ here closed rest)]
    refine ⟨Nat.le_refl _, [_], _, rfl, by simp, List.forall_mem_append.2 ⟨fun p mem => ?_, ?_⟩⟩
    · obtain ⟨run, _, rfl⟩ := List.mem_map.1 mem
      simp only [Rule.runLabels]
      split <;> simp
    · exact List.forall_mem_singleton.2 (by simp)

/-- Behind a directive and blanks the quote begins a file name. -/
theorem of_blank {after : Text} (blank : Text.trimStart after = [])
    (taken : ∀ rest, take lexer assigned here (Rule.directive ++ after ++ '"' :: rest) =
      Rule.includeStep here (after ++ '"' :: rest)) :
    AtQuote lexer assigned here (Rule.directive ++ after) := by
  have all_blank := List.dropWhile_eq_nil_iff.1 blank
  have visible : Text.isSpace '"' = false := by decide
  refine .opens (⟨Rule.directive, here, [.inclusion, .includeDirective]⟩ ::
    Piece.ofText after here [.inclusion]) (by simp) fun b quote => ?_
  have texts := Piece.texts_ofText b here [.inclusion, .fileName .doubleQuoted]
  refine ⟨_, .mk [.inclusion, .fileName .doubleQuoted] texts fun p mem => ?_, fun q => ?_⟩
  · exact (Piece.IsToken.ofText (List.cons_ne_nil _ _) (by decide) p mem).isPlain
  · have gap : Text.gap (after ++ '"' :: (b ++ '"' :: q)) = after := by
      rw [Text.gap, List.takeWhile_append_of_pos all_blank]
      simp [visible]
    have name : Text.trimStart (after ++ '"' :: (b ++ '"' :: q)) = '"' :: (b ++ '"' :: q) := by
      rw [Text.trimStart, List.dropWhile_append_of_pos all_blank]
      simp [visible]
    rw [Text.quoted_append, taken, Rule.includeStep, gap, name, Rule.fileName_of_style rfl,
      Rule.delimitedName_append_cons quote]
    rfl

/-- A file name that is open takes in the quote, which ends it or not. -/
theorem of_open {after : Text} {c : Char} {name : Text} (found : Text.trimStart after = c :: name)
    (unclosed : ¬Rule.ClosesName c name)
    (taken : ∀ rest, take lexer assigned here (Rule.directive ++ after ++ '"' :: rest) =
      Rule.includeStep here (after ++ '"' :: rest)) :
    AtQuote lexer assigned here (Rule.directive ++ after) := by
  refine .overruns fun rest => ?_
  obtain ⟨beyond, first, more, pieces, short, quiet⟩ :=
    Rule.fileName_of_not_closesName here unclosed rest
  rcases Text.trimStart_append_cases after ('"' :: rest) with ⟨none, _⟩ | ⟨_, behind, gap⟩
  · cases found.symm.trans none
  · have sizes := congrArg List.length (Text.gap_append_trimStart after)
    rw [List.length_append, found, List.length_cons] at sizes
    rw [taken, Rule.includeStep, behind, gap, found]
    refine ⟨beyond, ⟨Rule.directive, here, [.inclusion, .includeDirective]⟩ ::
      (Piece.ofText (Text.gap after) here [.inclusion] ++ first), more, ?_, ?_, quiet⟩
    · rw [pieces, ← List.append_assoc]
      rfl
    · simp only [Piece.texts_cons, Piece.texts_append, Piece.texts_ofText, List.length_append]
      omega

/-- A directive waits for its file name, has one that is open, or is over. -/
theorem directive (level : here.innermost.isStatementLevel = true) {after : Text}
    (ends : Text.word after = []) : AtQuote lexer assigned here (Rule.directive ++ after) := by
  have taken : ∀ rest, take lexer assigned here (Rule.directive ++ after ++ '"' :: rest) =
      Rule.includeStep here (after ++ '"' :: rest) := fun rest => by
    rw [List.append_assoc]
    exact take_directive level (by rw [(Inert.quote rest).word_append, ends])
  cases found : Text.trimStart after with
  | nil => exact of_blank found taken
  | cons c name =>
    by_cases closes : Rule.ClosesName c name
    · refine .onto fun rest => ?_
      rw [taken, take_directive level ends]
      exact Rule.includeStep_append found (Rule.fileName_append closes _)
    · exact of_open found closes taken

/-- A comment from a hash sign takes in the quote. -/
theorem hash (code : here.innermost.isBlockComment = false) (t : Text) :
    AtQuote lexer assigned here ('#' :: t) := by
  by_cases level : here.innermost.isStatementLevel = true
  · cases found : Rule.include? here ('#' :: t) with
    | some s =>
      obtain ⟨after, whole, ends, _⟩ := Rule.include?_eq_some_iff.1 found
      exact whole ▸ directive level ends
    | none =>
      refine .overruns fun rest => ?_
      rcases Rule.include?_append here (.quote rest) ('#' :: t) with ⟨_, none⟩ | ⟨_, _, some, _⟩
      · rw [List.cons_append] at none ⊢
        rw [take_hash code, if_pos level, none]
        exact .of_remark (by simp)
      · cases found.symm.trans some
  · refine .overruns fun rest => ?_
    rw [List.cons_append, take_hash code, if_neg level]
    exact .of_remark (by simp)

theorem of_ne_nil (sequential : lexer.clusters.Sequential) (some_text : x ≠ []) :
    AtQuote lexer assigned here x := by
  rcases tame_or here some_text with tame | ⟨code, body, rfl | rfl | rfl⟩
  · exact of_tame sequential tame
  · exact slashes code body
  · exact quote code body
  · exact hash code body

/-- In a block comment a quote is plain text. -/
theorem overruns_of_comment (comment : here.innermost.isBlockComment = true) (rest : Text) :
    (take lexer assigned here ('"' :: rest)).Overruns [] rest := by
  have none : Rule.blockComment.filter (fun rule => rule.startsAt '"') = [] := by decide
  have taken : take lexer assigned here ('"' :: rest) = skip lexer.clusters here ('"' :: rest) := by
    rw [take_eq_filter]
    cases region : here.innermost with
    | blockComment documentation =>
      rw [Region.rules, none]
      rfl
    | _ => simp [region, Region.isBlockComment] at comment
  have covers : (skip lexer.clusters here ('"' :: rest)).Covers ('"' :: rest) :=
    skip_covers (List.cons_ne_nil _ _)
  rw [taken]
  exact .of_quiet (Nat.le_of_lt_succ covers.rest_length_lt) (List.forall_mem_singleton.2 List.not_mem_nil)

end Step.AtQuote

/-- Behind a text a quote begins a literal, whatever that quotes, and what follows the literal is
read in one state. -/
def OpensLiteral (lexer : Lexer) (assigned : Bool) (here : LineState) (x : Text) : Prop :=
  ∃ front there, Piece.texts front = x ∧ ∀ b, '"' ∉ b → ∃ literal, Quotation there b literal ∧
    ∀ q, cut lexer assigned here (x ++ (Text.quoted b ++ q)) =
      (front ++ literal ++ (cut lexer false there q).1, (cut lexer false there q).2)

/-- What follows a literal does not follow an assignment operator. -/
theorem Quotation.assigns {quotes rest : Text} {literal : List Piece} {there : LineState}
    (h : Quotation there quotes literal) (front : List Piece) :
    (⟨front ++ literal, here, rest⟩ : Step).assigns assigned = false := by
  obtain ⟨kinds, _, _⟩ := h
  rw [Step.assigns, ← List.cons_append, ← List.append_assoc, List.getLast?_concat]
  simp [Piece.isPlain]

/-- A text that starts with a step is cut by it and then like the rest. -/
theorem cut_onto {t rest : Text} {s : Step} (some_text : t ≠ [])
    (onto : Step.take lexer assigned here t = s.onto rest) :
    cut lexer assigned here t =
      (s.pieces ++ (cut lexer (s.assigns assigned) s.after (s.rest ++ rest)).1,
        (cut lexer (s.assigns assigned) s.after (s.rest ++ rest)).2) := by
  rw [cut_eq some_text, onto]
  rfl

namespace OpensLiteral

theorem of_step (front : List Piece) (texts : Piece.texts front = x)
    (taken : ∀ b, '"' ∉ b → ∃ literal, Quotation here b literal ∧
      ∀ q, Step.take lexer assigned here (x ++ (Text.quoted b ++ q)) =
        ⟨front ++ literal, here, q⟩) : OpensLiteral lexer assigned here x := by
  refine ⟨front, here, texts, fun b quote => ?_⟩
  obtain ⟨literal, quotation, step⟩ := taken b quote
  refine ⟨literal, quotation, fun q => ?_⟩
  rw [cut_eq (by simp [Text.quoted]), step]
  simp only [quotation.assigns]

theorem of_code (code : here.innermost.isBlockComment = false) :
    OpensLiteral lexer assigned here [] := by
  refine of_step [] rfl fun b quote => ?_
  refine ⟨_, .mk [.string] (Rule.texts_bodyPieces lexer.config here b) fun p mem => ?_, fun q => ?_⟩
  · exact Rule.labelled_bodyPieces mem
  · rw [List.nil_append, Text.quoted_append,
      Step.take_quote code (Rule.string?_append_cons _ here quote q)]
    rfl

/-- What a quote does behind the rest of a step, it does behind the text that the step starts. -/
theorem of_onto {s : Step} (covers : s.Covers x)
    (onto : ∀ rest, Step.take lexer assigned here (x ++ '"' :: rest) = s.onto ('"' :: rest))
    (h : OpensLiteral lexer (s.assigns assigned) s.after s.rest) :
    OpensLiteral lexer assigned here x := by
  obtain ⟨front, there, texts, opens⟩ := h
  refine ⟨s.pieces ++ front, there, ?_, fun b quote => ?_⟩
  · rw [Piece.texts_append, texts, covers.whole]
  · obtain ⟨literal, quotation, cuts⟩ := opens b quote
    refine ⟨literal, quotation, fun q => ?_⟩
    have step := onto (b ++ '"' :: q)
    rw [← Text.quoted_append] at step
    rw [cut_onto (by simp [Text.quoted]) step, cuts]
    simp only [List.append_assoc]

end OpensLiteral

/-- A quote behind a text begins a literal whatever it quotes, or begins none whatever follows. -/
theorem opensLiteral_or (sequential : lexer.clusters.Sequential) (assigned : Bool)
    (here : LineState) (x : Text) : OpensLiteral lexer assigned here x ∨
      ∀ rest, ¬Piece.BeginsBehind x (cut lexer assigned here (x ++ '"' :: rest)).1 := by
  have never : ∀ {assigned here x}, (∀ rest, (Step.take lexer assigned here
      (x ++ '"' :: rest)).Overruns x rest) →
      ∀ rest, ¬Piece.BeginsBehind x (cut lexer assigned here (x ++ '"' :: rest)).1 := by
    intro assigned here x beyond rest
    have longer : x ++ '"' :: rest ≠ [] := by simp
    rw [cut_eq longer]
    exact (beyond rest).not_beginsBehind (Step.take_covers longer) _
  induction assigned, here, x using cut_induction lexer with
  | nil assigned here =>
    cases code : here.innermost.isBlockComment with
    | false => exact .inl (.of_code code)
    | true => exact .inr (never (Step.AtQuote.overruns_of_comment code))
  | step assigned here x s nonempty taken covers ih =>
    have at_quote : Step.AtQuote lexer assigned here x := .of_ne_nil sequential nonempty
    cases at_quote with
    | opens front texts step => exact .inl (.of_step front texts step)
    | overruns beyond => exact .inr (never beyond)
    | onto onto =>
      rw [← taken] at onto
      refine ih.imp (.of_onto covers onto) fun none rest begins => none rest ?_
      rw [cut_onto (by simp) (onto rest)] at begins
      rw [← covers.whole] at begins
      exact begins.of_append covers.visible

end Places

section Lines

variable {lexer : Lexer} {p q b : Text} {before : LineState}

theorem Text.stripTerminator_quoted (p b q : Text) : stripTerminator (p ++ quoted b ++ q) =
    p ++ quoted b ++ stripTerminator q := by
  have last : (p ++ quoted b).getLast? = some '"' := by
    rw [quoted, ← List.cons_append, ← List.append_assoc, List.getLast?_concat]
  exact stripTerminator_append_of_getLast? last (by decide) q

/-- A lexeme that begins a literal behind a text is cut from the line there. -/
theorem beginsBehind_of_lexeme {line : Text} {l : Lexeme}
    (mem : l ∈ (lexer.tokenizeLine (p ++ line) before).lexemes)
    (offset : l.offset = Text.byteLength p) (begins : .begins .string ∈ l.scope) :
    Piece.BeginsBehind p (cut lexer false before (Text.stripTerminator (p ++ line))).1 := by
  have own : .begins .string ∈ l.own := Piece.begins_mem_scope_iff.1 begins
  have labelled : l.toPiece.isPlain = false := by
    simpa [Piece.isPlain] using List.ne_nil_of_mem own
  obtain ⟨front, back, joined, place⟩ := Lexeme.exists_of_mem_place mem
  obtain ⟨front', back', split, texts⟩ := Piece.exists_of_joinPlain_eq labelled joined
  have inside : linePieces lexer (p ++ line) before = front' ++ l.toPiece :: back' := split
  have whole := texts_linePieces lexer (p ++ line) before
  rw [inside, Piece.texts_append, texts] at whole
  have same : Piece.texts front = p := by
    refine Text.eq_of_byteLength_eq ⟨_, whole⟩ (List.prefix_append p line) ?_
    rw [← offset, place, Nat.zero_add]
  rcases Piece.append_eq_append_cons_cases inside with ⟨more, content⟩ | ⟨more, _, ending⟩
  · exact ⟨front', l.toPiece, more, content, texts.trans same, own⟩
  · -- the terminator of the line is plain
    have behind : l.toPiece ∈ more ++ l.toPiece :: back' :=
      List.mem_append_right _ List.mem_cons_self
    rw [← ending] at behind
    exact absurd own (Piece.notMem_own_of_mem_ofText List.not_mem_nil behind)

/-- The pieces of a literal are joined with nothing. -/
theorem Quotation.joinPlain {there : LineState} {literal : List Piece}
    (h : Quotation there b literal) (front : List Piece) :
    ∃ ps last, literal = ps ++ [last] ∧ last.isPlain = false ∧
      Piece.joinPlain (front ++ ps) = Piece.joinPlain front ++ ps := by
  obtain ⟨kinds, texts, labelled⟩ := h
  refine ⟨_ :: _, _, (List.cons_append ..).symm, by simp [Piece.isPlain], ?_⟩
  have body := Piece.joinPlain_tokens labelled []
  rw [List.append_nil] at body
  rw [Piece.joinPlain_append_cons (by simp [Piece.isPlain]), body]
  simp [Piece.joinPlain]

/-- What a literal quotes influences nothing else. If a literal begins at a quote behind a text,
one begins there whatever stands between the quotes: the lexemes in front of it are the same, and
what follows it is read like a line of its own, always in the same state. -/
theorem tokenizeLine_quoted (sequential : lexer.clusters.Sequential)
    (begins : ∃ l ∈ (lexer.tokenizeLine (p ++ Text.quoted b ++ q) before).lexemes,
      l.offset = Text.byteLength p ∧ .begins .string ∈ l.scope) :
    ∃ front there, Piece.texts front = p ∧ ∀ b', '"' ∉ b' → ∃ literal, Quotation there b' literal ∧
      lexer.tokenizeLine (p ++ Text.quoted b' ++ q) before = (lexer.tokenizeLine q there).behind
        (Lexeme.place 0 front ++ Lexeme.place (Text.byteLength p) literal)
        (Text.byteLength (p ++ Text.quoted b')) := by
  obtain ⟨l, mem, offset, own⟩ := begins
  rw [List.append_assoc] at mem
  have cut_there := beginsBehind_of_lexeme mem offset own
  rw [← List.append_assoc, Text.stripTerminator_quoted, List.append_assoc,
    Text.quoted_append] at cut_there
  rcases opensLiteral_or sequential false before p with ⟨front, there, texts, opens⟩ | never
  · refine ⟨Piece.joinPlain front, there, by rw [Piece.texts_joinPlain, texts], fun b' quote => ?_⟩
    obtain ⟨literal, quotation, cuts⟩ := opens b' quote
    refine ⟨literal, quotation, ?_⟩
    obtain ⟨ps, last, rfl, labelled, joined⟩ := quotation.joinPlain front
    have cuts_rest : cut lexer false before (p ++ Text.quoted b' ++ Text.stripTerminator q) =
        (front ++ ps ++ last :: (cut lexer false there (Text.stripTerminator q)).1,
          (cut lexer false there (Text.stripTerminator q)).2) := by
      rw [List.append_assoc, cuts]
      simp
    rw [tokenizeLine_append _ labelled (Text.stripTerminator_quoted p b' q) cuts_rest, joined,
      List.append_assoc, Lexeme.place_append, Piece.texts_joinPlain, texts, Nat.zero_add]
  · exact absurd cut_there (never _)

/-- A printed literal, whose body may as well look like the end of a comment and of the block. -/
theorem tokenizeLine_quoted_in_print :
    let lexer : Lexer := ⟨{}, by decide, .prepending⟩
    let before := (lexer.tokenizeLine "model \x7b".toList .initial).state
    let p := "print(".toList
    let b := "mu = ".toList
    let b' := "*/ ); \x7d // ".toList
    let q := ", mu); target += 1;".toList
    (lexer.clusters.Sequential ∧
      (∃ l ∈ (lexer.tokenizeLine (p ++ Text.quoted b ++ q) before).lexemes,
        l.offset = Text.byteLength p ∧ .begins .string ∈ l.scope) ∧ '"' ∉ b') ∧
      ∃ front there, Piece.texts front = p ∧ ∃ literal, Quotation there b' literal ∧
        lexer.tokenizeLine (p ++ Text.quoted b' ++ q) before = (lexer.tokenizeLine q there).behind
          (Lexeme.place 0 front ++ Lexeme.place (Text.byteLength p) literal)
          (Text.byteLength (p ++ Text.quoted b')) := by
  intro lexer before p b b' q
  have sequential : lexer.clusters.Sequential := Segmentation.prepending_sequential
  have begins : ∃ l ∈ (lexer.tokenizeLine (p ++ Text.quoted b ++ q) before).lexemes,
      l.offset = Text.byteLength p ∧ .begins .string ∈ l.scope := by decide +kernel
  have quote : '"' ∉ b' := by decide
  obtain ⟨front, there, texts, others⟩ := tokenizeLine_quoted sequential begins
  exact ⟨⟨sequential, begins, quote⟩, front, there, texts, others b' quote⟩

end Lines

end StanHighlight

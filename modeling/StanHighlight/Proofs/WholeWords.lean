import StanHighlight.Proofs.Spelling
import StanHighlight.Proofs.Trailing
import StanHighlight.Proofs.Unmatched

/-!
Words are never split. Two lexemes of a line meet inside a run of word characters only if both are
parts of one string literal: rules end where no word goes on, and what no rule recognises is joined
to the plain text around it. So what is labelled as a word of the language is a complete run of the
line, and not a part of a longer one.
-/

namespace StanHighlight

namespace Text

variable {s t u : Text}

theorem splits_of_append_left (visible : t ≠ []) (h : Splits (s ++ t) u) : Splits t u := by
  rwa [Splits, List.getLast?_append_of_ne_nil s visible] at h

end Text

namespace Piece

variable {p q : Piece} {ps : List Piece}

/-- A word goes on from one piece into the next only if both are plain text or both are parts of a
literal. -/
def Meets (p q : Piece) : Prop :=
  Text.Splits p.text q.text →
    p.isPlain = true ∧ q.isPlain = true ∨ .string ∈ p.own ∧ .string ∈ q.own

def Apart (p q : Piece) : Prop :=
  Text.Splits p.text q.text → .string ∈ p.own ∧ .string ∈ q.own

/-- The first of the joined pieces begins with the first piece, and has its labels. -/
theorem exists_joinPlain_cons (p : Piece) (ps : List Piece) : ∃ q qs more,
    joinPlain (p :: ps) = q :: qs ∧ q.text = p.text ++ more ∧ q.own = p.own := by
  rw [joinPlain_cons]
  cases joinPlain ps with
  | nil => exact ⟨p, [], [], rfl, by simp, rfl⟩
  | cons r rs =>
    rw [join]
    split
    · next both =>
      simp only [Bool.and_eq_true] at both
      exact ⟨_, rs, r.text, rfl, rfl, (List.isEmpty_iff.1 both.1).symm⟩
    · exact ⟨p, r :: rs, [], rfl, by simp, rfl⟩

/-- Joining plain pieces leaves no word that goes on from one piece into the next but in
literals. -/
theorem apart_joinPlain (visible : ∀ p ∈ ps, p.text ≠ []) (h : ps.IsChain Meets) :
    (joinPlain ps).IsChain Apart := by
  induction ps with
  | nil => exact .nil
  | cons p ps ih =>
    obtain ⟨meets, later⟩ := List.isChain_cons.1 h
    have ih := ih (fun q mem => visible q (List.mem_cons_of_mem p mem)) later
    cases ps with
    | nil => exact .singleton p
    | cons q ps =>
      have some_char : q.text ≠ [] := visible q (by simp)
      obtain ⟨r, rs, more, joined, text, own⟩ := exists_joinPlain_cons q ps
      have first : Text.Splits p.text r.text → Text.Splits p.text q.text := fun splits =>
        (Text.splits_append_iff some_char more).1 (text ▸ splits)
      rw [joined] at ih
      rw [joinPlain_cons, joined, join]
      split
      · next both =>
        -- What the last of the joined texts ends with is plain, so no literal goes on behind it.
        simp only [Bool.and_eq_true] at both
        obtain ⟨onward, others⟩ := List.isChain_cons.1 ih
        refine List.isChain_cons.2 ⟨fun y next splits => ?_, others⟩
        have visible : r.text ≠ [] := by simp [text, some_char]
        obtain ⟨inside, _⟩ := onward y next (Text.splits_of_append_left visible splits)
        rw [List.isEmpty_iff.1 both.2] at inside
        cases inside
      · next other =>
        refine List.isChain_cons.2 ⟨?_, ih⟩
        rintro y ⟨⟩ splits
        rcases meets q rfl (first splits) with ⟨plain, plain'⟩ | literal
        · exact absurd (by simp [isPlain, own, List.isEmpty_iff.1 plain, List.isEmpty_iff.1 plain'])
            other
        · rwa [own]

end Piece

section Steps

variable {lexer : Lexer} {assigned : Bool} {here : LineState} {t u : Text} {s : Step}

/-- Pieces that end where no word goes on meet nowhere in a word. -/
theorem Unsplit.isChain {rest : Text} {ps : List Piece} (h : Unsplit rest ps)
    (visible : ∀ p ∈ ps, p.text ≠ []) :
    ps.IsChain Piece.Meets ∧ ∀ p ∈ ps.getLast?, ¬Text.Splits p.text rest := by
  induction h with
  | nil => exact ⟨.nil, nofun⟩
  | @cons p ps apart _ ih =>
    obtain ⟨chain, last⟩ := ih fun q mem => visible q (List.mem_cons_of_mem p mem)
    cases ps with
    | nil =>
      refine ⟨.singleton p, ?_⟩
      rintro q ⟨⟩
      exact apart
    | cons q ps =>
      have some_char : q.text ≠ [] := visible q (by simp)
      refine ⟨List.isChain_cons.2 ⟨?_, chain⟩, by simpa using last⟩
      rintro r ⟨⟩ splits
      rw [Piece.texts_cons, List.append_assoc] at apart
      exact absurd ((Text.splits_append_iff some_char _).2 splits) apart

/-- The pieces of a literal are parts of it, and it ends where no word goes on. -/
theorem Rule.literal_of_string? {config : Config} (found : string? config here t = some s) :
    (∀ p ∈ s.pieces, .string ∈ p.own) ∧ ∀ p ∈ s.pieces.getLast?, ¬Text.Splits p.text s.rest := by
  have body : ∀ t, ∀ p ∈ bodyPieces config here t, .string ∈ p.own := by
    intro t p mem
    obtain ⟨run, _, rfl⟩ := List.mem_map.1 mem
    simp only [runLabels]
    split <;> simp
  unfold string? at found
  split at found
  · next t =>
    split at found
    · cases found
      refine ⟨List.forall_mem_cons.2 ⟨List.mem_cons_self, body _⟩, fun p _ => ?_⟩
      exact Text.not_splits_of_endsWord (endsWord_iff.2 rfl) p.text
    · next quote rest closed =>
      have first := List.head?_dropWhile_not (· != '"') t
      rw [closed] at first
      obtain rfl : quote = '"' := by simpa using first
      cases found
      refine ⟨List.forall_mem_append.2 ⟨List.forall_mem_cons.2 ⟨List.mem_cons_self, body _⟩,
        List.forall_mem_singleton.2 List.mem_cons_self⟩, fun p last => ?_⟩
      rw [List.getLast?_concat] at last
      cases last
      exact Text.not_splits_of_last (by decide) [] rest
  · cases found

/-- Outside comments a rule applies wherever a word character stands. -/
theorem Unrecognised.endsWord {config : Config} (h : Unrecognised config here t)
    (code : here.inBlockComment = false) : EndsWord t := by
  intro c first
  obtain ⟨_, digit, letter⟩ := h.head code c first
  obtain ⟨rest, rfl⟩ := List.head?_eq_some_iff.1 first
  have underscore : c ≠ '_' := by
    rintro rfl
    cases h .word (Region.mem_rules_of_mem_expression code (by decide)) false
  simp [Text.isWordChar, Char.isAlphanum, digit, letter, underscore]

theorem toNat_of_isWordChar {c : Char} (h : Text.isWordChar c = true) : c.toNat < 128 := by
  simp only [Text.isWordChar, Char.isAlphanum, Bool.or_eq_true, beq_iff_eq] at h
  rcases h with (letter | digit) | rfl
  · have point := Text.isAlpha_cases letter
    omega
  · have point : 48 ≤ c.toNat ∧ c.toNat ≤ 57 := Char.isDigit_iff_toNat.1 digit
    omega
  · decide

/-- A cluster in front of which no word begins ends in no word, as only a prepended mark has a
word character in its cluster. -/
theorem not_splits_cluster {g : Segmentation} (marks : g.PartsAtMarks)
    (unmarked : ∀ c ∈ t, Segmentation.isPrepended c = false) (ends : EndsWord t) (u : Text) :
    ¬Text.Splits (g.cluster t) u := by
  have front : g.cluster t <+: t := List.take_prefix _ _
  rcases List.eq_nil_or_concat (g.cluster t) with none | ⟨before, d, whole⟩
  · rw [none]
    exact Text.not_splits_nil u
  rw [List.concat_eq_append] at whole
  rw [whole]
  refine Text.not_splits_of_last (Bool.eq_false_iff.2 fun word => ?_) before u
  rcases List.eq_nil_or_concat before with rfl | ⟨before, e, rfl⟩
  · obtain ⟨rest, start⟩ := front
    rw [ends d (by rw [← start, whole]; rfl)] at word
    cases word
  · have inside : e ∈ t := front.subset (by simp [whole])
    have newline : d ≠ '\n' := by
      rintro rfl
      cases word
    have marked := marks t before [] e d (by simpa using whole) (toNat_of_isWordChar word) newline
    rw [unmarked e inside] at marked
    cases marked

/-- In a comment no rule reads a word. -/
theorem take_word_in_comment (comment : here.inBlockComment = true) (word : ¬EndsWord t) :
    Step.take lexer assigned here t = Step.skip lexer.clusters here t := by
  cases t with
  | nil => exact absurd (endsWord_iff.2 rfl) word
  | cons c t =>
    have char : Text.isWordChar c = true := by
      rw [← Bool.not_eq_false]
      exact fun other => word (by rintro d ⟨⟩; exact other)
    have table : here.innermost.rules = Rule.blockComment := by
      rw [LineState.inBlockComment] at comment
      cases region : here.innermost with
      | blockComment => rfl
      | _ => rw [region] at comment; cases comment
    have none : Rule.blockComment.filter (fun rule => rule.startsAt c) = [] := by
      have star : c ≠ '*' := by
        rintro rfl
        cases char
      have sign : c ≠ '@' := by
        rintro rfl
        cases char
      simp [Rule.blockComment, Rule.startsAt, Rule.marks, Rule.startsAtLetters, star, sign]
    rw [Step.take_eq_filter, table, none]
    rfl

/-- What a step leaves to be joined: its pieces meet in plain text or in literals only, and a word
goes on behind them only in a comment, from plain text. -/
structure Step.Joins (s : Step) : Prop where
  chain : s.pieces.IsChain Piece.Meets
  last : ∀ p ∈ s.pieces.getLast?, Text.Splits p.text s.rest →
    p.isPlain = true ∧ s.after.inBlockComment = true

theorem joins_take (marks : lexer.clusters.PartsAtMarks)
    (unmarked : ∀ c ∈ t, Segmentation.isPrepended c = false)
    (taken : s = Step.take lexer assigned here t) : s.Joins := by
  rcases Step.take_cases taken with ⟨rule, found⟩ | ⟨none, rfl⟩
  · by_cases literal : rule = .string
    · subst literal
      obtain ⟨inside, last⟩ := Rule.literal_of_string? found
      have meets : s.pieces.Pairwise Piece.Meets := List.pairwise_of_forall_mem_list
        fun p hp q hq _ => .inr ⟨inside p hp, inside q hq⟩
      exact ⟨meets.isChain, fun p mem splits => absurd splits (last p mem)⟩
    · obtain ⟨chain, last⟩ := (Rule.unsplit_step? literal found).isChain
        (Rule.step?_covers found).visible
      exact ⟨chain, fun p mem splits => absurd splits (last p mem)⟩
  · refine ⟨.singleton _, ?_⟩
    rintro p ⟨⟩ splits
    cases comment : here.inBlockComment with
    | true => exact ⟨rfl, comment⟩
    | false =>
      have ends := (Unrecognised.of_none none).endsWord comment
      exact absurd splits (not_splits_cluster marks unmarked ends _)

end Steps

section Lines

variable {lexer : Lexer} {assigned : Bool} {here s : LineState} {t line : Text}

/-- The pieces of a text meet in plain text or in literals only. Where a word begins in a comment,
the first of them is plain. -/
theorem meets_cut (marks : lexer.clusters.PartsAtMarks)
    (unmarked : ∀ c ∈ t, Segmentation.isPrepended c = false) :
    (cut lexer assigned here t).1.IsChain Piece.Meets ∧
      (here.inBlockComment = true → ¬EndsWord t →
        ∀ p ∈ (cut lexer assigned here t).1.head?, p.isPlain = true) := by
  induction assigned, here, t using cut_induction lexer with
  | nil assigned here => simp
  | step assigned here t s nonempty taken covers ih =>
    have inside : ∀ c ∈ s.rest, Segmentation.isPrepended c = false := fun c mem =>
      unmarked c (covers.whole ▸ List.mem_append_right _ mem)
    obtain ⟨later, plain⟩ := ih inside
    have joins := joins_take marks unmarked taken
    rw [cut_eq nonempty, ← taken]
    refine ⟨List.isChain_append.2 ⟨joins.chain, later, fun p last q first splits => ?_⟩, ?_⟩
    · have visible : q.text ≠ [] := text_ne_nil_of_mem_cut (List.mem_of_mem_head? first)
      obtain ⟨others, following⟩ := List.head?_eq_some_iff.1 first
      have rest : s.rest = q.text ++ Piece.texts others := by
        rw [← texts_cut lexer (s.assigns assigned) s.after s.rest, following, Piece.texts_cons]
      have onward : Text.Splits p.text s.rest := by
        rw [rest]
        exact (Text.splits_append_iff visible _).2 splits
      -- Only a comment has a word go on behind a step, and there the next piece is plain too.
      obtain ⟨kind, comment⟩ := joins.last p last onward
      have word : ¬EndsWord s.rest := fun ends => Text.not_splits_of_endsWord ends p.text onward
      exact .inl ⟨kind, plain comment word q first⟩
    · intro comment word p first
      rw [take_word_in_comment comment word] at taken
      subst taken
      cases first
      rfl

/-- A terminator is no part of a word. -/
theorem meets_linePieces (marks : lexer.clusters.PartsAtMarks)
    (unmarked : ∀ c ∈ line, Segmentation.isPrepended c = false) :
    (linePieces lexer line s).IsChain Piece.Meets := by
  have inside : ∀ c ∈ Text.stripTerminator line, Segmentation.isPrepended c = false :=
    fun c mem => unmarked c ((Text.stripTerminator_isInitial line).subset mem)
  have ends : EndsWord (Text.terminator line) := fun c first =>
    isWordChar_of_isSpace (Text.isSpace_of_mem_terminator c (List.mem_of_mem_head? first))
  refine List.isChain_append.2 ⟨(meets_cut marks inside).1, ?_, fun p _ q first splits => ?_⟩
  · unfold Piece.ofText
    split
    · exact .nil
    · exact .singleton _
  · unfold Piece.ofText at first
    split at first <;> cases first
    exact absurd splits (Text.not_splits_of_endsWord ends p.text)

theorem visible_linePieces : ∀ p ∈ linePieces lexer line s, p.text ≠ [] := by
  intro p mem
  rcases List.mem_append.1 mem with mem | mem
  · exact text_ne_nil_of_mem_cut mem
  · exact Piece.text_ne_nil_of_mem_ofText mem

/-- Every piece of a text is spelled with the words that its labels ask for, and no part of a
literal has a label that asks for any. -/
theorem spelled_of_mem_cut {p : Piece} (mem : p ∈ (cut lexer assigned here t).1) :
    p.Spelled ∧ (.string ∈ p.own → ∀ l ∈ p.own, l.isWorded = false) := by
  rcases exists_step_of_mem_cut mem with ⟨rule, _, _, _, s, found, inside⟩ | plain
  · refine ⟨Rule.spelled_step? found p inside, fun literal => ?_⟩
    by_cases quoted : rule = .string
    · subst quoted
      exact Rule.unworded_string found p inside
    · cases (Rule.ordinary_step? quoted found).code inside _ literal
  · simp only [plain, List.not_mem_nil, false_imp_iff, implies_true, and_true]
    exact .of_free (by simp [plain])

structure KeepsWords (line : Text) (lexemes : List Lexeme) : Prop where
  /-- Two lexemes meet inside a word only in a literal. -/
  apart : lexemes.IsChain fun l m =>
    Text.Splits l.text m.text → .string ∈ l.own ∧ .string ∈ m.own
  /-- A lexeme with the label of certain words is made of such words, each of them a complete run of
  the line. -/
  worded : ∀ front l back, lexemes = front ++ l :: back → (∃ label ∈ l.own, label.isWorded = true) →
    l.toPiece.Spelled ∧ Text.runs line = Text.runs (front.flatMap fun m => m.text) ++
      (Text.runs l.text ++ Text.runs (back.flatMap fun m => m.text))

/-- A lexeme outside literals has its runs to itself. -/
theorem runs_of_apart {front back : List Lexeme} {l : Lexeme}
    (chain : (front ++ l :: back).IsChain fun l m =>
      Text.Splits l.text m.text → .string ∈ l.own ∧ .string ∈ m.own)
    (visible : ∀ m ∈ front ++ l :: back, m.text ≠ []) (code : .string ∉ l.own) :
    Text.runs ((front ++ l :: back).flatMap fun m => m.text) =
      Text.runs (front.flatMap fun m => m.text) ++
        (Text.runs l.text ++ Text.runs (back.flatMap fun m => m.text)) := by
  have shown : l.text ≠ [] := visible l (by simp)
  have before : ¬Text.Splits (front.flatMap fun m => m.text)
      (l.text ++ back.flatMap fun m => m.text) := by
    intro splits
    rw [Text.splits_append_iff shown] at splits
    rcases List.eq_nil_or_concat front with rfl | ⟨front, m, rfl⟩
    · exact Text.not_splits_nil _ splits
    · rw [List.concat_eq_append, List.append_assoc, List.singleton_append,
        List.isChain_append_cons_cons] at chain
      have visible : m.text ≠ [] := visible m (by simp)
      rw [List.concat_eq_append, List.flatMap_append, List.flatMap_singleton] at splits
      exact code (chain.2.1 (Text.splits_of_append_left visible splits)).2
  have behind : ¬Text.Splits l.text (back.flatMap fun m => m.text) := by
    intro splits
    cases back with
    | nil => exact Text.not_splits_of_endsWord (endsWord_iff.2 rfl) _ splits
    | cons m back =>
      rw [List.flatMap_cons, Text.splits_append_iff (visible m (by simp))] at splits
      exact code ((List.isChain_append_cons_cons.1 chain).2.1 splits).1
  rw [List.flatMap_append, List.flatMap_cons, Text.runs_append before, Text.runs_append behind]

/-- Words are never split, in whatever state a line begins: no lexeme outside literals ends inside
a word, and so a word of the language is only found where it is all of a word of the line. -/
theorem keepsWords_tokenizeLine (lexer : Lexer) (marks : lexer.clusters.PartsAtMarks)
    (s : LineState) (unmarked : ∀ c ∈ line, Segmentation.isPrepended c = false) :
    KeepsWords line (lexer.tokenizeLine line s).lexemes := by
  have tiles := (tokenizeLine_tiles lexer line s).1
  have meets : (linePieces lexer line s).IsChain Piece.Meets := meets_linePieces marks unmarked
  have chain := Piece.apart_joinPlain visible_linePieces meets
  rw [← toPiece_tokenizeLine, List.isChain_map] at chain
  refine ⟨chain, fun front l back whole ⟨label, own, worded⟩ => ?_⟩
  have mem : l ∈ (lexer.tokenizeLine line s).lexemes := by simp [whole]
  obtain ⟨spelled, unworded⟩ := spelled_of_mem_cut
    (mem_cut_of_mem_lexemes mem (List.ne_nil_of_mem own))
  have code : .string ∉ l.own := by
    intro literal
    rw [unworded literal label own] at worded
    cases worded
  rw [← tiles.whole, whole]
  rw [whole] at chain
  exact ⟨spelled, runs_of_apart chain (whole ▸ tiles.visible) code⟩

/-- Names that keywords, types and `target` are only parts of, with some that they are all of. -/
theorem keepsWords_in_model :
    let lexer : Lexer := ⟨{}, by decide, .prepending⟩
    let s := (lexer.tokenizeLine "model \x7b".toList .initial).state
    let line := "real realm = fortune; for (i in 1:int_) target += targets[i];\n".toList
    (s.Reachable ∧ lexer.clusters.PartsAtMarks ∧ ∀ c ∈ line, Segmentation.isPrepended c = false) ∧
      KeepsWords line (lexer.tokenizeLine line s).lexemes := by
  intro lexer s line
  have marks : lexer.clusters.PartsAtMarks := Segmentation.prepending_partsAtMarks
  have all_unmarked : line.all (fun c => !Segmentation.isPrepended c) = true := by decide +kernel
  have unmarked : ∀ c ∈ line, Segmentation.isPrepended c = false := fun c mem => by
    simpa using List.all_eq_true.1 all_unmarked c mem
  exact ⟨⟨.line _ Segmentation.prepending_partsAscii _ .initial, marks, unmarked⟩,
    keepsWords_tokenizeLine lexer marks s unmarked⟩

end Lines

end StanHighlight

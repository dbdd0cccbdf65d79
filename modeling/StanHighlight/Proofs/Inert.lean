import Mathlib.Data.List.TakeWhile
import StanHighlight.Proofs.Literal

/-!
Text that no rule looks into. A rule may look beyond the token that it takes, at the next
character or over blanks at a bracket, a word or an equals sign. Where the text behind has only
a quote or a slash behind its blanks, nothing is there to be found. So rules decide in front of
such a text as they decide in front of nothing.
-/

namespace StanHighlight

/-- A text that starts with a blank or a quote and has a quote, a slash or nothing behind its
blanks. -/
structure Inert (rest : Text) : Prop where
  edge : Edge rest
  beyond : ∀ c ∈ (Text.trimStart rest).head?, c = '"' ∨ c = '/'

def Step.onto (rest : Text) (s : Step) : Step := { s with rest := s.rest ++ rest }

@[simp] theorem Step.onto_single (here : LineState) (own : List Label) (t after rest : Text) :
    (Step.single here own t after).onto rest = Step.single here own t (after ++ rest) := rfl

@[simp] theorem Step.onto_mk (pieces : List Piece) (here : LineState) (after rest : Text) :
    Step.onto rest ⟨pieces, here, after⟩ = ⟨pieces, here, after ++ rest⟩ := rfl

namespace Inert

variable {rest : Text}

theorem quote (t : Text) : Inert ('"' :: t) where
  edge := by
    rintro c ⟨⟩
    exact .inl rfl
  beyond := by
    rw [Text.trimStart_cons_of_not_isSpace (by decide)]
    rintro c ⟨⟩
    exact .inl rfl

theorem blanks (h : ∀ c ∈ rest, Text.isSpace c = true) : Inert rest where
  edge := fun c first => .inr (h c (List.mem_of_mem_head? first))
  beyond := by
    rw [Text.trimStart, List.dropWhile_eq_nil_iff.2 h]
    rintro _ ⟨⟩

theorem blanks_slash {gap : Text} (h : ∀ c ∈ gap, Text.isSpace c = true) (some_blank : gap ≠ [])
    (t : Text) : Inert (gap ++ '/' :: t) where
  edge := by
    obtain ⟨c, gap, rfl⟩ := List.exists_cons_of_ne_nil some_blank
    rintro d ⟨⟩
    exact .inr (h c List.mem_cons_self)
  beyond := by
    rw [Text.trimStart, List.dropWhile_append_of_pos h]
    rintro c ⟨⟩
    exact .inr rfl

theorem beyond_ne (h : Inert rest) {c : Char} (quote : c ≠ '"') (slash : c ≠ '/') :
    (Text.trimStart rest).head? ≠ some c := fun first =>
  (h.beyond c first).elim quote slash

/-- A mark that some rule looks for at the next character is not at the start of the text
behind. -/
theorem head?_append (h : Inert rest) {c : Char} (visible : Text.isSpace c = false)
    (other : c ≠ '"') (t : Text) : (t ++ rest).head? = some c ↔ t.head? = some c := by
  cases t with
  | nil => simp [h.edge.head_ne visible other]
  | cons d t => rfl

theorem word_append (h : Inert rest) (t : Text) : Text.word (t ++ rest) = Text.word t :=
  (Text.takeWhile_append_of_head h.edge.not_isWordChar t).1

theorem afterWord_append (h : Inert rest) (t : Text) :
    Text.afterWord (t ++ rest) = Text.afterWord t ++ rest :=
  (Text.takeWhile_append_of_head h.edge.not_isWordChar t).2

theorem word_trimStart (h : Inert rest) : Text.word (Text.trimStart rest) = [] := by
  cases found : Text.trimStart rest with
  | nil => rfl
  | cons c t =>
    have first := h.beyond c (by rw [found]; rfl)
    rcases first with rfl | rfl <;> exact List.takeWhile_cons_of_neg (by decide)

/-- No spelling without blanks and quotes goes on in the text behind. -/
theorem after?_append (h : Inert rest) {w : Text}
    (visible : w.all (fun c => !Text.isSpace c && c != '"') = true) (t : Text) :
    (t ++ rest).after? w = (t.after? w).map (· ++ rest) := by
  induction w generalizing t with
  | nil => simp [Text.after?]
  | cons o w ih =>
    simp only [List.all_cons, Bool.and_eq_true, Bool.not_eq_true', bne_iff_ne, ne_eq] at visible
    obtain ⟨⟨blank, quote⟩, visible⟩ := visible
    cases t with
    | nil =>
      cases rest with
      | nil => rfl
      | cons c rest =>
        have other : c ≠ o := fun same => h.edge.head_ne blank quote (congrArg some same)
        simp [Text.after?, other]
    | cons c t =>
      rw [List.cons_append, Text.after?, Text.after?]
      split
      · exact ih (by simpa using visible) t
      · rfl

end Inert

/-- What a text starts with stays the same in front of more text if it ends in the text. -/
theorem Text.takeWhile_append_of_stops {p : Char → Bool} {t : Text} (stops : t.dropWhile p ≠ [])
    (rest : Text) :
    (t ++ rest).takeWhile p = t.takeWhile p ∧ (t ++ rest).dropWhile p = t.dropWhile p ++ rest := by
  induction t with
  | nil => exact absurd rfl stops
  | cons c t ih =>
    cases h : p c with
    | true => simpa [h] using ih (by simpa [h] using stops)
    | false => simp [h]

/-- Behind blanks there is nothing, and then only what follows them decides; or there is something,
and then the same is there in front of any other text. -/
theorem Text.trimStart_append_cases (t rest : Text) :
    (trimStart t = [] ∧ trimStart (t ++ rest) = trimStart rest) ∨
      (trimStart t ≠ [] ∧ trimStart (t ++ rest) = trimStart t ++ rest ∧
        gap (t ++ rest) = gap t) := by
  induction t with
  | nil => exact .inl ⟨rfl, rfl⟩
  | cons c t ih =>
    cases blank : isSpace c with
    | true =>
      simp only [gap, List.cons_append, trimStart_cons_of_isSpace blank, List.takeWhile_cons, blank,
        if_true, List.cons.injEq, true_and]
      exact ih
    | false =>
      refine .inr ⟨?_, ?_, ?_⟩
      · simp [trimStart_cons_of_not_isSpace blank]
      · simp [trimStart_cons_of_not_isSpace blank]
      · simp [gap, blank]

namespace Inert

variable {rest : Text} {config : Config} {assigned : Bool} {here : LineState}

/-- A mark behind blanks is not in the text behind. -/
theorem head?_trimStart_append (h : Inert rest) {c : Char} (quote : c ≠ '"') (slash : c ≠ '/')
    (t : Text) :
    (Text.trimStart (t ++ rest)).head? = some c ↔ (Text.trimStart t).head? = some c := by
  rcases Text.trimStart_append_cases t rest with ⟨none, more⟩ | ⟨visible, more, _⟩
  · rw [more, none]
    simp [h.beyond_ne quote slash]
  · obtain ⟨d, after, found⟩ := List.exists_cons_of_ne_nil visible
    rw [more, found]
    rfl

theorem parenAfterGap?_append (h : Inert rest) (t : Text) : Rule.parenAfterGap? (t ++ rest) =
    (Rule.parenAfterGap? t).map fun found => (found.1, found.2 ++ rest) := by
  rcases Text.trimStart_append_cases t rest with ⟨none, more⟩ | ⟨visible, more, blanks⟩
  · have no_paren := h.beyond_ne (c := '(') (by decide) (by decide)
    simp only [Rule.parenAfterGap?, more, none]
    split
    · next found => simp [found] at no_paren
    · rfl
  · obtain ⟨c, after, found⟩ := List.exists_cons_of_ne_nil visible
    by_cases paren : c = '('
    · subst paren
      simp [Rule.parenAfterGap?, more, found, blanks]
    · simp [Rule.parenAfterGap?, more, found, paren]

theorem heads_append (h : Inert rest) (head : Piece) (inside : LineState) (e : Enclosure)
    (after : Text) : Rule.heads head inside e (after ++ rest) =
      (Rule.heads head inside e after).onto rest := by
  simp only [Rule.heads, h.parenAfterGap?_append]
  cases Rule.parenAfterGap? after <;> rfl

theorem afterEquals?_append (h : Inert rest) (t : Text) :
    Rule.afterEquals? (t ++ rest) = (Rule.afterEquals? t).map (· ++ rest) := by
  have sign : rest.head? ≠ some '=' := h.edge.head_ne (by decide) (by decide)
  cases t with
  | nil =>
    rw [List.nil_append]
    unfold Rule.afterEquals?
    split
    · exact absurd rfl sign
    · rfl
  | cons c t =>
    by_cases equals : c = '='
    · subst equals
      cases t with
      | nil => simp [Rule.afterEquals?, sign]
      | cons d t =>
        by_cases doubled : d = '='
        · simp [Rule.afterEquals?, doubled]
        · simp [Rule.afterEquals?, doubled]
    · simp [Rule.afterEquals?, equals]

/-- Nothing that may stand between open brackets follows the blanks of the text behind. -/
theorem dropWhile_isOpenDimension (h : Inert rest) :
    rest.dropWhile Rule.isOpenDimension = Text.trimStart rest := by
  have blanks : ∀ c ∈ Text.gap rest, Rule.isOpenDimension c = true := by
    intro c mem
    have blank := List.all_eq_true.1 (List.all_takeWhile (p := Text.isSpace)) c mem
    simp [Rule.isOpenDimension, blank]
  calc
    rest.dropWhile Rule.isOpenDimension =
        (Text.gap rest ++ Text.trimStart rest).dropWhile Rule.isOpenDimension := by
      rw [Text.gap_append_trimStart]
    _ = (Text.trimStart rest).dropWhile Rule.isOpenDimension :=
      List.dropWhile_append_of_pos blanks
    _ = Text.trimStart rest := by
      cases found : Text.trimStart rest with
      | nil => rfl
      | cons c t =>
        refine List.dropWhile_cons_of_neg ?_
        rcases h.beyond c (by rw [found]; rfl) with rfl | rfl <;> decide

theorem openDimensions?_append (h : Inert rest) (t : Text) : Rule.openDimensions? (t ++ rest) =
    (Rule.openDimensions? t).map fun found => (found.1, found.2 ++ rest) := by
  rcases Text.trimStart_append_cases t rest with ⟨none, more⟩ | ⟨visible, more, blanks⟩
  · have no_bracket := h.beyond_ne (c := '[') (by decide) (by decide)
    simp only [Rule.openDimensions?, more, none]
    split
    · next found => simp [found] at no_bracket
    · rfl
  · obtain ⟨c, inside, found⟩ := List.exists_cons_of_ne_nil visible
    by_cases bracket : c = '['
    · subst bracket
      simp only [Rule.openDimensions?, more, found, List.cons_append, blanks]
      by_cases stops : inside.dropWhile Rule.isOpenDimension = []
      · have no_bracket := h.beyond_ne (c := ']') (by decide) (by decide)
        have all_open := List.dropWhile_eq_nil_iff.1 stops
        rw [List.dropWhile_append_of_pos all_open, h.dropWhile_isOpenDimension, stops]
        split
        · next found => simp [found] at no_bracket
        · rfl
      · obtain ⟨taken, dropped⟩ := Text.takeWhile_append_of_stops stops rest
        obtain ⟨d, after, closed⟩ := List.exists_cons_of_ne_nil stops
        rw [taken, dropped, closed]
        by_cases close : d = ']'
        · simp [close]
        · simp [close]
    · simp [Rule.openDimensions?, more, found, bracket]

theorem dimensions_append (h : Inert rest) (t : Text) : Rule.dimensions (t ++ rest) =
    ((Rule.dimensions t).1, (Rule.dimensions t).2 ++ rest) := by
  simp only [Rule.dimensions, h.openDimensions?_append]
  cases Rule.openDimensions? t <;> rfl

/-- The element type of an array is the same in front of more text, or there is none. -/
theorem arrayOf_append (h : Inert rest) (t : Text) :
    Rule.arrayOf (t ++ rest) = ((Rule.arrayOf t).1, (Rule.arrayOf t).2 ++ rest) ∨
      (Text.word (Rule.arrayOf t).2 = [] ∧ Text.word (Rule.arrayOf (t ++ rest)).2 = []) := by
  have array : ((t ++ rest).after? Rule.arrayWord).bind Rule.openDimensions? =
      ((t.after? Rule.arrayWord).bind Rule.openDimensions?).map
        fun found => (found.1, found.2 ++ rest) := by
    rw [h.after?_append (by decide)]
    cases t.after? Rule.arrayWord with
    | none => rfl
    | some after => exact h.openDimensions?_append after
  unfold Rule.arrayOf
  rw [array]
  cases (t.after? Rule.arrayWord).bind Rule.openDimensions? with
  | none => exact .inl rfl
  | some found =>
    rcases Text.trimStart_append_cases found.2 rest with ⟨none, more⟩ | ⟨_, more, blanks⟩
    · refine .inr ⟨?_, ?_⟩
      · simp only [none]
        rfl
      · simp only [Option.map_some, more, h.word_trimStart]
    · refine .inl ?_
      simp only [Option.map_some, more, blanks]

theorem returnType?_append (h : Inert rest) (t : Text) : Rule.returnType? (t ++ rest) =
    (Rule.returnType? t).map fun found => (found.1, found.2 ++ rest) := by
  rcases h.arrayOf_append t with array | ⟨none, still_none⟩
  · simp only [Rule.returnType?, array, h.word_append, h.afterWord_append, h.dimensions_append]
    split <;> rfl
  · have no_type : Vocabulary.returnTypes.contains (String.ofList []) = false := by decide
    simp only [Rule.returnType?, none, still_none, no_type]
    rfl

theorem startsSignature_append (h : Inert rest) (t : Text) :
    Rule.startsSignature (t ++ rest) = Rule.startsSignature t := by
  have no_letter : (Text.trimStart rest).head?.any Char.isAlpha = false := by
    cases found : (Text.trimStart rest).head? with
    | none => rfl
    | some c => rcases h.beyond c found with rfl | rfl <;> decide
  rcases Text.trimStart_append_cases t rest with ⟨none, more⟩ | ⟨visible, more, blanks⟩
  · simp [Rule.startsSignature, more, none, no_letter]
  · have letter : (Text.trimStart t ++ rest).head? = (Text.trimStart t).head? := by
      obtain ⟨c, after, found⟩ := List.exists_cons_of_ne_nil visible
      rw [found]
      rfl
    have paren : ∀ t : Text, ((Text.trimStart (t ++ rest)).head? == some '(') =
        ((Text.trimStart t).head? == some '(') := fun t => by
      rw [Bool.eq_iff_iff]
      simpa using h.head?_trimStart_append (by decide) (by decide) t
    simp only [Rule.startsSignature, more, blanks, letter, h.afterWord_append, paren]

/-- Where a quote, a slash or nothing stands, no word of a header does. -/
theorem spacedWords?_eq_none {w t : Text} {ws : List Text}
    (letter : w.head?.any Char.isAlpha = true) (h : ∀ c ∈ t.head?, c = '"' ∨ c = '/') :
    Rule.spacedWords? (w :: ws) t = none := by
  cases found : Rule.spacedWords? (w :: ws) t with
  | none => rfl
  | some words =>
    obtain ⟨more, rfl⟩ := Rule.prefix_of_spacedWords? found
    cases w with
    | nil => cases letter
    | cons c w =>
      rcases h c rfl with rfl | rfl <;> cases letter

theorem spacedWords?_append (h : Inert rest) {ws : List Text}
    (visible : ∀ w ∈ ws, w.all (fun c => !Text.isSpace c && c != '"') = true)
    (letter : ∀ w ∈ ws, w.head?.any Char.isAlpha = true) (t : Text) :
    Rule.spacedWords? ws (t ++ rest) =
      (Rule.spacedWords? ws t).map fun found => (found.1, found.2 ++ rest) := by
  induction ws generalizing t with
  | nil => rfl
  | cons w ws ih =>
    obtain ⟨visible_first, visible_others⟩ := List.forall_mem_cons.1 visible
    obtain ⟨_, letter_others⟩ := List.forall_mem_cons.1 letter
    have opened := h.after?_append visible_first t
    cases ws with
    | nil =>
      simp only [Rule.spacedWords?, opened]
      cases t.after? w <;> rfl
    | cons v vs =>
      simp only [Rule.spacedWords?, opened]
      cases t.after? w with
      | none => rfl
      | some after =>
        have first : v.head?.any Char.isAlpha = true := letter_others v List.mem_cons_self
        simp only [Option.map_some]
        rcases Text.trimStart_append_cases after rest with ⟨blank, more⟩ | ⟨_, more, blanks⟩
        · have here : Rule.spacedWords? (v :: vs) [] = none := spacedWords?_eq_none first (by simp)
          have behind : Rule.spacedWords? (v :: vs) (Text.trimStart rest) = none :=
            spacedWords?_eq_none first h.beyond
          simp [more, blank, here, behind]
        · simp only [more, blanks, ih visible_others letter_others]
          split
          · rfl
          · cases Rule.spacedWords? (v :: vs) (Text.trimStart after) <;> rfl

theorem headerOf?_append (h : Inert rest) (sec : Section) (t : Text) :
    Rule.headerOf? (t ++ rest) sec =
      (Rule.headerOf? t sec).map fun found => (found.1, found.2.1, found.2.2 ++ rest) := by
  have visible : ∀ w ∈ sec.words.map String.toList,
      w.all (fun c => !Text.isSpace c && c != '"') = true := by cases sec <;> decide
  have letter : ∀ w ∈ sec.words.map String.toList, w.head?.any Char.isAlpha = true := by
    cases sec <;> decide
  simp only [Rule.headerOf?, h.spacedWords?_append visible letter]
  cases Rule.spacedWords? (sec.words.map String.toList) t with
  | none => rfl
  | some found =>
    simp only [Option.map_some]
    rcases Text.trimStart_append_cases found.2 rest with ⟨none, more⟩ | ⟨some_text, more, blanks⟩
    · have no_brace := h.beyond_ne (c := '{') (by decide) (by decide)
      simp only [more, none]
      split
      · next body => simp [body] at no_brace
      · rfl
    · obtain ⟨c, after, body⟩ := List.exists_cons_of_ne_nil some_text
      by_cases brace : c = '{'
      · subst brace
        simp [more, blanks, body]
      · simp [more, body, brace]

theorem header?_append (h : Inert rest) (t : Text) : Rule.header? (t ++ rest) =
    (Rule.header? t).map fun found => (found.1, found.2.1, found.2.2.1, found.2.2.2 ++ rest) := by
  rw [Rule.header?, Rule.header?, List.map_findSome?]
  congr 1
  funext sec
  rw [Function.comp_apply, h.headerOf?_append]
  cases Rule.headerOf? t sec <;> rfl

/-- No token but a literal starts in the text behind. -/
theorem step?_eq_none (h : Inert rest) {rule : Rule} (other : rule ≠ .string) :
    Rule.step? config assigned here rest rule = none := by
  cases rest with
  | nil => exact Rule.step?_nil
  | cons c t =>
    refine Rule.step?_eq_none ?_
    rcases h.edge c rfl with rfl | blank
    · cases rule with
      | string => exact absurd rfl other
      | _ => decide
    · exact Rule.startsAt_of_isSpace blank rule

/-- A sign between a word and its value is not in the text behind. -/
theorem isSome_afterEquals?_append (h : Inert rest) (t : Text) :
    (Rule.afterEquals? (Text.trimStart (t ++ rest))).isSome =
      (Rule.afterEquals? (Text.trimStart t)).isSome := by
  rcases Text.trimStart_append_cases t rest with ⟨none, more⟩ | ⟨_, more, _⟩
  · have no_sign := h.beyond_ne (c := '=') (by decide) (by decide)
    rw [more, none]
    unfold Rule.afterEquals?
    split
    · next found => simp [found] at no_sign
    · rfl
  · rw [more, h.afterEquals?_append, Option.isSome_map]

theorem nameSlot?_append (h : Inert rest) (w after : Text) : Rule.nameSlot? here w (after ++ rest) =
    (Rule.nameSlot? here w after).map (Step.onto rest) := by
  simp only [Rule.nameSlot?, h.heads_append, h.dimensions_append, h.isSome_afterEquals?_append]
  repeat' split
  all_goals rfl

theorem keyword?_append (h : Inert rest) (w after : Text) : Rule.keyword? here w (after ++ rest) =
    (Rule.keyword? here w after).map (Step.onto rest) := by
  have header : (Rule.parenAfterGap? (after ++ rest)).isSome =
      (Rule.parenAfterGap? after).isSome := by
    rw [h.parenAfterGap?_append, Option.isSome_map]
  simp only [Rule.keyword?, h.heads_append, header]
  split
  · rfl
  · split
    · rfl
    · split
      case h_1 =>
        -- a truncation opens only if its bracket follows at once
        cases after with
        | nil =>
          have no_bracket : rest.head? ≠ some '[' := h.edge.head_ne (by decide) (by decide)
          rw [List.nil_append]
          split
          · simp at no_bracket
          · rfl
        | cons c after =>
          by_cases bracket : c = '['
          · subst bracket
            rfl
          · simp [bracket]
      case h_7 => split <;> rfl
      all_goals rfl

theorem identifier_append (h : Inert rest) (w after : Text) :
    Rule.identifier here w (after ++ rest) = (Rule.identifier here w after).onto rest := by
  cases after with
  | nil =>
    have no_paren : rest.head? ≠ some '(' := h.edge.head_ne (by decide) (by decide)
    simp only [Rule.identifier, List.nil_append]
    split
    · simp at no_paren
    · rfl
  | cons c after =>
    by_cases paren : c = '('
    · subst paren
      rfl
    · simp [Rule.identifier, paren]

theorem wordStep_append (h : Inert rest) (w after : Text) :
    Rule.wordStep here w (after ++ rest) = (Rule.wordStep here w after).onto rest := by
  simp only [Rule.wordStep, h.nameSlot?_append, h.keyword?_append, h.identifier_append]
  split
  · rfl
  · split
    · rfl
    · cases Rule.nameSlot? here w after with
      | some s => rfl
      | none => cases Rule.keyword? (Rule.passDistribution here) w after <;> rfl

theorem blockCommentBegin?_append (h : Inert rest) (c : Char) (t : Text) :
    Rule.blockCommentBegin? here (c :: t ++ rest) =
      (Rule.blockCommentBegin? here (c :: t)).map (Step.onto rest) := by
  have star : rest.head? ≠ some '*' := h.edge.head_ne (by decide) (by decide)
  cases t with
  | nil => cases rest <;> simp_all [Rule.blockCommentBegin?]
  | cons d t =>
    by_cases opens : c = '/' ∧ d = '*'
    · obtain ⟨rfl, rfl⟩ := opens
      cases t with
      | nil =>
        simp only [Rule.blockCommentBegin?, List.cons_append, List.nil_append]
        split
        · simp at star
        · rfl
      | cons e t =>
        by_cases second : e = '*'
        · subst second
          have ends := h.head?_append (c := '/') (by decide) (by decide) t
          simp only [Rule.blockCommentBegin?, List.cons_append, ends]
          split <;> rfl
        · simp [Rule.blockCommentBegin?, second]
    · have shut : ∀ t, Rule.blockCommentBegin? here (c :: d :: t) = none := by
        intro t
        unfold Rule.blockCommentBegin?
        split
        · simp_all
        · rfl
      simp [shut]

theorem blockCommentEnd?_append (h : Inert rest) (c : Char) (t : Text) :
    Rule.blockCommentEnd? here (c :: t ++ rest) =
      (Rule.blockCommentEnd? here (c :: t)).map (Step.onto rest) := by
  have slash : rest.head? ≠ some '/' := h.edge.head_ne (by decide) (by decide)
  cases t with
  | nil => cases rest <;> simp_all [Rule.blockCommentEnd?]
  | cons d t =>
    by_cases ends : c = '*' ∧ d = '/'
    · obtain ⟨rfl, rfl⟩ := ends
      rfl
    · simp_all [Rule.blockCommentEnd?]

theorem documentationTag?_append (h : Inert rest) (c : Char) (t : Text) :
    Rule.documentationTag? here (c :: t ++ rest) =
      (Rule.documentationTag? here (c :: t)).map (Step.onto rest) := by
  by_cases first : c = '@'
  · subst first
    simp only [Rule.documentationTag?, List.cons_append, h.word_append, h.afterWord_append]
    split <;> rfl
  · simp [Rule.documentationTag?, first]

theorem constraintsBegin?_append (h : Inert rest) (c : Char) (t : Text) :
    Rule.constraintsBegin? here (c :: t ++ rest) =
      (Rule.constraintsBegin? here (c :: t)).map (Step.onto rest) := by
  have equals := h.head?_append (c := '=') (by decide) (by decide) t
  have dash := h.head?_append (c := '-') (by decide) (by decide) t
  by_cases first : c = '<'
  · subst first
    simp only [Rule.constraintsBegin?, List.cons_append, ne_eq, equals, dash]
    split <;> rfl
  · simp [Rule.constraintsBegin?, first]

theorem constraintsEnd?_append (h : Inert rest) (c : Char) (t : Text) :
    Rule.constraintsEnd? here (c :: t ++ rest) =
      (Rule.constraintsEnd? here (c :: t)).map (Step.onto rest) := by
  have equals := h.head?_append (c := '=') (by decide) (by decide) t
  by_cases first : c = '>'
  · subst first
    simp only [Rule.constraintsEnd?, List.cons_append, equals]
    split <;> rfl
  · simp [Rule.constraintsEnd?, first]

theorem accumulator?_append (h : Inert rest) (t : Text) : Rule.accumulator? here (t ++ rest) =
    (Rule.accumulator? here t).map (Step.onto rest) := by
  simp only [Rule.accumulator?, h.after?_append (w := Rule.targetWord) (by decide)]
  cases t.after? Rule.targetWord with
  | none => rfl
  | some after =>
    simp only [Option.map_some]
    rcases Text.trimStart_append_cases after rest with ⟨none, more⟩ | ⟨some_text, more, blanks⟩
    · have no_plus := h.beyond_ne (c := '+') (by decide) (by decide)
      simp only [more, none]
      split
      · next sign => simp [sign] at no_plus
      · rfl
    · have no_equals : rest.head? ≠ some '=' := h.edge.head_ne (by decide) (by decide)
      simp only [more, blanks]
      generalize Text.trimStart after = sign at some_text
      match sign with
      | [c] => cases rest <;> simp_all
      | c :: d :: sign =>
        by_cases adds : c = '+' ∧ d = '='
        · obtain ⟨rfl, rfl⟩ := adds
          rfl
        · simp_all

theorem delimiter?_append (h : Inert rest) (c : Char) (t : Text) :
    Rule.delimiter? here (c :: t ++ rest) =
      (Rule.delimiter? here (c :: t)).map (Step.onto rest) := by
  by_cases comma : c = ','
  · subst comma
    rfl
  · by_cases bar : c = '|'
    · subst bar
      have doubled := h.head?_append (c := '|') (by decide) (by decide) t
      simp only [Rule.delimiter?, List.cons_append, doubled]
      split
      · split <;> rfl
      · rfl
    · simp [Rule.delimiter?, comma, bar]

theorem findSome?_congr {α β : Type} {f g : α → Option β} {as : List α}
    (h : ∀ a ∈ as, f a = g a) : as.findSome? f = as.findSome? g := by
  induction as with
  | nil => rfl
  | cons a as ih =>
    obtain ⟨first, others⟩ := List.forall_mem_cons.1 h
    rw [List.findSome?_cons, List.findSome?_cons, first, ih others]

/-- No operator goes on in the text behind. -/
theorem spelledOperator?_append (h : Inert rest) (t : Text) :
    Rule.spelledOperator? here (t ++ rest) =
      (Rule.spelledOperator? here t).map (Step.onto rest) := by
  have visible : ∀ entry ∈ Rule.operators,
      entry.1.all (fun c => !Text.isSpace c && c != '"') = true := by decide
  rw [Rule.spelledOperator?, Rule.spelledOperator?, List.map_findSome?]
  refine findSome?_congr fun entry mem => ?_
  rw [h.after?_append (visible entry mem), Function.comp_apply]
  cases t.after? entry.1 <;> rfl

theorem operator?_append (h : Inert rest) (c : Char) (t : Text) :
    Rule.operator? here (c :: t ++ rest) =
      (Rule.operator? here (c :: t)).map (Step.onto rest) := by
  by_cases question : c = '?'
  · subst question
    rfl
  · by_cases colon : c = ':'
    · subst colon
      simp only [Rule.operator?, List.cons_append]
      split <;> rfl
    · have spelled : ∀ t, Rule.operator? here (c :: t) = Rule.spelledOperator? here (c :: t) := by
        intro t
        simp [Rule.operator?, question, colon]
      rw [List.cons_append, spelled, spelled, ← List.cons_append, h.spelledOperator?_append]

theorem opener?_append (c : Char) (t rest : Text) : Rule.opener? assigned here (c :: t ++ rest) =
    (Rule.opener? assigned here (c :: t)).map (Step.onto rest) := by
  simp only [Rule.opener?, List.cons_append]
  split <;> split <;> simp_all

theorem close_append (bracket : Char) (stray : Enclosure) (t rest : Text) :
    Rule.close here bracket stray (t ++ rest) = (Rule.close here bracket stray t).onto rest := by
  unfold Rule.close
  split
  · split <;> rfl
  · rfl

theorem closer?_append (c : Char) (t rest : Text) : Rule.closer? here (c :: t ++ rest) =
    (Rule.closer? here (c :: t)).map (Step.onto rest) := by
  by_cases paren : c = ')'
  · subst paren
    exact congrArg some (close_append ..)
  · by_cases bracket : c = ']'
    · subst bracket
      exact congrArg some (close_append ..)
    · by_cases brace : c = '}'
      · subst brace
        exact congrArg some (close_append ..)
      · simp [Rule.closer?, paren, bracket, brace]

/-- In front of more text a rule takes what it takes in front of nothing, unless it is one of the
few that may run to the end of a line. -/
theorem step?_append (h : Inert rest) {rule : Rule}
    (bounded : rule ∉ [Rule.inclusion, .lineComment, .string]) (t : Text) :
    Rule.step? config assigned here (t ++ rest) rule =
      (Rule.step? config assigned here t rule).map (Step.onto rest) := by
  have other : rule ≠ .string := fun same => bounded (by simp [same])
  cases t with
  | nil => rw [List.nil_append, h.step?_eq_none other, Rule.step?_nil, Option.map_none]
  | cons c t =>
    cases rule with
    | inclusion | lineComment | string => simp at bounded
    | blockCommentBegin => exact h.blockCommentBegin?_append c t
    | blockCommentEnd => exact h.blockCommentEnd?_append c t
    | documentationTag => exact h.documentationTag?_append c t
    | sectionHeader =>
      simp only [Rule.step?, Rule.sectionHeader?, h.header?_append]
      split
      · cases Rule.header? (c :: t) <;> rfl
      · rfl
    | functionDeclaration =>
      simp only [Rule.step?, Rule.functionDeclaration?, h.returnType?_append]
      cases Rule.returnType? (c :: t) with
      | none => rfl
      | some found =>
        simp only [Option.map_some, h.startsSignature_append]
        split <;> rfl
    | variableDeclaration =>
      simp only [Rule.step?, Rule.variableDeclaration?, h.word_append, h.afterWord_append]
      split <;> rfl
    | constraintsBegin => exact h.constraintsBegin?_append c t
    | initializer =>
      simp only [Rule.step?, Rule.initializer?, h.afterEquals?_append]
      cases Rule.afterEquals? (c :: t) <;> rfl
    | constraintEquals =>
      simp only [Rule.step?, Rule.constraintEquals?, h.afterEquals?_append]
      cases Rule.afterEquals? (c :: t) <;> rfl
    | constraintsEnd => exact h.constraintsEnd?_append c t
    | number =>
      simp only [Rule.step?, Rule.number?, Text.numeral?_append_of_edge h.edge]
      cases Text.numeral? (c :: t) with
      | none => rfl
      | some found =>
        simp only [Option.map_some, h.word_append, h.afterWord_append]
        split <;> rfl
    | accumulator => exact h.accumulator?_append (c :: t)
    | word =>
      have first : (c :: t ++ rest).head? = (c :: t).head? := rfl
      simp only [Rule.step?, Rule.word?, h.word_append, h.afterWord_append, h.wordStep_append,
        first]
      split <;> rfl
    | sampling =>
      simp only [Rule.step?, Rule.sampling?, List.cons_append]
      split <;> split <;> simp_all
    | terminator =>
      simp only [Rule.step?, Rule.terminator?, List.cons_append]
      split <;> split <;> simp_all
    | delimiter => exact h.delimiter?_append c t
    | opener => exact opener?_append c t rest
    | closer => exact closer?_append c t rest
    | operator => exact h.operator?_append c t

end Inert

/-- A place where no literal, line comment or directive starts, so that every token that starts
there ends before blanks or a quote. -/
structure Tame (here : LineState) (t : Text) : Prop where
  some_text : t ≠ []
  bounded : here.innermost.isBlockComment = false →
    t.head? ≠ some '"' ∧ t.head? ≠ some '#' ∧ ¬['/', '/'] <+: t

/-- Other places are the ones where a comment, a literal or a directive starts. -/
theorem tame_or (here : LineState) {t : Text} (some_text : t ≠ []) : Tame here t ∨
    (here.innermost.isBlockComment = false ∧
      ∃ body, t = '/' :: '/' :: body ∨ t = '"' :: body ∨ t = '#' :: body) := by
  by_cases comment : here.innermost.isBlockComment = true
  · exact .inl ⟨some_text, fun code => by simp [comment] at code⟩
  · by_cases slashes : ['/', '/'] <+: t
    · obtain ⟨body, rfl⟩ := slashes
      exact .inr ⟨Bool.eq_false_iff.2 comment, body, .inl rfl⟩
    · obtain ⟨c, body, rfl⟩ := List.exists_cons_of_ne_nil some_text
      by_cases mark : c = '"' ∨ c = '#'
      · exact .inr ⟨Bool.eq_false_iff.2 comment, body, .inr (by simpa using mark)⟩
      · rw [not_or] at mark
        exact .inl ⟨some_text, fun _ => ⟨by simpa using mark.1, by simpa using mark.2, slashes⟩⟩

section Steps

variable {rest t : Text} {config : Config} {assigned : Bool} {here : LineState}

theorem Tame.step?_append (tame : Tame here t) (inert : Inert rest) {rule : Rule}
    (mem : rule ∈ here.innermost.rules) : Rule.step? config assigned here (t ++ rest) rule =
      (Rule.step? config assigned here t rule).map (Step.onto rest) := by
  by_cases bounded : rule ∉ [Rule.inclusion, .lineComment, .string]
  · exact inert.step?_append bounded t
  · simp only [List.mem_cons, List.not_mem_nil, or_false, not_not] at bounded
    have outside : rule ∉ Rule.blockComment := by rcases bounded with rfl | rfl | rfl <;> decide
    obtain ⟨quote, hash, slashes⟩ := tame.bounded (Region.isBlockComment_of_mem_rules mem outside)
    obtain ⟨c, t, rfl⟩ := List.exists_cons_of_ne_nil tame.some_text
    rw [List.cons_append]
    rcases bounded with rfl | rfl | rfl
    · have other : Rule.inclusion.startsAt c = false := by
        simpa [Rule.startsAt, Rule.marks, Rule.startsAtLetters] using hash
      rw [Rule.step?_eq_none other, Rule.step?_eq_none other, Option.map_none]
    · have more : ¬['/', '/'] <+: c :: (t ++ rest) := by
        rintro ⟨body, whole⟩
        obtain ⟨first, tail⟩ : '/' = c ∧ '/' :: body = t ++ rest := by simpa using whole
        cases t with
        | nil =>
          have slash : rest.head? ≠ some '/' := inert.edge.head_ne (by decide) (by decide)
          exact slash (congrArg List.head? tail).symm
        | cons d t =>
          obtain ⟨second, _⟩ : '/' = d ∧ body = t ++ rest := by simpa using tail
          subst first second
          exact slashes ⟨t, rfl⟩
      simp only [Rule.step?]
      rw [lineComment?_eq_none slashes hash, lineComment?_eq_none more hash, Option.map_none]
    · have other : Rule.string.startsAt c = false := by
        simpa [Rule.startsAt, Rule.marks, Rule.startsAtLetters] using quote
      rw [Rule.step?_eq_none other, Rule.step?_eq_none other, Option.map_none]

/-- Where no token may run on, the rule that decides is the same in front of more text. -/
theorem Tame.findSome?_append (tame : Tame here t) (inert : Inert rest) :
    here.innermost.rules.findSome? (Rule.step? config assigned here (t ++ rest)) =
      (here.innermost.rules.findSome? (Rule.step? config assigned here t)).map
        (Step.onto rest) := by
  rw [List.map_findSome?]
  exact Inert.findSome?_congr fun rule mem => tame.step?_append inert mem

end Steps

/-- Clusters are found from left to right: the first cluster of the start of a text is the first
cluster of the text, as far as it lies in that start. -/
def Segmentation.Sequential (g : Segmentation) : Prop :=
  ∀ t rest : Text, g.first t = min (g.first (t ++ rest)) t.length

theorem Segmentation.prepending_sequential : prepending.Sequential := by
  intro t rest
  simp only [prepending]
  by_cases marks : t.dropWhile isPrepended = []
  · have all_marks := List.dropWhile_eq_nil_iff.1 marks
    rw [List.takeWhile_append_of_pos all_marks, List.takeWhile_eq_self_iff.2 all_marks]
    simp only [List.length_append]
    omega
  · obtain ⟨taken, _⟩ := Text.takeWhile_append_of_stops marks rest
    have whole := congrArg List.length (t.takeWhile_append_dropWhile (p := isPrepended))
    have some_more := List.length_pos_iff.2 marks
    rw [List.length_append] at whole
    rw [taken, List.length_append]
    omega

namespace Step

variable {lexer : Lexer} {assigned : Bool} {here : LineState} {t rest : Text} {s : Step}

/-- What a rule takes, it takes in front of more text as well. -/
theorem take_append_of_some (tame : Tame here t) (inert : Inert rest)
    (found : here.innermost.rules.findSome? (Rule.step? lexer.config assigned here t) = some s) :
    take lexer assigned here (t ++ rest) = (take lexer assigned here t).onto rest := by
  unfold take
  rw [tame.findSome?_append inert, found]
  rfl

/-- Where no rule applies, the first cluster may reach into the text behind. -/
theorem take_append_of_none (sequential : lexer.clusters.Sequential) (tame : Tame here t)
    (inert : Inert rest)
    (none : here.innermost.rules.findSome? (Rule.step? lexer.config assigned here t) = none) :
    (lexer.clusters.first (t ++ rest) ≤ t.length ∧
      take lexer assigned here (t ++ rest) = (take lexer assigned here t).onto rest) ∨
      (t.length < lexer.clusters.first (t ++ rest) ∧
        take lexer assigned here t = ⟨[⟨t, here, []⟩], here, []⟩ ∧
        take lexer assigned here (t ++ rest) = skip lexer.clusters here (t ++ rest)) := by
  have first := sequential t rest
  unfold take
  rw [tame.findSome?_append inert, none]
  simp only [Option.map_none, Option.getD_none, and_true]
  by_cases within : lexer.clusters.first (t ++ rest) ≤ t.length
  · have same : lexer.clusters.first (t ++ rest) = lexer.clusters.first t := by omega
    have inside : lexer.clusters.first t ≤ t.length := same ▸ within
    refine .inl ⟨within, ?_⟩
    simp only [skip, onto, Segmentation.cluster, same]
    rw [List.take_append_of_le_length inside, List.drop_append_of_le_length inside]
  · have whole : lexer.clusters.first t = t.length := by omega
    refine .inr ⟨by omega, ?_⟩
    simp [skip, Segmentation.cluster, whole]

/-- What a step is in front of more text: the same, or one over plain text that reaches into it. -/
theorem take_append (sequential : lexer.clusters.Sequential) (tame : Tame here t)
    (inert : Inert rest) :
    take lexer assigned here (t ++ rest) = (take lexer assigned here t).onto rest ∨
      (t.length < lexer.clusters.first (t ++ rest) ∧
        take lexer assigned here t = ⟨[⟨t, here, []⟩], here, []⟩ ∧
        take lexer assigned here (t ++ rest) = skip lexer.clusters here (t ++ rest)) := by
  cases found : here.innermost.rules.findSome? (Rule.step? lexer.config assigned here t) with
  | some s => exact .inl (take_append_of_some tame inert found)
  | none => exact (take_append_of_none sequential tame inert found).imp_left And.right

end Step

end StanHighlight

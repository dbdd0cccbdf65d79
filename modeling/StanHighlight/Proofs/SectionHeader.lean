import StanHighlight.Proofs.FirstToken
import StanHighlight.Proofs.Quotation
import StanHighlight.Proofs.RawLine

/-!
Headers of program blocks. A header is found at the start of a text word by word, while a block is
looked up by the words that any text has. Both know the same headers. Outside all regions a header
opens its block, and inside a region none of its letters is part of one.
-/

namespace StanHighlight

namespace Text

variable {t w blanks rest : Text}

structure Trimmed (t : Text) : Prop where
  head : ∀ c ∈ t.head?, isSpace c = false
  last : ∀ c ∈ t.getLast?, isSpace c = false

theorem Trimmed.of_append {s t : Text} (h : Trimmed (s ++ t)) (some_text : t ≠ []) :
    ∃ c ∈ t.getLast?, isSpace c = false := by
  have last := h.last
  rw [List.getLast?_append_of_ne_nil s some_text] at last
  obtain ⟨c, ends⟩ := Option.ne_none_iff_exists'.1 (mt List.getLast?_eq_none_iff.1 some_text)
  exact ⟨c, ends, last c ends⟩

theorem Trimmed.trimStart {s : Text} (h : Trimmed (s ++ t)) (some_text : Text.trimStart t ≠ []) :
    Trimmed (Text.trimStart t) where
  head c first := by
    obtain ⟨rest, start⟩ := List.head?_eq_some_iff.1 first
    exact isSpace_of_trimStart start
  last c ends := by
    refine h.last c ?_
    rw [← gap_append_trimStart t, ← List.append_assoc, List.getLast?_append_of_ne_nil _ some_text]
    exact ends

theorem Trimmed.of_visible (visible : ∀ c ∈ w, isSpace c = false) : Trimmed w where
  head c first := visible c (List.mem_of_mem_head? first)
  last c ends := visible c (List.mem_of_getLast? ends)

theorem words_of_blank (h : trimStart t = []) : words t = [] := by
  rw [words]
  split
  · rfl
  · next found => simp [h] at found

/-- The first word of a text, and the words of the rest. -/
theorem words_of_visible {c : Char} (h : trimStart t = c :: rest) :
    words t = (c :: rest).takeWhile (fun d => !isSpace d) ::
      words (rest.dropWhile fun d => !isSpace d) := by
  rw [words]
  split
  · next found => simp [h] at found
  · next found =>
    obtain ⟨rfl, rfl⟩ := List.cons.inj (h.symm.trans found)
    rfl

/-- Blanks in front of a text add no words to it. -/
theorem words_trimStart (t : Text) : words (trimStart t) = words t := by
  cases found : trimStart t with
  | nil => rw [words_of_blank found, words_of_blank rfl]
  | cons c rest =>
    rw [words_of_visible found,
      words_of_visible (trimStart_cons_of_not_isSpace (isSpace_of_trimStart found) rest)]

theorem words_blanks_append (blank : ∀ c ∈ blanks, isSpace c = true) (t : Text) :
    words (blanks ++ t) = words t := by
  rw [← words_trimStart, trimStart, List.dropWhile_append_of_pos blank]
  exact words_trimStart t

theorem trimStart_of_words_nil (h : words t = []) : trimStart t = [] := by
  cases found : trimStart t with
  | nil => rfl
  | cons c rest => simp [words_of_visible found] at h

/-- A word in front of a blank or the end of a text. -/
theorem words_append (visible : ∀ c ∈ w, isSpace c = false) (some_char : w ≠ [])
    (ends : ∀ c ∈ rest.head?, isSpace c = true) : words (w ++ rest) = w :: words rest := by
  obtain ⟨c, w, rfl⟩ := List.exists_cons_of_ne_nil some_char
  have shown : ∀ d ∈ c :: w, (!isSpace d) = true := fun d mem => by simp [visible d mem]
  have stops : ∀ d ∈ rest.head?, (!isSpace d) = false := fun d first => by simp [ends d first]
  have start := trimStart_cons_of_not_isSpace (visible c List.mem_cons_self) (w ++ rest)
  obtain ⟨taken, _⟩ := takeWhile_append_of_head stops (c :: w)
  obtain ⟨_, left⟩ := takeWhile_append_of_head stops w
  rw [List.cons_append, words_of_visible start, ← List.cons_append, taken, left,
    List.takeWhile_eq_self_iff.2 shown,
    List.dropWhile_eq_nil_iff.2 fun d mem => shown d (List.mem_cons_of_mem c mem), List.nil_append]

theorem words_of_word (visible : ∀ c ∈ w, isSpace c = false) (some_char : w ≠ []) :
    words w = [w] := by
  have alone : words (w ++ []) = w :: words [] := words_append visible some_char (by simp)
  rwa [List.append_nil, words_of_blank (t := []) rfl] at alone

/-- A text with a word in front, taken apart behind it. -/
theorem exists_of_words_cons {ws : List Text} (h : words t = w :: ws)
    (head : ∀ c ∈ t.head?, isSpace c = false) :
    ∃ rest, t = w ++ rest ∧ words rest = ws ∧ ∀ c ∈ rest.head?, isSpace c = true := by
  cases t with
  | nil => simp [words_of_blank (t := []) rfl] at h
  | cons c t =>
    have visible := head c rfl
    rw [words_of_visible (trimStart_cons_of_not_isSpace visible t)] at h
    obtain ⟨rfl, rfl⟩ := List.cons.inj h
    refine ⟨t.dropWhile fun d => !isSpace d, ?_, rfl, fun d first => ?_⟩
    · simp [visible]
    · simpa [Option.mem_def.1 first] using List.head?_dropWhile_not (fun d => !isSpace d) t

theorem Trimmed.exists_cons (h : Trimmed t) (some_word : words t ≠ []) :
    ∃ c u, t = c :: u ∧ isSpace c = false := by
  cases t with
  | nil => exact absurd (words_of_blank rfl) some_word
  | cons c u => exact ⟨c, u, rfl, h.head c rfl⟩

/-- A text without blanks around it is one word if it has one. -/
theorem words_eq_singleton_iff (visible : ∀ c ∈ w, isSpace c = false) (some_char : w ≠ []) :
    words t = [w] ∧ Trimmed t ↔ t = w := by
  constructor
  · rintro ⟨words, trimmed⟩
    obtain ⟨more, rfl, none, _⟩ := exists_of_words_cons words trimmed.head
    have blanks := List.dropWhile_eq_nil_iff.1 (trimStart_of_words_nil none)
    by_cases some_more : more = []
    · rw [some_more, List.append_nil]
    · obtain ⟨c, last, shown⟩ := trimmed.of_append some_more
      simp [blanks c (List.mem_of_getLast? last)] at shown
  · rintro rfl
    exact ⟨words_of_word visible some_char, .of_visible visible⟩

/-- A text with more than one word and no blanks around it is its first word, blanks, and a text
with the other words. -/
theorem words_eq_cons_cons_iff (visible : ∀ c ∈ w, isSpace c = false) (some_char : w ≠ [])
    {v : Text} {vs : List Text} : words t = w :: v :: vs ∧ Trimmed t ↔
      ∃ blanks u, t = w ++ (blanks ++ u) ∧ blanks ≠ [] ∧ (∀ c ∈ blanks, isSpace c = true) ∧
        words u = v :: vs ∧ Trimmed u := by
  constructor
  · rintro ⟨first, trimmed⟩
    obtain ⟨more, rfl, later, blank⟩ := exists_of_words_cons first trimmed.head
    have words : words (Text.trimStart more) = v :: vs := by rw [words_trimStart, later]
    have some_rest : Text.trimStart more ≠ [] := by
      intro none
      rw [none, words_of_blank rfl] at words
      cases words
    refine ⟨gap more, Text.trimStart more, by simp, ?_, List.all_eq_true.1 List.all_takeWhile, words,
      trimmed.trimStart some_rest⟩
    cases more with
    | nil => exact absurd rfl some_rest
    | cons c more => simp [gap, blank c rfl]
  · rintro ⟨blanks, u, rfl, some_blank, blank, later, trimmed⟩
    obtain ⟨c, more, rfl, shown⟩ := trimmed.exists_cons (by simp [later])
    have ends : ∀ d ∈ (blanks ++ c :: more).head?, isSpace d = true := by
      rw [List.head?_append_of_ne_nil _ some_blank]
      exact fun d first => blank d (List.mem_of_mem_head? first)
    refine ⟨?_, ?_, ?_⟩
    · rw [words_append visible some_char ends, words_blanks_append blank, later]
    · rw [List.head?_append_of_ne_nil _ some_char]
      exact (Trimmed.of_visible visible).head
    · rw [← List.append_assoc, List.getLast?_append_of_ne_nil _ (List.cons_ne_nil c more)]
      exact trimmed.last

/-- Every visible character of a text lies in one of its words. -/
theorem mem_flatten_words {c : Char} (mem : c ∈ t) (visible : isSpace c = false) :
    c ∈ (words t).flatten := by
  induction t using words.induct with
  | case1 t none =>
    have blanks := List.dropWhile_eq_nil_iff.1 none
    simp [blanks c mem] at visible
  | case2 t d rest start ih =>
    rw [← gap_append_trimStart t, start, List.mem_append] at mem
    rw [words_of_visible start, List.flatten_cons, List.mem_append]
    rcases mem with blank | mem
    · simp [List.all_eq_true.1 List.all_takeWhile c blank] at visible
    · have shown := isSpace_of_trimStart start
      rw [← List.takeWhile_append_dropWhile (p := fun e => !isSpace e) (l := d :: rest),
        List.mem_append, List.dropWhile_cons_of_pos (by simp [shown])] at mem
      exact mem.imp_right ih

/-- Only in one way does a text end in blanks behind a visible character. -/
theorem append_blanks_inj {h h' w w' : Text} (same : h ++ w = h' ++ w')
    (blank : ∀ c ∈ w, isSpace c = true) (blank' : ∀ c ∈ w', isSpace c = true)
    (visible : ∃ c ∈ h.getLast?, isSpace c = false)
    (visible' : ∃ c ∈ h'.getLast?, isSpace c = false) : h = h' ∧ w = w' := by
  have apart : ∀ {h w : Text}, (∀ c ∈ w, isSpace c = true) →
      (∃ c ∈ h.getLast?, isSpace c = false) → trimStart (h ++ w).reverse = h.reverse := by
    intro h w blank ⟨c, last, visible⟩
    obtain ⟨front, rfl⟩ := List.getLast?_eq_some_iff.1 last
    have behind : ∀ c ∈ w.reverse, isSpace c = true := by simpa using blank
    simpa using (gap_append_cons behind visible front.reverse).2
  have fronts : h = h' := by
    rw [← List.reverse_inj, ← apart blank visible, ← apart blank' visible', same]
  subst fronts
  exact ⟨rfl, List.append_cancel_left same⟩

end Text

namespace Rule

variable {t h w r rest : Text} {ws : List Text} {sec : Section}

/-- Words with blanks between them are what a text starts with exactly if they are its words up to
some place. -/
theorem spacedWords?_eq_some_iff (some_word : ws ≠ [])
    (solid : ∀ w ∈ ws, w ≠ [] ∧ ∀ c ∈ w, Text.isSpace c = false) :
    spacedWords? ws t = some (h, rest) ↔ t = h ++ rest ∧ Text.words h = ws ∧ Text.Trimmed h := by
  induction ws generalizing t h with
  | nil => exact absurd rfl some_word
  | cons w ws ih =>
    obtain ⟨⟨some_char, visible⟩, solid⟩ := List.forall_mem_cons.1 solid
    cases ws with
    | nil =>
      have known : spacedWords? [w] t = some (h, rest) ↔ t = w ++ rest ∧ w = h := by
        simp [spacedWords?, Text.after?_eq_some_iff]
      rw [known, Text.words_eq_singleton_iff visible some_char]
      constructor <;> rintro ⟨rfl, rfl⟩ <;> exact ⟨rfl, rfl⟩
    | cons v vs =>
      rw [Text.words_eq_cons_cons_iff visible some_char]
      constructor
      · intro found
        simp only [spacedWords?] at found
        split at found
        · cases found
        · next after opened =>
          split at found
          · cases found
          · next some_gap =>
            obtain ⟨⟨u, left⟩, later, same⟩ := Option.map_eq_some_iff.1 found
            cases same
            obtain ⟨whole, spelled⟩ := (ih (List.cons_ne_nil v vs) solid).1 later
            refine ⟨?_, Text.gap after, u, by simp, some_gap, isSpace_of_mem_gap, spelled⟩
            rw [Text.after?_eq_some_iff.1 opened, List.append_assoc, List.append_assoc, ← whole,
              Text.gap_append_trimStart]
      · rintro ⟨rfl, blanks, u, rfl, some_blank, blank, later, trimmed⟩
        have next := (ih (List.cons_ne_nil v vs) solid).2
          ⟨(rfl : u ++ rest = u ++ rest), later, trimmed⟩
        obtain ⟨c, more, rfl, shown⟩ := trimmed.exists_cons (by simp [later])
        obtain ⟨gap, left⟩ := Text.gap_append_cons blank shown (more ++ rest)
        rw [List.cons_append] at next
        simp only [spacedWords?, List.append_assoc, List.cons_append, Text.after?_append, gap, left,
          next, if_neg some_blank, Option.map_some]

end Rule

namespace Section

/-- The words of a block are words. -/
theorem facts_of_mem_words (sec : Section) : ∀ w ∈ sec.words.map String.toList,
    w ≠ [] ∧ w.all Char.isAlpha = true := by
  cases sec <;> decide

/-- A block is named by a header exactly if the header's words are its own. -/
theorem ofHeader?_eq_some_iff {h : Text} {sec : Section} :
    ofHeader? h = some sec ↔ Text.words h = sec.words.map String.toList := by
  constructor
  · intro found
    have first : all.find? (fun s => s.words.map String.toList == Text.words h) = some sec := found
    have same := List.find?_some first
    exact (beq_iff_eq.1 same).symm
  · intro words
    rw [ofHeader?, words]
    cases sec <;> rfl

end Section

namespace Rule

variable {t h w r : Text} {sec : Section}

/-- A header of a block, the blanks behind it and what follows the brace, as they are captured. -/
theorem headerOf?_eq_some_iff : headerOf? t sec = some (h, w, r) ↔
    t = h ++ w ++ '{' :: r ∧ (∀ c ∈ w, Text.isSpace c = true) ∧ Text.Trimmed h ∧
      Section.ofHeader? h = some sec := by
  have visible : Text.isSpace '{' = false := by decide
  have some_word : sec.words.map String.toList ≠ [] := by cases sec <;> decide
  have solid : ∀ w ∈ sec.words.map String.toList, w ≠ [] ∧ ∀ c ∈ w, Text.isSpace c = false := by
    intro w mem
    obtain ⟨some_char, letters⟩ := sec.facts_of_mem_words w mem
    refine ⟨some_char, fun c inside => ?_⟩
    have letter := List.all_eq_true.1 letters c inside
    exact isSpace_of_isAlpha letter
  rw [Section.ofHeader?_eq_some_iff]
  unfold headerOf?
  constructor
  · intro found
    split at found
    · cases found
    · next header rest spaced =>
      obtain ⟨whole, words, trimmed⟩ := (spacedWords?_eq_some_iff some_word solid).1 spaced
      split at found
      · next body brace =>
        cases found
        refine ⟨?_, isSpace_of_mem_gap, trimmed, words⟩
        rw [whole, List.append_assoc, ← brace, Text.gap_append_trimStart]
      · cases found
  · rintro ⟨rfl, blank, trimmed, words⟩
    have spaced : spacedWords? (sec.words.map String.toList) (h ++ (w ++ '{' :: r)) =
        some (h, w ++ '{' :: r) :=
      (spacedWords?_eq_some_iff some_word solid).2 ⟨rfl, words, trimmed⟩
    obtain ⟨gap, brace⟩ := Text.gap_append_cons blank visible r
    rw [List.append_assoc, spaced]
    simp only [brace, gap]

/-- A header is made of letters and blanks. -/
theorem char_of_mem_header {c : Char} (known : Section.ofHeader? h = some sec) (mem : c ∈ h) :
    Text.isSpace c = true ∨ c.isAlpha = true := by
  cases visible : Text.isSpace c with
  | true => exact .inl rfl
  | false =>
    have inside := Text.mem_flatten_words mem visible
    rw [Section.ofHeader?_eq_some_iff.1 known] at inside
    obtain ⟨w, word, inside⟩ := List.mem_flatten.1 inside
    exact .inr (List.all_eq_true.1 (sec.facts_of_mem_words w word).2 c inside)

/-- A header in front of a brace, with the blanks between them, has no brace of its own and does not
end in blanks. -/
theorem brace_notMem_header (blank : ∀ c ∈ w, Text.isSpace c = true) (trimmed : Text.Trimmed h)
    (known : Section.ofHeader? h = some sec) :
    '{' ∉ h ++ w ∧ ∃ c ∈ h.getLast?, Text.isSpace c = false := by
  constructor
  · intro mem
    rcases List.mem_append.1 mem with mem | mem
    · have kind := char_of_mem_header known mem
      exact absurd kind (by decide)
    · exact absurd (blank '{' mem) (by decide)
  · have some_char : h ≠ [] := by
      rintro rfl
      have words := Section.ofHeader?_eq_some_iff.1 known
      rw [Text.words_of_blank (t := []) rfl] at words
      cases sec <;> cases words
    exact trimmed.of_append (s := []) some_char

/-- What is found at the start of a text is all that stands in front of a brace, taken apart into
the name of a block and blanks. -/
theorem header?_eq_some_iff : header? t = some (sec, h, w, r) ↔
    t = h ++ w ++ '{' :: r ∧ (∀ c ∈ w, Text.isSpace c = true) ∧ Text.Trimmed h ∧
      Section.ofHeader? h = some sec := by
  constructor
  · intro found
    exact headerOf?_eq_some_iff.1 (headerOf?_of_header? found)
  · rintro ⟨whole, blank, trimmed, known⟩
    have here := headerOf?_eq_some_iff.2 ⟨whole, blank, trimmed, known⟩
    cases found : header? t with
    | none =>
      have none := List.findSome?_eq_none_iff.1 found sec sec.mem_all
      simp [here] at none
    | some other =>
      -- of two headers in front of a brace each is all that stands there but the blanks
      obtain ⟨sec', h', w', r'⟩ := other
      obtain ⟨whole', blank', trimmed', known'⟩ :=
        headerOf?_eq_some_iff.1 (headerOf?_of_header? found)
      obtain ⟨apart, last⟩ := brace_notMem_header blank trimmed known
      obtain ⟨apart', last'⟩ := brace_notMem_header blank' trimmed' known'
      have front := Text.takeWhile_append_cons_of_notMem apart r
      have front' := Text.takeWhile_append_cons_of_notMem apart' r'
      rw [← whole] at front
      rw [← whole'] at front'
      obtain ⟨rfl, rfl⟩ :=
        Text.append_blanks_inj (front.1.symm.trans front'.1) blank blank' last last'
      obtain ⟨_, rfl⟩ := List.cons.inj (front.2.symm.trans front'.2)
      obtain rfl := Option.some.inj (known.symm.trans known')
      rfl

end Rule

section Outside

variable {lexer : Lexer} {here s : LineState} {t h w r : Text} {sec : Section}

/-- Where only the program is open nothing else is. -/
theorem innermost_eq_program_iff (reachable : s.Reachable) :
    s.innermost = .program ↔ s.depth = 0 := by
  obtain ⟨above, stack, other⟩ := (shape_of_reachable reachable).program
  have size : s.stack.length = s.depth + 1 := by
    simp [LineState.stack, LineState.frames, LineState.depth]
  rcases List.eq_nil_or_concat' above with rfl | ⟨above, r, rfl⟩
  · have program : s.innermost = .program := @LineState.innermost_of_stack s [] _ stack
    rw [stack] at size
    simpa [program] using size.symm
  · have inner : s.innermost = r :=
      @LineState.innermost_of_stack s (.program :: above) _ stack
    have visible : r ≠ .program := by
      rintro rfl
      simp at other
    rw [stack] at size
    simp only [List.length_cons, List.length_append] at size
    constructor
    · intro program
      exact absurd (inner.symm.trans program) visible
    · intro none
      omega

/-- Outside all regions a header opens its block. -/
theorem take_header (lexer : Lexer) (assigned : Bool) (program : here.innermost = .program)
    (found : Rule.header? t = some (sec, h, w, r)) :
    Step.take lexer assigned here t =
      .opening ⟨h, here.enter (.sectionBody sec), [.sectionName sec]⟩ w '{'
        (here.enter (.sectionBody sec)) (.sectionBody sec) r := by
  obtain ⟨whole, blank, trimmed, known⟩ := Rule.header?_eq_some_iff.1 found
  have applies : Rule.sectionHeader? here t =
      some (.opening ⟨h, here.enter (.sectionBody sec), [.sectionName sec]⟩ w '{'
        (here.enter (.sectionBody sec)) (.sectionBody sec) r) := by
    rw [Rule.sectionHeader?, if_pos program, found]
  obtain ⟨c, front, rfl⟩ :=
    List.exists_cons_of_ne_nil (Rule.headerOf?_ne_nil (Rule.headerOf?_of_header? found))
  have letter : c.isAlpha = true := by
    rcases Rule.char_of_mem_header known List.mem_cons_self with space | letter
    · simp [trimmed.head c rfl] at space
    · exact letter
  have level : here.innermost.isStatementLevel = true := by
    rw [program]
    rfl
  rw [whole] at applies ⊢
  refine take_of_level .sectionHeader level letter (by decide) applies ?_
  exact fun other before different => absurd (List.mem_singleton.1 before) different

/-- The rest of a line with a header is read inside the block. -/
theorem tokenizeLine_header (program : s.innermost = .program)
    (found : Rule.header? t = some (sec, h, w, r)) :
    lexer.tokenizeLine t s = (lexer.tokenizeLine r (s.enter (.sectionBody sec))).behind
      (Lexeme.place 0 (⟨h, s.enter (.sectionBody sec), [.sectionName sec]⟩ ::
        (Piece.ofText w (s.enter (.sectionBody sec)) [] ++
          [⟨['{'], s.enter (.sectionBody sec), [.begins (.sectionBody sec)]⟩])))
      (Text.byteLength (h ++ w ++ ['{'])) := by
  obtain ⟨rfl, blank, trimmed, known⟩ := Rule.header?_eq_some_iff.1 found
  have line : ∀ u : Text, h ++ w ++ '{' :: u = h ++ w ++ ['{'] ++ u := by simp
  have bare : Rule.header? (h ++ w ++ '{' :: Text.stripTerminator r) =
      some (sec, h, w, Text.stripTerminator r) :=
    Rule.header?_eq_some_iff.2 ⟨rfl, blank, trimmed, known⟩
  have strips := Text.stripTerminator_append_of_getLast? (w := h ++ w ++ ['{'])
    List.getLast?_concat (by decide) r
  have joined : Piece.joinPlain (⟨h, s.enter (.sectionBody sec), [.sectionName sec]⟩ ::
      Piece.ofText w (s.enter (.sectionBody sec)) []) =
        ⟨h, s.enter (.sectionBody sec), [.sectionName sec]⟩ ::
          Piece.ofText w (s.enter (.sectionBody sec)) [] := by
    rw [Piece.joinPlain_cons, Piece.joinPlain_ofText, Piece.join_of_labelled rfl]
  have taken := take_header lexer false program bare
  rw [line] at taken
  have whole := tokenizeLine_of_take_row lexer
    (⟨h, s.enter (.sectionBody sec), [.sectionName sec]⟩ ::
      Piece.ofText w (s.enter (.sectionBody sec)) [])
    (p := ⟨['{'], s.enter (.sectionBody sec), [.begins (.sectionBody sec)]⟩) rfl (by simp) (by simp)
    strips taken
  rw [line, whole, joined, List.cons_append]

end Outside

def Label.isTitle : Label → Bool
  | sectionName _ => true
  | _ => false

def Piece.IsUntitled (p : Piece) : Prop := p.own.any Label.isTitle = false

theorem Piece.IsUntitled.sectionName_notMem {p : Piece} (h : p.IsUntitled) (sec : Section) :
    .sectionName sec ∉ p.scope := by
  have outside : ∀ r : Region, .sectionName sec ∉ r.labels := by
    intro r
    unfold Region.labels
    split <;> simp
  rw [mem_scope_iff outside]
  intro mem
  have title := List.any_eq_false.1 h _ mem
  simp [Label.isTitle] at title

structure Step.StaysInside (s : Step) : Prop where
  inside : s.after.innermost ≠ .program
  untitled : ∀ p ∈ s.pieces, p.IsUntitled

namespace Rule

variable {config : Config} {assigned : Bool} {here around : LineState} {own : List Label}
  {t w after rest : Text} {s : Step}

theorem staysInside_single (inside : around.innermost ≠ .program)
    (untitled : own.any Label.isTitle = false) : (Step.single around own t rest).StaysInside :=
  ⟨inside, List.forall_mem_singleton.2 untitled⟩

theorem staysInside_opening {head : Piece} {gap : Text} {bracket : Char} {e : Enclosure}
    (inside : around.innermost ≠ .program) (untitled : head.IsUntitled) :
    (Step.opening head gap bracket around e rest).StaysInside := by
  refine ⟨inside, List.forall_mem_cons.2 ⟨untitled, List.forall_mem_append.2 ⟨?_, ?_⟩⟩⟩
  · intro p mem
    rw [Piece.IsUntitled, List.isEmpty_iff.1 (Piece.isPlain_of_mem_ofText mem)]
    rfl
  · exact List.forall_mem_singleton.2 rfl

theorem staysInside_heads {head : Piece} {r : Region} {e : Enclosure}
    (inside : head.around.innermost ≠ .program) (other : r ≠ .program)
    (untitled : head.IsUntitled) : (heads head (head.around.enter r) e after).StaysInside := by
  unfold heads
  split
  · exact staysInside_opening other untitled
  · exact ⟨inside, List.forall_mem_singleton.2 untitled⟩

theorem staysInside_nameSlot (inside : here.innermost ≠ .program)
    (found : nameSlot? here w after = some s) : s.StaysInside := by
  simp only [nameSlot?] at found
  repeat' split at found
  all_goals cases found
  all_goals first
    | exact staysInside_single inside rfl
    | exact staysInside_single (by simp) rfl
    | exact staysInside_heads (by simp) (by simp) rfl

theorem innermost_passDistribution (inside : here.innermost ≠ .program) :
    (passDistribution here).innermost ≠ .program := by
  unfold passDistribution
  split
  · simp
  · exact inside

theorem staysInside_keyword (inside : here.innermost ≠ .program)
    (found : keyword? here w after = some s) : s.StaysInside := by
  simp only [keyword?] at found
  split at found
  · cases found
    split
    · exact staysInside_single (by simp) rfl
    · exact staysInside_single inside rfl
  · repeat' split at found
    all_goals cases found
    all_goals first
      | exact staysInside_single inside rfl
      | exact staysInside_heads inside (by simp) rfl
      | exact staysInside_opening (by simp) rfl

theorem staysInside_identifier (inside : here.innermost ≠ .program) :
    (identifier here w after).StaysInside := by
  have called : ∀ word, (calledName here word).isTitle = false := by
    intro word
    unfold calledName
    split
    · rfl
    · split <;> rfl
  unfold identifier
  split
  · refine staysInside_opening (by simp) ?_
    rw [Piece.IsUntitled, List.any_cons, List.any_cons, called]
    rfl
  · apply staysInside_single inside
    cases Vocabulary.builtin? (String.ofList w) <;> rfl

theorem staysInside_wordStep (inside : here.innermost ≠ .program) :
    (wordStep here w after).StaysInside := by
  have passed := innermost_passDistribution inside
  unfold wordStep
  split
  · exact staysInside_single inside rfl
  · split
    · exact staysInside_single inside rfl
    · split
      · next found => exact staysInside_nameSlot inside found
      · cases found : keyword? (passDistribution here) w after with
        | none => exact staysInside_identifier passed
        | some s => exact staysInside_keyword passed found

end Rule

section Inside

variable {lexer : Lexer} {assigned : Bool} {here : LineState} {t : Text} {c : Char}

/-- No step at a blank or a letter leaves the regions of the program. -/
theorem Step.take_staysInside (inside : here.innermost ≠ .program)
    (char : Text.isSpace c = true ∨ c.isAlpha = true) :
    (take lexer assigned here (c :: t)).StaysInside := by
  obtain ⟨s, taken⟩ : ∃ s, s = take lexer assigned here (c :: t) := ⟨_, rfl⟩
  rw [← taken]
  rcases take_cases taken with ⟨rule, found⟩ | ⟨_, rfl⟩
  · have starts : rule.startsAt c = true := by
      rw [← Bool.not_eq_false]
      intro other
      cases (Rule.step?_eq_none other).symm.trans found
    rcases char with blank | letter
    · simp [Rule.startsAt_of_isSpace blank] at starts
    · have kinds := mem_of_startsAt_letter letter starts
      simp only [List.mem_cons, List.not_mem_nil, or_false] at kinds
      rcases kinds with rfl | rfl | rfl | rfl | rfl
      · simp [Rule.step?, Rule.sectionHeader?, inside] at found
      · simp only [Rule.step?, Rule.functionDeclaration?] at found
        repeat' split at found
        all_goals cases found
        exact Rule.staysInside_single (by simp) rfl
      · simp only [Rule.step?, Rule.variableDeclaration?] at found
        split at found <;> cases found
        exact Rule.staysInside_single (by simp) rfl
      · simp only [Rule.step?, Rule.accumulator?] at found
        repeat' split at found
        all_goals cases found
        exact ⟨by simp, List.forall_mem_singleton.2 rfl⟩
      · simp only [Rule.step?, Rule.word?] at found
        split at found <;> cases found
        exact Rule.staysInside_wordStep inside
  · exact ⟨inside, List.forall_mem_singleton.2 rfl⟩

/-- Inside a region no blanks and letters at the start of a text are part of the name of a block. -/
theorem untitled_cut (lexer : Lexer) (assigned : Bool) {front : Text} (rest : Text)
    (chars : ∀ c ∈ front, Text.isSpace c = true ∨ c.isAlpha = true)
    (inside : here.innermost ≠ .program) : ∃ ps qs,
      (cut lexer assigned here (front ++ rest)).1 = ps ++ qs ∧ front <+: Piece.texts ps ∧
        ∀ p ∈ ps, p.IsUntitled := by
  obtain ⟨line, whole⟩ : ∃ line, line = front ++ rest := ⟨_, rfl⟩
  rw [← whole]
  induction assigned, here, line using cut_induction lexer generalizing front with
  | nil =>
    obtain rfl := (List.append_eq_nil_iff.1 whole.symm).1
    exact ⟨[], [], by simp, by simp, by simp⟩
  | step assigned here line s nonempty taken covers ih =>
    cases front with
    | nil => exact ⟨[], _, rfl, by simp, by simp⟩
    | cons c front =>
      have stays : s.StaysInside := by
        rw [taken, whole]
        exact Step.take_staysInside inside (chars c List.mem_cons_self)
      rw [cut_eq nonempty, ← taken]
      have parts := covers.whole.trans whole
      rcases List.append_eq_append_iff.1 parts with ⟨more, longer, left⟩ | ⟨more, shorter, left⟩
      · -- the step ends inside the letters
        rw [longer] at chars
        obtain ⟨ps, qs, cuts, reach, untitled⟩ := ih
          (fun d mem => chars d (List.mem_append_right _ mem)) stays.inside left
        refine ⟨s.pieces ++ ps, qs, by simp [cuts], ?_, ?_⟩
        · rw [longer, Piece.texts_append]
          exact (List.prefix_append_right_inj _).2 reach
        · exact List.forall_mem_append.2 ⟨stays.untitled, untitled⟩
      · exact ⟨s.pieces, _, rfl, ⟨more, shorter.symm⟩, stays.untitled⟩

/-- Inside a region no lexeme that starts in such blanks and letters names a block. -/
theorem sectionName_notMem_of_chars {front rest : Text}
    (chars : ∀ c ∈ front, Text.isSpace c = true ∨ c.isAlpha = true)
    (strips : Text.stripTerminator (front ++ rest) = front ++ Text.stripTerminator rest)
    (inside : here.innermost ≠ .program) {l : Lexeme}
    (mem : l ∈ (lexer.tokenizeLine (front ++ rest) here).lexemes)
    (early : l.offset < Text.byteLength front) (sec : Section) : .sectionName sec ∉ l.scope := by
  intro title
  have titled : ¬l.toPiece.IsUntitled := fun untitled => untitled.sectionName_notMem sec title
  have labelled : l.toPiece.isPlain = false := by
    rw [Bool.eq_false_iff]
    intro plain
    refine titled ?_
    rw [Piece.IsUntitled, List.isEmpty_iff.1 plain]
    rfl
  rw [tokenizeLine_eq] at mem
  obtain ⟨before, behind, joined, offset⟩ := Lexeme.exists_of_mem_place mem
  obtain ⟨before', behind', split, texts⟩ := Piece.exists_of_joinPlain_eq labelled joined
  obtain ⟨ps, qs, cuts, reach, untitled⟩ := untitled_cut lexer false
    (Text.stripTerminator rest) chars inside
  rw [linePieces, strips, cuts, List.append_assoc] at split
  rcases Piece.append_eq_append_cons_cases split with ⟨more, rfl⟩ | ⟨more, rfl, _⟩
  · exact titled (untitled _ (by simp))
  · obtain ⟨beyond, reach⟩ := reach
    have size := congrArg Text.byteLength texts
    rw [Piece.texts_append, ← reach] at size
    simp only [Text.byteLength_append] at size
    omega

end Inside

/-- The two readings of headers agree: a header is found at the start of a text exactly if the text
is one that names a block, without blanks around it, in front of blanks and a brace, and the block
that is found is the one that is named. Outside all regions such a line begins with the name, the
blanks and the brace, all of them inside the block; inside a region nothing that begins within the
name is labelled as one. -/
theorem headers_agree (lexer : Lexer) (t : Text) :
    (∀ sec h w r, Rule.header? t = some (sec, h, w, r) ↔
      t = h ++ w ++ '{' :: r ∧ (∀ c ∈ w, Text.isSpace c = true) ∧ Text.Trimmed h ∧
        Section.ofHeader? h = some sec) ∧
    ∀ sec h w r, Rule.header? t = some (sec, h, w, r) → ∀ s : LineState, s.Reachable →
      (s.depth = 0 →
        lexer.tokenizeLine t s = (lexer.tokenizeLine r (s.enter (.sectionBody sec))).behind
          (Lexeme.place 0 (⟨h, s.enter (.sectionBody sec), [.sectionName sec]⟩ ::
            (Piece.ofText w (s.enter (.sectionBody sec)) [] ++
              [⟨['{'], s.enter (.sectionBody sec), [.begins (.sectionBody sec)]⟩])))
          (Text.byteLength (h ++ w ++ ['{']))) ∧
      (0 < s.depth → ∀ l ∈ (lexer.tokenizeLine t s).lexemes, l.offset < Text.byteLength h →
        ∀ other, .sectionName other ∉ l.scope) := by
  constructor
  · intro sec h w r
    exact Rule.header?_eq_some_iff
  · intro sec h w r found s reachable
    constructor
    · intro outside
      exact tokenizeLine_header ((innermost_eq_program_iff reachable).2 outside) found
    · intro open_ l mem early other
      obtain ⟨rfl, blank, trimmed, known⟩ := Rule.header?_eq_some_iff.1 found
      have inside : s.innermost ≠ .program := by
        intro program
        have none := (innermost_eq_program_iff reachable).1 program
        omega
      obtain ⟨_, c, last, visible⟩ := Rule.brace_notMem_header blank trimmed known
      have strips := Text.stripTerminator_append_of_getLast? last
        (by constructor <;> rintro rfl <;> cases visible) (w ++ '{' :: r)
      rw [List.append_assoc] at mem
      exact sectionName_notMem_of_chars (fun c => Rule.char_of_mem_header known) strips inside mem
        early other

/-- The header of a block with a wide blank between its words, outside the block and inside it. -/
theorem headers_agree_transformed_data :
    let lexer : Lexer := ⟨{}, by decide, .prepending⟩
    let header := "transformed\u3000data".toList
    let line := header ++ [' '] ++ '{' :: "\n".toList
    let inside := LineState.initial.enter (.sectionBody .transformedData)
    let s := (lexer.tokenizeLine line .initial).state
    (Rule.header? line = some (.transformedData, header, [' '], ['\n']) ∧
      LineState.initial.Reachable ∧ LineState.initial.depth = 0 ∧ s.Reachable ∧ 0 < s.depth) ∧
    Section.ofHeader? header = some .transformedData ∧
      lexer.tokenizeLine line .initial = (lexer.tokenizeLine ['\n'] inside).behind
        [⟨⟨header, inside, [.sectionName .transformedData]⟩, 0⟩, ⟨⟨[' '], inside, []⟩, 18⟩,
          ⟨⟨['{'], inside, [.begins (.sectionBody .transformedData)]⟩, 19⟩] 20 ∧
      ∀ l ∈ (lexer.tokenizeLine line s).lexemes, l.offset < 18 →
        ∀ other, .sectionName other ∉ l.scope := by
  intro lexer header line inside s
  have found : Rule.header? line = some (.transformedData, header, [' '], ['\n']) := by
    decide +kernel
  have reachable : s.Reachable := .line _ Segmentation.prepending_partsAscii _ .initial
  have deep : 0 < s.depth := by decide +kernel
  obtain ⟨known, lexed⟩ := headers_agree lexer line
  have outer := (lexed _ _ _ _ found .initial .initial).1 rfl
  have inner := (lexed _ _ _ _ found s reachable).2 deep
  exact ⟨⟨found, .initial, rfl, reachable, deep⟩, ((known _ _ _ _).1 found).2.2.2, outer, inner⟩

end StanHighlight

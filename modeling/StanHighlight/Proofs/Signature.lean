import StanHighlight.Proofs.Statement

/-!
Declarations of functions. A signature that stands on one line up to its parenthesis opens a
region for the parameters. A signature with a line break in it is taken for the declaration
of a variable, which the parameters and the body leave open until the braces around the
functions end it.
-/

namespace StanHighlight

variable {lexer : Lexer} {assigned : Bool} {here : LineState} {w rest : Text}
  {ts us ds : List Text}

/-- Brackets around `n` commas. -/
def openSizes (n : Nat) : List Text := [['[']] ++ List.replicate n [','] ++ [[']']]

inductive Dimensions : List Text → Prop
  | none : Dimensions []
  | some (n : Nat) : Dimensions (openSizes n)

def returnWords : List Text := Vocabulary.returnTypes.map String.toList

inductive ReturnType : List Text → Prop
  | plain {w : Text} {ds : List Text} (mem : w ∈ returnWords) (dimensions : Dimensions ds) :
      ReturnType (w :: ds)
  | array {w : Text} {ds : List Text} (n : Nat) (mem : w ∈ returnWords)
      (dimensions : Dimensions ds) : ReturnType (Rule.arrayWord :: (openSizes n ++ w :: ds))

theorem mem_typeWords_of_mem_returnWords : ∀ w ∈ returnWords, w ∈ typeWords := by decide

theorem keeps_openSizes {r : Region} (comment : r.isBlockComment = false) (n : Nat) :
    Keeps lexer r (openSizes n) := by
  refine keeps_brackets comment ?_
  induction n with
  | zero => exact .nil
  | succ n ih => exact .cons (keeps_comma rfl) ih

theorem Dimensions.keeps {r : Region} (dimensions : Dimensions ds)
    (comment : r.isBlockComment = false) : Keeps lexer r ds := by
  cases dimensions with
  | none => exact .nil
  | some n => exact keeps_openSizes comment n

/-- Where a type is not the beginning of a declaration its words change nothing. -/
theorem keeps_typeWord {r : Region} (mem : w ∈ typeWords)
    (inside : r = .declaration false ∨ r.isCalm = true ∧ r.isStatementLevel = false) :
    Keeps lexer r [w] := by
  refine .of_leads ?_
  rintro here rfl
  rcases inside with waits | ⟨calm, level⟩
  · exact leads_innerType mem waits
  · exact leads_typeWord mem calm level

section Line

/-- What a line holds of tokens with a break between them has no character that is only in the
last of them. -/
theorem notMem_inline {c : Char} {vs xs : List Text} {x : Text} (split : us = vs ++ x :: xs)
    (visible : c ≠ ' ') (h : ∀ w ∈ us.dropLast, c ∉ w) : c ∉ Layout.inline vs := by
  intro mem
  obtain ⟨w, inside, mem⟩ := List.mem_flatMap.1 mem
  rcases List.mem_cons.1 mem with same | mem
  · exact visible same
  · refine h w ?_ mem
    rw [split, List.dropLast_append_of_ne_nil (List.cons_ne_nil x xs)]
    exact List.mem_append_left _ inside

theorem mem_of_openDimensions? {t taken after : Text}
    (h : Rule.openDimensions? t = some (taken, after)) : ']' ∈ t := by
  unfold Rule.openDimensions? at h
  split at h
  · next inside opened =>
    have whole := inside.takeWhile_append_dropWhile (p := Rule.isOpenDimension)
    split at h
    · next closed =>
      rw [← Text.gap_append_trimStart t, opened, ← whole, closed]
      simp
    · cases h
  · cases h

theorem mem_of_startsSignature {t : Text} (h : Rule.startsSignature t = true) : '(' ∈ t := by
  simp only [Rule.startsSignature, Bool.and_eq_true, beq_iff_eq] at h
  have paren : '(' ∈ Text.afterWord (Text.trimStart t) :=
    (List.dropWhile_sublist Text.isSpace).subset (List.mem_of_head? h.2)
  have name : '(' ∈ Text.trimStart t := by
    rw [← Text.word_append_afterWord (Text.trimStart t)]
    exact List.mem_append_right _ paren
  exact (List.dropWhile_sublist Text.isSpace).subset name

/-- Without a parenthesis on the line no function is declared there. -/
theorem functionDeclaration?_of_paren_notMem {t : Text} (h : '(' ∉ t) :
    Rule.functionDeclaration? here t = none := by
  unfold Rule.functionDeclaration?
  split
  · rfl
  · next type rest found =>
    have none : Rule.startsSignature rest = false := by
      rw [Bool.eq_false_iff]
      intro signature
      apply h
      rw [← Rule.returnType?_append found]
      exact List.mem_append_right _ (mem_of_startsSignature signature)
    simp [none]

theorem inline_openSizes (n : Nat) : Layout.inline (openSizes n) =
    ' ' :: '[' :: (Layout.inline (List.replicate n [',']) ++ [' ', ']']) := by
  simp [openSizes, Layout.inline]

/-- Dimensions on one line are read as a whole. -/
theorem openDimensions?_inline (n : Nat) (rest : Text) :
    Rule.openDimensions? (Layout.inline (openSizes n) ++ rest) =
      some (Layout.inline (openSizes n), rest) := by
  let commas := Layout.inline (List.replicate n [',']) ++ [' ']
  have legal : ∀ c ∈ commas, Rule.isOpenDimension c = true := by
    intro c mem
    rcases List.mem_append.1 mem with mem | mem
    · obtain ⟨w, inside, mem⟩ := List.mem_flatMap.1 mem
      obtain rfl := List.eq_of_mem_replicate inside
      have both : [' ', ','].all Rule.isOpenDimension = true := by decide
      exact List.all_eq_true.1 both c mem
    · rw [List.mem_singleton.1 mem]
      decide
  have line : Layout.inline (openSizes n) ++ rest = ' ' :: '[' :: (commas ++ ']' :: rest) := by
    simp [inline_openSizes, commas]
  have trim : Text.trimStart (' ' :: '[' :: (commas ++ ']' :: rest)) =
      '[' :: (commas ++ ']' :: rest) := rfl
  have gap : Text.gap (' ' :: '[' :: (commas ++ ']' :: rest)) = [' '] := rfl
  have bracket : Rule.isOpenDimension ']' = false := by decide
  rw [line, Rule.openDimensions?, trim]
  simp only [List.dropWhile_append_of_pos legal, List.takeWhile_append_of_pos legal,
    List.dropWhile_cons_of_neg (ne_true_of_eq_false bracket),
    List.takeWhile_cons_of_neg (ne_true_of_eq_false bracket), gap, List.append_nil]
  simp [inline_openSizes, commas]

/-- Where a name follows, the dimensions in front of it are read, if there are any. -/
theorem Dimensions.dimensions_inline (dimensions : Dimensions ds) (word : IsWord w) (rest : Text) :
    Rule.dimensions (Layout.inline ds ++ ' ' :: (w ++ rest)) =
      (Layout.inline ds, ' ' :: (w ++ rest)) := by
  cases dimensions with
  | none =>
    simp [Rule.dimensions, Layout.inline, word.openDimensions?_space]
  | some n => simp [Rule.dimensions, openDimensions?_inline]

/-- A word that a function may return, with the dimensions behind it. -/
theorem returnType?_inline {v : Text} (mem : v ∈ returnWords) (dimensions : Dimensions ds)
    (word : IsWord w) (rest : Text) {t : Text}
    (element : (Rule.arrayOf t).2 = v ++ (Layout.inline ds ++ ' ' :: (w ++ rest))) :
    Rule.returnType? t =
      some ((Rule.arrayOf t).1 ++ v ++ Layout.inline ds, ' ' :: (w ++ rest)) := by
  have facts : ∀ v ∈ returnWords, Vocabulary.returnTypes.contains (String.ofList v) = true := by
    decide
  have type : IsWord v := (facts_of_mem_typeWords v (mem_typeWords_of_mem_returnWords v mem)).1
  have ends := (Layout.parted_inline (.inr ⟨w ++ rest, rfl⟩) ds).endsWord
  have suffix := dimensions.dimensions_inline word rest
  simp only [Rule.returnType?, element, word_append type ends, afterWord_append type ends, suffix,
    facts v mem, if_true]

/-- A type that a function may return is read up to the name of the function. -/
theorem ReturnType.returnType?_inline {v : Text} (type : ReturnType (v :: ts)) (word : IsWord w)
    (rest : Text) : Rule.returnType? (v ++ (Layout.inline ts ++ ' ' :: (w ++ rest))) =
      some (v ++ Layout.inline ts, ' ' :: (w ++ rest)) := by
  cases type with
  | plain mem dimensions =>
    have facts : ∀ v ∈ returnWords, v ≠ Rule.arrayWord := by decide
    have type : IsWord v := (facts_of_mem_typeWords v (mem_typeWords_of_mem_returnWords v mem)).1
    have whole : Rule.arrayOf (v ++ (Layout.inline ts ++ ' ' :: (w ++ rest))) =
        ([], v ++ (Layout.inline ts ++ ' ' :: (w ++ rest))) := by
      apply arrayOf_eq
      rw [word_append type (Layout.parted_inline (.inr ⟨_, rfl⟩) ts).endsWord]
      exact facts v mem
    rw [StanHighlight.returnType?_inline mem dimensions word rest (by rw [whole]), whole]
    rfl
  | @array x ds n mem dimensions =>
    have type : IsWord x := (facts_of_mem_typeWords x (mem_typeWords_of_mem_returnWords x mem)).1
    let element := x ++ (Layout.inline ds ++ ' ' :: (w ++ rest))
    have line : Layout.inline (openSizes n ++ x :: ds) ++ ' ' :: (w ++ rest) =
        Layout.inline (openSizes n) ++ ' ' :: element := by
      simp [Layout.inline, element]
    have trim : Text.trimStart (' ' :: element) = element := type.trimStart_space _
    have gap : Text.gap (' ' :: element) = [' '] := by
      have split := Text.gap_append_trimStart (' ' :: element)
      rw [trim] at split
      exact List.append_cancel_right split
    have whole : Rule.arrayOf (Rule.arrayWord ++ (Layout.inline (openSizes n) ++ ' ' :: element)) =
        (Rule.arrayWord ++ Layout.inline (openSizes n) ++ [' '], element) := by
      simp [Rule.arrayOf, openDimensions?_inline, trim, gap]
    rw [line, StanHighlight.returnType?_inline mem dimensions word rest (by rw [whole]), whole]
    simp [Layout.inline]

end Line

theorem IsWord.notMem (word : IsWord w) {c : Char} (h : Text.isWordChar c = false) : c ∉ w := by
  intro mem
  rw [List.all_eq_true.1 word.chars c mem] at h
  cases h

theorem Dimensions.notMem_paren (dimensions : Dimensions ds) : ∀ w ∈ ds, '(' ∉ w := by
  cases dimensions with
  | none => exact fun w mem => absurd mem List.not_mem_nil
  | some n =>
    intro w mem
    simp only [openSizes, List.mem_append, List.mem_singleton, List.mem_replicate] at mem
    rcases mem with (rfl | ⟨_, rfl⟩) | rfl <;> decide

namespace ReturnType

theorem head_mem (type : ReturnType (w :: ts)) : w ∈ typeWords := by
  cases type with
  | plain mem => exact mem_typeWords_of_mem_returnWords w mem
  | array => decide

theorem exists_cons (type : ReturnType ts) : ∃ w us, ts = w :: us := by
  cases type with
  | plain | array => exact ⟨_, _, rfl⟩

theorem notMem_paren (type : ReturnType ts) : ∀ w ∈ ts, '(' ∉ w := by
  have word : ∀ {w : Text}, w ∈ typeWords → '(' ∉ w := fun mem =>
    (facts_of_mem_typeWords _ mem).1.notMem (by decide)
  have returned : ∀ {w : Text}, w ∈ returnWords → '(' ∉ w := fun mem =>
    word (mem_typeWords_of_mem_returnWords _ mem)
  cases type with
  | plain mem dimensions =>
    rw [List.forall_mem_cons]
    exact ⟨returned mem, dimensions.notMem_paren⟩
  | array n mem dimensions =>
    simp only [List.forall_mem_cons, List.forall_mem_append]
    exact ⟨word (by decide), (Dimensions.some n).notMem_paren, returned mem, dimensions.notMem_paren⟩

/-- What follows the first word of a type changes nothing where types do not. -/
theorem keeps_tail {r : Region} (type : ReturnType (w :: ts)) (comment : r.isBlockComment = false)
    (inside : r = .declaration false ∨ r.isCalm = true ∧ r.isStatementLevel = false) :
    Keeps lexer r ts := by
  cases type with
  | plain mem dimensions => exact dimensions.keeps comment
  | array n mem dimensions =>
    refine (keeps_openSizes comment n).append (.cons (keeps_typeWord ?_ inside) ?_)
    · exact mem_typeWords_of_mem_returnWords _ mem
    · exact dimensions.keeps comment

end ReturnType

/-- A signature on one line opens a region after its type. -/
theorem take_signature (lexer : Lexer) (assigned : Bool) {v : Text} (type : ReturnType (v :: ts))
    (word : IsWord w) (level : here.innermost.isStatementLevel = true)
    (inside : here.innermost ≠ .program) (rest : Text) : ∃ own,
    Step.take lexer assigned here (v ++ (Layout.inline (ts ++ [w, ['(']]) ++ rest)) =
      .single (here.enter (.functionDeclaration false false)) own (v ++ Layout.inline ts)
        (' ' :: (w ++ ' ' :: '(' :: rest)) := by
  let more := ' ' :: (w ++ ' ' :: '(' :: rest)
  have line : Layout.inline (ts ++ [w, ['(']]) ++ rest = Layout.inline ts ++ more := by
    simp [Layout.inline, more]
  have signature : Rule.startsSignature more = true := by
    have trim : Text.trimStart more = w ++ ' ' :: '(' :: rest := word.trimStart_space _
    have letter : (w ++ ' ' :: '(' :: rest).head?.any Char.isAlpha = true := by
      obtain ⟨c, t, rfl, letter⟩ := word.exists_cons
      simpa using letter
    have gap : (Text.gap more).isEmpty = false := rfl
    have paren : Text.trimStart (' ' :: '(' :: rest) = '(' :: rest := rfl
    simp only [Rule.startsSignature, trim, letter, gap,
      afterWord_append word (endsWord_space ('(' :: rest)), paren]
    rfl
  have applies : Rule.functionDeclaration? here (v ++ (Layout.inline ts ++ more)) =
      some (.single (here.enter (.functionDeclaration false false)) [.returnType]
        (v ++ Layout.inline ts) more) := by
    rw [Rule.functionDeclaration?, type.returnType?_inline word (' ' :: '(' :: rest)]
    exact if_pos signature
  have header : Rule.sectionHeader? here (v ++ (Layout.inline ts ++ more)) = none := by
    simp [Rule.sectionHeader?, inside]
  obtain ⟨c, t, whole, letter⟩ := (facts_of_mem_typeWords v type.head_mem).1.exists_cons
  refine ⟨[.returnType], ?_⟩
  rw [line]
  rw [whole] at applies header ⊢
  refine take_of_level .functionDeclaration level letter (by decide) applies ?_
  intro other before different
  have kinds : other ∈ [Rule.inclusion, .sectionHeader] := before
  simp only [List.mem_cons, List.not_mem_nil, or_false] at kinds
  rcases kinds with rfl | rfl
  · exact absurd rfl different
  · exact header

/-- Where functions are declared: directly in braces, or in what a signature with a line break in
it has left open there. -/
def Seat (base here : LineState) : Prop := here = base ∨ here = base.enter (.declaration true)

/-- The word for no type declares nothing. -/
theorem take_void (host : IsHost here) (ends : EndsWord rest)
    (signature : Rule.functionDeclaration? here ("void".toList ++ rest) = none) : ∃ own,
    Step.take lexer assigned here ("void".toList ++ rest) = .single here own "void".toList rest := by
  have word : IsWord "void".toList := by decide
  have keyword : Rule.keyword? here "void".toList rest =
      some (.single here [.storageType] "void".toList rest) := rfl
  obtain ⟨own, step⟩ := wordStep_of_keyword? host.isCalm (by decide) (by decide) keyword
  refine ⟨own, ?_⟩
  rw [take_word word ends host.isBlockComment (sectionHeader?_of_isCalm host.isCalm _)
    (fun _ => signature) (fun _ => by decide) (accumulator?_eq_none ?_), step]
  rw [word_append word ends]
  decide

/-- The name of a function and its parenthesis. -/
theorem IsName.leads_function (name : IsName w) (here : LineState) :
    Leads lexer (here.enter (.functionDeclaration false false)) [w, ['(']] fun there =>
      there = here.enter (.functionDeclaration true true) := by
  have named : Leads lexer (here.enter (.functionDeclaration false false)) [w] fun there =>
      there = here.enter (.functionDeclaration true false) := by
    refine name.isPlain.leads_slot rfl nofun fun after => ⟨[.declaredFunction], ?_⟩
    simp only [Rule.nameSlot?, LineState.innermost_enter, name.plain, Bool.false_eq_true, if_false]
    rfl
  refine named.cons ?_
  rintro _ rfl
  exact leads_openParen rfl

/-- At statement level a signature with a line break in it begins the declaration of a variable,
or nothing if it begins with the word for no type. -/
theorem leads_brokenSignature {v : Text} (host : IsHost here) (type : ReturnType (v :: ts))
    (name : IsName w) (ends : EndsWord rest) (level : here.innermost.isStatementLevel = true)
    (signature : Rule.functionDeclaration? here (v ++ rest) = none) :
    (Step.take lexer assigned here (v ++ rest)).rest = rest ∧
      Leads lexer (Step.take lexer assigned here (v ++ rest)).after (ts ++ [w, ['(']]) fun there =>
        ∃ outer, Seat here outer ∧ there = outer.enter .parens := by
  rcases List.mem_cons.1 type.head_mem with rfl | mem
  · have void : ∃ own, Step.take lexer assigned here ("void".toList ++ rest) =
        .single here own "void".toList rest := take_void host ends signature
    obtain ⟨own, step⟩ := void
    rw [step]
    refine ⟨rfl, ?_⟩
    cases type with
    | plain _ dimensions =>
      have kept : Keeps lexer here.innermost ts := dimensions.keeps host.isBlockComment
      refine (kept.returns rfl host.settled).append ?_
      rintro _ rfl
      refine (name.leads host.isCalm).cons ?_
      rintro _ rfl
      exact (leads_plainParen host.isCalm).weaken fun _ same => ⟨_, .inl rfl, same⟩
  · rw [take_typeWord mem level host.ne_program ends signature]
    refine ⟨rfl, ?_⟩
    let waiting := here.enter (.declaration false)
    have tail : Keeps lexer (.declaration false) ts := type.keeps_tail rfl (.inl rfl)
    have kept : Leads lexer waiting ts fun there => there = waiting := tail.returns rfl rfl
    refine kept.append ?_
    rintro _ rfl
    refine (name.leads_declared here).cons ?_
    rintro _ rfl
    exact (leads_plainParen rfl).weaken fun _ same => ⟨_, .inr rfl, same⟩

/-- Where no statement begins a signature only opens parentheses. -/
theorem leads_neutralSignature (type : ReturnType ts) (name : IsName w)
    (calm : here.innermost.isCalm = true) (level : here.innermost.isStatementLevel = false)
    (settled : here.inner.ternaries = 0) :
    Leads lexer here (ts ++ [w, ['(']]) fun there => there = here.enter .parens := by
  have comment := Region.isBlockComment_of_isCalm calm
  have kept : Keeps lexer here.innermost ts := by
    obtain ⟨v, us, rfl⟩ := type.exists_cons
    refine .cons (keeps_typeWord type.head_mem (.inr ⟨calm, level⟩)) ?_
    exact type.keeps_tail comment (.inr ⟨calm, level⟩)
  refine (kept.returns rfl settled).append ?_
  rintro _ rfl
  refine (name.leads calm).cons ?_
  rintro _ rfl
  exact leads_plainParen calm

/-- At statement level a signature on one line opens a region for the parameters. -/
theorem leads_levelSignature (host : IsHost here) (type : ReturnType ts) (name : IsName w)
    (level : here.innermost.isStatementLevel = true) :
    Leads lexer here (ts ++ [w, ['(']]) fun there =>
      there = here.enter (.functionDeclaration true true) ∨
        ∃ outer, Seat here outer ∧ there = outer.enter .parens := by
  obtain ⟨v, us, rfl⟩ := type.exists_cons
  have word : IsWord v := (facts_of_mem_typeWords v type.head_mem).1
  have last : (us ++ [w, ['(']]).dropLast = us ++ [w] := by
    rw [List.dropLast_append_of_ne_nil (by simp)]
    rfl
  have visible : ∀ x ∈ (us ++ [w, ['(']]).dropLast, '(' ∉ x := by
    rw [last, List.forall_mem_append, List.forall_mem_singleton]
    refine ⟨fun x mem => type.notMem_paren x (List.mem_cons_of_mem v mem), ?_⟩
    exact name.toIsWord.notMem (by decide)
  -- Whether the tokens are clean does not depend on the state, and an array reads them one by one.
  let base := LineState.initial.enter .array
  have neutral : Leads lexer base (v :: us ++ [w, ['(']]) fun there => there = base.enter .parens :=
    leads_neutralSignature type name rfl rfl rfl
  refine .of_parts fun parts => .group (neutral.clean parts) ?_ ?_
  · intro assigned rest ahead parted
    obtain ⟨own, step⟩ :=
      take_signature lexer assigned type name.toIsWord level host.ne_program rest
    have some_char : v ++ (Layout.inline (us ++ [w, ['(']]) ++ rest) ≠ [] := by
      simp [word.clean.visible]
    have first := Place.reaches_take lexer here assigned ahead some_char
    rw [step] at first
    have opens : Leads lexer (here.enter (.functionDeclaration false false)) [w, ['(']] fun there =>
        there = here.enter (.functionDeclaration true true) := name.leads_function here
    obtain ⟨later, there, same, run⟩ :=
      opens.runs parts [(.space, w), (.space, ['('])] rfl _ ⟨rest, ahead⟩ parted
    exact ⟨later, there, .inl same, first.trans run⟩
  · intro assigned vs x xs split
    have line : Parted (Layout.inline vs) := by simpa using Layout.parted_inline (.inl rfl) vs
    -- No signature is found on a line that breaks in front of its parenthesis.
    have paren : '(' ∉ v ++ Layout.inline vs := by
      rw [List.mem_append, not_or]
      exact ⟨word.notMem (by decide), notMem_inline split (by decide) visible⟩
    obtain ⟨spent, more⟩ := leads_brokenSignature host type name line.endsWord level
      (functionDeclaration?_of_paren_notMem paren)
    exact ⟨spent, more.weaken fun _ opened => .inr opened⟩

/-- A signature up to its parenthesis, which opens a region for the parameters or plain
parentheses. -/
theorem leads_signature {base : LineState} (host : IsHost base) (seat : Seat base here)
    (type : ReturnType ts) (name : IsName w) :
    Leads lexer here (ts ++ [w, ['(']]) fun there => ∃ outer, Seat base outer ∧
      ∃ inner ∈ [Region.functionDeclaration true true, .parens], there = outer.enter inner := by
  have inners : Region.parens ∈ [Region.functionDeclaration true true, .parens] := by decide
  rcases seat with rfl | rfl
  · rcases host.level_or_array with level | array
    · refine (leads_levelSignature host type name level).weaken ?_
      rintro _ (rfl | ⟨outer, seat, rfl⟩)
      · exact ⟨_, .inl rfl, _, List.mem_cons_self, rfl⟩
      · exact ⟨outer, seat, .parens, inners, rfl⟩
    · refine (leads_neutralSignature type name host.isCalm ?_ host.settled).weaken ?_
      · rw [array]
        rfl
      · rintro _ rfl
        exact ⟨_, .inl rfl, .parens, inners, rfl⟩
  · refine (leads_neutralSignature type name rfl rfl rfl).weaken ?_
    rintro _ rfl
    exact ⟨_, .inr rfl, .parens, inners, rfl⟩

end StanHighlight

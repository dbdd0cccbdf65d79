import StanHighlight.Proofs.Signature

/-!
Definitions of functions. The parameters change nothing, and the body is a block of statements
that returns to where it began. What a signature with a line break in it leaves open stays open
from one definition to the next.
-/

namespace StanHighlight

variable {lexer : Lexer} {assigned : Bool} {here base : LineState} {w rest : Text}
  {ts ds : List Text}

inductive Parameter : List Text → Prop
  | plain {v w : Text} {ds : List Text} (mem : v ∈ Part.variableTypes) (dimensions : Dimensions ds)
      (name : IsName w) : Parameter (v :: (ds ++ [w]))
  | data {ts : List Text} (h : Parameter ts) : Parameter ("data".toList :: ts)

inductive Parameters : List Text → Prop
  | none : Parameters []
  | one {ts : List Text} (h : Parameter ts) : Parameters ts
  | more {ts us : List Text} (h : Parameter ts) (more : Parameters us) :
      Parameters (ts ++ [','] :: us)

/-- In plain parentheses a parameter is no more than words and brackets. -/
theorem Parameter.keeps_parens (parameter : Parameter ts) : Keeps lexer .parens ts := by
  induction parameter with
  | plain mem dimensions name =>
    refine .cons (keeps_typeWord (Part.mem_typeWords mem) (.inr ⟨rfl, rfl⟩)) ?_
    exact (dimensions.keeps rfl).append (keeps_name name rfl)
  | data h ih => exact .cons (keeps_name (by decide) rfl) ih

/-- Between the parentheses of a function's declaration a type is read with its dimensions. -/
theorem take_parameterType {v : Text} {named : Bool} (mem : v ∈ Part.variableTypes)
    (inside : here.innermost = .functionDeclaration named true) (ends : EndsWord rest) :
    Step.take lexer assigned here (v ++ rest) =
      .single here [.parameterType] (v ++ (Rule.dimensions rest).1) (Rule.dimensions rest).2 := by
  have types : ∀ w ∈ Part.variableTypes, Vocabulary.isStorageType (String.ofList w) = true ∧
      String.ofList w ≠ "data" := by decide
  obtain ⟨type, other⟩ := types v mem
  have known := Part.mem_typeWords mem
  obtain ⟨word, formed, free, _⟩ := facts_of_mem_typeWords v known
  have slot : Rule.nameSlot? here v rest =
      some (.single here [.parameterType] (v ++ (Rule.dimensions rest).1)
        (Rule.dimensions rest).2) := by
    simp [Rule.nameSlot?, inside, type, other]
  have comment : here.innermost.isBlockComment = false := by rw [inside]; rfl
  have level : here.innermost.isStatementLevel = false := by rw [inside]; rfl
  rw [take_word_of_mem_typeWords known ends comment level]
  simp [Rule.wordStep, formed, free, slot]

/-- The name of a parameter, or the word in front of its type. -/
theorem IsName.keeps_parameter {named : Bool} (name : IsName w) :
    Keeps lexer (.functionDeclaration named true) [w] := by
  refine .of_leads fun here inside => ?_
  have comment : here.innermost.isBlockComment = false := by rw [inside]; rfl
  have outside : here.innermost ≠ .program := by rw [inside]; exact nofun
  have type : Vocabulary.isStorageType (String.ofList w) = false :=
    isStorageType_of_notMem name.isPlain.type
  refine name.isPlain.leads_slot comment outside fun after => ?_
  simp only [Rule.nameSlot?, inside, type, name.plain, Bool.false_eq_true, if_false]
  split
  · exact ⟨_, rfl⟩
  · exact ⟨_, rfl⟩

/-- The type of a parameter is read with its dimensions if these are on the line. -/
theorem keeps_sizedType {v : Text} {named : Bool} (mem : v ∈ Part.variableTypes) (n : Nat) :
    Keeps lexer (.functionDeclaration named true) (v :: openSizes n) := by
  intro here inside
  have word : IsWord v := (facts_of_mem_typeWords v (Part.mem_typeWords mem)).1
  have sizes : Keeps lexer (.functionDeclaration named true) (openSizes n) := keeps_openSizes rfl n
  refine .of_parts fun parts => .group ?_ ?_ ?_
  · rw [List.forall_mem_cons]
    exact ⟨word.clean, (sizes here inside).clean parts⟩
  · intro assigned rest ahead parted
    have step := Place.reaches_take lexer here assigned ahead
      (List.append_ne_nil_of_left_ne_nil word.clean.visible (Layout.inline (openSizes n) ++ rest))
    rw [take_parameterType mem inside (Layout.parted_inline parted _).endsWord, Rule.dimensions,
      openDimensions?_inline] at step
    exact ⟨_, here, .refl here, step⟩
  · intro assigned vs x xs split
    have visible : ∀ w ∈ (openSizes n).dropLast, ']' ∉ w := by
      rw [openSizes, List.dropLast_concat]
      intro w mem
      rcases List.mem_append.1 mem with mem | mem
      · rw [List.mem_singleton.1 mem]
        decide
      · rw [List.eq_of_mem_replicate mem]
        decide
    have missing : Rule.openDimensions? (Layout.inline vs) = none := by
      rw [Option.eq_none_iff_forall_ne_some]
      rintro ⟨taken, after⟩ found
      exact notMem_inline split (by decide) visible (mem_of_openDimensions? found)
    have line : Parted (Layout.inline vs) := by simpa using Layout.parted_inline (.inl rfl) vs
    rw [take_parameterType mem inside line.endsWord, Rule.dimensions, missing]
    exact ⟨rfl, sizes here inside⟩

/-- Between the parentheses of a function's declaration a parameter opens nothing. -/
theorem Parameter.keeps {named : Bool} (parameter : Parameter ts) :
    Keeps lexer (.functionDeclaration named true) ts := by
  induction parameter with
  | data h ih =>
    have data : IsName "data".toList := by decide
    exact .cons data.keeps_parameter ih
  | @plain v w ds mem dimensions name =>
    cases dimensions with
    | some n => exact (keeps_sizedType mem n).append name.keeps_parameter
    | none =>
      intro here inside
      have word : IsWord v := (facts_of_mem_typeWords v (Part.mem_typeWords mem)).1
      refine .cons_of_line (L := fun line => Rule.openDimensions? line = Option.none)
        (Q := fun there => there = here) word.clean ?_ ?_ ?_
      · intro assigned rest parted missing
        rw [take_parameterType mem inside parted.endsWord]
        simp [Rule.dimensions, missing, Step.single]
      · intro laid r tokens _
        rcases Layout.line_cases tokens r with line | ⟨_, _, line⟩ <;> rw [line]
        · rfl
        · exact name.toIsWord.openDimensions?_space _
      · intro there same
        rw [same]
        exact name.keeps_parameter here inside

/-- Whatever the parenthesis of a function has opened, its parameters open nothing. -/
theorem Parameters.keeps (parameters : Parameters ts) {inner : Region}
    (mem : inner ∈ [Region.functionDeclaration true true, .parens]) : Keeps lexer inner ts := by
  have comments : ∀ r ∈ [Region.functionDeclaration true true, .parens],
      r.isBlockComment = false := by decide
  have one : ∀ {us : List Text}, Parameter us → Keeps lexer inner us := by
    intro us parameter
    simp only [List.mem_cons, List.not_mem_nil, or_false] at mem
    rcases mem with rfl | rfl
    · exact parameter.keeps
    · exact parameter.keeps_parens
  induction parameters with
  | none => exact .nil
  | one h => exact one h
  | more h more ih => exact (one h).append (.cons (keeps_comma (comments inner mem)) ih)

inductive Definition : List Text → Prop
  | intro {w : Text} {ts ps bs : List Text} (type : ReturnType ts) (name : IsName w)
      (parameters : Parameters ps) (body : Statement .many bs) :
      Definition (ts ++ [w, ['(']] ++ ps ++ [[')']] ++ ([['{']] ++ bs ++ [['}']]))

inductive Definitions : List Text → Prop
  | none : Definitions []
  | more {ts us : List Text} (h : Definition ts) (more : Definitions us) : Definitions (ts ++ us)

theorem Seat.isBlockComment (seat : Seat base here) (host : IsHost base) :
    here.innermost.isBlockComment = false := by
  rcases seat with rfl | rfl
  · exact host.isBlockComment
  · rfl

/-- A definition up to its body. -/
theorem leads_prototype {ps : List Text} (host : IsHost base) (seat : Seat base here)
    (type : ReturnType ts) (name : IsName w) (parameters : Parameters ps) :
    Leads lexer here (ts ++ [w, ['(']] ++ ps ++ [[')']]) (Seat base) := by
  refine leads_enclosed (Seat base) [.functionDeclaration true true, .parens]
    (leads_signature host seat type name) ?_ (by decide) (by decide)
  exact fun outer inner mem => (parameters.keeps mem).returns rfl rfl

theorem Definition.leads (definition : Definition ts) (host : IsHost base) (seat : Seat base here) :
    Leads lexer here ts (Seat base) := by
  obtain ⟨type, name, parameters, body⟩ := definition
  refine (leads_prototype host seat type name parameters).append fun there seat => ?_
  refine (leads_body (seat.isBlockComment host) fun _ inside => body.leads inside).weaken ?_
  rintro _ rfl
  exact seat

theorem Definitions.leads (definitions : Definitions ts) (host : IsHost base)
    (seat : Seat base here) : Leads lexer here ts (Seat base) := by
  induction definitions generalizing here with
  | none => exact .nil seat
  | more h more ih => exact (h.leads host seat).append fun there seat => ih seat

end StanHighlight

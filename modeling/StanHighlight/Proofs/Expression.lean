import StanHighlight.Proofs.Literal

/-!
Expressions. Every expression keeps a calm region, whatever its layout: what it opens it
closes, and each `:` that answers a `?` leaves no more of them to wait.
-/

namespace StanHighlight

inductive Phrase where
  /-- An expression, and whether `>` may stand in it outside brackets. -/
  | expression (angle : Bool)
  /-- An expression that may be left out. -/
  | bound
  /-- Expressions with commas between them, at least one. -/
  | items
  | arguments
  | index
  | indices
  deriving DecidableEq, Repr

namespace Phrase

def prefixOperators : List Text := [['+'], ['-'], ['!']]

def binaryOperators : List Text :=
  ["+", "-", "*", "/", "%", "\\", "^", "%/%", ".*", "./", "==", "!=", "<", "<=", ">", ">=", "&&",
   "||"].map String.toList

/-- The tokens of phrases. The parenthesis of a call stands next to its name or apart. -/
inductive Derives : Phrase → List Text → Prop
  | name {angle : Bool} {w : Text} (h : IsName w) : Derives (.expression angle) [w]
  | number {angle : Bool} {w : Text} (h : IsNumber w) : Derives (.expression angle) [w]
  | string {angle : Bool} {w : Text} (h : IsString w) : Derives (.expression angle) [w]
  | unary {angle : Bool} {w : Text} {ts : List Text} (mem : w ∈ prefixOperators)
      (h : Derives (.expression angle) ts) : Derives (.expression angle) (w :: ts)
  | transpose {angle : Bool} {ts : List Text} (h : Derives (.expression angle) ts) :
      Derives (.expression angle) (ts ++ [['\'']])
  | binary {angle : Bool} {w : Text} {ts us : List Text} (mem : w ∈ binaryOperators)
      (greater : w = ['>'] → angle = true) (left : Derives (.expression angle) ts)
      (right : Derives (.expression angle) us) : Derives (.expression angle) (ts ++ w :: us)
  | ternary {angle : Bool} {ts us vs : List Text} (condition : Derives (.expression angle) ts)
      (yes : Derives (.expression angle) us) (no : Derives (.expression angle) vs) :
      Derives (.expression angle) (ts ++ ['?'] :: (us ++ [':'] :: vs))
  | parens {angle : Bool} {ts : List Text} (h : Derives (.expression true) ts) :
      Derives (.expression angle) ([['(']] ++ ts ++ [[')']])
  | call {angle : Bool} {w : Text} {ts : List Text} (name : IsName w) (h : Derives .arguments ts) :
      Derives (.expression angle) ([w ++ ['(']] ++ ts ++ [[')']])
  | callApart {angle : Bool} {w : Text} {ts : List Text} (name : IsName w)
      (h : Derives .arguments ts) : Derives (.expression angle) ([w, ['(']] ++ ts ++ [[')']])
  | indexed {angle : Bool} {ts us : List Text} (h : Derives (.expression angle) ts)
      (at_ : Derives .indices us) : Derives (.expression angle) (ts ++ ([['[']] ++ us ++ [[']']]))
  | row {angle : Bool} {ts : List Text} (h : Derives .items ts) :
      Derives (.expression angle) ([['[']] ++ ts ++ [[']']])
  | array {angle : Bool} {ts : List Text} (h : Derives .items ts) :
      Derives (.expression angle) ([['{']] ++ ts ++ [['}']])
  | noBound : Derives .bound []
  | someBound {ts : List Text} (h : Derives (.expression true) ts) : Derives .bound ts
  | item {ts : List Text} (h : Derives (.expression true) ts) : Derives .items ts
  | moreItems {ts us : List Text} (h : Derives (.expression true) ts) (more : Derives .items us) :
      Derives .items (ts ++ [','] :: us)
  | noArguments : Derives .arguments []
  | someArguments {ts : List Text} (h : Derives .items ts) : Derives .arguments ts
  | conditioned {ts us : List Text} (h : Derives (.expression true) ts) (more : Derives .items us) :
      Derives .arguments (ts ++ ['|'] :: us)
  | place {ts : List Text} (h : Derives .bound ts) : Derives .index ts
  | slice {ts us : List Text} (low : Derives .bound ts) (high : Derives .bound us) :
      Derives .index (ts ++ [':'] :: us)
  | oneIndex {ts : List Text} (h : Derives .index ts) : Derives .indices ts
  | moreIndices {ts us : List Text} (h : Derives .index ts) (more : Derives .indices us) :
      Derives .indices (ts ++ [','] :: us)

/-- Whether a token may begin an expression: no place for a size that is left open looks like
it. -/
def begins (w : Text) : Bool := w.head?.any fun c => !Rule.isOpenDimension c && c != ']'

theorem begins_of_isWordChar {c : Char} (h : Text.isWordChar c = true) (t : Text) :
    begins (c :: t) = true := by
  have visible : Text.isSpace c = false := by
    rw [Bool.eq_false_iff]
    intro blank
    rw [isWordChar_of_isSpace blank] at h
    cases h
  have comma : c ≠ ',' := by
    rintro rfl
    exact absurd h (by decide)
  have bracket : c ≠ ']' := by
    rintro rfl
    exact absurd h (by decide)
  simp [begins, Rule.isOpenDimension, visible, comma, bracket]

theorem begins_of_isWord {w : Text} (h : IsWord w) (t : Text) :
    begins (w ++ t) = true := by
  obtain ⟨c, more, rfl, _⟩ := h.exists_cons
  exact begins_of_isWordChar (List.all_eq_true.1 h.chars c List.mem_cons_self) (more ++ t)

/-- Every expression has a first token. -/
theorem Derives.exists_begins {p : Phrase} {ts : List Text} (h : Derives p ts)
    (visible : p = .items ∨ ∃ angle, p = .expression angle) :
    ∃ w us, ts = w :: us ∧ begins w = true := by
  have first : ∀ {ts : List Text} (us : List Text), (∃ w vs, ts = w :: vs ∧ begins w = true) →
      ∃ w vs, ts ++ us = w :: vs ∧ begins w = true := by
    rintro _ us ⟨w, vs, rfl, h⟩
    exact ⟨w, vs ++ us, rfl, h⟩
  induction h with
  | @name _ w h => exact ⟨w, [], rfl, by simpa using begins_of_isWord h.toIsWord []⟩
  | @number _ w h =>
    obtain ⟨kind, whole⟩ := h.whole
    obtain ⟨c, t, rfl, starts⟩ := Text.head_of_numeral? whole
    refine ⟨_, [], rfl, ?_⟩
    simp only [Bool.or_eq_true, beq_iff_eq] at starts
    rcases starts with digit | rfl
    · exact begins_of_isWordChar (by simp [Text.isWordChar, Char.isAlphanum, digit]) t
    · rfl
  | string h =>
    obtain ⟨body, rfl, _⟩ := h.quoted
    exact ⟨_, [], rfl, rfl⟩
  | @unary _ w ts mem h ih =>
    have signs : ∀ v ∈ prefixOperators, begins v = true := by decide
    exact ⟨w, ts, rfl, signs w mem⟩
  | transpose h ih | binary mem greater left right ih | ternary condition yes no ih
  | indexed h at_ ih => exact first _ (ih (.inr ⟨_, rfl⟩))
  | parens h | row h | array h => exact ⟨_, _, rfl, by decide⟩
  | call name h => exact ⟨_, _, rfl, begins_of_isWord name.toIsWord _⟩
  | @callApart _ w _ name h => exact ⟨w, _, rfl, by simpa using begins_of_isWord name.toIsWord []⟩
  | item h ih => exact ih (.inr ⟨_, rfl⟩)
  | moreItems h more ih => exact first _ (ih (.inr ⟨_, rfl⟩))
  | _ => simp at visible

end Phrase

section Keeping

variable {lexer : Lexer} {r : Region}

/-- A `:` takes one `?` away, if any waits. -/
theorem answer?_getD (s : LineState) :
    s.answer?.getD s = { s with inner.ternaries := s.inner.ternaries - 1 } := by
  obtain ⟨⟨inner, n⟩, outer⟩ := s
  cases n <;> rfl

/-- After a `:` no more `?` wait than before the `?` that it answers. -/
theorem Resumes.answered {here there : LineState} (h : Resumes here.ask there) :
    Resumes here (there.answer?.getD there) := by
  obtain ⟨inside, outer, waiting⟩ := h
  have asked : there.inner.ternaries ≤ here.inner.ternaries + 1 :=
    Nat.le_trans waiting (Nat.min_le_left _ _)
  rw [answer?_getD]
  refine ⟨inside, outer, ?_⟩
  change there.inner.ternaries - 1 ≤ here.inner.ternaries
  omega

/-- A `?` and the `:` for it are kept together with what follows each of them. -/
theorem keeps_ternary {ts us : List Text} (comment : r.isBlockComment = false)
    (yes : Keeps lexer r ts) (no : Keeps lexer r us) :
    Keeps lexer r (['?'] :: (ts ++ [':'] :: us)) := by
  rintro here rfl
  refine (leads_question comment).cons ?_
  rintro _ rfl
  refine (yes here.ask rfl).append fun there resumes => ?_
  have inside : there.innermost.isBlockComment = false := by rwa [resumes.1]
  refine (leads_colon inside).cons ?_
  rintro _ rfl
  refine (no _ resumes.answered.1).weaken fun _ more => resumes.answered.trans more

/-- Tokens between brackets lead out of the region that the opening one opens, if what stands
inside returns to it and the closing one ends it. -/
theorem leads_enclosed (Outside : LineState → Prop) (inners : List Region) {here : LineState}
    {front ts : List Text} {c : Char}
    (opens : Leads lexer here front fun there => ∃ outer, Outside outer ∧ ∃ inner ∈ inners,
      there = outer.enter inner)
    (inside : ∀ outer, ∀ inner ∈ inners,
      Leads lexer (LineState.enter outer inner) ts fun there => there = outer.enter inner)
    (closes : ∀ inner ∈ inners, inner.isBlockComment = false ∧
      inner.enclosure?.map Enclosure.closer = some c) (bracket : c ∈ [')', ']', '}']) :
    Leads lexer here (front ++ ts ++ [[c]]) Outside := by
  have middle : Leads lexer here (front ++ ts) fun there => ∃ outer, Outside outer ∧
      ∃ inner ∈ inners, there = outer.enter inner := by
    refine opens.append ?_
    rintro _ ⟨outer, out, inner, mem, rfl⟩
    exact (inside outer inner mem).weaken fun _ same => ⟨outer, out, inner, mem, same⟩
  refine middle.append ?_
  rintro _ ⟨outer, out, inner, mem, rfl⟩
  obtain ⟨comment, closer⟩ := closes inner mem
  refine (leads_close comment closer bracket).weaken ?_
  rintro _ rfl
  exact out

/-- Tokens between brackets are kept if the regions that the opening one may open keep what
stands inside, and the closing one ends them. -/
theorem keeps_enclosed (inners : List Region) {front ts : List Text} {c : Char}
    (opens : ∀ here : LineState, here.innermost = r → Leads lexer here front fun there =>
      ∃ inner ∈ inners, there = here.enter inner)
    (inside : ∀ inner ∈ inners, Keeps lexer inner ts)
    (closes : ∀ inner ∈ inners, inner.isBlockComment = false ∧
      inner.enclosure?.map Enclosure.closer = some c) (bracket : c ∈ [')', ']', '}']) :
    Keeps lexer r (front ++ ts ++ [[c]]) := by
  refine .of_leads fun here innermost => ?_
  refine leads_enclosed (fun there => there = here) inners ?_ ?_ closes bracket
  · exact (opens here innermost).weaken fun _ opened => ⟨here, rfl, opened⟩
  · exact fun _ inner mem => (inside inner mem).returns rfl rfl

/-- Brackets that open one kind of region. -/
theorem keeps_enclosed_in (inner : Region) {front ts : List Text} {c : Char}
    (opens : ∀ here : LineState, here.innermost = r →
      Leads lexer here front fun there => there = here.enter inner)
    (inside : Keeps lexer inner ts) (comment : inner.isBlockComment = false)
    (closes : inner.enclosure?.map Enclosure.closer = some c) (bracket : c ∈ [')', ']', '}']) :
    Keeps lexer r (front ++ ts ++ [[c]]) := by
  refine keeps_enclosed [inner] ?_ ?_ ?_ bracket
  · intro here innermost
    exact (opens here innermost).weaken fun _ same => ⟨inner, List.mem_singleton_self inner, same⟩
  · rw [List.forall_mem_singleton]
    exact inside
  · rw [List.forall_mem_singleton]
    exact ⟨comment, closes⟩

end Keeping

section Calm

variable {lexer : Lexer} {r : Region} {ts : List Text}

theorem keeps_comma (comment : r.isBlockComment = false) : Keeps lexer r [[',']] := by
  refine .of_leads ?_
  rintro here rfl
  exact leads_comma comment

theorem keeps_bar (calm : r.isCalm = true) : Keeps lexer r [['|']] := by
  refine .of_leads ?_
  rintro here rfl
  exact leads_bar (Region.isBlockComment_of_isCalm calm)

/-- A colon that answers no `?` changes nothing. -/
theorem keeps_colon (calm : r.isCalm = true) : Keeps lexer r [[':']] := by
  rintro here rfl
  refine (leads_colon (Region.isBlockComment_of_isCalm calm)).weaken ?_
  rintro _ rfl
  rw [answer?_getD]
  exact ⟨rfl, rfl, Nat.sub_le _ _⟩

theorem keeps_name {w : Text} (name : IsName w) (calm : r.isCalm = true) : Keeps lexer r [w] := by
  refine .of_leads ?_
  rintro here rfl
  exact name.leads calm

theorem keeps_operator {w : Text} (spelled : w ∈ Rule.operators.map Prod.fst)
    (calm : r.isCalm = true) (equals : w = ['='] → r.assigns = true)
    (angle : w = ['>'] → r ≠ .constraints) : Keeps lexer r [w] := by
  refine .of_leads ?_
  rintro here rfl
  exact leads_operator spelled calm equals angle

/-- Parentheses without a name in front of them. -/
theorem keeps_parens (calm : r.isCalm = true) (inside : Keeps lexer .parens ts) :
    Keeps lexer r ([['(']] ++ ts ++ [[')']]) := by
  refine keeps_enclosed_in .parens ?_ inside rfl rfl (by decide)
  rintro here rfl
  rw [← openParen_of_isCalm calm]
  exact leads_openParen (Region.isBlockComment_of_isCalm calm)

theorem keeps_brackets (comment : r.isBlockComment = false) (inside : Keeps lexer .brackets ts) :
    Keeps lexer r ([['[']] ++ ts ++ [[']']]) := by
  refine keeps_enclosed_in .brackets ?_ inside rfl rfl (by decide)
  rintro here rfl
  exact leads_openBracket comment

/-- Braces, which open a block or an array. -/
theorem keeps_braces (calm : r.isCalm = true) (array : Keeps lexer .array ts)
    (block : Keeps lexer .block ts) : Keeps lexer r ([['{']] ++ ts ++ [['}']]) := by
  refine keeps_enclosed [.array, .block] ?_ ?_ (by decide) (by decide)
  · rintro here rfl
    refine (leads_openBrace (Region.isBlockComment_of_isCalm calm)).weaken ?_
    rintro _ (rfl | ⟨rfl, _⟩)
    · exact ⟨.array, by decide, rfl⟩
    · exact ⟨.block, by decide, rfl⟩
  · simp only [List.forall_mem_cons]
    exact ⟨array, block, nofun⟩

theorem keeps_call {w : Text} (name : IsName w) (calm : r.isCalm = true)
    (inside : Keeps lexer (.call .function) ts) :
    Keeps lexer r ([w ++ ['(']] ++ ts ++ [[')']]) := by
  refine keeps_enclosed_in (.call .function) ?_ inside rfl rfl (by decide)
  rintro here rfl
  exact name.leads_call calm

end Calm

namespace Phrase

variable {lexer : Lexer} {r : Region} {p : Phrase} {ts : List Text}

/-- A phrase is kept by every calm region, except that `>` ends constraints. -/
theorem Derives.keeps (h : Derives p ts) (calm : r.isCalm = true)
    (angle : r = .constraints → p = .expression false) : Keeps lexer r ts := by
  induction h generalizing r with
  | name h => exact keeps_name h calm
  | number h =>
    refine .of_leads ?_
    rintro here rfl
    exact h.leads (Region.isBlockComment_of_isCalm calm)
  | string h =>
    refine .of_leads ?_
    rintro here rfl
    exact h.leads (Region.isBlockComment_of_isCalm calm)
  | @unary _ w _ mem h ih =>
    have signs : ∀ v ∈ prefixOperators,
        v ∈ Rule.operators.map Prod.fst ∧ v ≠ ['='] ∧ v ≠ ['>'] := by decide
    obtain ⟨spelled, equals, greater⟩ := signs w mem
    refine .cons (keeps_operator spelled calm ?_ ?_) (ih calm angle)
    · exact fun same => absurd same equals
    · exact fun same => absurd same greater
  | transpose h ih =>
    refine (ih calm angle).append (keeps_operator (by decide) calm ?_ ?_)
    · exact fun same => absurd same (by decide)
    · exact fun same => absurd same (by decide)
  | @binary _ w _ _ mem greater left right ihl ihr =>
    have signs : ∀ v ∈ binaryOperators, v ∈ Rule.operators.map Prod.fst ∧ v ≠ ['='] := by decide
    obtain ⟨spelled, equals⟩ := signs w mem
    refine (ihl calm angle).append (.cons (keeps_operator spelled calm ?_ ?_) (ihr calm angle))
    · exact fun same => absurd same equals
    · intro same constraints
      have none := angle constraints
      rw [greater same] at none
      cases none
  | ternary condition yes no ihc ihy ihn =>
    have comment := Region.isBlockComment_of_isCalm calm
    exact (ihc calm angle).append (keeps_ternary comment (ihy calm angle) (ihn calm angle))
  | parens h ih => exact keeps_parens calm (ih rfl nofun)
  | call name h ih => exact keeps_call name calm (ih rfl nofun)
  | callApart name h ih =>
    exact (keeps_name name calm).append (keeps_parens calm (ih rfl nofun))
  | indexed h at_ ihe ihi =>
    refine (ihe calm angle).append (keeps_brackets ?_ (ihi rfl nofun))
    exact Region.isBlockComment_of_isCalm calm
  | row h ih => exact keeps_brackets (Region.isBlockComment_of_isCalm calm) (ih rfl nofun)
  | array h ih => exact keeps_braces calm (ih rfl nofun) (ih rfl nofun)
  | noBound | noArguments => exact .nil
  | someBound h ih | item h ih | someArguments h ih | place h ih | oneIndex h ih =>
    exact ih calm fun same => nomatch angle same
  | moreItems h more ih ihm | moreIndices h more ih ihm =>
    refine (ih calm fun same => nomatch angle same).append ?_
    have comment := Region.isBlockComment_of_isCalm calm
    exact .cons (keeps_comma comment) (ihm calm fun same => nomatch angle same)
  | conditioned h more ih ihm =>
    refine (ih calm fun same => nomatch angle same).append ?_
    exact .cons (keeps_bar calm) (ihm calm fun same => nomatch angle same)
  | slice low high ihl ihh =>
    refine (ihl calm fun same => nomatch angle same).append ?_
    exact .cons (keeps_colon calm) (ihh calm fun same => nomatch angle same)

end Phrase

end StanHighlight

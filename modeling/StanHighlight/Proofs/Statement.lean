import StanHighlight.Proofs.Declaration

/-!
Statements. Every statement leads back to the state in which it began, in each of its
layouts. For the simple ones the `;` closes what is open, for the others a bracket does, and
the bodies of the latter are statements again.
-/

namespace StanHighlight

variable {lexer : Lexer} {here : LineState} {w : Text} {ts us vs : List Text}

inductive Places : List Text → Prop
  | none : Places []
  | some {ts us : List Text} (h : Phrase.Derives .indices ts) (more : Places us) :
      Places ([['[']] ++ ts ++ [[']']] ++ us)

/-- The truncation of a distribution, which may be left out. Its word and the bracket are one
token or two. -/
inductive Truncation : List Text → Prop
  | none : Truncation []
  | some {ts us : List Text} (low : Phrase.Derives .bound ts) (high : Phrase.Derives .bound us) :
      Truncation ([['T', '[']] ++ (ts ++ [','] :: us) ++ [[']']])
  | apart {ts us : List Text} (low : Phrase.Derives .bound ts) (high : Phrase.Derives .bound us) :
      Truncation (['T'] :: ([['[']] ++ (ts ++ [','] :: us) ++ [[']']]))

namespace Simple

def assignmentOperators : List Text :=
  ["=", "+=", "-=", "*=", "/=", ".*=", "./=", "<-"].map String.toList

def printWords : List Text := ["print".toList, "reject".toList]

def jumpWords : List Text := ["break".toList, "continue".toList]

def returnWord : Text := "return".toList

end Simple

inductive Simple : List Text → Prop
  | declaration {w : Text} {ts cs ss is : List Text} (type : Part.Derives .type ts)
      (constraints : Part.Derives .constraints cs) (sizes : Part.Derives .sizes ss) (name : IsName w)
      (initial : Part.Derives .initial is) : Simple (ts ++ (cs ++ (ss ++ (w :: (is ++ [[';']])))))
  | assignment {w op : Text} {ps ts : List Text} (name : IsName w) (places : Places ps)
      (mem : op ∈ Simple.assignmentOperators) (value : Phrase.Derives (.expression true) ts) :
      Simple (w :: (ps ++ op :: (ts ++ [[';']])))
  | sampling {w : Text} {ts us vs : List Text} (value : Phrase.Derives (.expression true) ts)
      (name : IsName w) (arguments : Phrase.Derives .arguments us) (truncation : Truncation vs) :
      Simple (ts ++ ['~'] :: ([w, ['(']] ++ us ++ [[')']] ++ (vs ++ [[';']])))
  | accumulation {ts : List Text} (value : Phrase.Derives (.expression true) ts) :
      Simple ([Rule.targetWord, ['+', '=']] ++ (ts ++ [[';']]))
  | call {w : Text} {ts : List Text} (name : IsName w) (arguments : Phrase.Derives .arguments ts) :
      Simple ([w ++ ['(']] ++ ts ++ [[')']] ++ [[';']])
  | callApart {w : Text} {ts : List Text} (name : IsName w)
      (arguments : Phrase.Derives .arguments ts) : Simple ([w, ['(']] ++ ts ++ [[')']] ++ [[';']])
  | print {w : Text} {ts : List Text} (mem : w ∈ Simple.printWords)
      (arguments : Phrase.Derives .arguments ts) : Simple ([w, ['(']] ++ ts ++ [[')']] ++ [[';']])
  | result {ts : List Text} (value : Phrase.Derives .bound ts) :
      Simple (Simple.returnWord :: (ts ++ [[';']]))
  | jump {w : Text} (mem : w ∈ Simple.jumpWords) : Simple [w, [';']]

theorem Places.keeps {r : Region} (places : Places ts) (comment : r.isBlockComment = false) :
    Keeps lexer r ts := by
  induction places with
  | none => exact .nil
  | some h more ih => exact (keeps_brackets comment (h.keeps rfl nofun)).append ih

/-- The places between bounds that truncate a distribution. -/
theorem keeps_bounds {r : Region} (calm : r.isCalm = true) (other : r ≠ .constraints)
    (low : Phrase.Derives .bound ts) (high : Phrase.Derives .bound us) :
    Keeps lexer r (ts ++ [','] :: us) := by
  refine (low.keeps calm ?_).append (.cons (keeps_comma ?_) (high.keeps calm ?_))
  · exact fun same => absurd same other
  · exact Region.isBlockComment_of_isCalm calm
  · exact fun same => absurd same other

/-- What truncates a distribution stays in the sampling statement. -/
theorem Truncation.keeps (truncation : Truncation ts) : Keeps lexer (.sampling true) ts := by
  cases truncation with
  | none => exact .nil
  | some low high =>
    refine keeps_enclosed_in .truncation ?_ (keeps_bounds rfl nofun low high) rfl rfl (by decide)
    exact fun here inside => leads_truncation inside
  | apart low high =>
    refine .cons (keeps_name (by decide) rfl) ?_
    exact keeps_brackets rfl (keeps_bounds rfl nofun low high)

/-- A statement that keeps the region it stands in returns at its `;`. -/
theorem IsHost.leads_kept (host : IsHost here) (h : Keeps lexer here.innermost ts) :
    Leads lexer here (ts ++ [[';']]) fun there => there = here := by
  refine (h.returns rfl host.settled).append ?_
  rintro _ rfl
  exact host.leads_end

/-- Parentheses around a phrase, whichever of some regions they open. -/
theorem leads_around {p : Phrase} {front : List Text} (Outside : LineState → Prop)
    (inners : List Region) (h : Phrase.Derives p ts)
    (opens : Leads lexer here front fun there => ∃ outer, Outside outer ∧ ∃ inner ∈ inners,
      there = outer.enter inner)
    (facts : ∀ inner ∈ inners, (inner.isCalm = true ∧ inner ≠ .constraints) ∧
      inner.enclosure?.map Enclosure.closer = some ')') :
    Leads lexer here (front ++ ts ++ [[')']]) Outside := by
  refine leads_enclosed Outside inners opens ?_ ?_ (by decide)
  · intro outer inner mem
    obtain ⟨⟨calm, other⟩, _⟩ := facts inner mem
    have kept : Keeps lexer inner ts := h.keeps calm fun same => absurd same other
    exact kept.returns rfl rfl
  · intro inner mem
    exact ⟨Region.isBlockComment_of_isCalm (facts inner mem).1.1, (facts inner mem).2⟩

/-- A sampling statement from its sign on. -/
theorem leads_sampled (host : IsHost here) (name : IsName w)
    (arguments : Phrase.Derives .arguments us) (truncation : Truncation vs) :
    Leads lexer (here.enter (.sampling false)) ([w, ['(']] ++ us ++ [[')']] ++ (vs ++ [[';']]))
      fun there => there = here := by
  let named := here.enter (.sampling true)
  have called : Leads lexer (here.enter (.sampling false)) ([w, ['(']] ++ us ++ [[')']])
      fun there => there = named := by
    refine leads_around _ [.call .distribution, .parens] arguments ?_ (by decide)
    refine (leads_distribution name).weaken ?_
    rintro _ (rfl | rfl)
    · exact ⟨named, rfl, .call .distribution, by decide, rfl⟩
    · exact ⟨named, rfl, .parens, by decide, rfl⟩
  have kept : Keeps lexer (.sampling true) vs := truncation.keeps
  refine called.append ?_
  rintro _ rfl
  refine (kept.returns rfl rfl).append ?_
  rintro _ rfl
  exact host.leads_endStatement rfl

/-- A printing statement up to its `;`. -/
theorem leads_printed (host : IsHost here) (mem : w ∈ Simple.printWords)
    (arguments : Phrase.Derives .arguments ts) :
    Leads lexer here ([w, ['(']] ++ ts ++ [[')']]) fun there => there = here := by
  refine leads_around _ [.printArguments, .parens] arguments ?_ (by decide)
  refine (leads_print mem host.braced).weaken ?_
  rintro _ (rfl | rfl)
  · exact ⟨here, rfl, .printArguments, by decide, rfl⟩
  · exact ⟨here, rfl, .parens, by decide, rfl⟩

/-- An addition to the target. -/
theorem leads_accumulated (host : IsHost here) (value : Phrase.Derives (.expression true) ts) :
    Leads lexer here ([Rule.targetWord, ['+', '=']] ++ (ts ++ [[';']]))
      fun there => there = here := by
  refine (leads_target host.braced).append ?_
  rintro _ (rfl | rfl)
  · have kept : Keeps lexer .accumulation ts := value.keeps rfl nofun
    refine (kept.returns rfl rfl).append ?_
    rintro _ rfl
    exact host.leads_endAccumulation
  · refine host.leads_kept (value.keeps host.isCalm ?_)
    exact fun constraints => absurd constraints host.ne_constraints

/-- A simple statement returns to where it began. -/
theorem Simple.leads (simple : Simple ts) (host : IsHost here) :
    Leads lexer here ts fun there => there = here := by
  have calm := host.isCalm
  have other : ∀ {p : Phrase}, here.innermost = .constraints → p = .expression false :=
    fun constraints => absurd constraints host.ne_constraints
  cases simple with
  | declaration type constraints sizes name initial =>
    exact leads_declaration host type constraints sizes name initial
  | @assignment w op ps ts name places mem value =>
    have spelled : ∀ v ∈ assignmentOperators, v ∈ Rule.operators.map Prod.fst ∧ v ≠ ['>'] := by
      decide
    have sign : Keeps lexer here.innermost [op] := by
      refine keeps_operator (spelled op mem).1 calm (fun _ => host.assigns) ?_
      exact fun same => absurd same (spelled op mem).2
    have kept : Keeps lexer here.innermost (w :: (ps ++ op :: ts)) := by
      refine .cons (keeps_name name calm) ((places.keeps host.isBlockComment).append ?_)
      exact .cons sign (value.keeps calm other)
    simpa using host.leads_kept kept
  | @sampling w ts us vs value name arguments truncation =>
    have kept : Keeps lexer here.innermost ts := value.keeps calm other
    refine (kept.returns rfl host.settled).append ?_
    rintro _ rfl
    refine (leads_tilde host.isBlockComment).cons ?_
    rintro _ rfl
    exact leads_sampled host name arguments truncation
  | accumulation value => exact leads_accumulated host value
  | call name arguments =>
    have value : Phrase.Derives (.expression true) _ := .call name arguments
    exact host.leads_kept (value.keeps calm other)
  | callApart name arguments =>
    have value : Phrase.Derives (.expression true) _ := .callApart name arguments
    exact host.leads_kept (value.keeps calm other)
  | print mem arguments =>
    refine (leads_printed host mem arguments).append ?_
    rintro _ rfl
    exact host.leads_end
  | result value =>
    refine (leads_linkWord (by decide) calm).cons ?_
    rintro _ rfl
    exact host.leads_kept (value.keeps calm other)
  | @jump w mem =>
    have links : ∀ v ∈ jumpWords, v ∈ linkWords := by decide
    refine (leads_linkWord (links w mem) calm).cons ?_
    rintro _ rfl
    exact host.leads_end

inductive Header : Control → List Text → Prop
  | condition {kind : Control} {ts : List Text} (other : kind ≠ .forLoop)
      (h : Phrase.Derives (.expression true) ts) : Header kind ts
  | each {w : Text} {ts : List Text} (name : IsName w) (h : Phrase.Derives (.expression true) ts) :
      Header .forLoop (w :: "in".toList :: ts)
  | range {w : Text} {ts us : List Text} (name : IsName w)
      (low : Phrase.Derives (.expression true) ts) (high : Phrase.Derives (.expression true) us) :
      Header .forLoop (w :: "in".toList :: (ts ++ [':'] :: us))

def Control.head (kind : Control) (ts : List Text) : List Text :=
  [kind.keyword.toList, ['(']] ++ ts ++ [[')']]

inductive Extent where
  | one | many
  deriving DecidableEq, Repr

inductive Statement : Extent → List Text → Prop
  | simple {ts : List Text} (h : Simple ts) : Statement .one ts
  | block {ts : List Text} (h : Statement .many ts) : Statement .one ([['{']] ++ ts ++ [['}']])
  | controlled {kind : Control} {hs ts : List Text} (header : Header kind hs)
      (body : Statement .one ts) : Statement .one (kind.head hs ++ ts)
  | otherwise {hs ts us : List Text} (header : Header .conditional hs) (yes : Statement .one ts)
      (no : Statement .one us) :
      Statement .one (Control.conditional.head hs ++ (ts ++ "else".toList :: us))
  | done : Statement .many []
  | followed {ts us : List Text} (h : Statement .one ts) (more : Statement .many us) :
      Statement .many (ts ++ us)

/-- The name of a loop's variable. -/
theorem IsName.leads_loopVariable (name : IsName w) (here : LineState) :
    Leads lexer (here.enter (.control .forLoop true false)) [w] fun there =>
      there = here.enter (.control .forLoop true true) := by
  refine name.isPlain.leads_slot rfl nofun fun after => ⟨[.loopVariable], ?_⟩
  simp only [Rule.nameSlot?, LineState.innermost_enter, name.plain, Bool.false_eq_true, if_false]
  rfl

theorem keeps_linkWord {r : Region} (mem : w ∈ linkWords) (calm : r.isCalm = true) :
    Keeps lexer r [w] := by
  refine .of_leads ?_
  rintro here rfl
  exact leads_linkWord mem calm

/-- A header in parentheses leads back to where its keyword stands. -/
theorem leads_head {kind : Control} (host : IsHost here) (header : Header kind ts) :
    Leads lexer here (kind.head ts) fun there => there = here := by
  have opens : Leads lexer here [kind.keyword.toList, ['(']] fun there =>
      there = here.enter (.control kind true false) ∨ there = here.enter .parens :=
    leads_control kind host.braced
  have loop : ∀ {w : Text} {us : List Text}, kind = .forLoop → IsName w →
      (∀ r : Region, r.isCalm = true → r ≠ .constraints → Keeps lexer r us) →
      Leads lexer here (kind.head (w :: "in".toList :: us)) fun there => there = here := by
    rintro w us rfl name rest
    have whole : Control.forLoop.head (w :: "in".toList :: us) =
        ([Control.forLoop.keyword.toList, ['(']] ++ [w]) ++ ("in".toList :: us) ++ [[')']] := by
      simp [Control.head]
    have inners : ∀ inner ∈ [Region.control .forLoop true true, .parens],
        inner.isCalm = true ∧ inner ≠ .constraints := by decide
    rw [whole]
    refine leads_enclosed _ [.control .forLoop true true, .parens] ?_ ?_ (by decide) (by decide)
    · refine opens.append ?_
      rintro _ (rfl | rfl)
      · refine (name.leads_loopVariable here).weaken ?_
        rintro _ rfl
        exact ⟨here, rfl, .control .forLoop true true, by decide, rfl⟩
      · refine (name.leads rfl).weaken ?_
        rintro _ rfl
        exact ⟨here, rfl, .parens, by decide, rfl⟩
    · intro outer inner mem
      obtain ⟨calm, other⟩ := inners inner mem
      exact (Keeps.cons (keeps_linkWord (by decide) calm) (rest inner calm other)).returns rfl rfl
  cases header with
  | condition other h =>
    refine leads_around _ [.control kind true false, .parens] h ?_ ?_
    · refine opens.weaken ?_
      rintro _ (rfl | rfl)
      · exact ⟨here, rfl, .control kind true false, List.mem_cons_self, rfl⟩
      · exact ⟨here, rfl, .parens, List.mem_cons_of_mem _ List.mem_cons_self, rfl⟩
    · cases kind with
      | forLoop => exact absurd rfl other
      | whileLoop | conditional => decide
  | each name h =>
    exact loop rfl name fun r calm other => h.keeps calm fun same => absurd same other
  | range name low high =>
    refine loop rfl name fun r calm other => ?_
    refine (low.keeps calm fun same => absurd same other).append ?_
    exact .cons (keeps_colon calm) (high.keeps calm fun same => absurd same other)

/-- A brace opens a place for statements. -/
theorem leads_openHost (comment : here.innermost.isBlockComment = false) :
    Leads lexer here [['{']] fun there => ∃ inner ∈ [Region.array, .block],
      there = here.enter inner := by
  refine (leads_openBrace comment).weaken ?_
  rintro _ (rfl | ⟨rfl, _⟩)
  · exact ⟨.array, by decide, rfl⟩
  · exact ⟨.block, by decide, rfl⟩

theorem isHost_enter {inner : Region} (outer : LineState) (mem : inner ∈ [Region.array, .block]) :
    IsHost (outer.enter inner) := by
  have braced : ∀ r ∈ [Region.array, .block], r.isBraced = true := by decide
  exact .enter outer (braced inner mem)

/-- Braces around statements that return to where they began. -/
theorem leads_body (comment : here.innermost.isBlockComment = false)
    (inside : ∀ host : LineState, IsHost host → Leads lexer host ts fun there => there = host) :
    Leads lexer here ([['{']] ++ ts ++ [['}']]) fun there => there = here := by
  refine leads_enclosed _ [.array, .block] ?_ ?_ (by decide) (by decide)
  · exact (leads_openHost comment).weaken fun _ opened => ⟨here, rfl, opened⟩
  · exact fun outer inner mem => inside (outer.enter inner) (isHost_enter outer mem)

/-- Braces around tokens that lead to a statement and from it back to where they began. -/
theorem leads_around_site {pre post : List Text} (comment : here.innermost.isBlockComment = false)
    (inside : ∀ host : LineState, IsHost host → Leads lexer host pre fun site => IsHost site ∧
      Leads lexer site post fun there => there = host) :
    Leads lexer here ([['{']] ++ pre) fun site => IsHost site ∧
      Leads lexer site (post ++ [['}']]) fun there => there = here := by
  have facts : ∀ r ∈ [Region.array, .block], r.isBlockComment = false ∧
      r.enclosure?.map Enclosure.closer = some '}' := by decide
  refine (leads_openHost comment).append ?_
  rintro _ ⟨inner, mem, rfl⟩
  refine (inside _ (isHost_enter here mem)).weaken ?_
  rintro site ⟨host, back⟩
  refine ⟨host, back.append ?_⟩
  rintro _ rfl
  exact leads_close (facts inner mem).1 (facts inner mem).2 (by decide)

/-- Every statement returns to where it began, and so does every list of them. -/
theorem Statement.leads {e : Extent} (statement : Statement e ts) (host : IsHost here) :
    Leads lexer here ts fun there => there = here := by
  induction statement generalizing here with
  | simple h => exact h.leads host
  | block h ih => exact leads_body host.isBlockComment fun _ inside => ih inside
  | controlled header body ih =>
    refine (leads_head host header).append ?_
    rintro _ rfl
    exact ih host
  | otherwise header yes no ihy ihn =>
    refine (leads_head host header).append ?_
    rintro _ rfl
    refine (ihy host).append ?_
    rintro _ rfl
    refine (leads_linkWord (by decide) host.isCalm).cons ?_
    rintro _ rfl
    exact ihn host
  | done => exact .nil rfl
  | followed h more ih ihm =>
    refine (ih host).append ?_
    rintro _ rfl
    exact ihm host

/-- The tokens of statements around the tokens of one of them. -/
inductive Within : Extent → List Text → List Text → List Text → Prop
  | self {ts : List Text} (h : Statement .one ts) : Within .one [] ts []
  | block {pre ts post : List Text} (h : Within .many pre ts post) :
      Within .one ([['{']] ++ pre) ts (post ++ [['}']])
  | controlled {kind : Control} {hs pre ts post : List Text} (header : Header kind hs)
      (body : Within .one pre ts post) : Within .one (kind.head hs ++ pre) ts post
  | yes {hs us pre ts post : List Text} (header : Header .conditional hs)
      (yes : Within .one pre ts post) (no : Statement .one us) :
      Within .one (Control.conditional.head hs ++ pre) ts (post ++ "else".toList :: us)
  | no {hs us pre ts post : List Text} (header : Header .conditional hs) (yes : Statement .one us)
      (no : Within .one pre ts post) :
      Within .one (Control.conditional.head hs ++ (us ++ "else".toList :: pre)) ts post
  | first {us pre ts post : List Text} (h : Within .one pre ts post) (more : Statement .many us) :
      Within .many pre ts (post ++ us)
  | later {us pre ts post : List Text} (h : Statement .one us) (more : Within .many pre ts post) :
      Within .many (us ++ pre) ts post

namespace Within

variable {e : Extent} {pre post : List Text}

/-- The tokens around a statement make up statements together with it. -/
theorem statement (within : Within e pre ts post) : Statement e (pre ++ ts ++ post) := by
  induction within with
  | self h => simpa using h
  | block h ih => simpa using Statement.block ih
  | controlled header body ih => simpa using Statement.controlled header ih
  | yes header yes no ih => simpa using Statement.otherwise header ih no
  | no header yes no ih => simpa using Statement.otherwise header yes ih
  | first h more ih => simpa using Statement.followed ih more
  | later h more ih => simpa using Statement.followed h ih

theorem inner (within : Within e pre ts post) : Statement .one ts := by
  induction within with
  | self h => exact h
  | block h ih | controlled header h ih | yes header h no ih | no header yes h ih | first h more ih
  | later h more ih => exact ih

/-- What stands in front of a statement leads to where it begins, and what comes after it leads
back from there. -/
theorem leads (within : Within e pre ts post) (host : IsHost here) :
    Leads lexer here pre fun site => IsHost site ∧
      Leads lexer site post fun there => there = here := by
  induction within generalizing here with
  | self h => exact .nil ⟨host, .nil rfl⟩
  | block h ih => exact leads_around_site host.isBlockComment fun _ inside => ih inside
  | controlled header body ih =>
    refine (leads_head host header).append ?_
    rintro _ rfl
    exact ih host
  | yes header yes no ih =>
    refine (leads_head host header).append ?_
    rintro _ rfl
    refine (ih host).weaken ?_
    rintro site ⟨inside, back⟩
    refine ⟨inside, back.append ?_⟩
    rintro _ rfl
    refine (leads_linkWord (by decide) host.isCalm).cons ?_
    rintro _ rfl
    exact no.leads host
  | no header yes no ih =>
    refine (leads_head host header).append ?_
    rintro _ rfl
    refine (yes.leads host).append ?_
    rintro _ rfl
    refine (leads_linkWord (by decide) host.isCalm).cons ?_
    rintro _ rfl
    exact ih host
  | first h more ih =>
    refine (ih host).weaken ?_
    rintro site ⟨inside, back⟩
    refine ⟨inside, back.append ?_⟩
    rintro _ rfl
    exact more.leads host
  | later h more ih =>
    refine (h.leads host).append ?_
    rintro _ rfl
    exact ih host

end Within

end StanHighlight

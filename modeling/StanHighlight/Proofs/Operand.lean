import StanHighlight.Proofs.Expression
import StanHighlight.Proofs.Spacing
import StanHighlight.Proofs.StepPieces

/-!
The tokens of expressions in front of whatever follows them. Where an expression stands, a name, a
literal or an operator is one token and changes nothing, and a bracket opens or closes a region.
Only a name that a bracket follows at once may be more than a name: a parenthesis begins a call, and
`[` behind `T` a truncation.
-/

namespace StanHighlight

variable {lexer : Lexer} {assigned : Bool} {here : LineState} {c : Char} {w t rest : Text}

namespace Region

/-- Regions in which expressions stand and no name, sign or parenthesis has another meaning. -/
def hosts (r : Region) : Bool := r == .program || r.isCalm && r != .constraints

variable {r : Region}

theorem cases_of_hosts (h : r.hosts = true) :
    r = .program ∨ r.isCalm = true ∧ r ≠ .constraints := by
  simpa [hosts] using h

theorem isBlockComment_of_hosts (h : r.hosts = true) : r.isBlockComment = false := by
  rcases cases_of_hosts h with rfl | ⟨calm, _⟩
  · rfl
  · exact isBlockComment_of_isCalm calm

theorem ne_constraints_of_hosts (h : r.hosts = true) : r ≠ .constraints := by
  rintro rfl
  cases h

theorem ne_declaration_of_hosts (h : r.hosts = true) : r ≠ .declaration false := by
  rintro rfl
  cases h

end Region

section Hosts

variable (host : here.innermost.hosts = true)
include host

theorem nameSlot?_of_hosts (w after : Text) : Rule.nameSlot? here w after = none := by
  cases e : here.innermost with
  | declaration named =>
    obtain rfl : named = true := by simpa [e, Region.hosts, Region.isCalm] using host
    simp [Rule.nameSlot?, e]
  | sampling filled =>
    obtain rfl : filled = true := by simpa [e, Region.hosts, Region.isCalm] using host
    simp [Rule.nameSlot?, e]
  | control kind opened named =>
    simp only [Rule.nameSlot?, e]
    split <;> simp_all [Region.hosts, Region.isCalm]
  | functionDeclaration | constraints => simp [e, Region.hosts, Region.isCalm] at host
  | _ => simp [Rule.nameSlot?, e]

theorem passDistribution_of_hosts : Rule.passDistribution here = here := by
  unfold Rule.passDistribution
  split
  · next waits => simp [waits, Region.hosts, Region.isCalm] at host
  · rfl

theorem openParen_of_hosts : Rule.openParen here = (here.enter .parens, .parens) := by
  unfold Rule.openParen
  split
  · next waits => simp [waits, Region.hosts, Region.isCalm] at host
  · next waits => simp [waits, Region.hosts, Region.isCalm] at host
  · rfl

end Hosts

section Names

/-- A fixed word that a text begins with is its first word if no word goes on behind it. -/
theorem eq_of_after? {v after : Text} (word : IsWord w) (ends : EndsWord rest) (fixed : IsWord v)
    (found : (w ++ rest).after? v = some after) (none : Text.word after = []) :
    v = w ∧ after = rest := by
  have first : Text.word (w ++ rest) = v := by
    rw [Text.after?_eq_some_iff.1 found, Text.word,
      List.takeWhile_append_of_pos (List.all_eq_true.1 fixed.chars), ← Text.word, none,
      List.append_nil]
  rw [word_append word ends] at first
  subst first
  rw [Text.after?_append] at found
  exact ⟨rfl, (Option.some.inj found).symm⟩

/-- The words of a header are not followed by its brace where something else follows the first of
them. -/
theorem spacedWords?_ne_brace {ws : List Text} {taken left : Text} (word : IsWord w)
    (ends : EndsWord rest) (bare : ∀ c ∈ (Text.trimStart rest).head?,
      Text.isWordChar c = false ∧ c ≠ '{')
    (some_word : ws ≠ []) (words : ∀ v ∈ ws, IsWord v)
    (h : Rule.spacedWords? ws (w ++ rest) = some (taken, left)) :
    (Text.trimStart left).head? ≠ some '{' := by
  intro brace
  obtain ⟨more, next⟩ := List.head?_eq_some_iff.1 brace
  match ws with
  | [] => exact some_word rfl
  | [v] =>
    obtain ⟨after, found, same⟩ := Option.map_eq_some_iff.1 h
    obtain ⟨rfl, rfl⟩ := Prod.mk.inj same
    have alone := word_eq_nil next (by decide)
    obtain ⟨_, rfl⟩ := eq_of_after? word ends (words v List.mem_cons_self) found alone
    exact (bare '{' brace).2 rfl
  | u :: v :: vs =>
    simp only [Rule.spacedWords?] at h
    split at h
    · cases h
    · next after found =>
      split at h
      · cases h
      · next blank =>
        obtain ⟨later, found', _⟩ := Option.map_eq_some_iff.1 h
        obtain ⟨tail, second⟩ := Rule.prefix_of_spacedWords? found'
        have alone : Text.word after = [] := endsWord_iff.1 (endsWord_of_gap blank)
        obtain ⟨_, rfl⟩ := eq_of_after? word ends (words u List.mem_cons_self) found alone
        -- The second word stands where no word may follow.
        obtain ⟨c, v', rfl, letter⟩ := (words v (by simp)).exists_cons
        have follows : (Text.trimStart after).head? = some c := by rw [← second]; rfl
        have other := (bare c follows).1
        simp [Text.isWordChar, Char.isAlphanum, letter] at other

/-- A word begins no header if neither another word nor a brace follows it. -/
theorem sectionHeader?_eq_none (word : IsWord w) (ends : EndsWord rest)
    (bare : ∀ c ∈ (Text.trimStart rest).head?, Text.isWordChar c = false ∧ c ≠ '{') :
    Rule.sectionHeader? here (w ++ rest) = none := by
  have none : Rule.header? (w ++ rest) = none := by
    refine List.findSome?_eq_none_iff.2 fun sec _ => Option.map_eq_none_iff.2 ?_
    have words : ∀ sec : Section, sec.words.map String.toList ≠ [] ∧
        ∀ v ∈ sec.words.map String.toList, IsWord v := by
      intro sec
      cases sec <;> decide
    unfold Rule.headerOf?
    split
    · rfl
    · next taken left found =>
      have other := spacedWords?_ne_brace word ends bare (words sec).1 (words sec).2 found
      split
      · next body => simp [body] at other
      · rfl
  simp [Rule.sectionHeader?, none]

namespace IsName

theorem endsWord_of_runsInto (name : IsName w) (ends : Text.runsInto w rest = false) :
    EndsWord rest :=
  Text.not_isWordChar_of_runsInto (by simp [name.chars]) ends

variable (name : IsName w) (host : here.innermost.hosts = true) (ends : EndsWord rest)
include name host ends

/-- What a name is read as. -/
theorem take_of_hosts
    (bare : ∀ c ∈ (Text.trimStart rest).head?, Text.isWordChar c = false ∧ c ≠ '{') :
    Step.take lexer assigned here (w ++ rest) = Rule.wordStep here w rest :=
  name.isPlain.take ends (Region.isBlockComment_of_hosts host)
    (sectionHeader?_eq_none name.toIsWord ends bare)

/-- A name that no parenthesis follows is a name, but for `T` with a bracket. -/
theorem take_alone
    (bare : ∀ c ∈ (Text.trimStart rest).head?, Text.isWordChar c = false ∧ c ≠ '{' ∧ c ≠ '(')
    (bracket : w = ['T'] → rest.head? ≠ some '[') :
    ∃ l, Step.take lexer assigned here (w ++ rest) = .single here [l] w rest := by
  have step := name.wordStep_eq (passDistribution_of_hosts host) bracket
    (nameSlot?_of_hosts host w rest)
  rw [name.take_of_hosts host ends fun c first => ⟨(bare c first).1, (bare c first).2.1⟩, step]
  unfold Rule.identifier
  split
  · next more =>
    have visible : Text.trimStart ('(' :: more) = '(' :: more :=
      Text.trimStart_cons_of_not_isSpace (by decide) more
    exact absurd rfl (bare '(' (by rw [visible]; rfl)).2.2
  · exact ⟨_, rfl⟩

end IsName

/-- A name with its parenthesis begins a call. -/
theorem IsName.take_call (name : IsName w) (host : here.innermost.hosts = true) :
    Step.take lexer assigned here (w ++ '(' :: rest) =
      .opening ⟨w, here, [.functionCall, Rule.calledName here (String.ofList w)]⟩ [] '('
        (here.enter (.call .function)) .arguments rest := by
  have bracket : List.head? ('(' :: rest) ≠ some '[' := by simp
  have step := name.wordStep_eq (passDistribution_of_hosts host) (fun _ => bracket)
    (nameSlot?_of_hosts host w ('(' :: rest))
  have paren : Text.trimStart ('(' :: rest) = '(' :: rest :=
    Text.trimStart_cons_of_not_isSpace (by decide) rest
  rw [name.take_of_hosts host (endsWord_paren rest) (by rw [paren]; rintro c ⟨⟩; decide), step]
  rfl

/-- `T` with its bracket begins a truncation. -/
theorem take_truncation (host : here.innermost.hosts = true) :
    Step.take lexer assigned here ('T' :: '[' :: rest) =
      .opening ⟨['T'], here, [.truncation]⟩ [] '[' (here.enter .truncation) .truncation rest := by
  have name : IsName ['T'] := by decide
  have ends : EndsWord ('[' :: rest) := by
    rintro c ⟨⟩
    decide
  have bracket : Text.trimStart ('[' :: rest) = '[' :: rest :=
    Text.trimStart_cons_of_not_isSpace (by decide) rest
  have step : Step.take lexer assigned here (['T'] ++ '[' :: rest) = _ :=
    name.take_of_hosts host ends (by rw [bracket]; rintro c ⟨⟩; decide)
  have keyword : Rule.keyword? here ['T'] ('[' :: rest) =
      some (.opening ⟨['T'], here, [.truncation]⟩ [] '[' (here.enter .truncation) .truncation
        rest) := rfl
  refine step.trans ?_
  simp only [Rule.wordStep, name.formed, name.free, nameSlot?_of_hosts host,
    passDistribution_of_hosts host, keyword, Bool.false_eq_true, if_false, Option.getD_some]

end Names

/-- Operators between operands. Without a blank in between, `<` and the sign of what follows it are
read as one. -/
def infixOperators : List Text := Phrase.binaryOperators ++ [['<', '-']]

/-- Signs that may follow an operand, besides the bracket of an index. -/
def followers : List Text :=
  infixOperators ++ [['\''], ['?'], [':'], [','], ['|'], [')'], [']'], ['}']]

def Follows (us : List Text) : Prop := ∀ v ∈ us.head?, v ∈ followers

/-- What follows an operand begins with no word and no opening bracket. -/
theorem Follows.bare {us : List Text} (follows : Follows us)
    (spelled : Text.spells us rest = true) : ∀ c ∈ (Text.trimStart rest).head?,
      Text.isWordChar c = false ∧ c ≠ '{' ∧ c ≠ '(' ∧ c ≠ '[' := by
  cases us with
  | nil =>
    rw [Text.spells_nil_iff.1 spelled]
    exact nofun
  | cons v us =>
    have facts : ∀ v ∈ followers, v ≠ [] ∧ v.head?.all (fun c =>
        !Text.isWordChar c && c != '{' && c != '(' && c != '[') = true := by decide
    obtain ⟨visible, first⟩ := facts v (follows v rfl)
    obtain ⟨d, v, rfl⟩ := List.exists_cons_of_ne_nil visible
    obtain ⟨left, found, _⟩ := Text.spells_cons_iff.1 spelled
    rw [found]
    rintro c ⟨⟩
    simpa [and_assoc] using first

def Piece.IsSign (w : Text) (l : Label) (p : Piece) : Prop := p.text = w ∧ p.own = [l]

/-- Some pieces and a bracket behind them that opens one of certain regions. -/
def Opens (inners : List Region) (opening : Char) (front : List Piece → Prop) (here : LineState)
    (ps : List Piece) (there : LineState) : Prop :=
  ∃ r ∈ inners, ∃ e qs p, there = here.enter r ∧ r.enclosure? = some e ∧ ps = qs ++ [p] ∧ front qs ∧
    p.IsSign [opening] (.begins e)

def Between (front : List Piece → Prop) (sign : Piece → Prop) (back : List Piece → Prop)
    (ps : List Piece) : Prop :=
  ∃ qs p rs, ps = qs ++ p :: rs ∧ front qs ∧ sign p ∧ back rs

/-- Pieces and others in brackets behind them, and the brackets are labelled as the two ends of one
construct. -/
def Enclosed (front : List Piece → Prop) (opening closing : Char) (inside : List Piece → Prop)
    (ps : List Piece) : Prop :=
  ∃ e, Between front (Piece.IsSign [opening] (.begins e))
    (Between inside (Piece.IsSign [closing] (.ends e)) (· = [])) ps

section Signs

variable {us : List Text} (parts : lexer.clusters.PartsAscii)
include parts

/-- The closing bracket of a region is labelled as its end and undoes its opening. -/
theorem cuts_close {inner : Region} {e : Enclosure} (closes : inner.enclosure? = some e)
    (closer : e.closer = c) (bracket : c ∈ [')', ']', '}'])
    (code : inner.isBlockComment = false) :
    Cuts lexer (here.enter inner) [[c]] us fun ps there =>
      there = here ∧ ∃ p, ps = [p] ∧ p.IsSign [c] (.ends e) := by
  simp only [List.mem_cons, List.not_mem_nil, or_false] at bracket
  have clean : Clean [c] := by rcases bracket with rfl | rfl | rfl <;> decide
  have first : ∀ table ∈ Rule.tables,
      (table.filter fun rule => rule.startsAt c).head? = some .closer := by
    rcases bracket with rfl | rfl | rfl <;> decide
  have step : ∀ stray rest, Rule.close (here.enter inner) c stray rest =
      ⟨[⟨[c], here.enter inner, [.ends e]⟩], here, rest⟩ := by
    intro stray rest
    simp [Rule.close, closes, closer]
  have applies : ∀ rest, Rule.closer? (here.enter inner) (c :: rest) =
      some ⟨[⟨[c], here.enter inner, [.ends e]⟩], here, rest⟩ := by
    intro rest
    rcases bracket with rfl | rfl | rfl
    · rw [Rule.closer?, step]
    · rw [Rule.closer?, step]
    · have braced : inner.isBraced = true :=
        (Region.isBraced_iff inner).2 (by rw [closes, Option.map_some, closer])
      have same : (here.enter inner).toBrace? = some (here.enter inner) :=
        toBrace?_of_isBraced braced
      rw [Rule.closer?, same, Option.getD_some, step]
  exact .mark parts .closer code first clean fun _ rest _ =>
    ⟨_, applies rest, rfl, rfl, _, rfl, rfl, rfl⟩

variable (comment : here.innermost.isBlockComment = false)
include comment

theorem cuts_comma : Cuts lexer here [[',']] us fun ps there =>
    there = here ∧ ∃ p, ps = [p] ∧ p.text = [','] :=
  .mark parts .delimiter comment (by decide) (by decide) fun _ _ _ =>
    ⟨_, rfl, rfl, rfl, _, rfl, rfl⟩

theorem cuts_question : Cuts lexer here [['?']] us fun ps there =>
    there = here.ask ∧ ∃ p, ps = [p] ∧ p.IsSign ['?'] .ternaryOperator :=
  .mark parts .operator comment (by decide) (by decide) fun _ _ _ =>
    ⟨_, rfl, rfl, rfl, _, rfl, rfl, rfl⟩

/-- A colon answers a `?` that waits, and otherwise stands in a range. -/
theorem cuts_colon : Cuts lexer here [[':']] us fun ps there =>
    there = here.answer?.getD here ∧ ∃ p, ps = [p] ∧ p.IsSign [':']
      (if here.answer?.isSome then .ternaryOperator else .colonOperator) := by
  refine .mark parts .operator comment (by decide) (by decide) fun assigned rest _ => ?_
  cases answered : here.answer? with
  | none =>
    refine ⟨.single here [.colonOperator] [':'] rest, ?_, rfl, rfl, _, rfl, rfl, rfl⟩
    simp [Rule.step?, Rule.operator?, answered]
  | some there =>
    refine ⟨.single there [.ternaryOperator] [':'] rest, ?_, rfl, rfl, _, rfl, rfl, rfl⟩
    simp [Rule.step?, Rule.operator?, answered]

theorem cuts_openBracket :
    Cuts lexer here [['[']] us (Opens [.brackets] '[' (· = []) here) :=
  .mark parts .opener comment (by decide) (by decide) fun _ _ _ => ⟨_, rfl, rfl, .brackets,
    List.mem_singleton_self _, .brackets, [], _, rfl, rfl, rfl, rfl, rfl, rfl⟩

/-- A brace opens a block or an array. -/
theorem cuts_openBrace :
    Cuts lexer here [['{']] us (Opens [.array, .block] '{' (· = []) here) := by
  refine .mark parts .opener comment (by decide) (by decide) fun assigned rest _ => ?_
  refine ⟨_, rfl, rfl, ?_⟩
  simp only [Step.single, Rule.openBrace]
  split
  · exact ⟨.block, by decide, .block, [], _, rfl, rfl, rfl, rfl, rfl, rfl⟩
  · exact ⟨.array, by decide, .array, [], _, rfl, rfl, rfl, rfl, rfl, rfl⟩

end Signs

section Tokens

variable {ts us : List Text} (parts : lexer.clusters.PartsAscii)
include parts

theorem cuts_number (number : IsNumber w) (comment : here.innermost.isBlockComment = false) :
    Cuts lexer here [w] us fun ps there => there = here ∧ ∃ p, ps = [p] ∧ p.text = w := by
  refine .token parts number.clean fun assigned rest ends _ => ?_
  obtain ⟨l, step⟩ := number.take comment ends
  exact ⟨_, step, rfl, rfl, _, rfl, rfl⟩

theorem cuts_string (string : IsString w) (comment : here.innermost.isBlockComment = false) :
    Cuts lexer here [w] us fun ps there => there = here ∧ Piece.texts ps = w := by
  refine .token parts string.clean fun assigned rest _ _ => ?_
  obtain ⟨ps, step, labelled, texts⟩ := string.take comment assigned rest
  exact ⟨_, step, rfl, rfl, by rw [labelled, texts]⟩

/-- A bar parts the arguments of a call. -/
theorem cuts_bar {callee : Callee} (call : here.innermost = .call callee) :
    Cuts lexer here [['|']] us fun ps there => there = here ∧ ∃ p, ps = [p] ∧ p.text = ['|'] := by
  have comment : here.innermost.isBlockComment = false := by rw [call]; rfl
  refine .mark parts .delimiter comment (by decide) (by decide) fun assigned rest ends => ?_
  have single : rest.head? ≠ some '|' := by
    intro double
    obtain ⟨more, rfl⟩ := List.head?_eq_some_iff.1 double
    have long : ['|', '|'].length ≤ ['|'].length :=
      Text.length_le_of_runsInto (by decide) ends ⟨more, rfl⟩
    exact absurd long (by decide)
  refine ⟨.single here [.bar] ['|'] rest, ?_, rfl, rfl, _, rfl, rfl⟩
  simp [Rule.step?, Rule.delimiter?, call, single]

section Between

variable {mid onward : LineState} {vs : List Text} {front back : List Piece → Prop}
  {sign : Piece → Prop} {Q : List Piece → LineState → Prop}
  (first : Cuts lexer here ts (w :: us ++ vs) fun ps there => there = mid ∧ front ps)
  (second : Cuts lexer mid [w] (us ++ vs) fun ps there => there = onward ∧ ∃ p, ps = [p] ∧ sign p)
include first second
omit parts

/-- A sign behind some tokens and in front of others. -/
theorem cuts_cons (last : Cuts lexer onward us vs Q) :
    Cuts lexer here (ts ++ w :: us) vs fun ps there =>
      ∃ qs p rs, ps = qs ++ p :: rs ∧ front qs ∧ sign p ∧ Q rs there := by
  refine first.append ?_
  rintro qs _ ⟨rfl, head⟩
  refine second.cons ?_
  rintro _ _ ⟨rfl, p, rfl, middle⟩
  exact last.weaken fun rs there holds => ⟨qs, p, rs, rfl, head, middle, holds⟩

theorem cuts_between {target : LineState}
    (last : Cuts lexer onward us vs fun ps there => there = target ∧ back ps) :
    Cuts lexer here (ts ++ w :: us) vs fun ps there =>
      there = target ∧ Between front sign back ps := by
  refine (cuts_cons first second last).weaken ?_
  rintro _ there ⟨qs, p, rs, rfl, head, middle, same, behind⟩
  exact ⟨same, qs, p, rs, rfl, head, middle, behind⟩

theorem opens_between {target : LineState} {inners : List Region} {o : Char}
    (last : Cuts lexer onward us vs (Opens inners o back target)) :
    Cuts lexer here (ts ++ w :: us) vs (Opens inners o (Between front sign back) target) := by
  refine (cuts_cons first second last).weaken ?_
  rintro _ _ ⟨qs, p, _, rfl, head, middle, r, mem, e, rs, q, rfl, enclosure, rfl, behind, begins⟩
  exact ⟨r, mem, e, qs ++ p :: rs, q, rfl, enclosure, by simp,
    ⟨qs, p, rs, rfl, head, middle, behind⟩, begins⟩

end Between

/-- Behind tokens that are read as a whole a bracket opens brackets. -/
theorem opens_behind {front : List Piece → Prop}
    (comment : here.innermost.isBlockComment = false)
    (first : Cuts lexer here ts (['['] :: us) fun ps there => there = here ∧ front ps) :
    Cuts lexer here (ts ++ [['[']]) us (Opens [.brackets, .truncation] '[' front here) := by
  refine first.append ?_
  rintro qs _ ⟨rfl, head⟩
  refine (cuts_openBracket parts comment).weaken ?_
  rintro _ _ ⟨r, mem, e, _, p, rfl, enclosure, rfl, rfl, begins⟩
  obtain rfl := List.mem_singleton.1 mem
  exact ⟨.brackets, by decide, e, qs, p, rfl, enclosure, rfl, head, begins⟩

/-- What stands in brackets is labelled as their inside, and the brackets as the ends of what the
opening one begins. -/
theorem cuts_enclosed {inners : List Region} {o : Char} {front inside : List Piece → Prop}
    {fs : List Text} (opens : Cuts lexer here fs (ts ++ [[c]] ++ us) (Opens inners o front here))
    (within : ∀ r ∈ inners, Cuts lexer (here.enter r) ts ([[c]] ++ us) fun ps there =>
      there = here.enter r ∧ inside ps)
    (closes : ∀ r ∈ inners, r.isBlockComment = false ∧
      r.enclosure?.map Enclosure.closer = some c) (bracket : c ∈ [')', ']', '}']) :
    Cuts lexer here (fs ++ (ts ++ [[c]])) us fun ps there =>
      there = here ∧ Enclosed front o c inside ps := by
  refine opens.append ?_
  rintro _ _ ⟨r, mem, e, qs, p, rfl, enclosure, rfl, head, begins⟩
  refine (within r mem).append ?_
  rintro ps _ ⟨rfl, body⟩
  obtain ⟨code, closer⟩ := closes r mem
  rw [enclosure, Option.map_some, Option.some.injEq] at closer
  refine (cuts_close parts enclosure closer bracket code).weaken ?_
  rintro _ _ ⟨rfl, q, rfl, ends⟩
  refine ⟨rfl, e, qs, p, ps ++ [q], ?_, head, begins, ps, q, [], rfl, body, ends, rfl⟩
  simp

end Tokens

section Hosted

variable {us : List Text} (parts : lexer.clusters.PartsAscii)
  (host : here.innermost.hosts = true)
include parts host

theorem cuts_operator (spelled : w ∈ Rule.operators.map Prod.fst) (other : w ≠ ['=']) :
    Cuts lexer here [w] us fun ps there => there = here ∧ ∃ p, ps = [p] ∧ p.text = w := by
  obtain ⟨entry, mem, rfl⟩ := List.mem_map.1 spelled
  have clean : ∀ entry ∈ Rule.operators, Clean entry.1 := by decide
  refine .token parts (clean entry mem) fun assigned rest ends _ => ?_
  have step : Step.take lexer assigned here (entry.1 ++ rest) = _ :=
    take_operator mem (Region.isBlockComment_of_hosts host) (Region.ne_declaration_of_hosts host)
      (fun equals => absurd equals other) (fun _ => Region.ne_constraints_of_hosts host) ends
  exact ⟨_, step, rfl, rfl, _, rfl, rfl⟩

/-- An operator in front of an operand or between two. -/
theorem cuts_sign (mem : w ∈ Phrase.prefixOperators ++ infixOperators) :
    Cuts lexer here [w] us fun ps there => there = here ∧ ∃ p, ps = [p] ∧ p.text = w := by
  have signs : ∀ v ∈ Phrase.prefixOperators ++ infixOperators,
      v ∈ Rule.operators.map Prod.fst ∧ v ≠ ['='] := by decide
  exact cuts_operator parts host (signs w mem).1 (signs w mem).2

theorem cuts_openParen : Cuts lexer here [['(']] us (Opens [.parens] '(' (· = []) here) := by
  refine .mark parts .opener (Region.isBlockComment_of_hosts host) (by decide) (by decide)
    fun assigned rest _ => ⟨_, rfl, rfl, ?_⟩
  rw [openParen_of_hosts host]
  exact ⟨.parens, List.mem_singleton_self _, .parens, [], _, rfl, rfl, rfl, rfl, rfl, rfl⟩

theorem cuts_call (name : IsName w) : Cuts lexer here [w ++ ['(']] us
    (Opens [.call .function] '(' (fun ps => ∃ p, ps = [p] ∧ p.text = w) here) := by
  refine .token parts (name.clean.append (by decide)) fun assigned rest _ _ => ?_
  have step : Step.take lexer assigned here (w ++ '(' :: rest) = _ := name.take_call host
  rw [List.append_assoc, List.singleton_append]
  exact ⟨_, step, rfl, .call .function, List.mem_singleton_self _, .arguments, _, _, rfl, rfl, rfl,
    ⟨_, rfl, rfl⟩, rfl, rfl⟩

theorem cuts_name (name : IsName w) (follows : Follows us) :
    Cuts lexer here [w] us fun ps there => there = here ∧ ∃ p, ps = [p] ∧ p.text = w := by
  refine .token parts name.clean fun assigned rest ends spelled => ?_
  have bare := follows.bare spelled
  obtain ⟨l, step⟩ : ∃ l, Step.take lexer assigned here (w ++ rest) = .single here [l] w rest := by
    refine name.take_alone host (name.endsWord_of_runsInto ends) (fun c first => ?_)
      fun _ start => ?_
    · obtain ⟨word, brace, paren, _⟩ := bare c first
      exact ⟨word, brace, paren⟩
    · obtain ⟨more, rfl⟩ := List.head?_eq_some_iff.1 start
      rw [Text.trimStart_cons_of_not_isSpace (by decide)] at bare
      exact (bare '[' rfl).2.2.2 rfl
  exact ⟨_, step, rfl, rfl, _, rfl, rfl⟩

/-- The bracket of an index opens brackets, or a truncation right behind `T`. -/
theorem opens_behindName (name : IsName w) : Cuts lexer here [w, ['[']] us
    (Opens [.brackets, .truncation] '[' (fun ps => ∃ p, ps = [p] ∧ p.text = w) here) := by
  refine .of_visible parts name.clean fun assigned rest ends spelled => ?_
  obtain ⟨left, found, _, more⟩ := Text.spells_cons_iff.1 spelled
  by_cases truncates : w = ['T'] ∧ rest.head? = some '['
  · obtain ⟨rfl, start⟩ := truncates
    obtain ⟨more', rfl⟩ := List.head?_eq_some_iff.1 start
    rw [Text.trimStart_cons_of_not_isSpace (by decide)] at found
    obtain rfl := (List.cons.inj found).2
    have step : Step.take lexer assigned here ('T' :: '[' :: more') = _ := take_truncation host
    exact ⟨_, _, _, more', .step (List.cons_ne_nil _ _) step, more, .truncation, by decide,
      .truncation, _, _, rfl, rfl, rfl, ⟨_, rfl, rfl⟩, rfl, rfl⟩
  · obtain ⟨l, step⟩ :
        ∃ l, Step.take lexer assigned here (w ++ rest) = .single here [l] w rest := by
      refine name.take_alone host (name.endsWord_of_runsInto ends) ?_ fun same start =>
        truncates ⟨same, start⟩
      rw [found]
      rintro c ⟨⟩
      decide
    have first := ComesTo.step (by simp [name.clean.visible]) step
    obtain ⟨ps, later, there, last, comes, behind, r, mem, e, _, p, opened, enclosure, whole, rfl,
      sign⟩ := cuts_openBracket parts (Region.isBlockComment_of_hosts host) _ rest spelled
    obtain rfl := List.mem_singleton.1 mem
    refine ⟨_, later, there, last, first.trans comes, behind, .brackets, by decide, e,
      [⟨w, here, [l]⟩], p, opened, enclosure, ?_, ⟨_, rfl, rfl⟩, sign⟩
    rw [Piece.labelled_append, whole]
    rfl

end Hosted

end StanHighlight

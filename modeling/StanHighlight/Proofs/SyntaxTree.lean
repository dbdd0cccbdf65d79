import StanHighlight.Proofs.Join
import StanHighlight.Proofs.Nesting
import StanHighlight.Proofs.Operand

/-!
Syntax trees of expressions. Reading an expression leads back to the very state that it stands in,
its count of `?` included, as long as no more of them wait at once than are counted. A `?` is told
from the `:` that answers it, and that from the `:` of a range, and the two ends of every bracket
are labelled alike.
-/

namespace StanHighlight

/-- Trees of the phrases that expressions are made of. Between commas an expression may be left
out, and a bar may stand behind the first argument of a call. -/
inductive Tree : Phrase → Type
  | name {w : Text} (h : IsName w) : Tree (.expression true)
  | number {w : Text} (h : IsNumber w) : Tree (.expression true)
  | string {w : Text} (h : IsString w) : Tree (.expression true)
  | unary {w : Text} (mem : w ∈ Phrase.prefixOperators) (e : Tree (.expression true)) :
      Tree (.expression true)
  | transpose (e : Tree (.expression true)) : Tree (.expression true)
  | binary {w : Text} (mem : w ∈ infixOperators) (left right : Tree (.expression true)) :
      Tree (.expression true)
  | ternary (condition yes no : Tree (.expression true)) : Tree (.expression true)
  | parens (e : Tree (.expression true)) : Tree (.expression true)
  | call {w : Text} (h : IsName w) (inside : Tree .arguments) : Tree (.expression true)
  | indexed (e : Tree (.expression true)) (indices : Tree .indices) : Tree (.expression true)
  | row (items : Tree .items) : Tree (.expression true)
  | array (items : Tree .items) : Tree (.expression true)
  | noBound : Tree .bound
  | someBound (e : Tree (.expression true)) : Tree .bound
  | item (e : Tree .bound) : Tree .items
  | moreItems (e : Tree .bound) (more : Tree .items) : Tree .items
  | plainArguments (items : Tree .items) : Tree .arguments
  | conditioned (e : Tree (.expression true)) (more : Tree .items) : Tree .arguments
  | place (e : Tree .bound) : Tree .index
  | slice (low high : Tree .bound) : Tree .index
  | oneIndex (i : Tree .index) : Tree .indices
  | moreIndices (i : Tree .index) (more : Tree .indices) : Tree .indices

namespace Tree

/-- The tokens of a tree. The parenthesis of a call is one token with its name. -/
def tokens : {p : Phrase} → Tree p → List Text
  | _, @name w _ | _, @number w _ | _, @string w _ => [w]
  | _, @unary w _ e => w :: e.tokens
  | _, transpose e => e.tokens ++ [['\'']]
  | _, @binary w _ left right => left.tokens ++ w :: right.tokens
  | _, ternary condition yes no =>
    condition.tokens ++ ['?'] :: (yes.tokens ++ [':'] :: no.tokens)
  | _, parens e => [['(']] ++ (e.tokens ++ [[')']])
  | _, @call w _ inside => [w ++ ['(']] ++ (inside.tokens ++ [[')']])
  | _, indexed e indices => (e.tokens ++ [['[']]) ++ (indices.tokens ++ [[']']])
  | _, row items => [['[']] ++ (items.tokens ++ [[']']])
  | _, array items => [['{']] ++ (items.tokens ++ [['}']])
  | _, noBound => []
  | _, someBound e | _, item e | _, plainArguments e | _, place e | _, oneIndex e => e.tokens
  | _, moreItems e more => e.tokens ++ [','] :: more.tokens
  | _, conditioned e more => e.tokens ++ ['|'] :: more.tokens
  | _, slice low high => low.tokens ++ [':'] :: high.tokens
  | _, moreIndices i more => i.tokens ++ [','] :: more.tokens

/-- How many `?` of a tree wait at once outside its brackets. -/
def waiting : {p : Phrase} → Tree p → Nat
  | _, name _ | _, number _ | _, string _ | _, parens _ | _, call _ _ | _, row _ | _, array _
  | _, noBound => 0
  | _, unary _ e | _, transpose e | _, indexed e _ | _, someBound e | _, item e
  | _, plainArguments e | _, place e | _, oneIndex e => e.waiting
  | _, binary _ e f | _, moreItems e f | _, conditioned e f | _, slice e f | _, moreIndices e f =>
    max e.waiting f.waiting
  | _, ternary condition yes no => max condition.waiting (max (yes.waiting + 1) no.waiting)

def waitingInside : {p : Phrase} → Tree p → Nat
  | _, name _ | _, number _ | _, string _ | _, noBound => 0
  | _, unary _ e | _, transpose e | _, someBound e | _, item e | _, plainArguments e | _, place e
  | _, oneIndex e => e.waitingInside
  | _, binary _ e f | _, moreItems e f | _, conditioned e f | _, slice e f | _, moreIndices e f =>
    max e.waitingInside f.waitingInside
  | _, ternary condition yes no =>
    max condition.waitingInside (max yes.waitingInside no.waitingInside)
  | _, parens e | _, call _ e | _, row e | _, array e => max e.waiting e.waitingInside
  | _, indexed e indices => max e.waitingInside (max indices.waiting indices.waitingInside)

/-- The labelled pieces of a tree: those of its parts, with its own tokens in between. -/
def Tagged : {p : Phrase} → Tree p → List Piece → Prop
  | _, @name w _, ps | _, @number w _, ps => ∃ p, ps = [p] ∧ p.text = w
  | _, @string w _, ps => Piece.texts ps = w
  | _, @unary w _ e, ps => Between (· = []) (·.text = w) e.Tagged ps
  | _, transpose e, ps => Between e.Tagged (·.text = ['\'']) (· = []) ps
  | _, @binary w _ left right, ps => Between left.Tagged (·.text = w) right.Tagged ps
  | _, ternary condition yes no, ps =>
    Between condition.Tagged (Piece.IsSign ['?'] .ternaryOperator)
      (Between yes.Tagged (Piece.IsSign [':'] .ternaryOperator) no.Tagged) ps
  | _, parens e, ps => Enclosed (· = []) '(' ')' e.Tagged ps
  | _, @call w _ inside, ps =>
    Enclosed (fun qs => ∃ p, qs = [p] ∧ p.text = w) '(' ')' inside.Tagged ps
  | _, indexed e indices, ps => Enclosed e.Tagged '[' ']' indices.Tagged ps
  | _, row items, ps => Enclosed (· = []) '[' ']' items.Tagged ps
  | _, array items, ps => Enclosed (· = []) '{' '}' items.Tagged ps
  | _, noBound, ps => ps = []
  | _, someBound e, ps | _, item e, ps | _, plainArguments e, ps | _, place e, ps
  | _, oneIndex e, ps => e.Tagged ps
  | _, moreItems e more, ps => Between e.Tagged (·.text = [',']) more.Tagged ps
  | _, conditioned e more, ps => Between e.Tagged (·.text = ['|']) more.Tagged ps
  | _, slice low high, ps =>
    Between low.Tagged (Piece.IsSign [':'] .colonOperator) high.Tagged ps
  | _, moreIndices i more, ps => Between i.Tagged (·.text = [',']) more.Tagged ps

variable {p : Phrase} {lexer : Lexer} {here : LineState}

/-- A tree fits in a state if an expression may stand there and no count of `?` overflows. -/
structure Fits (e : Tree p) (here : LineState) : Prop where
  host : here.innermost.hosts = true
  waiting : here.inner.ternaries + e.waiting ≤ LineState.maxTernaries
  inside : e.waitingInside ≤ LineState.maxTernaries
  /-- A bar stands between the arguments of a call only. -/
  call : p = .arguments → here.innermost = .call .function
  /-- A colon stands in a range where no `?` waits. -/
  settled : p = .index ∨ p = .indices → here.inner.ternaries = 0

namespace Fits

variable {q : Phrase} {e : Tree p} {f : Tree q}

/-- What a tree needs its parts outside brackets need no more than. -/
theorem part (fits : e.Fits here) (waiting : f.waiting ≤ e.waiting)
    (inside : f.waitingInside ≤ e.waitingInside) (kind : q ≠ .arguments)
    (settled : q = .index ∨ q = .indices → p = .index ∨ p = .indices) : f.Fits here where
  host := fits.host
  waiting := Nat.le_trans (Nat.add_le_add_left waiting _) fits.waiting
  inside := Nat.le_trans inside fits.inside
  call same := absurd same kind
  settled same := fits.settled (settled same)

/-- In brackets the count begins anew. -/
theorem within {r : Region} (host : r.hosts = true)
    (room : max f.waiting f.waitingInside ≤ LineState.maxTernaries)
    (call : q = .arguments → r = .call .function) : f.Fits (here.enter r) where
  host := host
  waiting := by
    change 0 + f.waiting ≤ LineState.maxTernaries
    omega
  inside := by omega
  call := call
  settled _ := rfl

end Fits

/-- A tree is read as one in a state and leads back to it, whatever may follow it, and so does an
expression in front of the bracket of an index. -/
structure Reads (lexer : Lexer) (here : LineState) (e : Tree p) : Prop where
  alone : ∀ us, Follows us →
    Cuts lexer here e.tokens us fun ps there => there = here ∧ e.Tagged ps
  indexed : p = .expression true → ∀ us, Cuts lexer here (e.tokens ++ [['[']]) us
    (Opens [.brackets, .truncation] '[' e.Tagged here)

theorem follows_cons {w : Text} {us : List Text} (mem : w ∈ followers) : Follows (w :: us) := by
  rintro v ⟨⟩
  exact mem

/-- A `?` that is counted is answered by one `:`. -/
theorem answer?_ask (room : here.inner.ternaries < LineState.maxTernaries) :
    here.ask.answer? = some here := by
  obtain ⟨⟨r, n⟩, outer⟩ := here
  have counted : min (n + 1) LineState.maxTernaries = n + 1 := Nat.min_eq_left room
  simp only [LineState.ask, LineState.answer?, counted]

namespace Reads

variable {q : Phrase} {w : Text} (parts : lexer.clusters.PartsAscii)
include parts

/-- A tree that ends in a literal or a bracket is read as one in front of any tokens. -/
theorem of_ended {e : Tree p} (comment : here.innermost.isBlockComment = false)
    (read : ∀ us, Cuts lexer here e.tokens us fun ps there => there = here ∧ e.Tagged ps) :
    Reads lexer here e where
  alone us _ := read us
  indexed _ _ := opens_behind parts comment (read _)

section Operators

variable {e f g : Tree (.expression true)} (host : here.innermost.hosts = true)
include host

theorem unary (mem : w ∈ Phrase.prefixOperators) (h : Reads lexer here e) :
    Reads lexer here (unary mem e) := by
  have sign : ∀ us, Cuts lexer here [w] us _ :=
    fun us => cuts_sign parts host (List.mem_append_left _ mem)
  have none : ∀ us, Cuts lexer here [] us fun ps there => there = here ∧ ps = [] :=
    fun us => .nil ⟨rfl, rfl⟩
  exact ⟨fun us follows => cuts_between (none _) (sign _) (h.alone us follows),
    fun _ us => opens_between (none _) (sign _) (h.indexed rfl us)⟩

theorem transpose (h : Reads lexer here e) : Reads lexer here (transpose e) :=
  .of_ended parts (Region.isBlockComment_of_hosts host) fun _ =>
    cuts_between (h.alone _ (follows_cons (by decide)))
      (cuts_operator parts host (by decide) (by decide)) (.nil ⟨rfl, rfl⟩)

theorem binary (mem : w ∈ infixOperators) (left : Reads lexer here e)
    (right : Reads lexer here f) : Reads lexer here (binary mem e f) := by
  have sign : ∀ us, Cuts lexer here [w] us _ :=
    fun us => cuts_sign parts host (List.mem_append_right _ mem)
  have first : ∀ us, Cuts lexer here e.tokens (w :: us) _ :=
    fun us => left.alone _ (follows_cons (List.mem_append_left _ mem))
  refine ⟨fun us follows => cuts_between (first _) (sign _) (right.alone us follows),
    fun _ us => ?_⟩
  rw [tokens, List.append_assoc]
  exact opens_between (first _) (sign _) (right.indexed rfl us)

/-- The `:` finds its `?`, since those of the second part have been answered. -/
theorem ternary (room : here.inner.ternaries < LineState.maxTernaries)
    (condition : Reads lexer here e) (yes : Reads lexer here.ask f) (no : Reads lexer here g) :
    Reads lexer here (ternary e f g) := by
  have comment := Region.isBlockComment_of_hosts host
  have question : ∀ us, Cuts lexer here [['?']] us _ := fun us => cuts_question parts comment
  have colon : ∀ us, Cuts lexer here.ask [[':']] us fun ps there =>
      there = here ∧ ∃ p, ps = [p] ∧ p.IsSign [':'] .ternaryOperator := by
    intro us
    have sign : Cuts lexer here.ask [[':']] us _ := cuts_colon parts comment
    rwa [answer?_ask room] at sign
  have first : ∀ us, Cuts lexer here e.tokens (['?'] :: us) _ :=
    fun us => condition.alone _ (follows_cons (by decide))
  have second : ∀ us, Cuts lexer here.ask f.tokens ([':'] :: us) _ :=
    fun us => yes.alone _ (follows_cons (by decide))
  refine ⟨fun us follows => ?_, fun _ us => ?_⟩
  · exact cuts_between (first _) (question _)
      (cuts_between (second _) (colon _) (no.alone us follows))
  · rw [tokens, List.append_assoc, List.cons_append, List.append_assoc]
    exact opens_between (first _) (question _)
      (opens_between (second _) (colon _) (no.indexed rfl us))

end Operators

section Brackets

variable (host : here.innermost.hosts = true)
include host

theorem parens {e : Tree (.expression true)} (h : Reads lexer (here.enter .parens) e) :
    Reads lexer here (parens e) := by
  refine .of_ended parts (Region.isBlockComment_of_hosts host) fun us => ?_
  refine cuts_enclosed parts (cuts_openParen parts host) ?_ (by decide) (by decide)
  rw [List.forall_mem_singleton]
  exact h.alone _ (follows_cons (by decide))

theorem call {inside : Tree .arguments} (name : IsName w)
    (h : Reads lexer (here.enter (.call .function)) inside) :
    Reads lexer here (call name inside) := by
  refine .of_ended parts (Region.isBlockComment_of_hosts host) fun us => ?_
  refine cuts_enclosed parts (cuts_call parts host name) ?_ (by decide) (by decide)
  rw [List.forall_mem_singleton]
  exact h.alone _ (follows_cons (by decide))

theorem indexedBy {e : Tree (.expression true)} {indices : Tree .indices}
    (h : Reads lexer here e)
    (inside : ∀ r ∈ [Region.brackets, .truncation], Reads lexer (here.enter r) indices) :
    Reads lexer here (Tree.indexed e indices) := by
  refine .of_ended parts (Region.isBlockComment_of_hosts host) fun us => ?_
  refine cuts_enclosed parts (h.indexed rfl _) (fun r mem => ?_) (by decide) (by decide)
  exact (inside r mem).alone _ (follows_cons (by decide))

theorem row {items : Tree .items} (h : Reads lexer (here.enter .brackets) items) :
    Reads lexer here (row items) := by
  have comment := Region.isBlockComment_of_hosts host
  refine .of_ended parts comment fun us => ?_
  refine cuts_enclosed parts (cuts_openBracket parts comment) ?_ (by decide) (by decide)
  rw [List.forall_mem_singleton]
  exact h.alone _ (follows_cons (by decide))

theorem array {items : Tree .items}
    (h : ∀ r ∈ [Region.array, .block], Reads lexer (here.enter r) items) :
    Reads lexer here (array items) := by
  have comment := Region.isBlockComment_of_hosts host
  refine .of_ended parts comment fun us => ?_
  refine cuts_enclosed parts (cuts_openBrace parts comment) (fun r mem => ?_) (by decide)
    (by decide)
  exact (h r mem).alone _ (follows_cons (by decide))

end Brackets

section Separators

/-- Where no `?` waits a colon stands in a range. -/
theorem slice {low high : Tree .bound} (comment : here.innermost.isBlockComment = false)
    (settled : here.inner.ternaries = 0) (first : Reads lexer here low)
    (last : Reads lexer here high) : Reads lexer here (slice low high) := by
  have none : here.answer? = none := by simp [LineState.answer?, settled]
  have colon : ∀ us, Cuts lexer here [[':']] us fun ps there =>
      there = here ∧ ∃ p, ps = [p] ∧ p.IsSign [':'] .colonOperator := by
    intro us
    have sign : Cuts lexer here [[':']] us _ := cuts_colon parts comment
    rwa [none] at sign
  exact ⟨fun us follows => cuts_between (first.alone _ (follows_cons (by decide))) (colon _)
    (last.alone us follows), nofun⟩

theorem conditioned {e : Tree (.expression true)} {more : Tree .items} {callee : Callee}
    (call : here.innermost = .call callee) (first : Reads lexer here e)
    (last : Reads lexer here more) : Reads lexer here (conditioned e more) :=
  ⟨fun us follows => cuts_between (first.alone _ (follows_cons (by decide))) (cuts_bar parts call)
    (last.alone us follows), nofun⟩

theorem moreItems {e : Tree .bound} {more : Tree .items}
    (comment : here.innermost.isBlockComment = false) (first : Reads lexer here e)
    (last : Reads lexer here more) : Reads lexer here (moreItems e more) :=
  ⟨fun us follows => cuts_between (first.alone _ (follows_cons (by decide)))
    (cuts_comma parts comment) (last.alone us follows), nofun⟩

theorem moreIndices {i : Tree .index} {more : Tree .indices}
    (comment : here.innermost.isBlockComment = false) (first : Reads lexer here i)
    (last : Reads lexer here more) : Reads lexer here (moreIndices i more) :=
  ⟨fun us follows => cuts_between (first.alone _ (follows_cons (by decide)))
    (cuts_comma parts comment) (last.alone us follows), nofun⟩

end Separators

end Reads

/-- Reading a tree in which no count overflows leads back to the state that it stands in. -/
theorem reads (parts : lexer.clusters.PartsAscii) (e : Tree p) (fits : e.Fits here) :
    Reads lexer here e := by
  induction e generalizing here with
  | name h =>
    exact ⟨fun us follows => cuts_name parts fits.host h follows,
      fun _ us => opens_behindName parts fits.host h⟩
  | number h =>
    have comment := Region.isBlockComment_of_hosts fits.host
    exact .of_ended parts comment fun us => cuts_number parts h comment
  | string h =>
    have comment := Region.isBlockComment_of_hosts fits.host
    exact .of_ended parts comment fun us => cuts_string parts h comment
  | unary mem e ih =>
    exact .unary parts fits.host mem (ih (fits.part (Nat.le_refl _) (Nat.le_refl _) nofun nofun))
  | transpose e ih =>
    exact .transpose parts fits.host (ih (fits.part (Nat.le_refl _) (Nat.le_refl _) nofun nofun))
  | binary mem left right ihl ihr =>
    exact .binary parts fits.host mem
      (ihl (fits.part (Nat.le_max_left _ _) (Nat.le_max_left _ _) nofun nofun))
      (ihr (fits.part (Nat.le_max_right _ _) (Nat.le_max_right _ _) nofun nofun))
  | ternary condition yes no ihc ihy ihn =>
    have room := fits.waiting
    have inside := fits.inside
    simp only [waiting, waitingInside] at room inside
    have counted : here.ask.inner.ternaries = here.inner.ternaries + 1 :=
      Nat.min_eq_left (by omega)
    have second : yes.Fits here.ask := ⟨fits.host, by omega, by omega, nofun, nofun⟩
    have third : no.Fits here := ⟨fits.host, by omega, by omega, nofun, nofun⟩
    exact .ternary parts fits.host (by omega)
      (ihc (fits.part (Nat.le_max_left _ _) (Nat.le_max_left _ _) nofun nofun)) (ihy second)
      (ihn third)
  | parens e ih => exact .parens parts fits.host (ih (.within rfl fits.inside nofun))
  | call h inside ih =>
    exact .call parts fits.host h (ih (.within rfl fits.inside fun _ => rfl))
  | indexed e indices ihe ihi =>
    have inside := fits.inside
    rw [waitingInside] at inside
    have hosts : ∀ r ∈ [Region.brackets, .truncation], r.hosts = true := by decide
    exact .indexedBy parts fits.host
      (ihe (fits.part (Nat.le_refl _) (Nat.le_max_left _ _) nofun nofun))
      fun r mem => ihi (.within (hosts r mem) (by omega) nofun)
  | row items ih => exact .row parts fits.host (ih (.within rfl fits.inside nofun))
  | array items ih =>
    have hosts : ∀ r ∈ [Region.array, .block], r.hosts = true := by decide
    exact .array parts fits.host fun r mem => ih (.within (hosts r mem) fits.inside nofun)
  | noBound => exact ⟨fun us _ => .nil ⟨rfl, rfl⟩, nofun⟩
  | someBound e ih | item e ih | plainArguments e ih | place e ih =>
    exact ⟨(ih (fits.part (Nat.le_refl _) (Nat.le_refl _) nofun nofun)).alone, nofun⟩
  | oneIndex i ih =>
    exact ⟨(ih (fits.part (Nat.le_refl _) (Nat.le_refl _) nofun fun _ => .inr rfl)).alone, nofun⟩
  | moreItems e more ihe ihm =>
    exact .moreItems parts (Region.isBlockComment_of_hosts fits.host)
      (ihe (fits.part (Nat.le_max_left _ _) (Nat.le_max_left _ _) nofun nofun))
      (ihm (fits.part (Nat.le_max_right _ _) (Nat.le_max_right _ _) nofun nofun))
  | conditioned e more ihe ihm =>
    exact .conditioned parts (fits.call rfl)
      (ihe (fits.part (Nat.le_max_left _ _) (Nat.le_max_left _ _) nofun nofun))
      (ihm (fits.part (Nat.le_max_right _ _) (Nat.le_max_right _ _) nofun nofun))
  | slice low high ihl ihh =>
    exact .slice parts (Region.isBlockComment_of_hosts fits.host) (fits.settled (.inl rfl))
      (ihl (fits.part (Nat.le_max_left _ _) (Nat.le_max_left _ _) nofun nofun))
      (ihh (fits.part (Nat.le_max_right _ _) (Nat.le_max_right _ _) nofun nofun))
  | moreIndices i more ihi ihm =>
    exact .moreIndices parts (Region.isBlockComment_of_hosts fits.host)
      (ihi (fits.part (Nat.le_max_left _ _) (Nat.le_max_left _ _) nofun fun _ => .inr rfl))
      (ihm (fits.part (Nat.le_max_right _ _) (Nat.le_max_right _ _) nofun fun _ => .inr rfl))

end Tree

def Region.takesExpressions : Region → Bool
  | program | sectionBody _ | block | array | parens | brackets | truncation | call _
  | printArguments | initializer | accumulation => true
  | declaration named => named
  | sampling filled => filled
  | control kind _ named => kind != .forLoop || named
  | constraints | blockComment _ | functionDeclaration _ _ => false

/-- Between lines the parenthesis of a header has been read. -/
theorem Region.hosts_of_takesExpressions {r : Region} (takes : r.takesExpressions = true)
    (opened : r.isOpened = true) : r.hosts = true := by
  cases r with
  | control kind paren named =>
    obtain rfl : paren = true := opened
    simpa [hosts, isCalm, takesExpressions] using takes
  | declaration | sampling => simpa [hosts, isCalm, takesExpressions] using takes
  | constraints | blockComment | functionDeclaration => cases takes
  | _ => rfl

/-- A line that is an expression leads back to the state that it is read in, and its labelled
lexemes are those of the expression, if no count of `?` overflows. -/
theorem tokenizeLine_expression (lexer : Lexer) (parts : lexer.clusters.PartsAscii) {s : LineState}
    (reachable : s.Reachable) (takes : s.innermost.takesExpressions = true)
    (e : Tree (.expression true)) (line : Text)
    (spelled : Text.spells e.tokens (Text.stripTerminator line) = true)
    (room : s.inner.ternaries + e.waiting ≤ LineState.maxTernaries)
    (inside : e.waitingInside ≤ LineState.maxTernaries) :
    (lexer.tokenizeLine line s).state = s ∧
      e.Tagged (Piece.labelled ((lexer.tokenizeLine line s).lexemes.map Lexeme.toPiece)) := by
  have host := Region.hosts_of_takesExpressions takes (settled_of_reachable reachable).opened
  have reads := e.reads parts ⟨host, room, inside, nofun, nofun⟩
  obtain ⟨ps, later, there, rest, comes, blank, same, tagged⟩ :=
    reads.alone [] nofun false _ (by rwa [List.append_nil])
  rw [same] at comes
  have none : Text.trimStart rest = [] := Text.spells_nil_iff.1 blank
  obtain ⟨qs, plain, ends⟩ := ComesTo.trimStart parts later s rest (by rw [none]; exact nofun)
  rw [none] at ends
  have whole : cut lexer false s (Text.stripTerminator line) = _ := comes.trans ends
  rw [cut_nil, List.append_nil] at whole
  refine ⟨congrArg Prod.snd whole, ?_⟩
  have pieces : Piece.labelled ((lexer.tokenizeLine line s).lexemes.map Lexeme.toPiece) =
      Piece.labelled (ps ++ qs) := by
    rw [toPiece_tokenizeLine, Piece.labelled, Piece.filter_joinPlain, Piece.filter_linePieces,
      whole]
    rfl
  rwa [pieces, Piece.labelled_append, plain, List.append_nil]

/-- Two meanings of one sign. -/
example :
    let lexer : Lexer := ⟨{}, by decide, .prepending⟩
    let lexemes := (lexer.tokenizeLine "a[a ? b : c, b:c]".toList .initial).lexemes
    (lexemes.filter fun l => l.text = [':']).map (fun l => l.own) =
      [[.ternaryOperator], [.colonOperator]] := by
  decide +kernel

/-- A ternary with a range, an array and a truncation in its parts, in the arguments of a
distribution. -/
theorem tokenizeLine_expression_in_arguments :
    let lexer : Lexer := ⟨{}, by decide, .prepending⟩
    let s := (lexer.tokenizeLine "model \x7b y ~ normal(".toList .initial).state
    let a : Tree (.expression true) := .name (w := ['a']) (by decide)
    let x : Tree (.expression true) := .name (w := ['x']) (by decide)
    let one : Tree (.expression true) := .number (w := ['1']) ⟨by decide, .integer, by decide⟩
    let b : Tree (.expression true) :=
      .indexed x (.oneIndex (.slice (.someBound one) (.someBound (.ternary a x one))))
    let c : Tree (.expression true) :=
      .array (.moreItems (.someBound (.indexed (.name (w := ['T']) (by decide))
        (.oneIndex (.place (.someBound one))))) (.item (.someBound (.transpose x))))
    let e : Tree (.expression true) :=
      .call (w := ['f']) (by decide) (.conditioned x (.item (.someBound (.ternary a b c))))
    let line := "f(x | a?x[1 : a ? x:1]: \x7bT[1], x'\x7d)".toList
    s.innermost = .call .distribution ∧ Text.spells e.tokens (Text.stripTerminator line) = true ∧
      (lexer.tokenizeLine line s).state = s ∧
      e.Tagged (Piece.labelled ((lexer.tokenizeLine line s).lexemes.map Lexeme.toPiece)) :=
  ⟨by decide +kernel, by decide +kernel,
    tokenizeLine_expression _ Segmentation.prepending_partsAscii
      (.line _ Segmentation.prepending_partsAscii _ .initial) (by decide +kernel) _ _
      (by decide +kernel) (by decide +kernel) (by decide +kernel)⟩

end StanHighlight

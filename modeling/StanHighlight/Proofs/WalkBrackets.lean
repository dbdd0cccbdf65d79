import StanHighlight.Proofs.StepActs
import StanHighlight.Proofs.Token
import StanHighlight.Proofs.WalkTokens

/-!
Rules that walk over the end of a statement, a bracket or an operator. Some of them leave several
regions on their way, one turn of a loop after the other. What waits is given out before the first
is left, so that it has the labels it had where it was passed.
-/

namespace StanHighlight

open Text (byteLength)

/-- A place is like another one if whatever is taken there is as if taken from the other. What waits
may have been given out and regions may have been left. -/
structure Footing.Like (p q : Footing) : Prop where
  ahead : q.ahead = p.ahead
  take : ∀ ps there rest, q.take ps there rest = p.take ps there rest

namespace Footing.Like

variable {p q r : Footing}

theorem refl (p : Footing) : Like p p := ⟨rfl, fun _ _ _ => rfl⟩

theorem trans (h : Like p q) (h' : Like q r) : Like p r :=
  ⟨h'.ahead.trans h.ahead, fun ps there rest => (h'.take ps there rest).trans (h.take ps there rest)⟩

theorem flushed (p : Footing) (there : LineState) : Like p (p.take [] there p.ahead) :=
  ⟨rfl, fun _ _ _ => take_take _ _ _ _ _ _⟩

end Footing.Like

namespace LineState

/-- Leaving down to the nearest braces leaves the regions without any. -/
theorem leaveWhile_of_toBrace? {s there : LineState} (h : s.toBrace? = some there) :
    leaveWhile (fun r => !r.isBraced) s.inner s.outer = there := by
  obtain ⟨inner, outer⟩ := s
  induction outer generalizing inner with
  | nil =>
    cases braced : inner.region.isBraced <;> simp [toBrace?, frames, braced] at h
    exact h
  | cons f outer ih =>
    rw [leaveWhile]
    cases braced : inner.region.isBraced with
    | true => simpa [toBrace?, frames, braced] using h
    | false => exact ih f (by simpa [toBrace?, frames, braced] using h)

end LineState

namespace Walk

variable {p : Footing} {t after : Text}

theorem walks_leaveIf_pos (prop : Region → Bool) (holds : prop p.state.innermost = true) :
    Walks (leaveIf prop) p true (p.take [] p.state.leave p.ahead) :=
  .bind (walks_innermost p) (.ite_pos holds (.bind (walks_leave p) (.pure true _)))

theorem walks_leaveIf_neg (prop : Region → Bool) (fails : prop p.state.innermost = false) :
    Walks (leaveIf prop) p false p :=
  .bind (walks_innermost p) (.ite_neg (by simp [fails]) (.pure false p))

/-- Regions with a property are left one after the other, if there is one without it. -/
theorem walks_leaveWhile (prop : Region → Bool) (stays : ∃ f ∈ p.state.frames, prop f.region = false) :
    ∃ q, Walks (loop Cursor.height (leaveIf prop)) p () q ∧ p.Like q ∧
      q.state = .leaveWhile prop p.state.inner p.state.outer := by
  generalize frames : p.state = here at *
  obtain ⟨inner, outer⟩ := here
  induction outer generalizing inner p with
  | nil =>
    obtain ⟨f, mem, other⟩ := stays
    obtain rfl : f = inner := by simpa [LineState.frames] using mem
    exact ⟨p, .last (walks_leaveIf_neg prop (by rw [frames]; exact other)), .refl p, frames⟩
  | cons g outer ih =>
    rw [LineState.leaveWhile]
    cases holds : prop inner.region with
    | false => exact ⟨p, .last (walks_leaveIf_neg prop (by rw [frames]; exact holds)), .refl p, frames⟩
    | true =>
      obtain ⟨f, mem, other⟩ := stays
      have below : f ∈ g :: outer := by
        rcases List.mem_cons.1 mem with rfl | below
        · rw [holds] at other
          cases other
        · exact below
      obtain ⟨q, left, like, there⟩ := ih (p := p.take [] ⟨g, outer⟩ p.ahead) g rfl ⟨f, below, other⟩
      have turned := walks_leaveIf_pos (p := p) prop (by rw [frames]; exact holds)
      rw [frames] at turned
      refine ⟨q, .turn turned ?_ left, (Footing.Like.flushed p _).trans like, there⟩
      simp [Cursor.height, Footing.cursor, frames, LineState.frames, LineState.leave]

theorem agrees_delimiter (p : Footing) :
    Agrees delimiter p (Rule.delimiter? p.state p.ahead) := by
  unfold Rule.delimiter?
  split
  · next whole => exact .applies (.bind (walks_sees whole) (walks_token (t := [',']) whole rfl))
  · next after whole =>
    refine .after (walks_sees whole) ?_
    by_cases doubled : after.head? = some '|'
    · simp only [if_pos doubled]
      split <;> exact .declines (.pure false p)
    · simp only [if_neg doubled]
      refine .after (walks_innermost p) ?_
      cases p.state.innermost with
      | call callee => exact .applies (walks_token (t := ['|']) whole rfl)
      | _ => exact .declines (.pure false p)
  · next noComma noBar =>
    refine .after (walks_rest p) ?_
    split
    · next whole => exact absurd whole (noComma _)
    · next whole => exact absurd whole (noBar _)
    · exact .declines (.pure false p)

theorem agrees_opener {assigned : Bool}
    (latest : assigned = (p.cursor.latestLabel? == some .assignmentOperator)) :
    Agrees opener p (Rule.opener? assigned p.state p.ahead) := by
  unfold Rule.opener?
  split
  · next rest whole =>
    have plain : Walks (do enter .parens; emit 1 [.begins .parens]; return true) p true
        (p.take [⟨['('], p.state.enter .parens, [.begins .parens]⟩] (p.state.enter .parens) rest) :=
      walks_entrance _ (t := ['(']) whole rfl
    refine .after (walks_innermost p) (.after (walks_sees whole) ?_)
    unfold Rule.openParen
    cases slot : p.state.innermost with
    | control kind opened named =>
      cases opened with
      | false => exact .applies (walks_naming _ (by rw [slot]; rfl) (t := ['(']) whole rfl)
      | true => exact .applies plain
    | functionDeclaration named parameters =>
      cases parameters with
      | false => exact .applies (walks_naming _ (by rw [slot]; rfl) (t := ['(']) whole rfl)
      | true => exact .applies plain
    | _ => exact .applies plain
  · next whole =>
    exact .applies (.bind (walks_innermost p) (.bind (walks_sees whole)
      (walks_entrance _ (t := ['[']) whole rfl)))
  · next whole =>
    refine .after (walks_innermost p) (.after (walks_sees whole) (.after (a := p.cursor) rfl ?_))
    dsimp only
    rw [latest]
    unfold Rule.openBrace
    split
    · exact .applies (walks_entrance _ (t := ['\x7b']) whole rfl)
    · exact .applies (walks_entrance _ (t := ['\x7b']) whole rfl)
  · next noParen noBracket noBrace =>
    refine .after (walks_innermost p) (.after (walks_rest p) ?_)
    split
    · next whole => exact absurd whole (noParen _)
    · next whole => exact absurd whole (noBracket _)
    · next whole => exact absurd whole (noBrace _)
    · exact .declines (.pure false p)

/-- The first spelling that a text starts with is found alike with and without what follows it. -/
theorem findSome?_after? {α : Type} (entries : List (Text × Label)) (t : Text)
    (f : Text × Label → Text → α) :
    (entries.findSome? fun entry => (t.after? entry.1).map (f entry)) =
      (entries.find? fun entry => entry.1.isPrefixOf t).map fun entry =>
        f entry (t.drop entry.1.length) := by
  induction entries with
  | nil => rfl
  | cons entry entries ih =>
    cases found : t.after? entry.1 with
    | none =>
      have other : entry.1.isPrefixOf t = false := Bool.eq_false_iff.2 fun starts => by
        obtain ⟨rest, rfl⟩ := List.isPrefixOf_iff_prefix.1 starts
        simp at found
      simp [found, other, ih]
    | some rest =>
      obtain rfl := Text.after?_eq_some_iff.1 found
      simp [found]

theorem agrees_operator (p : Footing) :
    Agrees operator p (Rule.operator? p.state p.ahead) := by
  refine .after (walks_rest p) ?_
  unfold Rule.operator?
  generalize whole : p.ahead = t
  split
  · exact .applies (walks_change_token _ rfl (t := ['?']) whole rfl)
  · refine .after (walks_inner p) ?_
    unfold LineState.answer?
    cases waiting : p.state.inner.ternaries with
    | zero => exact .applies (walks_token (t := [':']) whole rfl)
    | succ n =>
      refine .applies (.of_eq (walks_change_token _ rfl (t := [':']) whole rfl) ?_)
      simp [waiting, Step.single]
  · next noQuestion noColon =>
    simp only [Rule.spelledOperator?, findSome?_after?]
    split
    · next none =>
      simp only [none]
      exact .declines (.pure false p)
    · next spelling label found =>
      simp only [found]
      have starts : spelling <+: t := by simpa using List.find?_some found
      refine .applies (walks_token ?_ rfl)
      rw [whole]
      exact (List.prefix_iff_eq_append.1 starts).symm

/-- What a closing bracket ends is what its construct is closed by, or nothing. -/
theorem closing?_eq {c : Char} {stray : Enclosure}
    (mem : (c, stray) ∈ [(')', Enclosure.parens), (']', .brackets), ('\x7d', .block)]) (r : Region) :
    closing? (some c) r = some (match r.enclosure? with
      | some e => if e.closer = c then (e, true) else (stray, false)
      | none => (stray, false)) := by
  simp only [List.mem_cons, List.not_mem_nil, or_false, Prod.mk.injEq] at mem
  rcases mem with ⟨rfl, rfl⟩ | ⟨rfl, rfl⟩ | ⟨rfl, rfl⟩
  all_goals
    cases r with
    | control kind opened named => cases opened <;> rfl
    | functionDeclaration named parameters => cases parameters <;> rfl
    | _ => rfl

theorem closing?_eq_none {c : Option Char} (paren : c ≠ some ')') (bracket : c ≠ some ']')
    (brace : c ≠ some '\x7d') (r : Region) : closing? c r = none := by
  unfold closing?
  split <;> first | rfl | contradiction

/-- A bracket in front of which everything inside it has been left. -/
theorem walks_close {c : Char} {stray : Enclosure} (ascii : c.utf8Size = 1)
    (mem : (c, stray) ∈ [(')', Enclosure.parens), (']', .brackets), ('\x7d', .block)])
    (whole : p.ahead = c :: after) :
    Walks (do
      match closing? (← rest).head? (← innermost) with
      | none => return false
      | some (e, closes) =>
        emit 1 [.ends e]
        let _ ← leaveIf fun _ => closes
        return true) p true (p.take (Rule.close p.state c stray after).pieces
          (Rule.close p.state c stray after).after (Rule.close p.state c stray after).rest) := by
  have width : 1 = byteLength [c] := by simp [ascii]
  have strays : Walks (do emit 1 [.ends stray]; let _ ← leaveIf fun _ => false; return true) p true
      (p.take [⟨[c], p.state, [.ends stray]⟩] p.state after) :=
    .bind (walks_emit (t := [c]) whole width) (.bind (walks_leaveIf_neg _ rfl) (.pure true _))
  refine .bind (walks_sees whole) (.bind (walks_innermost p) ?_)
  simp only [List.head?_cons, closing?_eq mem]
  unfold Rule.close
  cases enclosure : p.state.innermost.enclosure? with
  | none => exact strays
  | some e =>
    by_cases closes : e.closer = c
    · simp only [if_pos closes]
      refine .of_eq (.bind (walks_emit (t := [c]) whole width)
        (.bind (walks_leaveIf_pos _ rfl) (.pure true _))) (by simp)
    · simp only [if_neg closes]
      exact strays

theorem walks_unwindTurn_last
    (stays : p.ahead.head? = some '\x7d' → p.state.innermost.isBraced = false → p.state.toBrace? = none) :
    Walks unwindTurn p false p := by
  refine .bind (walks_rest p) (.bind (walks_innermost p) ?_)
  split
  · next unwinds =>
    obtain ⟨brace, inside⟩ : p.ahead.head? = some '\x7d' ∧ p.state.innermost.isBraced = false := by
      simpa using unwinds
    have none := LineState.isBraced_of_toBrace?_eq_none (stays brace inside)
    refine .bind (a := p.cursor) rfl (.ite_pos ?_ (.pure false p))
    simpa [Footing.cursor] using none
  · exact .pure false p

/-- In front of a closing brace what is open inside the nearest braces is left, if there are any. -/
theorem walks_unwind (p : Footing) :
    ∃ q, Walks (loop Cursor.height unwindTurn) p () q ∧ p.Like q ∧
      q.state = if p.ahead.head? = some '\x7d' then p.state.toBrace?.getD p.state else p.state := by
  by_cases brace : p.ahead.head? = some '\x7d'
  · rw [if_pos brace]
    cases found : p.state.toBrace? with
    | none => exact ⟨p, .last (walks_unwindTurn_last fun _ _ => found), .refl p, rfl⟩
    | some there =>
      cases inside : p.state.innermost.isBraced with
      | true =>
        obtain rfl : p.state = there :=
          Option.some.inj ((toBrace?_of_isBraced inside).symm.trans found)
        exact ⟨p, .last (walks_unwindTurn_last fun _ loose => by simp [loose] at inside),
          .refl p, rfl⟩
      | false =>
        obtain ⟨dropped, whole, -, braced⟩ := LineState.of_toBrace?_eq_some found
        have stays : there.inner ∈ p.state.frames :=
          whole ▸ List.mem_append_right dropped List.mem_cons_self
        obtain ⟨q, left, like, state⟩ := walks_leaveWhile (p := p) (fun r => !r.isBraced)
          ⟨there.inner, stays, congrArg not braced⟩
        rw [LineState.leaveWhile_of_toBrace? found] at state
        have turned : Walks unwindTurn p true q := by
          refine .bind (walks_rest p) (.bind (walks_innermost p) (.ite_pos (by simp [brace, inside]) ?_))
          refine .bind (a := p.cursor) rfl (.ite_neg ?_ (.bind left (.pure true q)))
          simpa [Footing.cursor] using ⟨there.inner, stays, braced⟩
        refine ⟨q, .turn turned ?_ (.last (walks_unwindTurn_last fun _ loose => ?_)), like, state⟩
        · have deeper : dropped ≠ [] := fun none => by
            obtain rfl : p.state = there := LineState.eq_of_frames_eq (by simpa [none] using whole)
            simp [inside] at braced
          have := List.length_pos_iff.2 deeper
          simp only [Cursor.height, Footing.cursor, state, whole, List.length_append]
          omega
        · rw [state] at loose
          simp [braced] at loose
  · rw [if_neg brace]
    exact ⟨p, .last (walks_unwindTurn_last fun found => absurd found brace), .refl p, rfl⟩

theorem agrees_closer (p : Footing) : Agrees closer p (Rule.closer? p.state p.ahead) := by
  obtain ⟨q, unwound, like, state⟩ := walks_unwind p
  have closes : ∀ {c : Char} {stray : Enclosure} {after : Text}, c.utf8Size = 1 →
      (c, stray) ∈ [(')', Enclosure.parens), (']', .brackets), ('\x7d', .block)] →
      p.ahead = c :: after → Agrees closer p (some (Rule.close q.state c stray after)) := by
    intro c stray after ascii mem whole
    refine .applies (.of_eq (.bind unwound (walks_close ascii mem (like.ahead.trans whole))) ?_)
    exact like.take _ _ _
  unfold Rule.closer?
  split
  · next whole =>
    rw [whole, if_neg (by simp)] at state
    rw [← state]
    exact closes rfl (by simp) whole
  · next whole =>
    rw [whole, if_neg (by simp)] at state
    rw [← state]
    exact closes rfl (by simp) whole
  · next whole =>
    rw [whole, if_pos List.head?_cons] at state
    rw [← state]
    exact closes rfl (by simp) whole
  · next noParen noBracket noBrace =>
    have other : ∀ c, (∀ rest, p.ahead = c :: rest → False) → p.ahead.head? ≠ some c :=
      fun c none found => by
        obtain ⟨rest, whole⟩ := List.head?_eq_some_iff.1 found
        exact none rest whole
    refine .declines (.bind (.last (walks_unwindTurn_last fun found => ?_)) (.bind (walks_rest p)
      (.bind (walks_innermost p) ?_)))
    · exact absurd found (other _ noBrace)
    · rw [closing?_eq_none (other _ noParen) (other _ noBracket) (other _ noBrace)]
      exact .pure false p

theorem walks_forget (p : Footing) : Walks forget p ()
    (p.into (if p.state.innermost.isStatementLevel then p.state.forget else p.state)) := by
  refine .bind (walks_innermost p) ?_
  split
  · exact walks_change _ p
  · exact .pure () p

/-- A terminator ends what ends in front of it and at most one statement with it. -/
theorem agrees_terminator (rooted : Rooted p.state) :
    Agrees terminator p (Rule.terminator? p.state p.ahead) := by
  unfold Rule.terminator?
  split
  · next after whole =>
    obtain ⟨above, n, bottom⟩ := rooted
    obtain ⟨q, left, like, state⟩ := walks_leaveWhile (p := p)
      Region.endsBeforeTerminator ⟨⟨.program, n⟩, by rw [bottom]; simp, rfl⟩
    change q.state = Rule.beforeTerminator p.state at state
    rw [← state]
    refine .applies (.bind (walks_sees whole) (.of_eq (.bind left
      (.bind (walks_emit (t := [';']) (like.ahead.trans whole) rfl) ?_)) (like.take _ _ _)))
    unfold Rule.afterTerminator
    cases ends : q.state.innermost.endsWithTerminator with
    | true =>
      refine .of_eq (.bind (walks_leaveIf_pos _ ends) (.bind (walks_forget _) (.pure true _))) ?_
      simp only [Footing.take_take]
      rfl
    | false => exact .bind (walks_leaveIf_neg _ ends) (.bind (walks_forget _) (.pure true _))
  · next other =>
    refine .after (walks_rest p) ?_
    split
    · next whole => exact absurd whole (other _)
    · exact .declines (.pure false p)

end Walk

end StanHighlight

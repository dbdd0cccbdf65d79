import StanHighlight.Proofs.WalkTokens

/-!
Rules that walk over words. A word is tried in three places one after the other, and the first of
them may fill the place of a distribution's name before it declines. So the second place is tried
on a changed state; it declines without a trace, and the third takes any word.
-/

namespace StanHighlight

open Text (byteLength gap trimStart)
open Vocabulary

namespace Walk

variable {p : Footing} {w after : Text}

theorem agrees_accumulator (p : Footing) :
    Agrees accumulator p (Rule.accumulator? p.state p.ahead) := by
  unfold Rule.accumulator?
  cases opened : p.ahead.after? Rule.targetWord with
  | none =>
    refine .after (walks_rest p) ?_
    rw [opened]
    exact .declines (.pure false p)
  | some behind =>
    have whole := Text.after?_eq_some_iff.1 opened
    dsimp only
    split
    · next after sign =>
      have blanks : gap behind ++ '+' :: '=' :: after = behind :=
        sign ▸ Text.gap_append_trimStart behind
      have taken : p.ahead = (Rule.targetWord ++ gap behind ++ ['+', '=']) ++ after := by
        simp [whole, blanks]
      have width : byteLength Rule.targetWord + byteLength (gap behind) + 2 =
          byteLength (Rule.targetWord ++ gap behind ++ ['+', '=']) := by
        rw [Text.byteLength_append, Text.byteLength_append]
        rfl
      refine .after (walks_rest p) ?_
      simp only [opened, sign]
      exact .applies (.of_eq (.bind (walks_emit taken width)
        (.bind (walks_enter _ _) (.pure true _))) (by simp))
    · refine .after (walks_rest p) ?_
      simp only [opened]
      exact .declines (.pure false p)

theorem agrees_sampling (p : Footing) : Agrees sampling p (Rule.sampling? p.state p.ahead) := by
  unfold Rule.sampling?
  split
  · next whole => exact .applies (.bind (walks_sees whole) (walks_entrance _ (t := ['~']) whole rfl))
  · next other =>
    refine .after (walks_rest p) ?_
    split
    · next whole => exact absurd whole (other _)
    · exact .declines (.pure false p)

theorem trimStart_of_parenAfterGap? {t blanks rest : Text}
    (h : Rule.parenAfterGap? t = some (blanks, rest)) : gap t = blanks ∧ trimStart t = '(' :: rest := by
  unfold Rule.parenAfterGap? at h
  split at h
  · next opened =>
    cases h
    exact ⟨rfl, opened⟩
  · cases h

/-- A head and the region that it opens in parentheses, if these follow it. -/
theorem walks_heads (r : Region) (e : Enclosure) (own : List Label) (whole : p.ahead = w ++ after) :
    Walks (do emit (byteLength w) own; openAhead r e; return true) p true
      (p.take (Rule.heads ⟨w, p.state, own⟩ (p.state.enter r) e after).pieces
        (Rule.heads ⟨w, p.state, own⟩ (p.state.enter r) e after).after
        (Rule.heads ⟨w, p.state, own⟩ (p.state.enter r) e after).rest) := by
  refine .bind (walks_emit whole rfl) (.bind (a := ()) (.bind (walks_rest _) ?_) (.pure true _))
  have follows := Rule.isSome_parenAfterGap?_iff (t := after)
  unfold Rule.heads
  cases found : Rule.parenAfterGap? after with
  | none =>
    rw [found] at follows
    exact .ite_neg (by simpa using follows) (.pure () _)
  | some parts =>
    obtain ⟨blanks, rest⟩ := parts
    obtain ⟨rfl, opened⟩ := trimStart_of_parenAfterGap? found
    rw [found] at follows
    refine .ite_pos (by simpa using follows) ?_
    refine .of_eq (.bind (walks_skipBlanks _) (.bind (walks_enter r _)
      (walks_emit (t := ['(']) opened rfl))) ?_
    rw [Footing.take_pass rfl]
    simp [Step.opening]

/-- A word in the place that is kept for a name. If it is not one, the place of a distribution's
name counts as filled all the same. -/
theorem tries_nameSlot (whole : p.ahead = w ++ after) :
    Tries (nameSlot w) p (p.into (Rule.passDistribution p.state))
      (Rule.nameSlot? p.state w after) := by
  refine .after (walks_behind whole) (.after (walks_innermost p) ?_)
  simp only [Rule.nameSlot?, Rule.passDistribution]
  cases slot : p.state.innermost with
  | declaration named =>
    cases named with
    | true => exact .declines (.pure false p)
    | false =>
      cases type : isStorageType (String.ofList w) with
      | true => exact .applies (walks_token whole rfl)
      | false =>
        cases known : isKeyword (String.ofList w) with
        | true => exact .declines (.pure false p)
        | false => exact .applies (walks_naming _ (by rw [slot]; rfl) whole rfl)
  | functionDeclaration named parameters =>
    cases parameters with
    | true =>
      simp only
      by_cases modifier : String.ofList w = "data"
      · rw [if_pos modifier, if_pos modifier]
        exact .applies (walks_token whole rfl)
      · rw [if_neg modifier, if_neg modifier]
        cases type : isStorageType (String.ofList w) with
        | true =>
          have sized : p.ahead = (w ++ (Rule.dimensions after).1) ++ (Rule.dimensions after).2 := by
            simp [whole]
          exact .applies (walks_token sized (by simp))
        | false =>
          cases known : isKeyword (String.ofList w) with
          | true => exact .declines (.pure false p)
          | false => exact .applies (walks_token whole rfl)
    | false =>
      cases named with
      | true => exact .declines (.pure false p)
      | false =>
        cases known : isKeyword (String.ofList w) with
        | true => exact .declines (.pure false p)
        | false => exact .applies (walks_naming _ (by rw [slot]; rfl) whole rfl)
  | control kind opened named =>
    by_cases waits : kind = .forLoop ∧ opened = true ∧ named = false
    · obtain ⟨rfl, rfl, rfl⟩ := waits
      cases known : isKeyword (String.ofList w) with
      | true => exact .declines (.pure false p)
      | false => exact .applies (walks_naming _ (by rw [slot]; rfl) whole rfl)
    · cases kind <;> cases opened <;> cases named <;>
        first | exact .declines (.pure false p) | exact absurd ⟨rfl, rfl, rfl⟩ waits
  | constraints =>
    cases range : isRangeKeyword (String.ofList w) with
    | false => exact .declines (.pure false p)
    | true =>
      cases bound : Rule.afterEquals? (trimStart after) with
      | none => exact .declines (.pure false p)
      | some t => exact .applies (walks_token whole rfl)
  | sampling filled =>
    cases filled with
    | true => exact .declines (.pure false p)
    | false =>
      cases known : isKeyword (String.ofList w) with
      | true => exact .declines (.bind (walks_become _ p) (.pure false _))
      | false =>
        refine .applies (.of_eq (.bind (walks_become _ p)
          (walks_heads (p := p.into _) (.call .distribution) .arguments _ whole)) ?_)
        exact Footing.take_into (LineState.labels_of_inner (by rw [slot]; rfl)) _ _ _
  | _ => exact .declines (.pure false p)

/-- The state changes where the place of a distribution's name counts as filled, but no label. -/
theorem labels_passDistribution (here : LineState) :
    (Rule.passDistribution here).labels = here.labels := by
  unfold Rule.passDistribution
  split
  · next slot => exact LineState.labels_of_inner (by rw [slot]; rfl)
  · rfl

theorem agrees_keyword (whole : p.ahead = w ++ after) :
    Agrees (keyword w) p (Rule.keyword? p.state w after) := by
  simp only [Rule.keyword?]
  split
  · next kind found =>
    have follows := Rule.isSome_parenAfterGap?_iff (t := after)
    refine .after (walks_behind whole) ?_
    simp only [found]
    by_cases header : (Rule.parenAfterGap? after).isSome = true
    · rw [if_pos header]
      exact .applies (.of_eq (.bind (.ite_pos (follows.1 header) (walks_enter _ p))
        (walks_token (p := p.take _ _ _) whole rfl)) (by simp [Step.single]))
    · rw [if_neg header]
      exact .applies (.bind (.ite_neg (fun paren => header (follows.2 paren)) (.pure () p))
        (walks_token whole rfl))
  · next none =>
    by_cases control : Vocabulary.isControlKeyword (String.ofList w) = true
    · rw [if_pos control]
      refine .applies (.bind (walks_behind whole) ?_)
      simp only [none, if_pos control]
      exact walks_token whole rfl
    · rw [if_neg control]
      split
      · next spelled =>
        obtain rfl : w = ['T'] := by simpa using congrArg String.toList spelled
        refine .after (walks_behind whole) ?_
        simp only [none, if_neg control, spelled]
        by_cases bracket : after.head? = some '['
        · obtain ⟨rest, rfl⟩ := List.head?_eq_some_iff.1 bracket
          exact .applies (.ite_pos bracket (.of_eq (.bind (walks_emit (t := ['T']) whole rfl)
            (.bind (walks_enter .truncation _) (walks_token (t := ['[']) rfl rfl)))
            (by simp [Step.opening])))
        · rw [if_neg bracket]
          split
          · exact absurd rfl bracket
          · exact .declines (.pure false p)
      · next spelled =>
        refine .applies (.bind (walks_behind whole) ?_)
        simp only [spelled]
        exact walks_token whole rfl
      · next spelled =>
        refine .applies (.bind (walks_behind whole) ?_)
        simp only [spelled]
        exact walks_heads .printArguments .printArguments _ whole
      · next spelled =>
        refine .applies (.bind (walks_behind whole) ?_)
        simp only [spelled]
        exact walks_heads .printArguments .printArguments _ whole
      · next spelled =>
        refine .applies (.bind (walks_behind whole) ?_)
        simp only [spelled]
        exact walks_token whole rfl
      · next spelled =>
        refine .applies (.bind (walks_behind whole) ?_)
        simp only [spelled]
        exact walks_token whole rfl
      · refine .after (walks_behind whole) ?_
        simp only [none, if_neg control]
        split
        · exact .applies (walks_token whole rfl)
        · exact .declines (.pure false p)

/-- A name is called if a parenthesis follows it at once. -/
theorem walks_identifier (whole : p.ahead = w ++ after) :
    Walks (identifier w) p () (p.take (Rule.identifier p.state w after).pieces
      (Rule.identifier p.state w after).after (Rule.identifier p.state w after).rest) := by
  refine .bind (walks_behind whole) ?_
  simp only [Rule.identifier]
  by_cases called : after.head? = some '('
  · obtain ⟨rest, rfl⟩ := List.head?_eq_some_iff.1 called
    refine .ite_neg (not_not_intro called) (.bind (walks_within _ p) ?_)
    refine .of_eq (.bind (walks_emit whole rfl) (.bind (walks_enter (.call .function) _)
      (walks_emit (t := ['(']) rfl rfl))) ?_
    simp only [Footing.take_take]
    rfl
  · refine .ite_pos called ?_
    split
    · exact absurd rfl called
    · exact walks_emit whole rfl

theorem agrees_word (p : Footing) : Agrees word p (Rule.word? p.state p.ahead) := by
  refine .after (walks_rest p) ?_
  unfold Rule.word?
  cases starts : p.ahead.head?.any Text.startsWord with
  | false => exact .declines (.pure false p)
  | true =>
    have whole := (Text.word_append_afterWord p.ahead).symm
    generalize Text.word p.ahead = w at *
    generalize Text.afterWord p.ahead = after at *
    refine .applies (.ite_neg (by simp) ?_)
    dsimp only
    unfold Rule.wordStep
    split
    · exact walks_token whole rfl
    · split
      · exact walks_token whole rfl
      · -- Only the state changes in the place of a distribution's name, so text that waits keeps its
        -- labels.
        have unchanged := Footing.take_into (labels_passDistribution p.state)
        have slot := tries_nameSlot whole
        have known : Agrees (keyword w) (p.into (Rule.passDistribution p.state))
            (Rule.keyword? (Rule.passDistribution p.state) w after) := agrees_keyword whole
        cases named : Rule.nameSlot? p.state w after with
        | some s =>
          rw [named] at slot
          exact .bind slot.applied (.pure true _)
        | none =>
          rw [named] at slot
          refine .bind slot.declined ?_
          rw [← unchanged]
          cases found : Rule.keyword? (Rule.passDistribution p.state) w after with
          | some s =>
            rw [found] at known
            exact .bind known.applied (.pure true _)
          | none =>
            rw [found] at known
            exact .bind known.declined (.bind (walks_identifier whole) (.pure true _))

end Walk

end StanHighlight

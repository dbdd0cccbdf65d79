import StanHighlight.Proofs.Join
import StanHighlight.Proofs.StepPieces

/-!
Flagged characters. A configuration decides which characters of a string literal are flagged, and
so into which pieces the body of the literal is cut. Nothing else depends on it: lines read with
two configurations end in the same state, and have the same lexemes once the flags are taken off
and the pieces of each body are put together again.
-/

namespace StanHighlight

namespace Piece

/-- Puts a piece in front of others, as one with the first of them if both have certain labels of
their own and no more. -/
def glue (own : List Label) (p : Piece) : List Piece → List Piece
  | [] => [p]
  | q :: qs =>
    if p.own = own ∧ q.own = own then ⟨p.text ++ q.text, p.around, own⟩ :: qs else p :: q :: qs

def merge (own : List Label) (ps : List Piece) : List Piece := ps.foldr (glue own) []

def unflag (p : Piece) : Piece :=
  if .illegalCharacter ∈ p.own then { p with own := [.string] } else p

variable {own other : List Label} {p q : Piece} {ps qs : List Piece}

@[simp] theorem merge_cons : merge own (p :: ps) = glue own p (merge own ps) := rfl

theorem glue_of_ne (h : p.own ≠ own) : glue own p ps = p :: ps := by
  cases ps with
  | nil => rfl
  | cons q qs => exact if_neg fun both => h both.1

theorem glue_cons_of_ne (h : q.own ≠ own) : glue own p (q :: qs) = p :: q :: qs :=
  if_neg fun both => h both.2

theorem glue_cons_of_eq (hp : p.own = own) (hq : q.own = own) :
    glue own p (q :: qs) = ⟨p.text ++ q.text, p.around, own⟩ :: qs :=
  if_pos ⟨hp, hq⟩

/-- The first of glued pieces has the labels of the first piece. -/
theorem exists_glue_eq_cons (own : List Label) (p : Piece) (ps : List Piece) :
    ∃ q qs, glue own p ps = q :: qs ∧ q.own = p.own := by
  cases ps with
  | nil => exact ⟨p, [], rfl, rfl⟩
  | cons q qs =>
    rw [glue]
    split
    · next both => exact ⟨_, qs, rfl, both.1.symm⟩
    · exact ⟨p, q :: qs, rfl, rfl⟩

/-- Glue holds as well on the left as on the right. -/
theorem glue_glue (hp : p.own = own) (hq : q.own = own) :
    glue own p (glue own q qs) = glue own ⟨p.text ++ q.text, p.around, own⟩ qs := by
  cases qs with
  | nil => exact glue_cons_of_eq hp hq
  | cons r qs =>
    by_cases hr : r.own = own
    · have joined : ∀ (t : Text) (around : LineState), (⟨t, around, own⟩ : Piece).own = own :=
        fun _ _ => rfl
      rw [glue_cons_of_eq hq hr, glue_cons_of_eq hp (joined _ _), glue_cons_of_eq (joined _ _) hr,
        List.append_assoc]
    · rw [glue_cons_of_ne hr, glue_cons_of_ne hr, glue_cons_of_eq hp hq]

/-- Gluing in front does not matter to pieces that are merged by other labels. -/
theorem merge_glue (different : own ≠ other) (hp : p.own = other) :
    merge own (glue other p ps) = glue other p (merge own ps) := by
  have apart : p.own ≠ own := hp ▸ different.symm
  cases ps with
  | nil => rfl
  | cons q qs =>
    by_cases hq : q.own = other
    · have second : q.own ≠ own := hq ▸ different.symm
      rw [glue_cons_of_eq hp hq, merge_cons, merge_cons, glue_of_ne second,
        glue_of_ne different.symm, glue_cons_of_eq hp hq]
    · rw [glue_cons_of_ne hq, merge_cons, merge_cons, glue_of_ne apart]
      obtain ⟨r, rs, glued, same⟩ := exists_glue_eq_cons own q (merge own qs)
      rw [glued, glue_cons_of_ne (same ▸ hq)]

/-- Merging by some labels and merging by others do not disturb each other. -/
theorem merge_comm (different : own ≠ other) (ps : List Piece) :
    merge own (merge other ps) = merge other (merge own ps) := by
  induction ps with
  | nil => rfl
  | cons p ps ih =>
    rw [merge_cons, merge_cons]
    by_cases hp : p.own = other
    · have apart : p.own ≠ own := hp ▸ different.symm
      rw [merge_glue different hp, ih, glue_of_ne apart, merge_cons]
    · rw [glue_of_ne hp, merge_cons, ih]
      by_cases hq : p.own = own
      · rw [merge_glue different.symm hq]
      · rw [glue_of_ne hq, glue_of_ne hq, merge_cons, glue_of_ne hp]

/-- What is merged behind a row matters to the whole only as it is merged. -/
theorem merge_append_congr (front : List Piece) (h : merge own ps = merge own qs) :
    merge own (front ++ ps) = merge own (front ++ qs) := by
  induction front with
  | nil => exact h
  | cons p front ih => rw [List.cons_append, List.cons_append, merge_cons, merge_cons, ih]

/-- What is joined behind labelled pieces is joined as without them. -/
theorem joinPlain_tokens {ps : List Piece} (h : ∀ p ∈ ps, p.isPlain = false) (qs : List Piece) :
    joinPlain (ps ++ qs) = ps ++ joinPlain qs := by
  induction ps with
  | nil => rfl
  | cons p ps ih =>
    obtain ⟨first, others⟩ := List.forall_mem_cons.1 h
    rw [List.cons_append, joinPlain_cons, ih others, join_of_labelled first, List.cons_append]

theorem joinPlain_ofText (t : Text) (around : LineState) (own : List Label) :
    joinPlain (ofText t around own) = ofText t around own := by
  cases t <;> rfl

theorem joinPlain_eq_merge (ps : List Piece) : joinPlain ps = merge [] ps := by
  induction ps with
  | nil => rfl
  | cons p ps ih =>
    rw [joinPlain_cons, ih, merge_cons]
    cases merge [] ps with
    | nil => rfl
    | cons q qs => simp [join, glue, isPlain]

@[simp] theorem text_unflag (p : Piece) : p.unflag.text = p.text := by
  unfold unflag
  split <;> rfl

theorem own_unflag_eq_nil_iff (p : Piece) : p.unflag.own = [] ↔ p.own = [] := by
  unfold unflag
  split
  · next flagged => simp [List.ne_nil_of_mem flagged]
  · rfl

/-- Flags do not matter to plain text. -/
theorem map_unflag_merge (ps : List Piece) :
    (merge [] ps).map unflag = merge [] (ps.map unflag) := by
  induction ps with
  | nil => rfl
  | cons p ps ih =>
    rw [List.map_cons, merge_cons, merge_cons, ← ih]
    cases merge [] ps with
    | nil => rfl
    | cons q qs =>
      simp only [List.map_cons, glue, own_unflag_eq_nil_iff]
      split
      · next both => simp [unflag, both]
      · rfl

end Piece

namespace Lexeme

def unflag (l : Lexeme) : Lexeme := { l with toPiece := l.toPiece.unflag }

/-- Puts a lexeme in front of others, as one with the first of them if both are unflagged parts of
a literal's body. -/
def glueBody (l : Lexeme) : List Lexeme → List Lexeme
  | [] => [l]
  | m :: ms =>
    if l.own = [.string] ∧ m.own = [.string] then { l with text := l.text ++ m.text } :: ms
    else l :: m :: ms

def mergeBodies (ls : List Lexeme) : List Lexeme := ls.foldr glueBody []

theorem map_unflag_place (n : Nat) (ps : List Piece) :
    (place n ps).map unflag = place n (ps.map Piece.unflag) := by
  induction ps generalizing n with
  | nil => rfl
  | cons p ps ih =>
    rw [List.map_cons, place_cons, place_cons, List.map_cons, ih, Piece.text_unflag]
    rfl

theorem mergeBodies_place (n : Nat) (ps : List Piece) :
    mergeBodies (place n ps) = place n (Piece.merge [.string] ps) := by
  induction ps generalizing n with
  | nil => rfl
  | cons p ps ih =>
    rw [place_cons, Piece.merge_cons]
    have step : mergeBodies (⟨p, n⟩ :: place (n + Text.byteLength p.text) ps) =
        glueBody ⟨p, n⟩ (mergeBodies (place (n + Text.byteLength p.text) ps)) := rfl
    rw [step, ih]
    cases Piece.merge [.string] ps with
    | nil => rfl
    | cons q qs =>
      rw [place_cons, glueBody, Piece.glue]
      split
      · next both => simp [show p.own = _ from both.1, Nat.add_assoc]
      · simp

end Lexeme

namespace Rule

variable {config : Config} {assigned : Bool} {here : LineState} {t : Text} {s : Step}

/-- The quote that ends a literal, unless the line ends first, and the text after it. -/
def literalEnd (here : LineState) (t : Text) : List Piece × Text :=
  match t.dropWhile (· != '"') with
  | [] => ([], [])
  | quote :: rest => ([⟨[quote], here, [.string, .ends .string]⟩], rest)

/-- A literal is a quote, a body that is cut as the configuration says, and an end that does not
depend on it. -/
theorem string?_cons (config : Config) (here : LineState) (t : Text) :
    string? config here ('"' :: t) = some
      ⟨⟨['"'], here, [.string, .begins .string]⟩ ::
        (bodyPieces config here (t.takeWhile (· != '"')) ++ (literalEnd here t).1),
        here, (literalEnd here t).2⟩ := by
  simp only [string?, literalEnd]
  cases t.dropWhile (· != '"') <;> simp

theorem exists_cons_of_string? (found : string? config here t = some s) :
    ∃ body, t = '"' :: body := by
  unfold string? at found
  split at found
  · exact ⟨_, rfl⟩
  · cases found

/-- No part of a literal is an assignment. -/
theorem assigns_string? (found : string? config here t = some s) : s.assigns assigned = false := by
  have labelled := labelled_string found
  have literal : ∀ p ∈ s.pieces, p.own.getLast? ≠ some .assignmentOperator := by
    obtain ⟨body, rfl⟩ := exists_cons_of_string? found
    rw [string?_cons] at found
    cases found
    refine List.forall_mem_cons.2 ⟨by simp, List.forall_mem_append.2 ⟨fun p mem => ?_, ?_⟩⟩
    · obtain ⟨run, _, rfl⟩ := List.mem_map.1 mem
      simp only [runLabels]
      split <;> simp
    · unfold literalEnd
      split <;> simp
  cases last : s.pieces.getLast? with
  | none => exact absurd (List.getLast?_eq_none_iff.1 last) (string?_covers found).some_piece
  | some p =>
    have mem := List.mem_of_getLast? last
    simp [Step.assigns, last, labelled p mem, literal p mem]

/-- Only literals depend on the configuration. -/
theorem step?_config {rule : Rule} (h : rule ≠ .string) (config other : Config) :
    step? config assigned here t rule = step? other assigned here t rule := by
  cases rule with
  | string => exact absurd rfl h
  | _ => rfl

end Rule

def Step.BothLiteral (config other : Config) (here : LineState) (t : Text) (s₁ s₂ : Step) : Prop :=
  Rule.string? config here t = some s₁ ∧ Rule.string? other here t = some s₂

/-- Two lexers with the same clusters take the same step, or each takes a step over the literal
that the text starts with. -/
theorem Step.take_config {lexer₁ lexer₂ : Lexer} (same : lexer₁.clusters = lexer₂.clusters)
    (assigned : Bool) (here : LineState) (t : Text) :
    let s₁ := take lexer₁ assigned here t
    let s₂ := take lexer₂ assigned here t
    s₁ = s₂ ∨ BothLiteral lexer₁.config lexer₂.config here t s₁ s₂ := by
  intro s₁ s₂
  simp only [s₁, s₂, take, same]
  induction here.innermost.rules with
  | nil => exact .inl rfl
  | cons rule rules ih =>
    rw [List.findSome?_cons, List.findSome?_cons]
    by_cases literal : rule = .string
    · subst literal
      simp only [Rule.step?]
      cases first : Rule.string? lexer₁.config here t with
      | some s =>
        obtain ⟨body, rfl⟩ := Rule.exists_cons_of_string? first
        have second := Rule.string?_cons lexer₂.config here body
        simp only [second]
        exact .inr ⟨first, second⟩
      | none =>
        cases second : Rule.string? lexer₂.config here t with
        | none => exact ih
        | some s =>
          obtain ⟨body, rfl⟩ := Rule.exists_cons_of_string? second
          cases first.symm.trans (Rule.string?_cons lexer₁.config here body)
    · rw [Rule.step?_config literal lexer₁.config lexer₂.config]
      split
      · exact .inl rfl
      · exact ih

namespace Piece

/-- Pieces as they would be if no character were flagged. -/
def unflagged (ps : List Piece) : List Piece := merge [.string] (ps.map unflag)

theorem unflagged_append_congr {ps qs : List Piece} (front : List Piece)
    (h : unflagged ps = unflagged qs) : unflagged (front ++ ps) = unflagged (front ++ qs) := by
  simp only [unflagged, List.map_append]
  exact merge_append_congr _ h

/-- Runs of a body are one piece once they are put together. -/
theorem merge_runs {here : LineState} {runs : List Text} (visible : ∀ run ∈ runs, run ≠ [])
    (ps : List Piece) : merge [.string] (runs.map (fun run => ⟨run, here, [.string]⟩) ++ ps) =
      merge [.string] (ofText runs.flatten here [.string] ++ ps) := by
  induction runs with
  | nil => rfl
  | cons run runs ih =>
    obtain ⟨some_run, others⟩ := List.forall_mem_cons.1 visible
    rw [List.map_cons, List.cons_append, merge_cons, ih others, List.flatten_cons]
    cases flat : runs.flatten with
    | nil => simp [ofText, some_run]
    | cons c more =>
      have joined : ofText (run ++ c :: more) here [.string] =
          [⟨run ++ c :: more, here, [.string]⟩] := by simp [ofText]
      rw [joined]
      exact glue_glue rfl rfl

/-- The body of a literal does not depend on what is flagged in it. -/
theorem unflagged_bodyPieces (config : Config) (here : LineState) (body : Text) (ps : List Piece) :
    unflagged (Rule.bodyPieces config here body ++ ps) =
      unflagged (ofText body here [.string] ++ ps) := by
  have runs : (Rule.bodyPieces config here body).map unflag =
      (Rule.stringRuns config body).map fun run => ⟨run, here, [.string]⟩ := by
    rw [Rule.bodyPieces, List.map_map]
    refine List.map_congr_left fun run _ => ?_
    simp only [Function.comp_apply, Rule.runLabels]
    split <;> simp [unflag]
  have whole : (ofText body here [.string]).map unflag = ofText body here [.string] := by
    cases body <;> simp [ofText, unflag]
  rw [unflagged, unflagged, List.map_append, List.map_append, runs, whole,
    merge_runs (Rule.stringRuns_ne_nil config body), Rule.stringRuns_flatten]

end Piece

namespace Step.BothLiteral

variable {config other : Config} {here : LineState} {t : Text} {s₁ s₂ : Step}

/-- Two steps over one literal lead to the same place. -/
theorem same_end (h : BothLiteral config other here t s₁ s₂) :
    s₁.after = s₂.after ∧ s₁.rest = s₂.rest := by
  obtain ⟨first, second⟩ := h
  obtain ⟨body, rfl⟩ := Rule.exists_cons_of_string? first
  rw [Rule.string?_cons] at first second
  cases first
  cases second
  exact ⟨rfl, rfl⟩

/-- Two steps over one literal cut the same pieces but for the flags. -/
theorem unflagged (h : BothLiteral config other here t s₁ s₂) {ps qs : List Piece}
    (more : Piece.unflagged ps = Piece.unflagged qs) :
    Piece.unflagged (s₁.pieces ++ ps) = Piece.unflagged (s₂.pieces ++ qs) := by
  obtain ⟨first, second⟩ := h
  obtain ⟨body, rfl⟩ := Rule.exists_cons_of_string? first
  rw [Rule.string?_cons] at first second
  cases first
  cases second
  have ends := Piece.unflagged_append_congr (Rule.literalEnd here body).1 more
  have bodies := calc
    Piece.unflagged (Rule.bodyPieces config here (body.takeWhile (· != '"')) ++ (_ ++ ps)) =
        Piece.unflagged (Piece.ofText (body.takeWhile (· != '"')) here [.string] ++ (_ ++ ps)) :=
      Piece.unflagged_bodyPieces ..
    _ = Piece.unflagged (Piece.ofText (body.takeWhile (· != '"')) here [.string] ++ (_ ++ qs)) :=
      Piece.unflagged_append_congr _ ends
    _ = Piece.unflagged (Rule.bodyPieces other here (body.takeWhile (· != '"')) ++ (_ ++ qs)) :=
      (Piece.unflagged_bodyPieces ..).symm
  simp only [List.cons_append, List.append_assoc]
  exact Piece.unflagged_append_congr [_] bodies

end Step.BothLiteral

/-- The pieces of a literal's body: each flagged character alone and all that stands between two
of them together. -/
structure IsBody (config : Config) (ps : List Piece) : Prop where
  unquoted : ∀ p ∈ ps, '"' ∉ p.text
  flagged : ∀ p ∈ ps, (p.own = [.string, .illegalCharacter] ∧
      ∃ c, p.text = [c] ∧ config.isIllegal c = true) ∨
    (p.own = [.string] ∧ ∀ c ∈ p.text, config.isIllegal c = false)
  parted : ps.IsChain fun p q => ¬(p.own = [.string] ∧ q.own = [.string])

/-- Pieces in which every literal is a quote, a body and the quote that ends it, except that what
is left over behind the content of the line may end the last body. No other piece has a label of
literals. -/
inductive Literals (config : Config) (ending : Text) : List Piece → Prop
  | nil : Literals config ending []
  | other {p : Piece} {ps : List Piece} (code : ∀ l ∈ p.own, l.isLiteral = false)
      (more : Literals config ending ps) : Literals config ending (p :: ps)
  | closed {around : LineState} {body ps : List Piece} (h : IsBody config body)
      (more : Literals config ending ps) :
      Literals config ending (⟨['"'], around, [.string, .begins .string]⟩ ::
        (body ++ ⟨['"'], around, [.string, .ends .string]⟩ :: ps))
  | unclosed {around : LineState} {body : List Piece} (h : IsBody config body) :
      Literals config ending (⟨['"'], around, [.string, .begins .string]⟩ ::
        (body ++ Piece.ofText ending around []))

section Runs

variable {config : Config} {c : Char} {run : Text} {runs : List Text}

structure IsRuns (config : Config) (runs : List Text) : Prop where
  legal_or_alone : ∀ run ∈ runs, run.any config.isIllegal = true → ∃ c, run = [c]
  parted : runs.IsChain fun r s => r.any config.isIllegal = true ∨ s.any config.isIllegal = true

/-- One more character in front leaves the runs as they should be. -/
theorem IsRuns.addToRuns (h : IsRuns config runs) (visible : ∀ run ∈ runs, run ≠ []) :
    IsRuns config (Rule.addToRuns config c runs) := by
  have alone : ∀ run ∈ [[c]], run.any config.isIllegal = true → ∃ c, run = [c] :=
    List.forall_mem_singleton.2 fun _ => ⟨c, rfl⟩
  cases runs with
  | nil => exact ⟨alone, .singleton _⟩
  | cons run runs =>
    obtain ⟨d, run, rfl⟩ := List.exists_cons_of_ne_nil (visible _ List.mem_cons_self)
    rw [Rule.addToRuns]
    split
    · next apart =>
      have apart : config.isIllegal c = true ∨ config.isIllegal d = true := by simpa using apart
      refine ⟨List.forall_mem_append.2 ⟨alone, h.legal_or_alone⟩, ?_⟩
      refine List.isChain_cons_cons.2 ⟨apart.imp (fun illegal => ?_) fun illegal => ?_, h.parted⟩
      · simp [illegal]
      · simp [illegal]
    · next together =>
      obtain ⟨legal, next_legal⟩ : config.isIllegal c = false ∧ config.isIllegal d = false := by
        simpa using together
      have same : (c :: d :: run).any config.isIllegal = (d :: run).any config.isIllegal := by
        simp [legal]
      obtain ⟨first, others⟩ := List.forall_mem_cons.1 h.legal_or_alone
      refine ⟨List.forall_mem_cons.2 ⟨fun illegal => ?_, others⟩, ?_⟩
      · obtain ⟨e, eq⟩ := first (same ▸ illegal)
        cases eq
        simp [legal, next_legal] at illegal
      · cases runs with
        | nil => exact .singleton _
        | cons r runs =>
          obtain ⟨between, more⟩ := List.isChain_cons_cons.1 h.parted
          exact List.isChain_cons_cons.2 ⟨same ▸ between, more⟩

theorem isRuns_stringRuns (config : Config) (body : Text) :
    IsRuns config (Rule.stringRuns config body) := by
  induction body with
  | nil => exact ⟨nofun, .nil⟩
  | cons c body ih => exact ih.addToRuns (Rule.stringRuns_ne_nil config body)

/-- The pieces of a body are as they should be. -/
theorem isBody_bodyPieces (config : Config) (here : LineState) {body : Text}
    (unquoted : '"' ∉ body) : IsBody config (Rule.bodyPieces config here body) := by
  have runs := isRuns_stringRuns config body
  refine ⟨fun p mem quote => ?_, fun p mem => ?_, ?_⟩
  · refine unquoted ?_
    rw [← Rule.texts_bodyPieces config here body]
    exact List.mem_flatMap.2 ⟨p, mem, quote⟩
  · obtain ⟨run, inside, rfl⟩ := List.mem_map.1 mem
    simp only [Rule.runLabels]
    split
    · next illegal =>
      obtain ⟨c, rfl⟩ := runs.legal_or_alone run inside illegal
      exact .inl ⟨rfl, c, rfl, by simpa using illegal⟩
    · next legal => exact .inr ⟨rfl, by simpa using legal⟩
  · refine (List.isChain_map _).2 (runs.parted.imp fun r s between => ?_)
    rintro ⟨first, second⟩
    rcases between with illegal | illegal
    · simp [Rule.runLabels, illegal] at first
    · simp [Rule.runLabels, illegal] at second

end Runs

theorem IsBody.isPlain {config : Config} {ps : List Piece} (h : IsBody config ps) :
    ∀ p ∈ ps, p.isPlain = false := by
  intro p mem
  rcases h.flagged p mem with ⟨own, _⟩ | ⟨own, _⟩ <;> simp [Piece.isPlain, own]

namespace Literals

variable {config : Config} {ending : Text} {p : Piece} {ps qs : List Piece}

theorem tokens (h : ∀ p ∈ ps, ∀ l ∈ p.own, l.isLiteral = false) (more : Literals config ending qs) :
    Literals config ending (ps ++ qs) := by
  induction ps with
  | nil => exact more
  | cons p ps ih =>
    obtain ⟨first, others⟩ := List.forall_mem_cons.1 h
    exact .other first (ih others)

theorem leftover (config : Config) (ending : Text) (around : LineState) :
    Literals config ending (Piece.ofText ending around []) := by
  unfold Piece.ofText
  split
  · exact .nil
  · exact .other nofun .nil

/-- A step over a literal. -/
theorem string {here : LineState} {t : Text} {s : Step} {rows : LineState → Text → List Piece}
    (found : Rule.string? config here t = some s)
    (done : ∀ there, rows there [] = Piece.ofText ending there [])
    (more : Literals config ending (rows s.after s.rest)) :
    Literals config ending (s.pieces ++ rows s.after s.rest) := by
  obtain ⟨body, rfl⟩ := Rule.exists_cons_of_string? found
  have unquoted : '"' ∉ body.takeWhile (· != '"') := fun mem => by
    simpa using List.all_eq_true.1 (List.all_takeWhile (p := (· != '"'))) _ mem
  have inside := isBody_bodyPieces config here unquoted
  rw [Rule.string?_cons] at found
  cases found
  simp only [List.cons_append, List.append_assoc] at more ⊢
  unfold Rule.literalEnd at more ⊢
  split
  · rw [done]
    exact .unclosed inside
  · next quote rest ends =>
    rw [ends] at more
    have closing : quote = '"' := by
      have head := List.head?_dropWhile_not (· != '"') body
      rw [ends] at head
      simpa using head
    subst closing
    exact .closed inside more

theorem tail_of_plain (h : Literals config ending (p :: ps)) (plain : p.isPlain = true) :
    Literals config ending ps := by
  cases h with
  | other _ more => exact more
  | closed => cases plain
  | unclosed => cases plain

theorem join (code : ∀ l ∈ p.own, l.isLiteral = false) (more : Literals config ending ps) :
    Literals config ending (Piece.join p ps) := by
  cases ps with
  | nil => exact .other code .nil
  | cons q qs =>
    rw [Piece.join]
    split
    · next both => exact .other (by simp) (more.tail_of_plain (by simp_all))
    · exact .other code more

/-- Joining plain pieces leaves literals as they are. -/
theorem joinPlain (h : Literals config ending ps) : Literals config ending (Piece.joinPlain ps) := by
  induction h with
  | nil => exact .nil
  | other code _ ih => exact ih.join code
  | closed inside _ ih =>
    rw [Piece.joinPlain_cons, Piece.join_of_labelled rfl, Piece.joinPlain_tokens inside.isPlain,
      Piece.joinPlain_cons, Piece.join_of_labelled rfl]
    exact .closed inside ih
  | unclosed inside =>
    rw [Piece.joinPlain_cons, Piece.join_of_labelled rfl, Piece.joinPlain_tokens inside.isPlain,
      Piece.joinPlain_ofText]
    exact .unclosed inside

end Literals

section Lines

variable {lexer lexer₁ lexer₂ : Lexer}

/-- The pieces of a text with what is left over behind them. -/
theorem literals_cutBefore (lexer : Lexer) (ending : Text) (assigned : Bool) (here : LineState)
    (t : Text) : Literals lexer.config ending (cutBefore lexer ending assigned here t) := by
  induction assigned, here, t using cut_induction lexer with
  | nil assigned here => exact cutBefore_nil ▸ .leftover ..
  | step assigned here t s nonempty taken _ ih =>
    rw [cutBefore_eq nonempty taken]
    rcases Step.take_cases taken with ⟨rule, applies⟩ | ⟨_, rfl⟩
    · by_cases literal : rule = .string
      · subst literal
        exact .string applies (fun _ => cutBefore_nil) ih
      · exact .tokens (fun p => (Rule.ordinary_step? literal applies).code) ih
    · exact .other nofun ih

/-- Two lexers with the same clusters cut a text alike but for the flags. -/
theorem cut_config (same : lexer₁.clusters = lexer₂.clusters) (ending : Text) (assigned : Bool)
    (here : LineState) (t : Text) :
    (cut lexer₁ assigned here t).2 = (cut lexer₂ assigned here t).2 ∧
      Piece.unflagged (cutBefore lexer₁ ending assigned here t) =
        Piece.unflagged (cutBefore lexer₂ ending assigned here t) := by
  induction assigned, here, t using cut_induction lexer₁ with
  | nil assigned here => simp [cutBefore_nil]
  | step assigned here t s nonempty taken _ ih =>
    have second : ∃ s₂, s₂ = Step.take lexer₂ assigned here t := ⟨_, rfl⟩
    obtain ⟨s₂, taken₂⟩ := second
    obtain ⟨state, pieces⟩ := ih
    rw [cut_eq nonempty, cut_eq nonempty, cutBefore_eq nonempty taken, cutBefore_eq nonempty taken₂,
      ← taken, ← taken₂]
    rcases Step.take_config same assigned here t with equal | literal
    · rw [← taken, ← taken₂] at equal
      rw [← equal]
      exact ⟨state, Piece.unflagged_append_congr _ pieces⟩
    · rw [← taken, ← taken₂] at literal
      obtain ⟨after, rest⟩ := literal.same_end
      rw [Rule.assigns_string? literal.1, after, rest] at state pieces
      simp only [Rule.assigns_string? literal.1, Rule.assigns_string? literal.2, after, rest]
      exact ⟨state, literal.unflagged pieces⟩

/-- Two lexers with the same clusters read a line alike but for the flags: they leave the same
state, and the same lexemes once flags are taken off and the parts of each body are put together.
And each flags exactly the illegal characters of its configuration in every literal, each alone,
and keeps together what stands between them. -/
theorem tokenizeLine_config (same : lexer₁.clusters = lexer₂.clusters) (line : Text)
    (before : LineState) :
    let first := lexer₁.tokenizeLine line before
    let second := lexer₂.tokenizeLine line before
    first.state = second.state ∧
      Lexeme.mergeBodies (first.lexemes.map Lexeme.unflag) =
        Lexeme.mergeBodies (second.lexemes.map Lexeme.unflag) ∧
      Literals lexer₁.config (Text.terminator line) (first.lexemes.map Lexeme.toPiece) ∧
      Literals lexer₂.config (Text.terminator line) (second.lexemes.map Lexeme.toPiece) := by
  intro first second
  obtain ⟨state, pieces⟩ := cut_config same (Text.terminator line) false before
    (Text.stripTerminator line)
  have literals : ∀ lexer : Lexer, Literals lexer.config (Text.terminator line)
      ((lexer.tokenizeLine line before).lexemes.map Lexeme.toPiece) := fun lexer => by
    rw [toPiece_tokenizeLine]
    exact (literals_cutBefore lexer _ false before _).joinPlain
  refine ⟨state, ?_, literals lexer₁, literals lexer₂⟩
  have unflagged : ∀ lexer : Lexer,
      Lexeme.mergeBodies ((lexer.tokenizeLine line before).lexemes.map Lexeme.unflag) =
        Lexeme.place 0 (Piece.joinPlain (Piece.unflagged (linePieces lexer line before))) := by
    intro lexer
    rw [tokenizeLine_eq, Lexeme.map_unflag_place, Lexeme.mergeBodies_place,
      Piece.joinPlain_eq_merge, Piece.map_unflag_merge, Piece.merge_comm (by simp),
      Piece.joinPlain_eq_merge]
    rfl
  rw [unflagged, unflagged]
  exact congrArg (fun ps => Lexeme.place 0 (Piece.joinPlain ps)) pieces

/-- A literal with a tab in it, read by a lexer that flags tabs and by one that flags stars. -/
theorem tokenizeLine_config_tab_or_star :
    let tabs : Lexer := ⟨{}, by decide, .prepending⟩
    let stars : Lexer := ⟨⟨['*']⟩, by decide, .prepending⟩
    let line := "x = \"a\tb**\";".toList
    (tabs.clusters = stars.clusters ∧
      (tabs.tokenizeLine line .initial).lexemes ≠ (stars.tokenizeLine line .initial).lexemes) ∧
      (tabs.tokenizeLine line .initial).state = (stars.tokenizeLine line .initial).state ∧
      Lexeme.mergeBodies ((tabs.tokenizeLine line .initial).lexemes.map Lexeme.unflag) =
        Lexeme.mergeBodies ((stars.tokenizeLine line .initial).lexemes.map Lexeme.unflag) := by
  intro tabs stars line
  have same : tabs.clusters = stars.clusters := rfl
  obtain ⟨state, unflagged, _⟩ := tokenizeLine_config same line .initial
  exact ⟨⟨same, by decide +kernel⟩, state, unflagged⟩

end Lines

end StanHighlight

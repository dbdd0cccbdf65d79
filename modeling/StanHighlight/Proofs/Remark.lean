import StanHighlight.Proofs.Join

/-!
The inside of a block comment. What stands there is plain text, but for tags in documentation, and
nothing in it ends the comment: the first `*/` is found by stepping over clusters and tags, none of
which can hold the start of it.
-/

namespace StanHighlight

namespace Text

variable {rest : Text}

theorem word_append_of_word_eq_nil (h : word rest = []) (t : Text) : word (t ++ rest) = word t := by
  induction t with
  | nil => exact h
  | cons c t ih =>
    rw [List.cons_append, word, word, List.takeWhile_cons, List.takeWhile_cons]
    split
    · exact congrArg _ ih
    · rfl

theorem afterWord_append_of_word_eq_nil (h : word rest = []) (t : Text) :
    afterWord (t ++ rest) = afterWord t ++ rest := by
  have whole := word_append_afterWord (t ++ rest)
  rw [word_append_of_word_eq_nil h] at whole
  have split := word_append_afterWord t
  have same : word t ++ afterWord (t ++ rest) = word t ++ (afterWord t ++ rest) := by
    rw [whole, ← List.append_assoc, split]
  exact List.append_cancel_left same

theorem word_afterWord (t : Text) : word (afterWord t) = [] := by
  have first := List.head?_dropWhile_not isWordChar t
  cases found : afterWord t with
  | nil => rfl
  | cons c rest =>
    rw [show t.dropWhile isWordChar = c :: rest from found] at first
    exact List.takeWhile_cons_of_neg (by simpa using first)

theorem word_word_append (t : Text) (h : word rest = []) : word (word t ++ rest) = word t := by
  rw [word_append_of_word_eq_nil h, word, word, List.takeWhile_idem]

end Text

/-- What a piece of a comment may be, with the text of the comment that follows it: plain text
that holds no tag, or in documentation a tag, an `@` with all word characters after it. -/
inductive Remark (documentation : Bool) (after : Text) (p : Piece) : Prop
  | plain (own : p.own = []) (untagged : documentation = true →
      ∀ front back, p.text = front ++ '@' :: back → Text.word (back ++ after) = [])
  | tag (described : documentation = true) (own : p.own = [.documentationTag]) {w : Text}
      (text : p.text = '@' :: w) (some_word : w ≠ []) (maximal : Text.word (w ++ after) = w)

inductive Commentary (documentation : Bool) (inside : LineState) (after : Text) : List Piece → Prop
  | nil : Commentary documentation inside after []
  | cons {p : Piece} {ps : List Piece} (around : p.around = inside)
      (remark : Remark documentation (Piece.texts ps ++ after) p)
      (more : Commentary documentation inside after ps) :
      Commentary documentation inside after (p :: ps)

namespace Commentary

variable {documentation : Bool} {inside : LineState} {after : Text} {ps qs : List Piece}

theorem append (h : Commentary documentation inside (Piece.texts qs ++ after) ps)
    (h' : Commentary documentation inside after qs) :
    Commentary documentation inside after (ps ++ qs) := by
  induction h with
  | nil => exact h'
  | @cons p ps around remark _ ih =>
    have same : Piece.texts (ps ++ qs) ++ after = Piece.texts ps ++ (Piece.texts qs ++ after) := by
      rw [Piece.texts_append, List.append_assoc]
    exact .cons around (same ▸ remark) ih

/-- Text without an `@` holds no tag. -/
theorem ofText {t : Text} (clean : '@' ∉ t) :
    Commentary documentation inside after (Piece.ofText t inside []) := by
  unfold Piece.ofText
  split
  · exact .nil
  · refine .cons rfl (.plain rfl fun _ front back text => ?_) .nil
    have mem : '@' ∈ t := by
      rw [show t = front ++ '@' :: back from text]
      simp
    exact absurd mem clean

/-- Plain pieces are joined to plain text that holds no tag either. -/
theorem join {p : Piece} (around : p.around = inside)
    (remark : Remark documentation (Piece.texts ps ++ after) p)
    (h : Commentary documentation inside after ps) :
    Commentary documentation inside after (Piece.join p ps) := by
  cases h with
  | nil => exact .cons around remark .nil
  | @cons q qs same next more =>
    rw [Piece.join]
    split
    · next both =>
      obtain ⟨first, second⟩ : p.isPlain = true ∧ q.isPlain = true := by simpa using both
      cases remark with
      | tag _ own => simp [Piece.isPlain, own] at first
      | plain _ untagged =>
        cases next with
        | tag _ own => simp [Piece.isPlain, own] at second
        | plain _ untagged' =>
          refine .cons around (.plain rfl fun described front back text => ?_) more
          -- An `@` of the joined text stands in the first part or in the second.
          rcases List.append_eq_append_iff.1 text with ⟨middle, rfl, inner⟩ | ⟨middle, inner, rest⟩
          · exact untagged' described middle back inner
          · cases middle with
            | nil => exact untagged' described [] back (by simpa using rest.symm)
            | cons c middle =>
              obtain ⟨rfl, rfl⟩ := List.cons.inj rest
              change Text.word (middle ++ q.text ++ (Piece.texts qs ++ after)) = []
              rw [List.append_assoc, ← List.append_assoc q.text]
              exact untagged described front middle inner
    · exact .cons around remark (.cons same next more)

theorem joinPlain (h : Commentary documentation inside after ps) :
    Commentary documentation inside after (Piece.joinPlain ps) := by
  induction h with
  | nil => exact .nil
  | cons around remark _ ih =>
    rw [Piece.joinPlain_cons]
    refine join around ?_ ih
    rwa [Piece.texts_joinPlain]

end Commentary

/-- Text that a comment may hold: it does not hold the end of one, nor a mark that is prepended to
the character after it. -/
structure Comment.Body (body : Text) : Prop where
  endless : ¬['*', '/'] <:+: body
  unmarked : ∀ c ∈ body, Segmentation.isPrepended c = false

namespace Comment

variable {body part rest : Text}

theorem Body.of_infix (h : Comment.Body body) (inner : part <:+: body) : Comment.Body part where
  endless inside := h.endless (inside.trans inner)
  unmarked c mem := h.unmarked c (inner.subset mem)

/-- Text of a comment cannot run into the end of it. -/
theorem not_end (endless : ¬['*', '/'] <:+: body) (some_text : body ≠ [])
    (edge : ∀ c ∈ rest.head?, c = '*') (after : Text) : body ++ rest ≠ '*' :: '/' :: after := by
  intro whole
  match body with
  | [] => exact some_text rfl
  | [c] =>
    obtain ⟨_, second⟩ := List.cons.inj whole
    exact absurd (edge '/' (by simp [show rest = '/' :: after from second])) (by decide)
  | c :: d :: body =>
    obtain ⟨rfl, second⟩ := List.cons.inj whole
    obtain ⟨rfl, _⟩ := List.cons.inj second
    exact endless ⟨[], body, rfl⟩

/-- A cluster of a comment's text ends before the end of the comment, unless the text ends in a
mark that is prepended to it. -/
theorem first_le {g : Segmentation} (marks : g.PartsAtMarks)
    (unmarked : ∀ c ∈ body.getLast?, Segmentation.isPrepended c = false)
    (some_text : body ≠ []) (edge : ∀ c ∈ rest.head?, c = '*') :
    g.first (body ++ rest) ≤ body.length := by
  cases rest with
  | nil =>
    rw [List.append_nil]
    exact g.first_le_length body
  | cons d rest =>
    obtain rfl : d = '*' := edge d rfl
    refine Nat.le_of_not_lt fun beyond => ?_
    obtain ⟨before, c, after, last, split⟩ :=
      Segmentation.exists_cluster_of_lt_first some_text beyond
    have marked := marks _ _ _ _ _ split (by decide) (by decide)
    rw [unmarked c last] at marked
    cases marked

end Comment

/-- A cluster that ends in the front of a text is skipped there. -/
theorem Step.skip_append {g : Segmentation} {here : LineState} {front rest : Text}
    (some_text : front ≠ []) (within : g.first (front ++ rest) ≤ front.length) :
    ∃ c more, Step.skip g here (front ++ rest) = ⟨[⟨c, here, []⟩], here, more ++ rest⟩ ∧
      front = c ++ more ∧ c ≠ [] ∧ g.cluster (front ++ rest) = c := by
  have cluster : g.cluster (front ++ rest) = front.take (g.first (front ++ rest)) :=
    List.take_append_of_le_length within
  have visible := g.cluster_ne_nil (List.append_ne_nil_of_left_ne_nil some_text rest)
  refine ⟨_, front.drop (g.first (front ++ rest)), ?_, ?_, visible, rfl⟩
  · rw [Step.skip, List.drop_append_of_le_length within]
  · rw [cluster, List.take_append_drop]

section Inside

variable {lexer : Lexer} {assigned documentation : Bool} {s : LineState} {body rest : Text}

theorem take_in_comment (t : Text) :
    Step.take lexer assigned (s.enter (.blockComment documentation)) t =
      ((Rule.blockCommentEnd? (s.enter (.blockComment documentation)) t).or
        (Rule.documentationTag? (s.enter (.blockComment documentation)) t)).getD
        (Step.skip lexer.clusters (s.enter (.blockComment documentation)) t) := by
  simp only [Step.take, LineState.innermost_enter, Region.rules, Rule.blockComment,
    List.findSome?_cons, List.findSome?_nil, Rule.step?]
  cases Rule.blockCommentEnd? (s.enter (.blockComment documentation)) t with
  | some s => rfl
  | none => cases Rule.documentationTag? (s.enter (.blockComment documentation)) t <;> rfl

/-- No end of a comment is seen in front of its text. -/
theorem blockCommentEnd?_eq_none (endless : ¬['*', '/'] <:+: body) (some_text : body ≠ [])
    (edge : ∀ c ∈ rest.head?, c = '*') : Rule.blockCommentEnd? s (body ++ rest) = none := by
  unfold Rule.blockCommentEnd?
  split
  · next after whole => exact absurd whole (Comment.not_end endless some_text edge after)
  · rfl

theorem word_eq_nil_of_edge (edge : ∀ c ∈ rest.head?, c = '*') : Text.word rest = [] := by
  cases rest with
  | nil => rfl
  | cons c rest => rw [edge c rfl]; rfl

/-- A tag is cut with all its word characters. -/
theorem take_tag {step : Step} (some_text : body ≠ []) (edge : ∀ c ∈ rest.head?, c = '*')
    (tagged : Rule.documentationTag? (s.enter (.blockComment documentation)) (body ++ rest) =
      some step) :
    ∃ p more, step = ⟨[p], s.enter (.blockComment documentation), more ++ rest⟩ ∧
      body = p.text ++ more ∧ p.text ≠ [] ∧ p.around = s.enter (.blockComment documentation) ∧
      ∀ after, Text.word after = [] → Remark documentation (more ++ after) p := by
  have stop := word_eq_nil_of_edge edge
  obtain ⟨c, body, rfl⟩ := List.exists_cons_of_ne_nil some_text
  rw [List.cons_append] at tagged
  unfold Rule.documentationTag? at tagged
  split at tagged
  · next t whole =>
    obtain ⟨rfl, rfl⟩ := List.cons.inj whole
    split at tagged
    · next tag =>
      obtain ⟨described, some_word⟩ := tag
      obtain rfl : documentation = true := by simpa using described
      rw [Text.word_append_of_word_eq_nil stop] at some_word tagged
      rw [Text.afterWord_append_of_word_eq_nil stop] at tagged
      cases tagged
      refine ⟨_, _, rfl, by simp, by simp, rfl, fun after ends => ?_⟩
      refine .tag rfl rfl rfl some_word (Text.word_word_append body ?_)
      rw [Text.word_append_of_word_eq_nil ends, Text.word_afterWord]
    · cases tagged
  · cases tagged

/-- Where no tag starts, a cluster is skipped, and none starts in the rest of the cluster. -/
theorem skip_in_body (marks : lexer.clusters.PartsAtMarks) (h : Comment.Body body)
    (some_text : body ≠ []) (edge : ∀ c ∈ rest.head?, c = '*')
    (untagged : Rule.documentationTag? (s.enter (.blockComment documentation)) (body ++ rest) =
      none) :
    ∃ p more, Step.skip lexer.clusters (s.enter (.blockComment documentation)) (body ++ rest) =
        ⟨[p], s.enter (.blockComment documentation), more ++ rest⟩ ∧
      body = p.text ++ more ∧ p.text ≠ [] ∧ p.around = s.enter (.blockComment documentation) ∧
      ∀ after, Text.word after = [] → Remark documentation (more ++ after) p := by
  have stop := word_eq_nil_of_edge edge
  have within := Comment.first_le marks (fun c last => h.unmarked c (List.mem_of_getLast? last))
    some_text edge
  obtain ⟨t, more, skipped, split, visible, cluster⟩ := Step.skip_append some_text within
  refine ⟨⟨t, _, []⟩, more, skipped, split, visible, rfl,
    fun after ends => .plain rfl fun described front back text => ?_⟩
  subst described
  change t = front ++ '@' :: back at text
  have whole : body = front ++ '@' :: (back ++ more) := by
    rw [split, text, List.append_assoc, List.cons_append]
  rcases List.eq_nil_or_concat front with rfl | ⟨before, c, rfl⟩
  · -- A tag starts here unless no word follows.
    rw [← List.append_assoc, Text.word_append_of_word_eq_nil ends]
    by_contra some_word
    rw [whole, List.nil_append, List.cons_append] at untagged
    have tag : Text.word (back ++ more ++ rest) ≠ [] := by
      rwa [Text.word_append_of_word_eq_nil stop]
    rw [Rule.documentationTag?, if_pos ⟨rfl, tag⟩] at untagged
    cases untagged
  · -- Only a prepended mark stands in front of an `@` in its cluster.
    have mem : c ∈ body := by rw [whole]; simp
    have marked := marks (body ++ rest) before back c '@'
      (by rw [cluster, text, List.concat_eq_append, List.append_assoc]; rfl) (by decide) (by decide)
    rw [h.unmarked c mem] at marked
    cases marked

/-- A step in the text of a comment takes a piece of this text and stays in the comment. -/
theorem take_in_body (documentation assigned : Bool) (s : LineState)
    (marks : lexer.clusters.PartsAtMarks) (h : Comment.Body body) (some_text : body ≠ [])
    (edge : ∀ c ∈ rest.head?, c = '*') :
    ∃ p more, Step.take lexer assigned (s.enter (.blockComment documentation)) (body ++ rest) =
        ⟨[p], s.enter (.blockComment documentation), more ++ rest⟩ ∧
      body = p.text ++ more ∧ p.text ≠ [] ∧ p.around = s.enter (.blockComment documentation) ∧
      ∀ after, Text.word after = [] → Remark documentation (more ++ after) p := by
  rw [take_in_comment, blockCommentEnd?_eq_none h.endless some_text edge, Option.none_or]
  cases tagged : Rule.documentationTag? (s.enter (.blockComment documentation)) (body ++ rest) with
  | some step => exact take_tag some_text edge tagged
  | none => exact skip_in_body marks h some_text edge tagged

/-- The text of a comment is cut into remarks, and what follows it is read on in the comment. -/
theorem cut_in_comment (documentation assigned : Bool) (s : LineState) (rest : Text)
    (marks : lexer.clusters.PartsAtMarks) {body : Text} (h : Comment.Body body)
    (edge : ∀ c ∈ rest.head?, c = '*') :
    ∃ ps latest, cut lexer assigned (s.enter (.blockComment documentation)) (body ++ rest) =
        (ps ++ (cut lexer latest (s.enter (.blockComment documentation)) rest).1,
          (cut lexer latest (s.enter (.blockComment documentation)) rest).2) ∧
      Piece.texts ps = body ∧ ∀ after, Text.word after = [] →
        Commentary documentation (s.enter (.blockComment documentation)) after ps := by
  by_cases some_text : body = []
  · subst some_text
    exact ⟨[], assigned, rfl, rfl, fun _ _ => .nil⟩
  · obtain ⟨p, more, taken, whole, visible, around, remark⟩ :=
      take_in_body documentation assigned s marks h some_text edge
    have shorter : more.length < body.length := by
      have := List.length_pos_iff.2 visible
      rw [whole, List.length_append]
      omega
    have later : Comment.Body more := h.of_infix ⟨p.text, [], by simp [← whole]⟩
    obtain ⟨ps, latest, rest_cut, texts, commentary⟩ :=
      cut_in_comment documentation _ s rest marks later edge
    refine ⟨p :: ps, latest, ?_, ?_, fun after ends => ?_⟩
    · rw [cut_eq (List.append_ne_nil_of_left_ne_nil some_text rest), taken]
      dsimp only
      rw [rest_cut]
      rfl
    · rw [Piece.texts_cons, texts, ← whole]
    · refine .cons around ?_ (commentary after ends)
      rw [texts]
      exact remark after ends
termination_by body.length

end Inside

end StanHighlight

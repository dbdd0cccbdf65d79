import StanHighlight.Proofs.Layout
import StanHighlight.Proofs.Start

/-!
What reading tokens does to the state, whatever their layout. Some tokens lead from one
state to another; statements about them are put together token by token. Others keep a
region: they may open regions and close them again, and may leave fewer `?` to wait, but
the region is the same one before and after.
-/

namespace StanHighlight

variable {lexer : Lexer} {here there : LineState}

/-- An ASCII character in front of a token is a cluster of its own. -/
theorem Clean.first_eq_one {g : Segmentation} (parts : g.PartsAscii) {w : Text} (h : Clean w)
    {c : Char} (hc : c.toNat < 128) (t : Text) : g.first (c :: (w ++ t)) = 1 := by
  obtain ⟨d, w, rfl⟩ := List.exists_cons_of_ne_nil h.visible
  refine Segmentation.first_eq_one parts hc fun e mem => ?_
  obtain rfl : d = e := Option.some.inj mem
  refine ⟨by simpa using h.ascii, ?_⟩
  rintro rfl
  exact h.newline List.mem_cons_self

namespace Place

variable (lexer) (here) (assigned : Bool)

theorem reaches_take {t : Text} (ahead : List Text) (h : t ≠ []) :
    Reaches lexer ⟨assigned, here, ⟨t, ahead⟩⟩
      ⟨(Step.take lexer assigned here t).assigns assigned,
        (Step.take lexer assigned here t).after, ⟨(Step.take lexer assigned here t).rest, ahead⟩⟩ := by
  apply Reaches.step
  cases t with
  | nil => exact absurd rfl h
  | cons c t => rfl

theorem reaches_space (parts : lexer.clusters.PartsAscii) {w : Text} (h : Clean w) (t : Text)
    (ahead : List Text) : Reaches lexer ⟨assigned, here, ⟨' ' :: (w ++ t), ahead⟩⟩
      ⟨assigned, here, ⟨w ++ t, ahead⟩⟩ := by
  have step := reaches_take lexer here assigned ahead (List.cons_ne_nil ' ' (w ++ t))
  have alone := h.first_eq_one parts (by decide : ' '.toNat < 128) t
  rwa [Step.take_of_isSpace (by decide), Step.skip_eq_single alone] at step

theorem reaches_line (line : Text) (ahead : List Text) :
    Reaches lexer ⟨assigned, here, ⟨[], line :: ahead⟩⟩ ⟨false, here, ⟨line, ahead⟩⟩ :=
  .step rfl

/-- The gap in front of a token changes nothing. -/
theorem reaches_gap (parts : lexer.clusters.PartsAscii) (g : Gap) {w : Text} (h : Clean w)
    (laid : Layout) (r : Remaining) :
    ∃ later, Reaches lexer ⟨assigned, here, Layout.before ((g, w) :: laid) r⟩
      ⟨later, here, ⟨w ++ (laid.before r).line, (laid.before r).ahead⟩⟩ := by
  rw [Layout.before]
  split
  · exact ⟨false, reaches_line lexer here assigned _ _⟩
  · exact ⟨assigned, reaches_space lexer here assigned parts h _ _⟩

end Place

/-- Reading tokens in a state leads to a state with a property, whatever their layout and
whatever is left after them, if the clusters keep ASCII characters apart. -/
structure Leads (lexer : Lexer) (here : LineState) (ts : List Text) (Q : LineState → Prop) :
    Prop where
  clean : lexer.clusters.PartsAscii → ∀ w ∈ ts, Clean w
  runs : lexer.clusters.PartsAscii → ∀ laid : Layout, laid.tokens = ts →
    ∀ assigned (r : Remaining), Parted r.line → ∃ later there, Q there ∧
      Place.Reaches lexer ⟨assigned, here, laid.before r⟩ ⟨later, there, r⟩

namespace Leads

variable {ts us : List Text} {w : Text} {Q R : LineState → Prop}

theorem of_parts (h : lexer.clusters.PartsAscii → Leads lexer here ts Q) :
    Leads lexer here ts Q where
  clean := fun parts => (h parts).clean parts
  runs := fun parts => (h parts).runs parts

theorem nil (h : Q here) : Leads lexer here [] Q where
  clean := by simp
  runs := by
    intro parts laid tokens assigned r _
    obtain rfl := List.map_eq_nil_iff.1 tokens
    exact ⟨assigned, here, h, .refl _⟩

theorem weaken (h : Leads lexer here ts Q) (weaker : ∀ there, Q there → R there) :
    Leads lexer here ts R where
  clean := h.clean
  runs := by
    intro parts laid tokens assigned r parted
    obtain ⟨later, there, hQ, run⟩ := h.runs parts laid tokens assigned r parted
    exact ⟨later, there, weaker there hQ, run⟩

theorem append (h : Leads lexer here ts Q) (h' : ∀ there, Q there → Leads lexer there us R) :
    Leads lexer here (ts ++ us) R where
  clean := by
    intro parts w mem
    rcases List.mem_append.1 mem with mem | mem
    · exact h.clean parts w mem
    -- The tokens behind are clean in a state that those in front lead to, and there is one.
    · obtain ⟨_, there, hQ, _⟩ :=
        h.runs parts (Layout.spaced ts) (Layout.tokens_spaced ts) false ⟨[], []⟩ (.inl rfl)
      exact (h' there hQ).clean parts w mem
  runs := by
    intro parts laid tokens assigned r parted
    obtain ⟨first, later, rfl, hfirst, hlater⟩ := Layout.tokens_eq_append tokens
    obtain ⟨mid, between, hQ, run⟩ :=
      h.runs parts first hfirst assigned (later.before r) (Layout.parted_before parted)
    obtain ⟨last, there, hR, run'⟩ := (h' between hQ).runs parts later hlater mid r parted
    exact ⟨last, there, hR, by rw [Layout.before_append]; exact run.trans run'⟩

theorem cons (h : Leads lexer here [w] Q) (h' : ∀ there, Q there → Leads lexer there us R) :
    Leads lexer here (w :: us) R :=
  h.append h'

/-- A token that is read in one step if the rest of its line has a property, which the tokens
after it give it in every layout. -/
theorem cons_of_line {L : Text → Prop} (clean : Clean w)
    (h : ∀ assigned rest, Parted rest → L rest →
      (Step.take lexer assigned here (w ++ rest)).rest = rest ∧
        Q (Step.take lexer assigned here (w ++ rest)).after)
    (line : ∀ (laid : Layout) (r : Remaining), laid.tokens = us → Parted r.line →
      L (laid.before r).line)
    (h' : ∀ there, Q there → Leads lexer there us R) : Leads lexer here (w :: us) R where
  clean := by
    intro parts x mem
    rcases List.mem_cons.1 mem with rfl | mem
    · exact clean
    · have spaced := Layout.tokens_spaced us
      have hQ := (h false _ (Layout.parted_before (.inl rfl))
        (line (Layout.spaced us) ⟨[], []⟩ spaced (.inl rfl))).2
      exact (h' _ hQ).clean parts x mem
  runs := by
    intro parts laid tokens assigned r parted
    obtain ⟨g, laid, rfl, rest⟩ := Layout.tokens_eq_cons tokens
    obtain ⟨mid, gap⟩ := Place.reaches_gap lexer here assigned parts g clean laid r
    have some_char : w ++ (Layout.before laid r).line ≠ [] := by simp [clean.visible]
    have step := Place.reaches_take lexer here mid (Layout.before laid r).ahead some_char
    obtain ⟨same, hQ⟩ := h mid (Layout.before laid r).line (Layout.parted_before parted)
      (line laid r rest parted)
    rw [same] at step
    obtain ⟨last, there, hR, run⟩ := (h' _ hQ).runs parts laid rest _ r parted
    exact ⟨last, there, hR, gap.trans (step.trans run)⟩

/-- A token that is read in one step. -/
theorem token (clean : Clean w)
    (h : ∀ assigned rest, Parted rest → (Step.take lexer assigned here (w ++ rest)).rest = rest ∧
      Q (Step.take lexer assigned here (w ++ rest)).after) : Leads lexer here [w] Q := by
  exact cons_of_line (L := fun _ => True) clean (fun a rest parted _ => h a rest parted)
    (fun _ _ _ _ => trivial) fun there hQ => .nil hQ

/-- Tokens that are read together on one line. Where the line breaks between them the first is
read alone, and the line goes on with some of the others. -/
theorem group (clean : ∀ x ∈ w :: us, Clean x)
    (joined : ∀ assigned rest ahead, Parted rest → ∃ later there, Q there ∧
      Place.Reaches lexer ⟨assigned, here, ⟨w ++ (Layout.inline us ++ rest), ahead⟩⟩
        ⟨later, there, ⟨rest, ahead⟩⟩)
    (apart : ∀ assigned vs x xs, us = vs ++ x :: xs →
      (Step.take lexer assigned here (w ++ Layout.inline vs)).rest = Layout.inline vs ∧
        Leads lexer (Step.take lexer assigned here (w ++ Layout.inline vs)).after us Q) :
    Leads lexer here (w :: us) Q where
  clean := fun _ => clean
  runs := by
    intro parts laid tokens assigned r parted
    obtain ⟨g, more, rfl, others⟩ := Layout.tokens_eq_cons tokens
    have first := clean w List.mem_cons_self
    obtain ⟨mid, gap⟩ := Place.reaches_gap lexer here assigned parts g first more r
    rcases Layout.before_cases more r with same | ⟨vs, x, xs, split, line⟩
    · obtain ⟨last, there, hQ, run⟩ := joined mid r.line r.ahead parted
      refine ⟨last, there, hQ, gap.trans ?_⟩
      rw [same, others, Layout.before_spaced]
      exact run
    · rw [others] at split
      obtain ⟨spent, later⟩ := apart mid vs x xs split
      have visible : w ++ (Layout.before more r).line ≠ [] := by
        simp [first.visible]
      have step := Place.reaches_take lexer here mid (Layout.before more r).ahead visible
      rw [← line] at spent later
      rw [spent] at step
      obtain ⟨last, there, hQ, run⟩ := later.runs parts more others _ r parted
      exact ⟨last, there, hQ, gap.trans (step.trans run)⟩

/-- Two tokens that are read together on one line, and one after the other where the line
breaks between them. -/
theorem pair {v : Text} (hw : Clean w) (hv : Clean v)
    (joined : ∀ assigned rest ahead, Parted rest → ∃ later there, Q there ∧
      Place.Reaches lexer ⟨assigned, here, ⟨w ++ ' ' :: (v ++ rest), ahead⟩⟩
        ⟨later, there, ⟨rest, ahead⟩⟩)
    (apart : ∀ assigned, (Step.take lexer assigned here w).rest = [] ∧
      Leads lexer (Step.take lexer assigned here w).after [v] Q) :
    Leads lexer here [w, v] Q := by
  refine .group ?_ ?_ ?_
  · intro x mem
    rcases List.mem_cons.1 mem with rfl | mem
    · exact hw
    · rw [List.mem_singleton.1 mem]
      exact hv
  · intro assigned rest ahead parted
    simpa [Layout.inline] using joined assigned rest ahead parted
  · intro assigned vs x xs split
    have none : vs = [] := by
      have size := congrArg List.length split
      simp only [List.length_append, List.length_cons, List.length_nil] at size
      exact List.length_eq_zero_iff.1 (by omega)
    subst none
    simpa [Layout.inline] using apart assigned

/-- Two tokens that one step reads on one line. -/
theorem pair_of_step {v : Text} (hw : Clean w) (hv : Clean v)
    (joined : ∀ assigned rest, Parted rest →
      (Step.take lexer assigned here (w ++ ' ' :: (v ++ rest))).rest = rest ∧
        Q (Step.take lexer assigned here (w ++ ' ' :: (v ++ rest))).after)
    (apart : ∀ assigned, (Step.take lexer assigned here w).rest = [] ∧
      Leads lexer (Step.take lexer assigned here w).after [v] Q) :
    Leads lexer here [w, v] Q := by
  refine .pair hw hv (fun assigned rest ahead parted => ?_) apart
  obtain ⟨spent, hQ⟩ := joined assigned rest parted
  have some_char : w ++ ' ' :: (v ++ rest) ≠ [] := by simp [hw.visible]
  have step := Place.reaches_take lexer here assigned ahead some_char
  rw [spent] at step
  exact ⟨_, _, hQ, step⟩

end Leads

/-- The same regions are open in two states, and in the second no more `?` of the innermost one
wait than in the first. -/
def Resumes (here there : LineState) : Prop :=
  there.innermost = here.innermost ∧ there.outer = here.outer ∧
    there.inner.ternaries ≤ here.inner.ternaries

namespace Resumes

theorem refl (here : LineState) : Resumes here here := ⟨rfl, rfl, Nat.le_refl _⟩

theorem of_eq (h : there = here) : Resumes here there := h ▸ refl here

theorem trans {s : LineState} (h : Resumes here there) (h' : Resumes there s) : Resumes here s :=
  ⟨h'.1.trans h.1, h'.2.1.trans h.2.1, Nat.le_trans h'.2.2 h.2.2⟩

/-- Where no `?` waits the state is the same. -/
theorem eq (h : Resumes here there) (settled : here.inner.ternaries = 0) : there = here := by
  obtain ⟨⟨r, n⟩, outer⟩ := here
  obtain ⟨⟨r', n'⟩, outer'⟩ := there
  obtain ⟨rfl, rfl, le⟩ := h
  obtain rfl : n = 0 := settled
  obtain rfl : n' = 0 := Nat.le_zero.1 le
  rfl

end Resumes

/-- Reading tokens in a region leads back to it, with no more `?` waiting. -/
def Keeps (lexer : Lexer) (r : Region) (ts : List Text) : Prop :=
  ∀ here : LineState, here.innermost = r → Leads lexer here ts (Resumes here)

namespace Keeps

variable {r : Region} {ts us : List Text}

theorem nil : Keeps lexer r [] := fun here _ => .nil (.refl here)

theorem append (h : Keeps lexer r ts) (h' : Keeps lexer r us) : Keeps lexer r (ts ++ us) := by
  intro here inside
  refine (h here inside).append fun there resumes => ?_
  exact (h' there (resumes.1.trans inside)).weaken fun _ more => resumes.trans more

theorem cons {w : Text} (h : Keeps lexer r [w]) (h' : Keeps lexer r us) :
    Keeps lexer r (w :: us) :=
  h.append h'

/-- Tokens that change nothing are kept. -/
theorem of_leads
    (h : ∀ here : LineState, here.innermost = r → Leads lexer here ts fun there => there = here) :
    Keeps lexer r ts :=
  fun here inside => (h here inside).weaken fun _ same => .of_eq same

/-- Without a `?` that waits the tokens lead to the same state. -/
theorem returns (h : Keeps lexer r ts) (inside : here.innermost = r)
    (settled : here.inner.ternaries = 0) : Leads lexer here ts fun there => there = here :=
  (h here inside).weaken fun _ resumes => resumes.eq settled

end Keeps

end StanHighlight

import Mathlib.Data.List.TakeWhile
import StanHighlight.Proofs.Layout
import StanHighlight.Proofs.Start

/-!
Tokens with any blanks between them. Two tokens may also stand side by side, unless the first one
then runs into the second and another token is read. Blanks are skipped without a label, so the
labelled pieces of such a text are those of its tokens, one after the other.
-/

namespace StanHighlight

namespace Text

/-- Spellings of which the longest one is read: operators and the signs that begin comments. -/
def signs : List Text := Rule.operators.map Prod.fst ++ [['/', '/'], ['/', '*']]

def isNumeral (w : Text) : Bool := (numeral? w).any fun found => found.2.2.isEmpty

/-- Whether the tokenizer reads on past a token because of the text behind it. -/
def runsInto (w rest : Text) : Bool :=
  (w.all isWordChar || isNumeral w) && rest.head?.any isWordChar ||
    w.all Char.isDigit && rest.head? == some '.' ||
    signs.any fun sign => w.length < sign.length && sign.isPrefixOf (w ++ rest)

/-- Whether a text consists of tokens and blanks around them, where no token runs into the next. -/
def spells : List Text → Text → Bool
  | [], t => (trimStart t).isEmpty
  | w :: ts, t =>
    match (trimStart t).after? w with
    | none => false
    | some rest => !runsInto w rest && spells ts rest

variable {w v t rest : Text} {ts : List Text}

theorem spells_nil_iff : spells [] t = true ↔ trimStart t = [] := List.isEmpty_iff

theorem spells_cons_iff : spells (w :: ts) t = true ↔
    ∃ rest, trimStart t = w ++ rest ∧ runsInto w rest = false ∧ spells ts rest = true := by
  rw [spells]
  constructor
  · intro h
    split at h
    · cases h
    · next rest found =>
      simp only [Bool.and_eq_true, Bool.not_eq_true'] at h
      exact ⟨rest, after?_eq_some_iff.1 found, h⟩
  · rintro ⟨rest, visible, ends, more⟩
    simp [visible, ends, more]

/-- A longer sign does not begin where a token does that runs into nothing. -/
theorem length_le_of_runsInto {sign : Text} (mem : sign ∈ signs) (ends : runsInto w rest = false)
    (front : sign <+: w ++ rest) : sign.length ≤ w.length := by
  simp only [runsInto, Bool.or_eq_false_iff, List.any_eq_false] at ends
  have none := ends.2 sign mem
  simp only [Bool.and_eq_true, decide_eq_true_eq, List.isPrefixOf_iff_prefix, not_and] at none
  exact Nat.le_of_not_lt fun longer => none longer front

/-- Behind a word or a numeral that runs into nothing no word goes on. -/
theorem not_isWordChar_of_runsInto (kind : (w.all isWordChar || isNumeral w) = true)
    (ends : runsInto w rest = false) : ∀ c ∈ rest.head?, isWordChar c = false := by
  intro c first
  simp only [runsInto, kind, Bool.or_eq_false_iff, Option.mem_def.1 first] at ends
  simpa using ends.1.1

theorem ne_point_of_runsInto (ends : runsInto w rest = false) (whole : w.all Char.isDigit = true) :
    rest.head? ≠ some '.' := by
  intro point
  simp [runsInto, whole, point] at ends

/-- What is left behind the blanks of a text begins with a visible character. -/
theorem isSpace_of_trimStart {c : Char} {u : Text} (h : trimStart t = c :: u) :
    isSpace c = false := by
  have first := List.head?_dropWhile_not isSpace t
  rw [← trimStart, h] at first
  simpa using first

end Text

/-- A token runs into nothing that a blank parts from it. -/
theorem Parted.runsInto {rest : Text} (h : Parted rest) (w : Text) :
    Text.runsInto w rest = false := by
  have first : ∀ c ∈ rest.head?, c = ' ' := by
    rcases h with rfl | ⟨rest, rfl⟩
    · exact nofun
    · rintro c ⟨⟩
      rfl
  have visible : ∀ sign ∈ Text.signs, ' ' ∉ sign := by decide
  simp only [Text.runsInto, Bool.or_eq_false_iff, Bool.and_eq_false_iff, List.any_eq_false]
  refine ⟨⟨.inr ?_, .inr ?_⟩, fun sign mem longer => ?_⟩
  · cases start : rest.head? with
    | none => rfl
    | some c =>
      rw [first c start]
      decide
  · rw [beq_eq_false_iff_ne]
    intro point
    exact absurd (first '.' point) (by decide)
  · simp only [Bool.and_eq_true, decide_eq_true_eq, List.isPrefixOf_iff_prefix] at longer
    obtain ⟨short, front⟩ := longer
    obtain ⟨more, rfl⟩ := List.prefix_of_prefix_length_le (List.prefix_append w rest) front
      (Nat.le_of_lt short)
    rw [List.prefix_append_right_inj] at front
    cases more with
    | nil => simp at short
    | cons c more =>
      obtain ⟨behind, rfl⟩ := front
      rw [first c rfl] at mem
      exact visible _ mem (by simp)

/-- A cluster that begins with a blank ends in front of the first visible character, if that is one
of ASCII. -/
theorem Segmentation.trimStart_drop {g : Segmentation} (parts : g.PartsAscii) {c : Char} {t : Text}
    (blank : Text.isSpace c = true) (ascii : ∀ d ∈ (Text.trimStart (c :: t)).head?, d.toNat < 128) :
    Text.trimStart ((c :: t).drop (g.first (c :: t))) = Text.trimStart (c :: t) := by
  cases visible : Text.trimStart (c :: t) with
  | nil =>
    have blanks := List.dropWhile_eq_nil_iff.1 visible
    exact List.dropWhile_eq_nil_iff.2 fun d mem => blanks d (List.mem_of_mem_drop mem)
  | cons d rest =>
    have gap : Text.gap (c :: t) ≠ [] := by simp [Text.gap, blank]
    have feed : d ≠ '\n' := by
      rintro rfl
      exact absurd (Text.isSpace_of_trimStart visible) (by decide)
    exact trimStart_drop_first parts gap visible (ascii d (by rw [visible]; rfl)) feed

def Piece.labelled (ps : List Piece) : List Piece := ps.filter fun p => !p.isPlain

@[simp] theorem Piece.labelled_append (ps qs : List Piece) :
    labelled (ps ++ qs) = labelled ps ++ labelled qs :=
  List.filter_append ps qs

/-- Cutting a text comes to what is left of it, in a state and with some pieces. -/
def ComesTo (lexer : Lexer) (assigned : Bool) (here : LineState) (t : Text) (ps : List Piece)
    (later : Bool) (there : LineState) (rest : Text) : Prop :=
  cut lexer assigned here t =
    (ps ++ (cut lexer later there rest).1, (cut lexer later there rest).2)

namespace ComesTo

variable {lexer : Lexer} {assigned later last : Bool} {here there onward : LineState}
  {t u rest : Text} {ps qs : List Piece}

theorem refl (lexer : Lexer) (assigned : Bool) (here : LineState) (t : Text) :
    ComesTo lexer assigned here t [] assigned here t := rfl

theorem trans (h : ComesTo lexer assigned here t ps later there u)
    (h' : ComesTo lexer later there u qs last onward rest) :
    ComesTo lexer assigned here t (ps ++ qs) last onward rest := by
  unfold ComesTo at h h' ⊢
  rw [h, h', List.append_assoc]

theorem step {s : Step} (some_text : t ≠ []) (taken : Step.take lexer assigned here t = s) :
    ComesTo lexer assigned here t s.pieces (s.assigns assigned) s.after s.rest := by
  unfold ComesTo
  rw [cut_eq some_text, taken]

/-- Blanks are skipped, in front of a token or at the end, as plain text in one state. -/
theorem blanks (parts : lexer.clusters.PartsAscii) (assigned : Bool) (here : LineState)
    (t : Text) (ascii : ∀ c ∈ (Text.trimStart t).head?, c.toNat < 128) :
    ∃ ps : List Piece, (∀ p ∈ ps, p.isPlain = true ∧ p.around = here) ∧
      ComesTo lexer assigned here t ps assigned here (Text.trimStart t) := by
  match t with
  | [] => exact ⟨[], by simp, refl lexer assigned here []⟩
  | c :: t =>
    by_cases blank : Text.isSpace c = true
    · have same := Segmentation.trimStart_drop parts blank ascii
      have positive := lexer.clusters.first_pos (c :: t) (List.cons_ne_nil c t)
      have shorter : ((c :: t).drop (lexer.clusters.first (c :: t))).length < (c :: t).length := by
        rw [List.length_drop, List.length_cons]
        omega
      rw [← same] at ascii ⊢
      obtain ⟨ps, plain, more⟩ := blanks parts assigned here _ ascii
      have skipped : Step.take lexer assigned here (c :: t) = _ := Step.take_of_isSpace blank
      refine ⟨_, ?_, (step (List.cons_ne_nil c t) skipped).trans more⟩
      exact List.forall_mem_cons.2 ⟨⟨rfl, rfl⟩, plain⟩
    · rw [Text.trimStart_cons_of_not_isSpace (by simpa using blank)]
      exact ⟨[], by simp, refl lexer assigned here (c :: t)⟩
termination_by t.length

theorem trimStart (parts : lexer.clusters.PartsAscii) (assigned : Bool) (here : LineState)
    (t : Text) (ascii : ∀ c ∈ (Text.trimStart t).head?, c.toNat < 128) :
    ∃ ps, Piece.labelled ps = [] ∧
      ComesTo lexer assigned here t ps assigned here (Text.trimStart t) := by
  obtain ⟨ps, plain, skipped⟩ := blanks parts assigned here t ascii
  refine ⟨ps, ?_, skipped⟩
  rw [Piece.labelled, List.filter_eq_nil_iff]
  intro p mem
  simp [(plain p mem).1]

end ComesTo

/-- Tokens are read in front of certain others, whatever the spacing, and what they are cut into and
the state behind them have a property. -/
def Cuts (lexer : Lexer) (here : LineState) (ts us : List Text)
    (Q : List Piece → LineState → Prop) : Prop :=
  ∀ assigned t, Text.spells (ts ++ us) t = true → ∃ ps later there rest,
    ComesTo lexer assigned here t ps later there rest ∧ Text.spells us rest = true ∧
      Q (Piece.labelled ps) there

namespace Cuts

variable {lexer : Lexer} {here : LineState} {w : Text} {ts us vs : List Text}
  {Q R : List Piece → LineState → Prop}

theorem nil (h : Q [] here) : Cuts lexer here [] us Q :=
  fun assigned t spelled => ⟨[], assigned, here, t, .refl lexer assigned here t, spelled, h⟩

theorem weaken (h : Cuts lexer here ts us Q) (weaker : ∀ ps there, Q ps there → R ps there) :
    Cuts lexer here ts us R := by
  intro assigned t spelled
  obtain ⟨ps, later, there, rest, comes, more, holds⟩ := h assigned t spelled
  exact ⟨ps, later, there, rest, comes, more, weaker _ there holds⟩

theorem append (h : Cuts lexer here ts (us ++ vs) Q)
    (h' : ∀ ps there, Q ps there → Cuts lexer there us vs fun qs last => R (ps ++ qs) last) :
    Cuts lexer here (ts ++ us) vs R := by
  intro assigned t spelled
  rw [List.append_assoc] at spelled
  obtain ⟨ps, later, there, mid, comes, more, first⟩ := h assigned t spelled
  obtain ⟨qs, last, onward, rest, goes, left, second⟩ := h' _ there first later mid more
  refine ⟨ps ++ qs, last, onward, rest, comes.trans goes, left, ?_⟩
  rwa [Piece.labelled_append]

theorem cons (h : Cuts lexer here [w] (us ++ vs) Q)
    (h' : ∀ ps there, Q ps there → Cuts lexer there us vs fun qs last => R (ps ++ qs) last) :
    Cuts lexer here (w :: us) vs R :=
  h.append h'

/-- Only what follows the blanks in front of a token matters. -/
theorem of_visible (parts : lexer.clusters.PartsAscii) (clean : Clean w)
    (h : ∀ assigned rest, Text.runsInto w rest = false → Text.spells (ts ++ us) rest = true →
      ∃ ps later there left, ComesTo lexer assigned here (w ++ rest) ps later there left ∧
        Text.spells us left = true ∧ Q (Piece.labelled ps) there) :
    Cuts lexer here (w :: ts) us Q := by
  intro assigned t spelled
  obtain ⟨rest, visible, ends, more⟩ := Text.spells_cons_iff.1 spelled
  have ascii : ∀ c ∈ (Text.trimStart t).head?, c.toNat < 128 := by
    obtain ⟨d, w, rfl⟩ := List.exists_cons_of_ne_nil clean.visible
    rw [visible]
    rintro c ⟨⟩
    simpa using clean.ascii
  obtain ⟨blanks, plain, first⟩ := ComesTo.trimStart parts assigned here t ascii
  rw [visible] at first
  obtain ⟨ps, later, there, left, comes, spells, holds⟩ := h assigned rest ends more
  refine ⟨blanks ++ ps, later, there, left, first.trans comes, spells, ?_⟩
  rwa [Piece.labelled_append, plain]

/-- A token that is read in one step. -/
theorem token (parts : lexer.clusters.PartsAscii) (clean : Clean w)
    (h : ∀ assigned rest, Text.runsInto w rest = false → Text.spells us rest = true →
      ∃ s, Step.take lexer assigned here (w ++ rest) = s ∧ s.rest = rest ∧
        Q (Piece.labelled s.pieces) s.after) : Cuts lexer here [w] us Q := by
  refine .of_visible parts clean fun assigned rest ends spelled => ?_
  obtain ⟨s, taken, spent, holds⟩ := h assigned rest ends spelled
  have comes := ComesTo.step (by simp [clean.visible]) taken
  rw [spent] at comes
  exact ⟨s.pieces, _, s.after, rest, comes, spelled, holds⟩

/-- A token of one character that starts tokens of one kind first. -/
theorem mark {c : Char} (parts : lexer.clusters.PartsAscii) (rule : Rule)
    (comment : here.innermost.isBlockComment = false)
    (first : ∀ table ∈ Rule.tables, (table.filter fun rule => rule.startsAt c).head? = some rule)
    (clean : Clean [c])
    (h : ∀ assigned rest, Text.runsInto [c] rest = false → ∃ s,
      Rule.step? lexer.config assigned here (c :: rest) rule = some s ∧ s.rest = rest ∧
        Q (Piece.labelled s.pieces) s.after) : Cuts lexer here [[c]] us Q := by
  refine .token parts clean fun assigned rest ends _ => ?_
  obtain ⟨s, applies, spent, holds⟩ := h assigned rest ends
  exact ⟨s, Step.take_mark comment first applies, spent, holds⟩

end Cuts

end StanHighlight

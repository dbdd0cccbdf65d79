import StanHighlight.Proofs.Balance

/-!
Names and the places that are kept for them. Four kinds of region keep a place for one name: a
declaration, the header of a `for` loop, the declaration of a function and a sampling statement.
A name fills such a place, and a place is empty only behind the token that it comes with. So there
are no more names of a kind than such tokens, wherever one stops reading.
-/

namespace StanHighlight

def Label.isNaming : Label → Bool
  | declaredVariable | declaredFunction | loopVariable | distributionCall => true
  | _ => false

theorem Label.isNaming_of_isFree {l : Label} (free : l.isFree = true) : l.isNaming = false := by
  cases l with
  | declaredVariable | declaredFunction | loopVariable | distributionCall => cases free
  | _ => rfl

inductive Slot where
  | declaration | function | loop | distribution
  deriving DecidableEq, Repr

namespace Slot

def all : List Slot := [declaration, function, loop, distribution]

def empty : Slot → Region
  | declaration => .declaration false
  | function => .functionDeclaration false false
  | loop => .control .forLoop true false
  | distribution => .sampling false

/-- The label of the token that an empty place comes with. -/
def source : Slot → Label
  | declaration => .declaredType
  | function => .returnType
  | loop => .begins (.header .forLoop)
  | distribution => .samplingOperator

def naming : Slot → Label
  | declaration => .declaredVariable
  | function => .declaredFunction
  | loop => .loopVariable
  | distribution => .distributionCall

/-- Whether all labels of a piece together are those of a name. The name of a distribution is
known by its two last labels, since its arguments are labelled as part of the call, too. -/
def isNamed (slot : Slot) (scope : List Label) : Bool :=
  match slot with
  | distribution => [.distributionCall, .distributionName].isSuffixOf scope ||
      [.distributionCall, .knownDistribution].isSuffixOf scope
  | declaration | function | loop => scope.contains slot.naming

def isEmpty (slot : Slot) (r : Region) : Bool := r = slot.empty

end Slot

namespace LineState

/-- Nothing stands directly in a call but its arguments. -/
theorem getLast?_labels (s : LineState) : s.labels.getLast? ≠ some .distributionCall := by
  have region : ∀ r : Region, r.labels.getLast? ≠ some .distributionCall := by
    intro r
    unfold Region.labels
    split <;> simp
  rw [labels]
  induction s.frames.reverse with
  | nil => simp
  | cons f fs ih =>
    rw [List.flatMap_cons, List.getLast?_append]
    cases last : (fs.flatMap fun f => f.region.labels).getLast? with
    | none => exact region f.region
    | some l => rwa [last] at ih

end LineState

namespace Region

/-- The labels of names are no region's. -/
theorem notMem_labels {l : Label} (h : l ∈ [Label.declaredVariable, .declaredFunction,
    .loopVariable, .distributionName, .knownDistribution]) (r : Region) : l ∉ r.labels := by
  simp only [List.mem_cons, List.not_mem_nil, or_false] at h
  unfold labels
  rcases h with rfl | rfl | rfl | rfl | rfl <;> split <;> simp

variable {r r' : Region} {own : List Label} {slot : Slot}

/-- A name of a kind fills an empty place of that kind. -/
theorem Names.eq_empty (h : Names r r' own) (naming : slot.naming ∈ own) : r = slot.empty := by
  cases h with
  | distribution known => cases slot <;> cases known <;> first | rfl | simp [Slot.naming] at naming
  | _ => cases slot <;> first | rfl | simp [Slot.naming] at naming

theorem Names.isEmpty (h : Names r r' own) : slot.isEmpty r' = false := by
  cases h <;> cases slot <;> rfl

theorem Heads.isEmpty {e : Enclosure} (h : Heads r r' e) (empty : slot.isEmpty r' = true) :
    slot.source = .begins e := by
  cases h with
  | control kind named => cases slot <;> cases kind <;> cases named <;> first | rfl | cases empty
  | function named => cases slot <;> cases named <;> cases empty

theorem isEmpty_of_bracket? {opens : Char × Enclosure} (h : r.bracket? = some opens) :
    slot.isEmpty r = false := by
  cases slot <;> cases r <;> simp_all [bracket?, Slot.isEmpty, Slot.empty]

theorem eq_source_of_sign? {l : Label} (h : r.sign? = some l) (empty : slot.isEmpty r = true) :
    l = slot.source := by
  obtain rfl : r = slot.empty := by simpa [Slot.isEmpty] using empty
  cases slot <;> cases h <;> rfl

theorem source_notMem_labels (slot : Slot) (r : Region) : slot.source ∉ r.labels := by
  unfold labels
  cases slot <;> split <;> simp [Slot.source]

theorem isNaming_of_sign? {l : Label} (h : r.sign? = some l) : l.isNaming = false := by
  unfold sign? at h
  split at h <;> cases h <;> rfl

end Region

namespace Piece

variable {slot : Slot} {p : Piece}

/-- A label of the piece's own behind that of a call: then the call is the piece's own, too. -/
theorem mem_own_of_suffix {l : Label} (suffix : [.distributionCall, l] <:+ p.scope)
    (own : l ∈ p.own) : .distributionCall ∈ p.own := by
  rcases List.suffix_or_suffix_of_suffix suffix (List.suffix_append p.around.labels p.own) with
    inside | ⟨front, split⟩
  · exact inside.subset List.mem_cons_self
  · rcases front with _ | ⟨call, _ | ⟨last, front⟩⟩
    · rw [List.nil_append] at split
      simp [split]
    · -- Then the labels around the piece would end with the call.
      obtain ⟨rfl, alone⟩ := List.cons.inj split
      obtain ⟨front, whole⟩ := suffix
      have alone : p.own = [l] := alone
      rw [scope, alone, ← List.singleton_append, ← List.append_assoc] at whole
      have labels := (List.append_inj' whole rfl).1
      exact absurd (by rw [← labels, List.getLast?_concat]) (p.around.getLast?_labels)
    · simp at split
      simp [split.2.2.2] at own

/-- A name has the label by which it is known as one of its own. -/
theorem naming_mem_own (named : slot.isNamed p.scope = true) : slot.naming ∈ p.own := by
  have foreign := fun (l : Label) h (mem : l ∈ p.scope) =>
    (mem_scope_iff (Region.notMem_labels (l := l) h)).1 mem
  cases slot with
  | declaration => exact foreign _ (by decide) (List.contains_iff_mem.1 named)
  | function => exact foreign _ (by decide) (List.contains_iff_mem.1 named)
  | loop => exact foreign _ (by decide) (List.contains_iff_mem.1 named)
  | distribution =>
    simp only [Slot.isNamed, Bool.or_eq_true, List.isSuffixOf_iff_suffix] at named
    rcases named with suffix | suffix
    · exact mem_own_of_suffix suffix (foreign _ (by decide) (suffix.subset (by simp)))
    · exact mem_own_of_suffix suffix (foreign _ (by decide) (suffix.subset (by simp)))

end Piece

section Acts

variable {slot : Slot} {s s' : LineState} {ps : List Piece}

theorem Piece.isNamed_eq_false {p : Piece} (unnamed : ∀ l ∈ p.own, l.isNaming = false) :
    slot.isNamed p.scope = false := by
  cases named : slot.isNamed p.scope with
  | false => rfl
  | true =>
    have other := unnamed _ (naming_mem_own named)
    cases slot <;> cases other

theorem Piece.IsLoose.unnamed {p : Piece} (h : p.IsLoose s) : ∀ l ∈ p.own, l.isNaming = false :=
  fun l mem => Label.isNaming_of_isFree (List.all_eq_true.1 h.2 l mem)

/-- Pieces without a name need no place. -/
theorem Backed.of_unnamed {m n : Nat} (unnamed : ∀ p ∈ ps, ∀ l ∈ p.own, l.isNaming = false)
    (less : n ≤ m) : Backed (fun p => slot.isNamed p.scope)
      (fun p => p.scope.contains slot.source) m n ps :=
  .of_free (fun p mem => Piece.isNamed_eq_false (unnamed p mem)) less

/-- A token without a name may come with one more empty place if it has the label for that. -/
theorem Backed.of_source {p : Piece} {r : Region} {m n : Nat}
    (unnamed : ∀ l ∈ p.own, l.isNaming = false)
    (source : slot.isEmpty r = true → slot.source ∈ p.own)
    (less : n ≤ m + if slot.isEmpty r = true then 1 else 0) :
    Backed (fun p => slot.isNamed p.scope) (fun p => p.scope.contains slot.source) m n [p] := by
  refine .singleton ?_
  rw [List.countP_singleton, List.countP_singleton, Piece.isNamed_eq_false unnamed]
  cases empty : slot.isEmpty r with
  | false =>
    rw [empty] at less
    exact Nat.le_trans less (Nat.le_add_right _ _)
  | true =>
    have inside : p.scope.contains slot.source = true :=
      List.contains_iff_mem.2 (List.mem_append_right _ (source empty))
    rw [empty] at less
    rw [inside]
    exact less

theorem LineState.count_become_le {p : Region → Bool} {r : Region} (none : p r = false) :
    (s.become r).count p ≤ s.count p := by
  rw [count_eq, count_eq, innermost_become, none]
  exact Nat.add_le_add_left (Nat.zero_le _) _

/-- Every act keeps the names of a kind backed by the tokens that an empty place comes with: as
many names as there are empty places may still come. -/
theorem Act.backed_names (act : Act s ps s') (slot : Slot) : Backed (fun p => slot.isNamed p.scope)
    (fun p => p.scope.contains slot.source) (s.count slot.isEmpty) (s'.count slot.isEmpty) ps := by
  cases act with
  | token t free =>
    refine .of_unnamed (fun p hp => ?_) (Nat.le_refl _)
    rw [List.mem_singleton.1 hp]
    exact fun l mem => Label.isNaming_of_isFree (List.all_eq_true.1 free l mem)
  | quoted kinds c d free loose ending =>
    have others : ∀ l ∈ kinds, l.isNaming = false :=
      fun l mem => Label.isNaming_of_isFree (List.all_eq_true.1 free l mem)
    refine .of_unnamed (List.forall_mem_cons.2 ⟨?_, List.forall_mem_append.2 ⟨?_, ?_⟩⟩)
      (Nat.le_refl _)
    · exact List.forall_mem_append.2 ⟨others, List.forall_mem_singleton.2 rfl⟩
    · exact fun p hp => (loose p hp).unnamed
    · rcases ending with rfl | rfl
      · exact nofun
      · refine List.forall_mem_singleton.2 (List.forall_mem_append.2 ⟨others, ?_⟩)
        exact List.forall_mem_singleton.2 rfl
  | count n => exact .of_unnamed nofun (Nat.le_refl _)
  | pass => exact .of_unnamed nofun (LineState.count_become_le (by cases slot <;> rfl))
  | @name r' own names w =>
    refine .singleton ?_
    rw [LineState.count_eq, LineState.count_eq, LineState.innermost_become, names.isEmpty,
      List.countP_singleton]
    cases named : slot.isNamed (Piece.scope ⟨w, s.become r', own⟩) with
    | false => exact Nat.le_trans (Nat.le_add_right _ _) (Nat.le_add_right _ _)
    | true =>
      have empty : slot.isEmpty s.innermost = true := by
        rw [names.eq_empty (Piece.naming_mem_own named)]
        exact decide_eq_true rfl
      rw [empty]
      exact Nat.le_add_right _ _
  | @header r' e waits =>
    refine .of_source (r := r') (List.forall_mem_singleton.2 rfl)
      (fun empty => List.mem_singleton.2 (waits.isEmpty empty)) ?_
    rw [LineState.count_eq, LineState.count_eq, LineState.innermost_become]
    exact Nat.add_le_add_right (Nat.le_add_right _ _) _
  | @enter r l sign t =>
    refine .of_source (r := r) ?_
      (fun empty => List.mem_singleton.2 (Region.eq_source_of_sign? sign empty).symm)
      (Nat.le_of_eq LineState.count_enter)
    exact List.forall_mem_singleton.2 (Region.isNaming_of_sign? sign)
  | accumulate t =>
    refine .of_unnamed (List.forall_mem_singleton.2 (List.forall_mem_singleton.2 rfl)) ?_
    rw [LineState.count_enter]
    cases slot <;> exact Nat.le_refl _
  | bracket opens head free =>
    refine .of_unnamed (List.forall_mem_append.2 ⟨fun p hp => (free p hp).unnamed, ?_⟩) ?_
    · exact List.forall_mem_singleton.2 (List.forall_mem_singleton.2 rfl)
    · rw [LineState.count_enter, Region.isEmpty_of_bracket? opens]
      exact Nat.le_refl _
  | leave top ends =>
    refine .of_unnamed nofun ?_
    rw [LineState.count_of_top top]
    exact Nat.le_add_right _ _
  | close top enclosure loose c =>
    refine .of_unnamed (List.forall_mem_singleton.2 (List.forall_mem_singleton.2 rfl)) ?_
    rw [LineState.count_of_top top]
    exact Nat.le_add_right _ _
  | closeBrace dropped unwound loose top enclosure braced =>
    refine .of_unnamed (List.forall_mem_singleton.2 (List.forall_mem_singleton.2 rfl)) ?_
    rw [LineState.count_of_append unwound, LineState.count_of_top top]
    exact Nat.le_trans (Nat.le_add_right _ _) (Nat.le_add_left _ _)

end Acts

/-- Wherever one stops reading a run, there are no more names of a kind than tokens that a place
for one comes with. -/
theorem names_le_sources (lexer : Lexer) (lines : List Text) (slot : Slot) {ls : List Lexeme}
    (front : ls <+: lexer.lexemes .initial lines) :
    (ls.countP fun l => slot.isNamed l.scope) ≤ ls.countP fun l => l.scope.contains slot.source := by
  have rooted : Rooted .initial := ⟨[], 0, rfl⟩
  have backed := backed_lexemes lexer rooted (fun act => act.backed_names slot)
    (fun _ named => Piece.isPlain_of_mem_own (Piece.naming_mem_own named))
    (fun _ => Piece.isPlain_of_contains (Region.source_notMem_labels slot)) lines
  have none : LineState.initial.count slot.isEmpty = 0 := by cases slot <;> rfl
  have counts := backed.front _ (front.map Lexeme.toPiece)
  rwa [none, Nat.zero_add, List.countP_map, List.countP_map] at counts

end StanHighlight

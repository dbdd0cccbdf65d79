import StanHighlight.Proofs.Backing
import StanHighlight.Proofs.Shape

/-!
Brackets in balance. Only parentheses, square brackets and the braces of blocks may be closed
where none was opened. Every other construct ends at most as often as it has begun, wherever one
stops reading, and a construct that is open at the end of a line has begun and has not ended.
-/

namespace StanHighlight

namespace Label

variable {l : Label} {e : Enclosure}

theorem ne_begins_of_isFree (free : l.isFree = true) : l ≠ .begins e := by
  rintro rfl
  cases free

theorem ne_ends_of_isFree (paired : e.isPaired = true) (free : l.isFree = true) : l ≠ .ends e := by
  rintro rfl
  rw [isFree, paired] at free
  cases free

/-- What lies inside a region is not labelled as its first or its last token. -/
theorem begins_notMem_labels (e : Enclosure) (r : Region) : .begins e ∉ r.labels := by
  unfold Region.labels
  split <;> simp

theorem ends_notMem_labels (e : Enclosure) (r : Region) : .ends e ∉ r.labels := by
  unfold Region.labels
  split <;> simp

end Label

namespace Piece

def tally (l : Label) (ps : List Piece) : Nat := ps.countP fun p => p.scope.contains l

variable {l : Label} {e : Enclosure} {p : Piece}

/-- A label that no region gives is a label of the piece's own. -/
theorem mem_scope_iff (h : ∀ r : Region, l ∉ r.labels) : l ∈ p.scope ↔ l ∈ p.own := by
  have outside : l ∉ p.around.labels := by
    intro mem
    obtain ⟨f, _, inside⟩ := List.mem_flatMap.1 mem
    exact h f.region inside
  rw [scope, List.mem_append, or_iff_right outside]

theorem begins_mem_scope_iff : .begins e ∈ p.scope ↔ .begins e ∈ p.own :=
  mem_scope_iff (Label.begins_notMem_labels e)

theorem ends_mem_scope_iff : .ends e ∈ p.scope ↔ .ends e ∈ p.own :=
  mem_scope_iff (Label.ends_notMem_labels e)

theorem tally_singleton : tally l [p] = if l ∈ p.scope then 1 else 0 := by
  simp [tally, List.countP_cons]

theorem isPlain_of_mem_own (mem : l ∈ p.own) : p.isPlain = false := by
  simpa [isPlain] using List.ne_nil_of_mem mem

/-- A label that no region gives is on labelled pieces only. -/
theorem isPlain_of_contains (h : ∀ r : Region, l ∉ r.labels) (mem : p.scope.contains l = true) :
    p.isPlain = false :=
  isPlain_of_mem_own ((mem_scope_iff h).1 (List.contains_iff_mem.1 mem))

end Piece

/-- Of a construct that is open `m` times, pieces end no more than there are, wherever one stops,
and leave at least `n` open. -/
structure Balanced (e : Enclosure) (m n : Nat) (ps : List Piece) : Prop where
  front : ∀ qs, qs <+: ps → Piece.tally (.ends e) qs ≤ m + Piece.tally (.begins e) qs
  whole : n + Piece.tally (.ends e) ps ≤ m + Piece.tally (.begins e) ps

/-- The tokens that end a construct are backed by those that begin it. -/
theorem balanced_iff {e : Enclosure} {m n : Nat} {ps : List Piece} : Balanced e m n ps ↔
    Backed (fun p => p.scope.contains (.ends e)) (fun p => p.scope.contains (.begins e)) m n ps :=
  ⟨fun h => ⟨h.front, h.whole⟩, fun h => ⟨h.front, h.whole⟩⟩

namespace Balanced

variable {e : Enclosure} {k m n : Nat} {ps qs : List Piece}

theorem append (h : Balanced e m k ps) (h' : Balanced e k n qs) : Balanced e m n (ps ++ qs) :=
  balanced_iff.2 ((balanced_iff.1 h).append (balanced_iff.1 h'))

/-- Pieces that end nothing. -/
theorem of_quiet (none : ∀ p ∈ ps, .ends e ∉ p.own) (less : n ≤ m) : Balanced e m n ps :=
  balanced_iff.2 (.of_free (fun p hp => by simpa [Piece.ends_mem_scope_iff] using none p hp) less)

theorem singleton {p : Piece}
    (h : n + Piece.tally (.ends e) [p] ≤ m + Piece.tally (.begins e) [p]) :
    Balanced e m n [p] :=
  balanced_iff.2 (.singleton h)

end Balanced

def Region.isEndedBy (e : Enclosure) (r : Region) : Bool := r.enclosure? = some e

section Acts

variable {e : Enclosure} {s s' : LineState} {ps : List Piece}

theorem Piece.ends_notMem_of_all_isFree {own : List Label} (paired : e.isPaired = true)
    (free : own.all Label.isFree = true) : .ends e ∉ own := fun mem =>
  Label.ne_ends_of_isFree paired (List.all_eq_true.1 free _ mem) rfl

theorem Piece.begins_notMem_of_all_isFree {own : List Label}
    (free : own.all Label.isFree = true) : .begins e ∉ own := fun mem =>
  Label.ne_begins_of_isFree (List.all_eq_true.1 free _ mem) rfl

/-- A token that begins a construct. -/
theorem Balanced.begin {m n : Nat} {e' : Enclosure} {p : Piece} (kinds : List Label)
    (paired : e.isPaired = true) (own : p.own = kinds ++ [.begins e'])
    (free : kinds.all Label.isFree = true) (less : n ≤ m + if e' = e then 1 else 0) :
    Balanced e m n [p] := by
  refine .singleton ?_
  have ends : .ends e ∉ p.own := by
    rw [own]
    simpa using Piece.ends_notMem_of_all_isFree paired free
  have begins : .begins e ∈ p.own ↔ e' = e := by
    rw [own]
    simpa [eq_comm] using fun mem => absurd mem (Piece.begins_notMem_of_all_isFree free)
  simpa only [Piece.tally_singleton, Piece.ends_mem_scope_iff, Piece.begins_mem_scope_iff, begins,
    ends, if_false, Nat.add_zero] using less

/-- A token that ends a construct. -/
theorem Balanced.end {m n : Nat} {e' : Enclosure} {p : Piece} (kinds : List Label)
    (paired : e.isPaired = true) (own : p.own = kinds ++ [.ends e'])
    (free : kinds.all Label.isFree = true) (less : n + (if e' = e then 1 else 0) ≤ m) :
    Balanced e m n [p] := by
  refine .singleton ?_
  have ends : .ends e ∈ p.own ↔ e' = e := by
    rw [own]
    simpa [eq_comm] using fun mem => absurd mem (Piece.ends_notMem_of_all_isFree paired free)
  simp only [Piece.tally_singleton, Piece.ends_mem_scope_iff, ends]
  omega

theorem Balanced.of_loose {ps : List Piece} {there : LineState} {m : Nat}
    (paired : e.isPaired = true) (loose : ∀ p ∈ ps, p.IsLoose there) : Balanced e m m ps :=
  .of_quiet (fun p hp => Piece.ends_notMem_of_all_isFree paired (loose p hp).2) (Nat.le_refl m)

namespace Region

theorem isEndedBy_of_enclosure? {r : Region} {e' : Enclosure} (h : r.enclosure? = some e') :
    r.isEndedBy e = decide (e' = e) := by
  simp [isEndedBy, h]

theorem isEndedBy_of_none {r : Region} (h : r.enclosure? = none) : r.isEndedBy e = false := by
  simp [isEndedBy, h]

theorem isEndedBy_of_eq {r r' : Region} (h : r'.enclosure? = r.enclosure?) :
    r'.isEndedBy e = r.isEndedBy e := by
  rw [isEndedBy, h, isEndedBy]

theorem enclosure?_of_sign? {r : Region} {l : Label} (h : r.sign? = some l) :
    r.enclosure? = none ∧ l ≠ .ends e := by
  unfold sign? at h
  split at h <;> cases h <;> exact ⟨rfl, nofun⟩

theorem Names.ends_notMem {r r' : Region} {own : List Label} (h : Names r r' own) :
    .ends e ∉ own := by
  cases h with
  | distribution known => cases known <;> simp
  | _ => simp

theorem Heads.enclosure? {r r' : Region} {e : Enclosure} (h : Heads r r' e) :
    r.enclosure? = none ∧ r'.enclosure? = some e := by
  cases h <;> exact ⟨rfl, rfl⟩

end Region

/-- Every act keeps each construct but the stray ones in balance with the open regions. -/
theorem Act.balanced (act : Act s ps s') (paired : e.isPaired = true) :
    Balanced e (s.count (Region.isEndedBy e)) (s'.count (Region.isEndedBy e)) ps := by
  cases act with
  | token t free =>
    exact .of_loose paired fun p hp => by rw [List.mem_singleton.1 hp]; exact ⟨rfl, free⟩
  | quoted kinds c d free loose ending =>
    -- A literal is open between its quotes, which no region shows.
    have begins : Balanced e (s.count (Region.isEndedBy e))
        (s.count (Region.isEndedBy e) + if Enclosure.string = e then 1 else 0)
        [⟨[c], s, kinds ++ [.begins .string]⟩] := .begin kinds paired rfl free (Nat.le_refl _)
    refine begins.append (.append (.of_loose paired loose) ?_)
    rcases ending with rfl | rfl
    · exact .of_quiet nofun (Nat.le_add_right _ _)
    · exact .end kinds paired rfl free (Nat.le_refl _)
  | count n => exact .of_quiet nofun (Nat.le_refl _)
  | pass slot =>
    refine .of_quiet nofun (Nat.le_of_eq (LineState.count_become ?_))
    rw [slot]
    rfl
  | name slot w =>
    have same := Region.isEndedBy_of_eq (e := e) slot.enclosure?
    refine .of_quiet (fun p hp => ?_) (Nat.le_of_eq (LineState.count_become same))
    rw [List.mem_singleton.1 hp]
    exact slot.ends_notMem
  | header waits =>
    obtain ⟨before, after⟩ := waits.enclosure?
    refine .begin [] paired rfl rfl ?_
    rw [LineState.count_eq, LineState.count_eq, LineState.innermost_become,
      Region.isEndedBy_of_none before, Region.isEndedBy_of_enclosure? after]
    simp only [decide_eq_true_eq, Bool.false_eq_true, if_false]
    exact Nat.le_refl _
  | enter sign t =>
    obtain ⟨none, other⟩ := Region.enclosure?_of_sign? (e := e) sign
    refine .of_quiet (fun p hp => ?_) ?_
    · rw [List.mem_singleton.1 hp]
      simpa using other.symm
    · rw [LineState.count_enter, Region.isEndedBy_of_none none]
      exact Nat.le_refl _
  | accumulate t =>
    refine .of_quiet (fun p hp => ?_) ?_
    · rw [List.mem_singleton.1 hp]
      simp
    · rw [LineState.count_enter, Region.isEndedBy_of_none rfl]
      exact Nat.le_refl _
  | bracket opens head free =>
    refine (Balanced.of_loose paired free).append (.begin [] paired rfl rfl ?_)
    rw [LineState.count_enter, Region.isEndedBy_of_enclosure? (Region.enclosure?_of_bracket? opens)]
    simp only [decide_eq_true_eq]
    exact Nat.le_refl _
  | leave top ends =>
    refine .of_quiet nofun ?_
    rw [LineState.count_of_top top]
    exact Nat.le_add_right _ _
  | close top enclosure loose c =>
    refine .end [] paired rfl rfl ?_
    rw [LineState.count_of_top top, Region.isEndedBy_of_enclosure? enclosure]
    simp only [decide_eq_true_eq]
    exact Nat.le_refl _
  | closeBrace dropped unwound loose top enclosure braced =>
    refine .end [] paired rfl rfl ?_
    rw [LineState.count_of_append unwound, LineState.count_of_top top,
      Region.isEndedBy_of_enclosure? enclosure]
    simp only [decide_eq_true_eq]
    exact Nat.le_add_left _ _

end Acts

/-- A run keeps each construct but the stray ones in balance with the open regions. -/
theorem balanced_lexemes (lexer : Lexer) {before : LineState} {e : Enclosure} (lines : List Text)
    (rooted : Rooted before) (paired : e.isPaired = true) :
    Balanced e (before.count (Region.isEndedBy e))
      ((lexer.stateAfter before lines).count (Region.isEndedBy e))
      ((lexer.lexemes before lines).map Lexeme.toPiece) :=
  balanced_iff.2 (backed_lexemes lexer rooted (fun act => balanced_iff.1 (act.balanced paired))
    (fun _ => Piece.isPlain_of_contains (Label.ends_notMem_labels e))
    (fun _ => Piece.isPlain_of_contains (Label.begins_notMem_labels e)) lines)

/-- Whether a region belongs to a construct. A control statement does even in front of its
header's parenthesis. -/
def Region.isOf (e : Enclosure) : Region → Bool
  | control kind _ _ => e = .header kind
  | r => r.enclosure? = some e

theorem Region.isOf_eq {r : Region} (opened : r.isOpened = true) (e : Enclosure) :
    r.isOf e = r.isEndedBy e := by
  cases r with
  | control kind paren named =>
    obtain rfl : paren = true := opened
    simp [isOf, isEndedBy, enclosure?, eq_comm]
  | _ => rfl

/-- Between lines the regions of a construct are those that its last token closes. -/
theorem count_isOf_of_reachable {s : LineState} (h : s.Reachable) (e : Enclosure) :
    s.count (Region.isOf e) = s.count (Region.isEndedBy e) := by
  refine List.countP_congr fun f mem => ?_
  have inside : f.region ∈ s.stack := by
    rw [LineState.stack, List.map_reverse, List.mem_reverse]
    exact List.mem_map_of_mem mem
  rw [Region.isOf_eq ((settled_of_reachable h).isOpened_of_mem inside)]

def Lexeme.tally (l : Label) (ls : List Lexeme) : Nat := ls.countP fun x => x.scope.contains l

theorem Lexeme.tally_eq (l : Label) (ls : List Lexeme) :
    tally l ls = Piece.tally l (ls.map Lexeme.toPiece) := by
  rw [Piece.tally, List.countP_map]
  rfl

/-- Wherever one stops reading a run, no construct has ended more often than it has begun, and at
the end of each line the difference is no less than the number of its regions that are open. Only
parentheses, square brackets and the braces of blocks are excepted. -/
theorem ends_le_begins (lexer : Lexer) (parts : lexer.clusters.PartsAscii) (lines : List Text)
    (e : Enclosure) (paired : e ∉ [.parens, .brackets, .block]) :
    (∀ ls, ls <+: lexer.lexemes .initial lines →
      Lexeme.tally (.ends e) ls ≤ Lexeme.tally (.begins e) ls) ∧
    ∀ n, (lexer.stateAfter .initial (lines.take n)).count (Region.isOf e) +
        Lexeme.tally (.ends e) (lexer.lexemes .initial (lines.take n)) ≤
      Lexeme.tally (.begins e) (lexer.lexemes .initial (lines.take n)) := by
  have never : e.isPaired = true := by
    cases e <;> first | rfl | exact absurd (by simp) paired
  have rooted : Rooted .initial := ⟨[], 0, rfl⟩
  have outset : LineState.initial.count (Region.isEndedBy e) = 0 := rfl
  constructor
  · intro ls front
    have balance := (balanced_lexemes lexer lines rooted never).front _
      (front.map Lexeme.toPiece)
    rwa [outset, Nat.zero_add, ← Lexeme.tally_eq, ← Lexeme.tally_eq] at balance
  · intro n
    have balance := (balanced_lexemes lexer (lines.take n) rooted never).whole
    have reachable := lexer.reachable_stateAfter parts .initial (lines.take n)
    rw [count_isOf_of_reachable reachable, Lexeme.tally_eq, Lexeme.tally_eq]
    rwa [outset, Nat.zero_add] at balance

/-- A brace closes a block over arguments that never end. -/
theorem ends_le_begins_in_arguments :
    let lexer : Lexer := ⟨{}, by decide, .prepending⟩
    let lines := ["model \x7b".toList, "y ~ normal(f(mu), 1".toList, "\x7d".toList]
    (Enclosure.arguments ∉ [Enclosure.parens, .brackets, .block] ∧ lexer.clusters.PartsAscii) ∧
    (Lexeme.tally (.begins .arguments) (lexer.lexemes .initial lines) = 2 ∧
      Lexeme.tally (.ends .arguments) (lexer.lexemes .initial lines) = 1) ∧
    (∀ ls, ls <+: lexer.lexemes .initial lines →
      Lexeme.tally (.ends .arguments) ls ≤ Lexeme.tally (.begins .arguments) ls) ∧
    ∀ n, (lexer.stateAfter .initial (lines.take n)).count (Region.isOf .arguments) +
        Lexeme.tally (.ends .arguments) (lexer.lexemes .initial (lines.take n)) ≤
      Lexeme.tally (.begins .arguments) (lexer.lexemes .initial (lines.take n)) :=
  ⟨⟨by decide, Segmentation.prepending_partsAscii⟩, by decide +kernel,
    ends_le_begins _ Segmentation.prepending_partsAscii _ .arguments (by decide)⟩

/-- A parenthesis may be closed where none was opened. -/
example :
    let lexer : Lexer := ⟨{}, by decide, .prepending⟩
    Lexeme.tally (.begins .parens) (lexer.lexemes .initial [[')']]) = 0 ∧
      Lexeme.tally (.ends .parens) (lexer.lexemes .initial [[')']]) = 1 := by
  decide +kernel

end StanHighlight

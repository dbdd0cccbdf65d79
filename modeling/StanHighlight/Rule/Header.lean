import StanHighlight.Step

/-!
Headers of program blocks. Outside all blocks, the words of a block followed by `{`
open it; the words may be separated by any blanks, but not run together.
-/

namespace StanHighlight.Rule

/-- Words separated by blanks at the start of a text, with the text after them. -/
def spacedWords? : List Text → Text → Option (Text × Text)
  | [], t => some ([], t)
  | [w], t => (t.after? w).map fun rest => (w, rest)
  | w :: ws, t =>
    match t.after? w with
    | none => none
    | some rest =>
      if Text.gap rest = [] then none
      else (spacedWords? ws (Text.trimStart rest)).map fun found =>
        (w ++ Text.gap rest ++ found.1, found.2)

/-- The header of one block at the start of a text, the blanks after it, and the text
after the brace. -/
def headerOf? (t : Text) (s : Section) : Option (Text × Text × Text) :=
  match spacedWords? (s.words.map String.toList) t with
  | none => none
  | some (header, rest) =>
    match Text.trimStart rest with
    | '{' :: body => some (header, Text.gap rest, body)
    | _ => none

def header? (t : Text) : Option (Section × Text × Text × Text) :=
  Section.all.findSome? fun s => (headerOf? t s).map fun found => (s, found)

def sectionHeader? (here : LineState) (t : Text) : Option Step :=
  if here.innermost = .program then
    match header? t with
    | none => none
    | some (s, header, gap, body) =>
      let opened := here.enter (.sectionBody s)
      some (.opening ⟨header, opened, [.sectionName s]⟩ gap '{' opened (.sectionBody s) body)
  else none

theorem spacedWords?_append {ws : List Text} {t taken rest : Text}
    (h : spacedWords? ws t = some (taken, rest)) : taken ++ rest = t := by
  induction ws generalizing t taken with
  | nil => cases h; rfl
  | cons w ws ih =>
    cases ws with
    | nil =>
      obtain ⟨after, opened, eq⟩ := Option.map_eq_some_iff.1 h
      cases eq
      exact (Text.after?_eq_some_iff.1 opened).symm
    | cons v vs =>
      simp only [spacedWords?] at h
      split at h
      · cases h
      · next after opened =>
        split at h
        · cases h
        · obtain ⟨found, more, eq⟩ := Option.map_eq_some_iff.1 h
          cases eq
          rw [Text.after?_eq_some_iff.1 opened]
          simp [ih more]

theorem spacedWords?_ne_nil {ws : List Text} {t taken rest : Text} (some_word : ws ≠ [])
    (visible : ∀ w ∈ ws, w ≠ []) (h : spacedWords? ws t = some (taken, rest)) : taken ≠ [] := by
  match ws with
  | [] => exact absurd rfl some_word
  | [w] =>
    obtain ⟨after, _, eq⟩ := Option.map_eq_some_iff.1 h
    cases eq
    exact visible _ (List.mem_singleton.2 rfl)
  | w :: v :: vs =>
    simp only [spacedWords?] at h
    split at h
    · cases h
    · split at h
      · cases h
      · obtain ⟨found, _, eq⟩ := Option.map_eq_some_iff.1 h
        cases eq
        simp [visible w (List.mem_cons_self)]

theorem headerOf?_append {t header gap body : Text} {s : Section}
    (h : headerOf? t s = some (header, gap, body)) : header ++ gap ++ '{' :: body = t := by
  unfold headerOf? at h
  split at h
  · cases h
  · next name rest found =>
    split at h
    · next after brace =>
      cases h
      rw [← brace, ← spacedWords?_append found]
      simp
    · cases h

theorem headerOf?_ne_nil {t header gap body : Text} {s : Section}
    (h : headerOf? t s = some (header, gap, body)) : header ≠ [] := by
  unfold headerOf? at h
  split at h
  · cases h
  · next name rest found =>
    split at h
    · cases h
      exact spacedWords?_ne_nil (by cases s <;> decide) (by cases s <;> decide) found
    · cases h

theorem headerOf?_of_header? {t header gap body : Text} {s : Section}
    (h : header? t = some (s, header, gap, body)) : headerOf? t s = some (header, gap, body) := by
  obtain ⟨s', _, found⟩ := List.exists_of_findSome?_eq_some h
  obtain ⟨_, found, eq⟩ := Option.map_eq_some_iff.1 found
  cases eq
  exact found

theorem sectionHeader?_covers {here : LineState} {t : Text} {s : Step}
    (h : sectionHeader? here t = some s) : s.Covers t := by
  unfold sectionHeader? at h
  split at h
  · split at h
    · cases h
    · next found =>
      obtain rfl := Option.some.inj h
      have found := headerOf?_of_header? found
      exact Step.opening_covers (headerOf?_ne_nil found) (headerOf?_append found)
  · cases h

end StanHighlight.Rule

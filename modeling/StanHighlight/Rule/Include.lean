import StanHighlight.Step
import StanHighlight.Text.Space
import StanHighlight.Text.Word

/-!
Include directives. The directive may be followed by blanks and then by one file
name, which is either bare or stands between delimiters. A delimited name without
its closing delimiter runs to the end of the line.
-/

namespace StanHighlight.Rule

/-- A file name up to `close`, after the delimiter that begins it. -/
def delimitedName (here : LineState) (start close : Char) (style : FileName) (t : Text) :
    List Piece × Text :=
  let name := t.takeWhile (· != close)
  let front := ⟨[start], here, [.inclusion, .fileName style, .begins .string]⟩ ::
    Piece.ofText name here [.inclusion, .fileName style]
  match t.dropWhile (· != close) with
  | [] => (front, [])
  | c :: rest => (front ++ [⟨[c], here, [.inclusion, .fileName style, .ends .string]⟩], rest)

def fileName (here : LineState) : Text → List Piece × Text
  | [] => ([], [])
  | '"' :: t => delimitedName here '"' '"' .doubleQuoted t
  | '\'' :: t => delimitedName here '\'' '\'' .singleQuoted t
  | '<' :: t => delimitedName here '<' '>' .angled t
  | c :: t =>
    let name := (c :: t).takeWhile fun d => !Text.isSpace d
    (Piece.ofText name here [.inclusion, .fileName .bare],
      (c :: t).dropWhile fun d => !Text.isSpace d)

def directive : Text := "#include".toList

def include? (here : LineState) (t : Text) : Option Step :=
  match t.after? directive with
  | none => none
  | some rest =>
    if Text.word rest = [] then
      let name := fileName here (Text.trimStart rest)
      some ⟨⟨directive, here, [.inclusion, .includeDirective]⟩ ::
        (Piece.ofText (Text.gap rest) here [.inclusion] ++ name.1), here, name.2⟩
    else none

theorem delimitedName_whole (here : LineState) (start close : Char) (style : FileName) (t : Text) :
    Piece.texts (delimitedName here start close style t).1 ++
      (delimitedName here start close style t).2 = start :: t := by
  have split := t.takeWhile_append_dropWhile (p := (· != close))
  unfold delimitedName
  split
  · next none => simpa [none] using split
  · next c rest found => simpa [found] using split

theorem delimitedName_visible {here : LineState} {start close : Char} {style : FileName} {t : Text}
    {p : Piece} (h : p ∈ (delimitedName here start close style t).1) : p.text ≠ [] := by
  unfold delimitedName at h
  split at h <;> simp only [List.mem_cons, List.mem_append, List.not_mem_nil, or_false] at h
  · rcases h with rfl | h
    · simp
    · exact Piece.text_ne_nil_of_mem_ofText h
  · rcases h with (rfl | h) | rfl
    · simp
    · exact Piece.text_ne_nil_of_mem_ofText h
    · simp

theorem fileName_whole (here : LineState) (t : Text) :
    Piece.texts (fileName here t).1 ++ (fileName here t).2 = t := by
  unfold fileName
  split
  · rfl
  · exact delimitedName_whole ..
  · exact delimitedName_whole ..
  · exact delimitedName_whole ..
  · simp only [Piece.texts_ofText, List.takeWhile_append_dropWhile]

theorem fileName_visible {here : LineState} {t : Text} {p : Piece}
    (h : p ∈ (fileName here t).1) : p.text ≠ [] := by
  unfold fileName at h
  split at h
  · cases h
  · exact delimitedName_visible h
  · exact delimitedName_visible h
  · exact delimitedName_visible h
  · exact Piece.text_ne_nil_of_mem_ofText h

theorem include?_covers {here : LineState} {t : Text} {s : Step} (h : include? here t = some s) :
    s.Covers t := by
  unfold include? at h
  split at h
  · cases h
  · next rest opened =>
    split at h
    · obtain rfl := Option.some.inj h
      obtain rfl := Text.after?_eq_some_iff.1 opened
      refine ⟨by simp [fileName_whole], by simp, fun p hp => ?_⟩
      simp only [List.mem_cons, List.mem_append] at hp
      rcases hp with rfl | hp | hp
      · exact (by decide : directive ≠ [])
      · exact Piece.text_ne_nil_of_mem_ofText hp
      · exact fileName_visible hp
    · cases h

end StanHighlight.Rule

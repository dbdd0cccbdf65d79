import StanHighlight.Text.Space

/-!
Text that is skipped in one go. What a reader sees as one character may be several code
points, and the tokenizer does not look for a token inside such a cluster. Where a cluster
ends is not decided here: all that the tokenizer needs is that the first one is some of the
text, and all that its states need is that ASCII characters stay apart.
-/

namespace StanHighlight

structure Segmentation where
  /-- The number of characters in the first cluster. -/
  first : Text → Nat
  first_pos : ∀ t : Text, t ≠ [] → 0 < first t
  first_le_length : ∀ t : Text, first t ≤ t.length

namespace Segmentation

def cluster (g : Segmentation) (t : Text) : Text := t.take (g.first t)

theorem cluster_ne_nil (g : Segmentation) {t : Text} (h : t ≠ []) : g.cluster t ≠ [] := by
  have := g.first_pos t h
  simp only [cluster, ne_eq, List.take_eq_nil_iff, not_or]
  exact ⟨by omega, h⟩

/-- An ASCII character does not belong to the cluster of another one or of a blank in front of
it, except for the `\n` of `\r\n`. -/
def PartsAscii (g : Segmentation) : Prop :=
  ∀ (t before after : Text) (c d : Char), g.cluster t = before ++ c :: d :: after →
    d.toNat < 128 → d ≠ '\n' → 128 ≤ c.toNat ∧ Text.isSpace c = false

/-- First and last code point of each range whose `Grapheme_Cluster_Break` is `Prepend`. -/
def prependedRanges : List (Nat × Nat) :=
  [(0x0600, 0x0605), (0x06dd, 0x06dd), (0x070f, 0x070f), (0x0890, 0x0891), (0x08e2, 0x08e2),
   (0x0d4e, 0x0d4e), (0x110bd, 0x110bd), (0x110cd, 0x110cd), (0x111c2, 0x111c3),
   (0x113d1, 0x113d1), (0x1193f, 0x1193f), (0x11941, 0x11941), (0x11a84, 0x11a89),
   (0x11d46, 0x11d46), (0x11f02, 0x11f02)]

def isPrepended (c : Char) : Bool :=
  prependedRanges.any fun range => range.1 ≤ c.toNat && c.toNat ≤ range.2

/-- Prepended marks, such as the Arabic number sign, with the character that they stand before,
and any other character alone. A token starts with a visible ASCII character, which no cluster
holds anywhere but in front or behind such marks. So tokens are found as with longer clusters. -/
def prepending : Segmentation where
  first t := min ((t.takeWhile isPrepended).length + 1) t.length
  first_pos _ h := Nat.lt_min.2 ⟨Nat.succ_pos _, List.length_pos_iff.2 h⟩
  first_le_length _ := Nat.min_le_right _ _

end Segmentation

end StanHighlight

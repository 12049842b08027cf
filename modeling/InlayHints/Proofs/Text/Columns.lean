import InlayHints.Proofs.Text.Position

/-!
# Columns in different encodings

Every character has at least one code unit in every encoding, and how many more it may have in one
encoding than in another one bounds the sizes of texts as well (`Encoding.size_le_mul`).  All
encodings agree on a text exactly if it is ASCII (`Encoding.size_utf8_eq_size_utf32_iff`).  So the
columns of one place differ by bounded factors, and they are the same exactly if its line is ASCII
up to there (`LineCol.scaled_ofEnd`).
-/

namespace InlayHints

namespace Encoding

variable {e e' : Encoding}

/-! ### Code units of a character -/

/-- The ASCII characters are those of one byte. -/
theorem utf8Size_eq_one_iff (c : Char) :
  c.utf8Size = 1 ↔ c.toNat < 128
  := by
  rw [Char.utf8Size_eq_one_iff, UInt32.le_iff_toNat_le]
  apply Nat.lt_succ_iff.symm

theorem units_utf32_le (e : Encoding) (c : Char) :
  utf32.units c ≤ e.units c
  := by
  cases e with
  | utf8 => apply c.utf8Size_pos
  | utf16 =>
    simp only [units]
    split <;> decide
  | utf32 => rfl

theorem units_utf16_le_two_mul (c : Char) :
  utf16.units c ≤ 2 * utf32.units c
  := by
  simp only [units]
  split <;> decide

/-- A character of one unit in UTF-16 has at most three bytes, and no character has more than
four. -/
theorem units_utf8_le_three_mul (c : Char) :
  utf8.units c ≤ 3 * utf16.units c
  := by
  have hfour := c.utf8Size_le_four
  simp only [units]
  split
  · next hsmall =>
    have hne : c.utf8Size ≠ 4 := by
      rw [Ne, Char.utf8Size_eq_four_iff, UInt32.lt_iff_toNat_lt]
      apply Nat.not_lt.mpr (Nat.le_of_lt_succ hsmall)
    omega
  · omega

/-! ### Sizes of a text -/

/-- A factor between the units of every character is one between the sizes of every text. -/
theorem size_le_mul {k : Nat} (h : ∀ c, e.units c ≤ k * e'.units c) (cs : List Char) :
  e.size cs ≤ k * e'.size cs
  := by
  induction cs with
  | nil => apply Nat.zero_le
  | cons c cs ih =>
    rw [size_cons, size_cons, Nat.mul_add]
    apply Nat.add_le_add (h c) ih

theorem size_utf32_le (e : Encoding) (cs : List Char) :
  utf32.size cs ≤ e.size cs
  := by
  rw [← Nat.one_mul (e.size cs)]
  apply size_le_mul
  intro c
  rw [Nat.one_mul]
  apply e.units_utf32_le

/-- A text has as many bytes as characters exactly if it is ASCII. -/
theorem size_utf8_eq_size_utf32_iff (cs : List Char) :
  utf8.size cs = utf32.size cs ↔ ∀ c ∈ cs, c.toNat < 128
  := by
  induction cs with
  | nil => simp
  | cons c cs ih =>
    have hc := utf8.units_utf32_le c
    have hcs := utf8.size_utf32_le cs
    have hone : utf8.units c = utf32.units c ↔ c.toNat < 128 := utf8Size_eq_one_iff c
    rw [size_cons, size_cons, List.forall_mem_cons, ← ih, ← hone]
    omega

end Encoding

/-! ### Columns of a place -/

namespace LineCol

/-- The position of one place in every encoding, `before` being the text before it: the line is
the same, the columns differ by bounded factors, and they are the same exactly if the line is
ASCII up to there. -/
structure Scaled (before : List Char) (p : Encoding → LineCol) : Prop where
  position_eq : ∀ e, p e = .ofEnd e before
  line_eq : ∀ e e', (p e).line = (p e').line
  utf32_le_utf16 : (p .utf32).col ≤ (p .utf16).col
  utf16_le_utf8 : (p .utf16).col ≤ (p .utf8).col
  utf16_le_two_mul : (p .utf16).col ≤ 2 * (p .utf32).col
  utf8_le_three_mul : (p .utf8).col ≤ 3 * (p .utf16).col
  col_eq_iff : (p .utf32).col = (p .utf16).col ∧ (p .utf16).col = (p .utf8).col
    ↔ ∀ c ∈ lastLine before, c.toNat < 128

/-- A last line is no larger than the text. -/
theorem size_lastLine_le (e : Encoding) (cs : List Char) :
  e.size (lastLine cs) ≤ e.size cs
  := by
  obtain ⟨rest, hrest⟩ := List.takeWhile_prefix (l := cs.reverse) (· ≠ '\n')
  have hsplit : cs = rest.reverse ++ lastLine cs := by
    rw [lastLine, ← List.reverse_append, hrest, List.reverse_reverse]
  calc e.size (lastLine cs)
    _ ≤ e.size (rest.reverse ++ lastLine cs) := by
      rw [Encoding.size_append]
      apply Nat.le_add_left
    _ = e.size cs := by rw [← hsplit]

theorem scaled_ofEnd {before : List Char} (hsize : Encoding.utf8.size before ≤ countLimit) :
  Scaled before fun e => .ofEnd e before
  := by
  have hcol : ∀ e, (ofEnd e before).col = e.size (lastLine before) := by
    intro e
    apply Nat.min_eq_left
    calc e.size (lastLine before)
      _ ≤ e.size before := size_lastLine_le e before
      _ ≤ Encoding.utf8.size before := e.size_le_utf8 before
      _ ≤ countLimit := hsize
  have hlow := Encoding.utf16.size_utf32_le (lastLine before)
  have hhigh := Encoding.utf16.size_le_utf8 (lastLine before)
  refine ⟨fun _ => rfl, fun _ _ => rfl, ?_, ?_, ?_, ?_, ?_⟩
  · rw [hcol, hcol]
    apply hlow
  · rw [hcol, hcol]
    apply hhigh
  · rw [hcol, hcol]
    apply Encoding.size_le_mul Encoding.units_utf16_le_two_mul
  · rw [hcol, hcol]
    apply Encoding.size_le_mul Encoding.units_utf8_le_three_mul
  · rw [hcol, hcol, hcol, ← Encoding.size_utf8_eq_size_utf32_iff]
    omega

end LineCol

end InlayHints

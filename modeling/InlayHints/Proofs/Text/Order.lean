import InlayHints.Proofs.Text.Columns

/-!
# The order of positions

Positions come in the order of their offsets: with more text before it the end of a text moves
to a later line, or to a later column of the same line (`LineCol.ofEnd_le_append`).  At a
boundary nothing is rounded, so this carries over to any two boundaries
(`LineCol.ofOffset_le_ofOffset`).  Two boundaries have different positions, as long as columns stay
below the limit (`LineCol.ofOffset_injective`).
-/

namespace InlayHints

variable {text : List Char} {n m : Nat}

/-- No boundary lies behind the end of the text. -/
theorem le_size_of_isBoundary (h : isBoundary n text = true) :
  n ≤ Encoding.utf8.size text
  := by
  obtain ⟨pre, post, rfl, rfl⟩ := isBoundary_iff.mp h
  rw [Encoding.size_append]
  apply Nat.le_add_right

/-- A boundary is taken for itself. -/
theorem boundary_eq_self (h : isBoundary n text = true) :
  boundary text n = n
  := by
  obtain ⟨⟨-, hle⟩, hgreatest⟩ := isGreatest_roundDown text (min n (Encoding.utf8.size text))
  apply Nat.le_antisymm
  · apply le_trans hle (Nat.min_le_left _ _)
  · apply hgreatest
    use h
    apply Nat.le_min.mpr ⟨le_refl n, le_size_of_isBoundary h⟩

namespace LineCol

variable (e : Encoding)

/-- More text puts the end of a text on a later line, or at a later column of the same line. -/
theorem ofEnd_le_append (pre cs : List Char) :
  (ofEnd e pre).le (ofEnd e (pre ++ cs)) = true
  := by
  simp only [ofEnd, lastLine_append, List.count_append, le, Bool.or_eq_true, Bool.and_eq_true,
    decide_eq_true_eq]
  by_cases hmem : '\n' ∈ cs
  · have hcount : 0 < cs.count '\n' := List.count_pos_iff.mpr hmem
    apply Or.inl
    omega
  · have hcount : cs.count '\n' = 0 := List.count_eq_zero.mpr hmem
    apply Or.inr
    rw [if_neg hmem, hcount, Encoding.measure, Encoding.measure, Encoding.size_append]
    omega

/-- Boundaries of a text have positions in their order. -/
theorem ofOffset_le_ofOffset (hn : isBoundary n text = true) (hm : isBoundary m text = true)
    (hle : n ≤ m) :
  (ofOffset e text n).le (ofOffset e text m) = true
  := by
  rw [ofOffset, ofOffset, boundary_eq_self hn, boundary_eq_self hm,
    ← charsBefore_append_slice hle hn]
  apply ofEnd_le_append

/-- More text puts the end of a text at another position. -/
theorem eq_nil_of_ofEnd_eq {pre cs : List Char}
    (hsize : Encoding.utf8.size (pre ++ cs) ≤ countLimit)
    (h : ofEnd e pre = ofEnd e (pre ++ cs)) :
  cs = []
  := by
  obtain ⟨hline, hcol⟩ := LineCol.mk.inj h
  rw [List.count_append] at hline
  have hmem : '\n' ∉ cs := List.count_eq_zero.mp (by omega)
  have hbound : e.size (lastLine pre ++ cs) ≤ countLimit := by
    have hlast := size_lastLine_le e (pre ++ cs)
    rw [lastLine_append, if_neg hmem] at hlast
    calc e.size (lastLine pre ++ cs)
      _ ≤ e.size (pre ++ cs) := hlast
      _ ≤ Encoding.utf8.size (pre ++ cs) := e.size_le_utf8 (pre ++ cs)
      _ ≤ countLimit := hsize
  rw [Encoding.size_append] at hbound
  rw [lastLine_append, if_neg hmem, Encoding.measure, Encoding.measure, Encoding.size_append,
    Nat.min_eq_left hbound, Nat.min_eq_left (by omega)] at hcol
  -- every character has at least one unit
  have hunits := e.size_utf32_le cs
  cases cs with
  | nil => rfl
  | cons c cs =>
    rw [Encoding.size_cons, Encoding.units] at hunits
    omega

theorem size_charsBefore (h : isBoundary n text = true) :
  Encoding.utf8.size (charsBefore n text) = n
  := by
  obtain ⟨pre, post, rfl, rfl⟩ := isBoundary_iff.mp h
  have hbefore := charsBefore_append pre post 0
  rw [Nat.add_zero, charsBefore_zero, List.append_nil] at hbefore
  rw [hbefore]

theorem eq_of_ofOffset_eq (hsize : Encoding.utf8.size text ≤ countLimit)
    (hn : isBoundary n text = true) (hm : isBoundary m text = true) (hle : n ≤ m)
    (h : ofOffset e text n = ofOffset e text m) :
  n = m
  := by
  rw [ofOffset, ofOffset, boundary_eq_self hn, boundary_eq_self hm,
    ← charsBefore_append_slice hle hn] at h
  have hslice : slice n m text = [] := by
    apply eq_nil_of_ofEnd_eq e _ h
    rw [charsBefore_append_slice hle hn]
    apply Nat.le_trans (size_charsBefore_le m text) hsize
  calc n
    _ = Encoding.utf8.size (charsBefore n text) := (size_charsBefore hn).symm
    _ = Encoding.utf8.size (charsBefore m text) := by
      rw [← charsBefore_append_slice hle hn, hslice, List.append_nil]
    _ = m := size_charsBefore hm

/-- In a text that is not too long, different boundaries have different positions. -/
theorem ofOffset_injective (hsize : Encoding.utf8.size text ≤ countLimit)
    (hn : isBoundary n text = true) (hm : isBoundary m text = true)
    (h : ofOffset e text n = ofOffset e text m) :
  n = m
  := by
  rcases Nat.le_total n m with hle | hle
  · apply eq_of_ofOffset_eq e hsize hn hm hle h
  · apply (eq_of_ofOffset_eq e hsize hm hn hle h.symm).symm

end LineCol

end InlayHints

import InlayHints.Proofs.Text.Position

/-!
# Positions do not depend on the way

Going over two pieces of text one after the other is the same as going over both at once, also
where lines or columns are beyond the limit (`LineCol.after_after`).  So a cursor that went to
offsets in any order stands where one scan from the start takes it (`Cursor.moveTo_reached`),
and the position it gives for an offset is a function of the offset alone, whatever the size of
the text (`Cursor.positions_start`).
-/

namespace InlayHints

namespace LineCol

/-- Going over two pieces of text one after the other is going over both at once. -/
theorem after_after (e : Encoding) (p : LineCol) (xs ys : List Char) :
  (p.after e xs).after e ys = p.after e (xs ++ ys)
  := by
  have hlast := lastLine_append xs ys
  simp only [after, lastLine?, List.mem_append, List.count_append, hlast]
  by_cases hxs : '\n' ∈ xs
  · by_cases hys : '\n' ∈ ys
    · simp only [hxs, hys, or_self, if_true, addUpTo, mk.injEq, and_true]
      omega
    · have hcount : ys.count '\n' = 0 := List.count_eq_zero.mpr hys
      simp only [hxs, hys, or_false, if_true, if_false, hcount, addUpTo, Encoding.measure,
        Encoding.size_append, mk.injEq]
      omega
  · by_cases hys : '\n' ∈ ys
    · have hcount : xs.count '\n' = 0 := List.count_eq_zero.mpr hxs
      simp only [hxs, hys, or_true, if_true, if_false, hcount, Nat.zero_add]
    · simp only [hxs, hys, or_self, if_false, addUpTo, Encoding.measure, Encoding.size_append,
        mk.injEq, true_and]
      omega

/-- The position of an offset, by one scan from the start of the text. -/
def scanned (e : Encoding) (text : List Char) (offset : Nat) : LineCol :=
  after e ⟨0, 0⟩ (charsBefore (boundary text offset) text)

end LineCol

namespace Cursor

variable {e : Encoding} {text : List Char} {n m : Nat}

/-- The cursor at an offset that it reached by one scan from the start of the text. -/
def reached (e : Encoding) (text : List Char) (n : Nat) : Cursor :=
  ⟨e, text, n, .after e ⟨0, 0⟩ (charsBefore n text)⟩

theorem reached_zero (e : Encoding) (text : List Char) :
  reached e text 0 = start e text
  := by
  rw [reached, charsBefore_zero]
  rfl

/-- Going on to a later offset is one longer scan from the start. -/
theorem scanTo_reached (hn : isBoundary n text = true) (hle : n ≤ m) :
  (reached e text n).scanTo m = reached e text m
  := by
  rw [reached, reached, scanTo, ← charsBefore_append_slice hle hn, ← LineCol.after_after]

/-- Wherever a cursor stands, it goes to an offset as if by one scan from the start. -/
theorem moveTo_reached (hn : isBoundary n text = true) (offset : Nat) :
  (reached e text n).moveTo offset = reached e text (boundary text offset)
  := by
  have hstart : (reached e text 0).scanTo (boundary text offset)
      = reached e text (boundary text offset) :=
    scanTo_reached (by rw [isBoundary]) (Nat.zero_le _)
  rw [reached_zero] at hstart
  rw [moveTo]
  split
  · apply hstart
  · next hle => apply scanTo_reached hn (Nat.not_lt.mp hle)

/-- One cursor that goes to offsets in any order gives each the position of one scan. -/
theorem positions_reached (hn : isBoundary n text = true) (offsets : List Nat) :
  (reached e text n).positions offsets = offsets.map (LineCol.scanned e text)
  := by
  have hfold : ∀ done, (offsets.foldl visit (reached e text n, done)).2
      = (offsets.map (LineCol.scanned e text)).reverse ++ done := by
    induction offsets generalizing n with
    | nil =>
      intro done
      rfl
    | cons offset offsets ih =>
      intro done
      rw [List.foldl_cons, visit, moveTo_reached hn, ih (isBoundary_boundary text offset),
        List.map_cons, List.reverse_cons, List.append_assoc]
      rfl
  rw [positions, hfold, List.append_nil, List.reverse_reverse]

theorem positions_start (e : Encoding) (text : List Char) (offsets : List Nat) :
  (start e text).positions offsets = offsets.map (LineCol.scanned e text)
  := by
  rw [← reached_zero]
  apply positions_reached
  rw [isBoundary]

end Cursor

end InlayHints

import InlayHints.Proofs.Text.Order

/-!
# Positions are strictly monotone

Of two boundaries of a text the later one has the later position, and an offset between them is
taken for one of the boundaries, so positions never go back when offsets go on.  This holds of the
positions that cursors give (`Cursor.locate_strictMono`), wherever they went before.
-/

namespace InlayHints

variable {text : List Char} {n m : Nat}

/-- Larger offsets are taken for larger boundaries. -/
theorem boundary_mono (text : List Char) (hle : n ≤ m) :
  boundary text n ≤ boundary text m
  := by
  obtain ⟨⟨hboundary, hn⟩, -⟩ := isGreatest_roundDown text (min n (Encoding.utf8.size text))
  obtain ⟨-, hgreatest⟩ := isGreatest_roundDown text (min m (Encoding.utf8.size text))
  apply hgreatest
  use hboundary
  calc boundary text n
    _ ≤ min n (Encoding.utf8.size text) := hn
    _ ≤ min m (Encoding.utf8.size text) :=
      Nat.le_min.mpr ⟨Nat.le_trans (Nat.min_le_left _ _) hle, Nat.min_le_right _ _⟩

namespace LineCol

variable {p q : LineCol}

/-- Whether a position stands on an earlier line, or on the same line at an earlier column. -/
def Precedes (p q : LineCol) : Prop := p.line < q.line ∨ p.line = q.line ∧ p.col < q.col

instance (p q : LineCol) : Decidable (p.Precedes q) := by
  unfold Precedes
  infer_instance

theorem precedes_iff :
  p.Precedes q ↔ p.le q = true ∧ p ≠ q
  := by
  obtain ⟨line, col⟩ := p
  obtain ⟨line', col'⟩ := q
  simp only [Precedes, le, Bool.or_eq_true, Bool.and_eq_true, decide_eq_true_eq, ne_eq, mk.injEq]
  omega

theorem le_iff_not_precedes :
  p.le q = true ↔ ¬ q.Precedes p
  := by
  simp only [Precedes, le, Bool.or_eq_true, Bool.and_eq_true, decide_eq_true_eq]
  omega

/-- Positions of any two offsets are in the order of the offsets. -/
theorem ofOffset_mono (e : Encoding) (text : List Char) (hle : n ≤ m) :
  (ofOffset e text n).le (ofOffset e text m) = true
  := by
  have hn := isBoundary_boundary text n
  have hm := isBoundary_boundary text m
  have hordered := ofOffset_le_ofOffset e hn hm (boundary_mono text hle)
  rw [ofOffset, ofOffset, boundary_eq_self hn, boundary_eq_self hm] at hordered
  apply hordered

/-- Of two boundaries of a text that is not too long, the earlier one has the earlier position. -/
theorem ofOffset_precedes_iff (e : Encoding) (hsize : Encoding.utf8.size text ≤ countLimit)
    (hn : isBoundary n text = true) (hm : isBoundary m text = true) :
  (ofOffset e text n).Precedes (ofOffset e text m) ↔ n < m
  := by
  constructor
  · intro h
    apply Nat.lt_of_not_le
    intro hle
    apply le_iff_not_precedes.mp (ofOffset_mono e text hle) h
  · intro hlt
    apply precedes_iff.mpr
    use ofOffset_mono e text (Nat.le_of_lt hlt)
    intro heq
    apply Nat.ne_of_lt hlt (ofOffset_injective e hsize hn hm heq)

end LineCol

namespace Cursor

variable {e : Encoding} {k : Cursor}

/-- The position that a cursor gives for an offset after it went to the offsets of a history. -/
def locate (k : Cursor) (history : List Nat) (offset : Nat) : LineCol :=
  ((history.foldl moveTo k).moveTo offset).position

/-- A correct cursor gives an offset its position from scratch, after any history. -/
theorem Correct.locate_eq (h : Correct e text k) (hsize : Encoding.utf8.size text ≤ countLimit)
    (history : List Nat) (offset : Nat) :
  k.locate history offset = .ofOffset e text offset
  := by
  rw [locate]
  induction history generalizing k with
  | nil => apply h.position_moveTo hsize
  | cons first history ih => apply ih (h.moveTo hsize first).1

/-- In a text that is not too long, cursors with any histories give two boundaries positions in
the strict order of the boundaries, so different boundaries have different positions, and they
give any two offsets positions that are not in the wrong order. -/
theorem locate_strictMono (e : Encoding) (text : String) (hsize : text.utf8ByteSize ≤ countLimit)
    (history history' : List Nat) :
  (∀ n m, isBoundary n text.toList = true → isBoundary m text.toList = true →
      (n < m → ((start e text.toList).locate history n).Precedes
        ((start e text.toList).locate history' m))
      ∧ ((start e text.toList).locate history n = (start e text.toList).locate history' m → n = m))
    ∧ ∀ n m, n ≤ m → ((start e text.toList).locate history n).le
      ((start e text.toList).locate history' m) = true
  := by
  rw [← Encoding.size_utf8] at hsize
  have hlocate := (correct_start e text.toList).locate_eq hsize
  simp only [hlocate]
  constructor
  · intro n m hn hm
    constructor
    · apply (LineCol.ofOffset_precedes_iff e hsize hn hm).mpr
    · apply LineCol.ofOffset_injective e hsize hn hm
  · intro n m
    apply LineCol.ofOffset_mono

/-- Two boundaries on both sides of a character of four bytes, the later one reached from the end of
the text and the earlier one from an offset inside that character. -/
theorem locate_strictMono_mixed :
  "aé\n𝕜b".utf8ByteSize ≤ countLimit
    ∧ isBoundary 4 "aé\n𝕜b".toList = true ∧ isBoundary 8 "aé\n𝕜b".toList = true
    ∧ ((start .utf16 "aé\n𝕜b".toList).locate [6] 4).Precedes
      ((start .utf16 "aé\n𝕜b".toList).locate [100] 8)
    ∧ ((start .utf16 "aé\n𝕜b".toList).locate [] 6).le
      ((start .utf16 "aé\n𝕜b".toList).locate [3, 9] 7) = true
  := by
  have hsize : "aé\n𝕜b".utf8ByteSize ≤ countLimit := by decide
  have hfirst : isBoundary 4 "aé\n𝕜b".toList = true := by decide
  have hsecond : isBoundary 8 "aé\n𝕜b".toList = true := by decide
  refine ⟨hsize, hfirst, hsecond, ?_, ?_⟩
  · apply ((locate_strictMono .utf16 "aé\n𝕜b" hsize [6] [100]).1 4 8 hfirst hsecond).1
    decide
  · apply (locate_strictMono .utf16 "aé\n𝕜b" hsize [] [3, 9]).2 6 7
    decide

end Cursor

end InlayHints

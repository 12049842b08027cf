import Mathlib.Data.List.TakeWhile
import Mathlib.Order.Bounds.Defs
import Mathlib.Tactic.Use
import InlayHints.Text.Position

/-!
# Positions by a cursor are positions from scratch

However a cursor was moved before, to the offsets of a text in any order, the position it gives
for an offset is the one computed from the whole text before the offset.  What a cursor keeps,
`Cursor.Correct`, is that it stands at a boundary and that its position is that of the text
before it.  It goes on from there by the text between two boundaries, and so it matters that
sizes, line ends and last lines of two pieces of text add up to those of the whole.
-/

namespace InlayHints

/-! ### Sizes -/

namespace Encoding

variable (e : Encoding)

theorem foldl_units (n : Nat) (cs : List Char) :
  cs.foldl (fun n c => n + e.units c) n = n + e.size cs
  := by
  induction cs generalizing n with
  | nil => rfl
  | cons c cs ih =>
    rw [size, List.foldl_cons, List.foldl_cons, ih, ih (0 + _)]
    omega

@[simp]
theorem size_nil :
  e.size [] = 0
  := rfl

@[simp]
theorem size_cons (c : Char) (cs : List Char) :
  e.size (c :: cs) = e.units c + e.size cs
  := by
  rw [size, List.foldl_cons, foldl_units, Nat.zero_add]

@[simp]
theorem size_append (cs ds : List Char) :
  e.size (cs ++ ds) = e.size cs + e.size ds
  := by
  induction cs with
  | nil => simp
  | cons c cs ih =>
    rw [List.cons_append, size_cons, size_cons, ih]
    omega

/-- No encoding has more units than UTF-8. -/
theorem units_le (c : Char) :
  e.units c ≤ c.utf8Size
  := by
  cases e with
  | utf8 => rfl
  | utf16 =>
    have hpos := c.utf8Size_pos
    simp only [units]
    split
    · omega
    · next hlarge =>
      have hfour : c.utf8Size = 4 := by
        rw [Char.utf8Size_eq_four_iff, UInt32.lt_iff_toNat_lt]
        apply Nat.lt_of_succ_le (Nat.not_lt.mp hlarge)
      omega
  | utf32 => apply c.utf8Size_pos

theorem size_le_utf8 (cs : List Char) :
  e.size cs ≤ utf8.size cs
  := by
  induction cs with
  | nil => rfl
  | cons c cs ih =>
    rw [size_cons, size_cons]
    apply Nat.add_le_add (e.units_le c) ih

/-- The size of a text in UTF-8 is its number of bytes. -/
theorem size_utf8 (text : String) :
  utf8.size text.toList = text.utf8ByteSize
  := by
  have hsize : ∀ cs, utf8.size cs = (String.ofList cs).utf8ByteSize := by
    intro cs
    induction cs with
    | nil => rfl
    | cons c cs ih =>
      rw [size_cons, ih, String.ofList_cons, String.utf8ByteSize_append,
        String.utf8ByteSize_singleton, units]
  rw [hsize, String.ofList_toList]

end Encoding

/-- A character, `n` times. -/
def repeated (c : Char) (n : Nat) : String := String.ofList (List.replicate n c)

theorem toList_repeated (c : Char) (n : Nat) :
  (repeated c n).toList = List.replicate n c
  := String.toList_ofList

theorem utf8ByteSize_repeated {c : Char} (hc : c.utf8Size = 1) (n : Nat) :
  (repeated c n).utf8ByteSize = n
  := by
  induction n with
  | zero => rw [repeated, List.replicate_zero, String.ofList_nil, String.utf8ByteSize_empty]
  | succ n ih =>
    rw [repeated, List.replicate_succ, String.ofList_cons, String.utf8ByteSize_append,
      String.utf8ByteSize_singleton, ← repeated, ih, hc, Nat.add_comm]

/-- There are not more line ends than bytes. -/
theorem count_le_size (cs : List Char) :
  cs.count '\n' ≤ Encoding.utf8.size cs
  := by
  calc cs.count '\n'
    _ ≤ cs.length := List.count_le_length
    _ = Encoding.utf32.size cs := by
      induction cs with
      | nil => rfl
      | cons c cs ih =>
        rw [List.length_cons, Encoding.size_cons, ih, Encoding.units]
        omega
    _ ≤ Encoding.utf8.size cs := Encoding.utf32.size_le_utf8 cs

/-! ### Boundaries -/

variable {text : List Char} {n : Nat}

@[simp]
theorem charsBefore_zero (cs : List Char) :
  charsBefore 0 cs = []
  := by
  cases cs with
  | nil => rfl
  | cons c cs =>
    have := c.utf8Size_pos
    rw [charsBefore, if_neg (by omega)]

@[simp]
theorem charsFrom_zero (cs : List Char) :
  charsFrom 0 cs = cs
  := by
  cases cs with
  | nil => rfl
  | cons c cs =>
    have := c.utf8Size_pos
    rw [charsFrom, if_neg (by omega)]

theorem charsBefore_append (pre post : List Char) (n : Nat) :
  charsBefore (Encoding.utf8.size pre + n) (pre ++ post) = pre ++ charsBefore n post
  := by
  induction pre with
  | nil => simp
  | cons c cs ih =>
    have hoffset : c.utf8Size + Encoding.utf8.size cs + n - c.utf8Size
        = Encoding.utf8.size cs + n := by omega
    rw [List.cons_append, charsBefore, Encoding.size_cons, Encoding.units, if_pos (by omega),
      hoffset, ih, List.cons_append]

theorem charsFrom_append (pre post : List Char) :
  charsFrom (Encoding.utf8.size pre) (pre ++ post) = post
  := by
  induction pre with
  | nil => simp
  | cons c cs ih =>
    rw [List.cons_append, charsFrom, Encoding.size_cons, Encoding.units, if_pos (by omega),
      Nat.add_sub_cancel_left, ih]

/-- The boundaries of a text are the sizes of its beginnings. -/
theorem isBoundary_iff :
  isBoundary n text = true ↔ ∃ pre post, text = pre ++ post ∧ Encoding.utf8.size pre = n
  := by
  constructor
  · intro h
    fun_induction isBoundary n text with
    | case1 text =>
      use [], text, rfl
      rfl
    | case2 => contradiction
    | case3 n c cs ih =>
      rw [Bool.and_eq_true, decide_eq_true_eq] at h
      obtain ⟨pre, post, rfl, hsize⟩ := ih h.2
      use c :: pre, post, rfl
      rw [Encoding.size_cons, hsize, Encoding.units]
      omega
  · rintro ⟨pre, post, rfl, rfl⟩
    induction pre with
    | nil => rw [Encoding.size_nil, isBoundary]
    | cons c cs ih =>
      have hpos := c.utf8Size_pos
      obtain ⟨m, hm⟩ : ∃ m, Encoding.utf8.size (c :: cs) = m + 1 := by
        use Encoding.utf8.size (c :: cs) - 1
        rw [Encoding.size_cons, Encoding.units]
        omega
      have hrest : m + 1 - c.utf8Size = Encoding.utf8.size cs := by
        rw [← hm, Encoding.size_cons, Encoding.units]
        omega
      rw [hm, List.cons_append, isBoundary, hrest, ih, Bool.and_true, decide_eq_true_eq]
      rw [← hm, Encoding.size_cons, Encoding.units]
      omega

/-- Rounding down finds the last boundary. -/
theorem isGreatest_roundDown (text : List Char) (n : Nat) :
  IsGreatest { b | isBoundary b text = true ∧ b ≤ n } (roundDown text n)
  := by
  induction n with
  | zero =>
    use ⟨by rw [roundDown, isBoundary], le_refl 0⟩
    rintro b ⟨-, hb⟩
    apply hb
  | succ n ih =>
    rw [roundDown]
    split
    · next htrue =>
      use ⟨htrue, le_refl _⟩
      rintro b ⟨-, hb⟩
      apply hb
    · next hfalse =>
      obtain ⟨⟨hboundary, hle⟩, hgreatest⟩ := ih
      use ⟨hboundary, by omega⟩
      rintro b ⟨hb, hb'⟩
      apply hgreatest
      use hb
      have hne : b ≠ n + 1 := by
        rintro rfl
        contradiction
      change b ≤ n
      omega

theorem isBoundary_boundary (text : List Char) (offset : Nat) :
  isBoundary (boundary text offset) text = true
  := (isGreatest_roundDown text _).1.1

/-- The text before a boundary, and then the text between it and a later one. -/
theorem charsBefore_append_slice {first last : Nat} (hle : first ≤ last)
    (hfirst : isBoundary first text = true) :
  charsBefore first text ++ slice first last text = charsBefore last text
  := by
  obtain ⟨pre, post, rfl, rfl⟩ := isBoundary_iff.mp hfirst
  have hbefore := charsBefore_append pre post 0
  have hlast := charsBefore_append pre post (last - Encoding.utf8.size pre)
  rw [Nat.add_zero, charsBefore_zero, List.append_nil] at hbefore
  rw [Nat.add_sub_cancel' hle] at hlast
  rw [slice, charsFrom_append, hbefore, hlast]

theorem size_charsBefore_le (n : Nat) (text : List Char) :
  Encoding.utf8.size (charsBefore n text) ≤ Encoding.utf8.size text
  := by
  fun_induction charsBefore n text with
  | case1 => rfl
  | case2 n c cs hle ih =>
    rw [Encoding.size_cons, Encoding.size_cons]
    omega
  | case3 => apply Nat.zero_le

/-! ### Lines -/

/-- The last line of two pieces of text is that of the second, unless it has no line end. -/
theorem lastLine_append (pre cs : List Char) :
  lastLine (pre ++ cs) = if '\n' ∈ cs then lastLine cs else lastLine pre ++ cs
  := by
  rw [lastLine, List.reverse_append]
  split
  · next hmem =>
    have hlength : (cs.reverse.takeWhile (· ≠ '\n')).length ≠ cs.reverse.length := by
      intro hlength
      have hself := (List.takeWhile_prefix (· ≠ '\n')).eq_of_length hlength
      rw [List.takeWhile_eq_self_iff] at hself
      apply absurd (hself '\n' (List.mem_reverse.mpr hmem))
      decide
    rw [List.takeWhile_append, if_neg hlength, lastLine]
  · next hmem =>
    rw [List.takeWhile_append_of_pos, List.reverse_append, List.reverse_reverse, lastLine]
    intro c hc
    rw [decide_eq_true_eq]
    rintro rfl
    apply hmem (List.mem_reverse.mp hc)

namespace LineCol

/-- The position after some more text is that of the end of all the text. -/
theorem after_ofEnd (e : Encoding) {pre cs : List Char}
    (hsize : Encoding.utf8.size (pre ++ cs) ≤ countLimit) :
  (ofEnd e pre).after e cs = ofEnd e (pre ++ cs)
  := by
  have hlines := count_le_size (pre ++ cs)
  rw [List.count_append] at hlines
  rw [after, lastLine?, ofEnd, ofEnd, lastLine_append, List.count_append]
  by_cases hmem : '\n' ∈ cs
  · simp only [hmem, if_true, addUpTo]
    congr 1
    omega
  · have hcount : cs.count '\n' = 0 := List.count_eq_zero.mpr hmem
    simp only [hmem, if_false, addUpTo, Encoding.measure, Encoding.size_append, hcount]
    congr 1
    omega

end LineCol

/-! ### Cursors -/

namespace Cursor

variable {e : Encoding} {k : Cursor}

/-- A cursor in a text stands at a boundary, and its position is that of the text before it. -/
structure Correct (e : Encoding) (text : List Char) (k : Cursor) : Prop where
  encoding_eq : k.encoding = e
  text_eq : k.text = text
  boundary : isBoundary k.offset text = true
  position_eq : k.position = .ofEnd e (charsBefore k.offset text)

theorem correct_start (e : Encoding) (text : List Char) :
  Correct e text (start e text)
  where
  encoding_eq := rfl
  text_eq := rfl
  boundary := by rw [start, isBoundary]
  position_eq := by
    rw [start, charsBefore_zero]
    rfl

/-- Going on to a later boundary keeps a cursor correct. -/
theorem Correct.scanTo (h : Correct e text k)
    (hsize : Encoding.utf8.size text ≤ countLimit) {target : Nat} (hle : k.offset ≤ target)
    (htarget : isBoundary target text = true) :
  Correct e text (k.scanTo target)
  where
  encoding_eq := h.encoding_eq
  text_eq := h.text_eq
  boundary := htarget
  position_eq := by
    have hslice := charsBefore_append_slice hle h.boundary
    have hbefore := size_charsBefore_le target text
    rw [Cursor.scanTo, h.encoding_eq, h.text_eq, h.position_eq]
    rw [← hslice] at hbefore ⊢
    apply LineCol.after_ofEnd e (le_trans hbefore hsize)

/-- Going to any offset keeps a cursor correct, and takes it to the boundary of the offset. -/
theorem Correct.moveTo (h : Correct e text k)
    (hsize : Encoding.utf8.size text ≤ countLimit) (offset : Nat) :
  Correct e text (k.moveTo offset)
    ∧ (k.moveTo offset).offset = InlayHints.boundary text offset
  := by
  have hboundary := isBoundary_boundary text offset
  rw [Cursor.moveTo, h.encoding_eq, h.text_eq]
  split
  · use (correct_start e text).scanTo hsize (Nat.zero_le _) hboundary
    rfl
  · next hle =>
    use h.scanTo hsize (Nat.not_lt.mp hle) hboundary
    rfl

/-- A correct cursor gives an offset the position it has from scratch. -/
theorem Correct.position_moveTo (h : Correct e text k)
    (hsize : Encoding.utf8.size text ≤ countLimit) (offset : Nat) :
  (k.moveTo offset).position = .ofOffset e text offset
  := by
  obtain ⟨hcorrect, hoffset⟩ := h.moveTo hsize offset
  rw [hcorrect.position_eq, hoffset, LineCol.ofOffset]

/-- A correct cursor gives all offsets, one after the other, their positions from scratch. -/
theorem Correct.positions (h : Correct e text k)
    (hsize : Encoding.utf8.size text ≤ countLimit) (offsets : List Nat) :
  k.positions offsets = offsets.map (LineCol.ofOffset e text)
  := by
  have hfold : ∀ done, (offsets.foldl visit (k, done)).2
      = (offsets.map (LineCol.ofOffset e text)).reverse ++ done := by
    induction offsets generalizing k with
    | nil =>
      intro done
      rfl
    | cons offset offsets ih =>
      intro done
      rw [List.foldl_cons, visit, ih (h.moveTo hsize offset).1, h.position_moveTo hsize]
      simp
  rw [Cursor.positions, hfold, List.append_nil, List.reverse_reverse]

/-- One cursor that goes to offsets in any order gives each the position it has from scratch,
and the boundary that is taken for the offset is the last one that is neither behind the offset
nor behind the end of the text. -/
theorem positions_eq_ofOffset (e : Encoding) (text : String) (offsets : List Nat)
    (hsize : text.utf8ByteSize ≤ countLimit) :
  (start e text.toList).positions offsets = offsets.map (LineCol.ofOffset e text.toList)
    ∧ ∀ offset, IsGreatest
        { b | isBoundary b text.toList = true ∧ b ≤ min offset text.utf8ByteSize }
        (boundary text.toList offset)
  := by
  rw [← Encoding.size_utf8] at hsize ⊢
  constructor
  · apply (correct_start e text.toList).positions hsize
  · intro offset
    apply isGreatest_roundDown

/-- Offsets behind each other, behind the end and inside a character. -/
theorem positions_eq_ofOffset_mixed :
  "aé\n𝕜b".utf8ByteSize ≤ countLimit
    ∧ (start .utf16 "aé\n𝕜b".toList).positions [9, 100, 2, 6, 8]
      = [⟨1, 3⟩, ⟨1, 3⟩, ⟨0, 1⟩, ⟨1, 0⟩, ⟨1, 2⟩]
  := by
  have hsize : "aé\n𝕜b".utf8ByteSize ≤ countLimit := by decide
  use hsize
  rw [(positions_eq_ofOffset .utf16 "aé\n𝕜b" _ hsize).1]
  decide

end Cursor

end InlayHints

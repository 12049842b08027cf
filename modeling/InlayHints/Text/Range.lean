/-!
# Ranges of a text

A range of offsets.  Two ranges touch if they have an offset in common, ends included, so
ranges that only meet at an end touch as well.
-/

namespace InlayHints

/-- The offsets from `start` to `stop`. -/
structure TextRange where
  start : Nat
  stop : Nat
  start_le_stop : start ≤ stop
deriving DecidableEq

namespace TextRange

/-- The range between two offsets, `none` if they are the wrong way round. -/
def ofBounds? (start stop : Nat) : Option TextRange :=
  if h : start ≤ stop then some ⟨start, stop, h⟩ else none

/-- Whether two ranges have an offset in common. -/
def touches (r s : TextRange) : Bool := r.start ≤ s.stop && s.start ≤ r.stop

/-- Whether every offset of `s` lies in `r`. -/
def contains (r s : TextRange) : Bool := r.start ≤ s.start && s.stop ≤ r.stop

/-- The range of `width` bytes from `start` on. -/
def ofWidth (start width : Nat) : TextRange := ⟨start, start + width, Nat.le_add_right ..⟩

/-- The ranges of `width` bytes that start at the offsets up to `last`. -/
def sweep (width last : Nat) : List TextRange := (List.range (last + 1)).map (ofWidth · width)

end TextRange

end InlayHints

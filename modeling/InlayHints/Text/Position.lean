import InlayHints.Text.Encoding

/-!
# Lines and columns

The position of an offset: its line, counted by the line ends before it, and its column,
counted in code units from the last line end before it.  An offset behind the end of the text
is taken for the end, and an offset inside a character for the start of that character.
`LineCol.ofOffset` computes a position from the whole text before the offset.  A `Cursor`
goes over the text between one offset and the next instead, and starts over only to go back.
-/

namespace InlayHints

/-! ### Offsets into a text -/

/-- The characters that lie before an offset as a whole. -/
def charsBefore (offset : Nat) : List Char → List Char
  | [] => []
  | c :: cs => if c.utf8Size ≤ offset then c :: charsBefore (offset - c.utf8Size) cs else []

/-- What is left of a text after the characters before an offset. -/
def charsFrom (offset : Nat) : List Char → List Char
  | [] => []
  | c :: cs => if c.utf8Size ≤ offset then charsFrom (offset - c.utf8Size) cs else c :: cs

/-- The text between two offsets. -/
def slice (first last : Nat) (text : List Char) : List Char :=
  charsBefore (last - first) (charsFrom first text)

/-- Whether an offset is the start of a character or the end of the text. -/
def isBoundary : Nat → List Char → Bool
  | 0, _ => true
  | _ + 1, [] => false
  | n + 1, c :: cs => c.utf8Size ≤ n + 1 && isBoundary (n + 1 - c.utf8Size) cs

/-- The nearest offset at or before the given one that is a boundary. -/
def roundDown (text : List Char) : Nat → Nat
  | 0 => 0
  | n + 1 => if isBoundary (n + 1) text then n + 1 else roundDown text n

/-- The boundary that an offset is taken for. -/
def boundary (text : List Char) (offset : Nat) : Nat :=
  roundDown text (min offset (Encoding.utf8.size text))

/-- What follows the last line end of a text, the whole text if there is none. -/
def lastLine (cs : List Char) : List Char := (cs.reverse.takeWhile (· ≠ '\n')).reverse

/-- What follows the last line end of a text, if there is one. -/
def lastLine? (cs : List Char) : Option (List Char) :=
  if '\n' ∈ cs then some (lastLine cs) else none

/-- A line and a column, both counted from zero. -/
structure LineCol where
  line : Nat
  col : Nat
deriving DecidableEq, Repr, Inhabited

namespace LineCol

/-- Earlier lines come first, and on one line earlier columns. -/
def le (p q : LineCol) : Bool := p.line < q.line || p.line = q.line && p.col ≤ q.col

/-- The positions in order, each one once. -/
def sortDistinct (ps : List LineCol) : List LineCol := (ps.mergeSort le).eraseReps

/-- The position with line and column counted from one; `none` if one of them is beyond the
limit when counted so. -/
def display? (p : LineCol) : Option String :=
  if p.line + 1 ≤ countLimit && p.col + 1 ≤ countLimit then
    some (toString (p.line + 1) ++ ":" ++ toString (p.col + 1))
  else none

/-- The position of the end of a text. -/
def ofEnd (e : Encoding) (before : List Char) : LineCol where
  line := before.count '\n'
  col := e.measure (lastLine before)

/-- The position of an offset, from scratch. -/
def ofOffset (e : Encoding) (text : List Char) (offset : Nat) : LineCol :=
  ofEnd e (charsBefore (boundary text offset) text)

/-- The position after some more text. -/
def after (e : Encoding) (p : LineCol) (scanned : List Char) : LineCol :=
  match lastLine? scanned with
  | some last => ⟨addUpTo p.line (min (scanned.count '\n') countLimit), e.measure last⟩
  | none => ⟨p.line, addUpTo p.col (e.measure scanned)⟩

end LineCol

/-- A place in a text, with what is needed to go on from there. -/
structure Cursor where
  encoding : Encoding
  text : List Char
  offset : Nat
  position : LineCol

namespace Cursor

/-- The start of a text. -/
def start (e : Encoding) (text : List Char) : Cursor := ⟨e, text, 0, ⟨0, 0⟩⟩

/-- Goes over the text up to an offset that does not lie before the cursor. -/
def scanTo (k : Cursor) (target : Nat) : Cursor :=
  { k with
    offset := target
    position := k.position.after k.encoding (slice k.offset target k.text) }

/-- Goes to an offset, over the text between, or from the start if the offset lies before. -/
def moveTo (k : Cursor) (offset : Nat) : Cursor :=
  let target := boundary k.text offset
  if target < k.offset then (start k.encoding k.text).scanTo target else k.scanTo target

/-- Goes to an offset and puts its position before those found so far. -/
def visit (state : Cursor × List LineCol) (offset : Nat) : Cursor × List LineCol :=
  let k := state.1.moveTo offset
  (k, k.position :: state.2)

/-- The positions of offsets in any order, by one cursor that goes from each to the next. -/
def positions (k : Cursor) (offsets : List Nat) : List LineCol :=
  (offsets.foldl visit (k, [])).2.reverse

end Cursor

end InlayHints

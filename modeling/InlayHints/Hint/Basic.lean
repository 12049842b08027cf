import InlayHints.Hint.Config
import InlayHints.Text.Position

/-!
# Hints

A hint is a short label that an editor shows inside a text: the name of a parameter before an
argument, or the type of a value after its name.  It is first found at an offset, as a
`RawHint`; `RawHint.place` sorts the hints of a request by their offsets, keeping the order of
those at one offset, and turns offsets into lines and columns.
-/

namespace InlayHints

/-- What a hint shows. -/
inductive HintKind where
  | type
  | parameter
deriving DecidableEq, Repr, Inhabited

/-- The text shown when the pointer rests on a hint. -/
structure Tooltip where
  markup : Markup
  text : String
deriving DecidableEq, Repr, Inhabited

/-- A hint at an offset. -/
structure RawHint where
  offset : Nat
  label : String
  kind : HintKind
  tooltip : Option Tooltip
deriving DecidableEq, Repr, Inhabited

/-- A hint at a line and column, and whether space is left before and after it. -/
structure Hint where
  position : LineCol
  label : String
  kind : HintKind
  tooltip : Option Tooltip
  paddingLeft : Bool
  paddingRight : Bool
deriving DecidableEq, Repr, Inhabited

/-! ### Tooltips of parameters -/

/-- The qualifiers of a parameter as they are written before its type. -/
def qualifierText (isNoalias isComptime : Bool) : String :=
  (if isNoalias then "noalias " else "") ++ (if isComptime then "comptime " else "")

namespace Tooltip

/-- Marks a piece of source text as such. -/
def codeText : Markup → String → String
  | .plaintext, code => code
  | .markdown, code => "```zig\n" ++ code ++ "\n```"

/-- The tooltip of a parameter with the given qualifiers and type; it is empty if the type is. -/
def ofParameter (markup : Markup) (isNoalias isComptime : Bool) (type : String) : Tooltip where
  markup := markup
  text := if type = "" then "" else codeText markup (qualifierText isNoalias isComptime ++ type)

end Tooltip

/-! ### Placing hints -/

namespace RawHint

/-- Whether a hint does not come after another one in the text. -/
def le (a b : RawHint) : Bool := a.offset ≤ b.offset

/-- The hint at a line and column; space is left between a parameter and its argument. -/
def placeAt (h : RawHint) (p : LineCol) : Hint where
  position := p
  label := h.label
  kind := h.kind
  tooltip := h.tooltip
  paddingLeft := false
  paddingRight := h.kind = .parameter

/-- The hints of a text in order, with lines and columns. -/
def place (e : Encoding) (text : String) (hints : List RawHint) : List Hint :=
  let sorted := hints.mergeSort le
  sorted.zipWith placeAt ((Cursor.start e text.toList).positions (sorted.map RawHint.offset))

end RawHint

end InlayHints

/-!
# Blank characters

The characters with the property `White_Space` of the Unicode standard, and how a text is
trimmed and cut into words by them.  Zero-width spaces and the control characters U+001C to
U+001F do not have the property.
-/

namespace InlayHints

namespace Text

/-- The first and last code points of the ranges of blank characters, in ascending order. -/
def blankRanges : List (Nat × Nat) :=
  [(0x0009, 0x000D), (0x0020, 0x0020), (0x0085, 0x0085), (0x00A0, 0x00A0), (0x1680, 0x1680),
    (0x2000, 0x200A), (0x2028, 0x2029), (0x202F, 0x202F), (0x205F, 0x205F), (0x3000, 0x3000)]

/-- Whether a character is blank. -/
def isBlank (c : Char) : Bool := blankRanges.any fun (lo, hi) => lo ≤ c.toNat && c.toNat ≤ hi

/-- The text without the blank characters at both ends. -/
def trim (cs : List Char) : List Char :=
  ((cs.dropWhile isBlank).reverse.dropWhile isBlank).reverse

/-- Puts a word in front of others if it is not empty. -/
def consWord (word : List Char) (words : List (List Char)) : List (List Char) :=
  if word.isEmpty then words else word :: words

/-- The longest pieces of a text without blank characters. -/
def words (cs : List Char) : List (List Char) :=
  let (word, rest) := cs.foldr
    (fun c (word, rest) => if isBlank c then ([], consWord word rest) else (c :: word, rest))
    ([], [])
  consWord word rest

end Text

end InlayHints

import InlayHints.Syntax.Token
import InlayHints.Text.Encoding

/-!
# Cutting a text into tokens

A text is cut from left to right, and each token is the longest one that some token class
allows at its place.  `Lexer.scan` looks at the first character and what follows it and says
how many of the following characters belong to the token, so no character is lost or moved:
`Lexer.scan_cut` and `Lexer.texts_pieces` state this.  A character that starts no token is an
error token of its own, and a quote that is never closed is an error token that reaches as
far as the quoted text would.

Offsets are given up to `countLimit`.  The cutting stops at the first token that ends past it,
so the tokens of a longer text, `Token.lex`, are not all its pieces.
-/

namespace InlayHints

namespace Lexer

/-- The characters between tokens. -/
def isBlank (c : Char) : Bool := c = ' ' || c = '\t' || c = '\r' || c = '\n'

/-- The characters an identifier may start with. -/
def isWordStart (c : Char) : Bool := c.isAlpha || c = '_'

/-- The characters an identifier may go on with. -/
def isWordPart (c : Char) : Bool := isWordStart c || c.isDigit

/-- The characters a number may go on with. -/
def isNumberPart (c : Char) : Bool := c.isDigit || c = '_'

/-- The keywords. -/
def keyword? (word : String) : Option TokenKind :=
  match word with
  | "const" => some .constKw
  | "var" => some .varKw
  | "fn" => some .fnKw
  | "pub" => some .pubKw
  | "return" => some .returnKw
  | "struct" => some .structKw
  | "noalias" => some .noaliasKw
  | "comptime" => some .comptimeKw
  | "anytype" => some .anytypeKw
  | _ => none

/-- The tokens of a single character that start no longer token. -/
def punctuation? (c : Char) : Option TokenKind :=
  match c with
  | '(' => some .lParen
  | ')' => some .rParen
  | '{' => some .lBrace
  | '}' => some .rBrace
  | '[' => some .lBracket
  | ']' => some .rBracket
  | ',' => some .comma
  | ';' => some .semicolon
  | ':' => some .colon
  | '.' => some .dot
  | '=' => some .eq
  | '*' => some .star
  | '?' => some .question
  | '!' => some .bang
  | '+' => some .plus
  | '-' => some .minus
  | '/' => some .slash
  | '&' => some .amp
  | _ => none

/-- How many characters at the front satisfy `p`. -/
def reach (p : Char → Bool) (cs : List Char) : Nat := (cs.takeWhile p).length

/-- How many characters at the front, added to `n`, are quoted text: a unit is one character
other than a quote, a backslash and a line end, or a backslash and one character other than
a line end. -/
def quotedReach (n : Nat) : List Char → Nat
  | [] => n
  | '\\' :: d :: cs => if d = '\n' then n else quotedReach (n + 2) cs
  | c :: cs => if c = '"' || c = '\\' || c = '\n' then n else quotedReach (n + 1) cs

/-- The kind of the token that starts with `c`, and how many of the characters `cs` after it
belong to it. -/
def scan (c : Char) (cs : List Char) : TokenKind × Nat :=
  if isBlank c then
    (.whitespace, reach isBlank cs)
  else if c = '/' && cs.head? = some '/' then
    (.comment, reach (· ≠ '\n') cs)
  else if isWordStart c then
    let n := reach isWordPart cs
    ((keyword? (String.ofList (c :: cs.take n))).getD .ident, n)
  else if c = '@' && cs.head?.any isWordStart then
    (.builtinIdent, reach isWordPart cs)
  else if c.isDigit then
    (.intNumber, reach isNumberPart cs)
  else if c = '"' then
    let n := quotedReach 0 cs
    if (cs.drop n).head? = some '"' then (.stringLit, n + 1) else (.errorToken, n)
  else
    ((punctuation? c).getD .errorToken, 0)

/-- The first token of a text that is not empty. -/
def first (c : Char) (cs : List Char) : Token :=
  ⟨(scan c cs).1, String.ofList (c :: cs.take (scan c cs).2)⟩

/-- What follows the first token. -/
def rest (c : Char) (cs : List Char) : List Char := cs.drop (scan c cs).2

theorem length_rest_le (c : Char) (cs : List Char) :
  (rest c cs).length ≤ cs.length
  := by
  simp [rest]

/-- The first token and what follows it make up the text. -/
theorem scan_cut (c : Char) (cs : List Char) :
  (first c cs).text.toList ++ rest c cs = c :: cs
  := by
  simp [first, rest]

/-- The tokens of a text, behind the tokens `done` that were cut before, the last one first. -/
def cut (done : List Token) : List Char → List Token
  | [] => done.reverse
  | c :: cs => cut (first c cs :: done) (rest c cs)
termination_by cs => cs.length
decreasing_by
  have := length_rest_le c cs
  simp only [List.length_cons]
  omega

/-- All the tokens that a text is made up of, in order. -/
def pieces (text : String) : List Token := cut [] text.toList

theorem flatMap_cut (done : List Token) (cs : List Char) :
  (cut done cs).flatMap (·.text.toList) = done.reverse.flatMap (·.text.toList) ++ cs
  := by
  fun_induction cut done cs with
  | case1 done => simp
  | case2 done c cs ih =>
    rw [ih]
    simp [List.flatMap_append, scan_cut]

/-- The texts of the pieces, put together, are the text they were cut from. -/
theorem texts_pieces (text : String) :
  (pieces text).flatMap (·.text.toList) = text.toList
  := by
  simp [pieces, flatMap_cut]

end Lexer

namespace Token

/-- Whether the end of a token, given with the offset it starts at, is within the limit of
offsets. -/
def endsInLimit (placed : Nat × Token) : Bool := placed.1 + placed.2.width ≤ countLimit

/-- The tokens of a text, in order, as far as their offsets are given. -/
def lex (text : String) : List Token :=
  ((withStarts (Lexer.pieces text)).takeWhile endsInLimit).map Prod.snd

end Token

end InlayHints

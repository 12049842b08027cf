import InlayHints.Syntax.Kind

/-!
# Tokens

A token is a kind together with the text it covers.  Widths are counted in bytes of UTF-8,
the unit of all offsets into a text.
-/

namespace InlayHints

/-- A classified piece of text. -/
structure Token where
  kind : TokenKind
  text : String
deriving DecidableEq, Repr, Inhabited

namespace Token

/-- The number of bytes a token covers. -/
def width (t : Token) : Nat := t.text.utf8ByteSize

/-- Whitespace and comments. -/
def isTrivia (t : Token) : Bool := t.kind.isTrivia

/-- The number of bytes that a list of tokens covers. -/
def totalWidth (ts : List Token) : Nat := ts.foldl (fun n t => n + t.width) 0

/-- Puts a token, with the offset it starts at, before those that were placed so far. -/
def place (state : Nat × List (Nat × Token)) (t : Token) : Nat × List (Nat × Token) :=
  (state.1 + t.width, (state.1, t) :: state.2)

/-- The tokens with the offsets they start at, when the first one starts the text. -/
def withStarts (ts : List Token) : List (Nat × Token) := (ts.foldl place (0, [])).2.reverse

end Token

end InlayHints

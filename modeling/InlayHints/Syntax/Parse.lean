import InlayHints.Syntax.Token.Lexer
import InlayHints.Grammar.Construct

/-!
# Parsing

`Parse.ofText` reads a text: it gives a tree that covers the text and the faults in the order
in which they were noticed.  A text that is too long for its offsets is not read at all; its
tree is empty, and the only fault says why.
-/

namespace InlayHints

/-- How deep expressions, operands and blocks may nest. -/
def nestingLimit : Nat := 512

/-- The tree of a text and the faults found in it. -/
structure Parse where
  tree : Tree
  faults : List Fault
deriving DecidableEq

namespace Parse

/-- The state after the file of the given tokens was read, trivia at its end included. -/
def finalState (ts : List Token) : State :=
  (Construct.file.run (Construct.grammar.read nestingLimit) (.start ts)).flush

/-- Reads a list of tokens. -/
def ofTokens (ts : List Token) : Parse :=
  let s := finalState ts
  ⟨.node .sourceFile s.out.reverse, s.faults.reverse⟩

/-- What comes of a text of `size` bytes that is too long to be read. -/
def rejected (size : Nat) : Parse := ⟨.node .sourceFile [], [⟨.tooLong size, 0⟩]⟩

/-- Reads a text, unless its end is past the limit of offsets. -/
def ofText (text : String) : Parse :=
  if countLimit < text.utf8ByteSize then rejected text.utf8ByteSize
  else ofTokens (Token.lex text)

end Parse

end InlayHints

import InlayHints.Syntax.Kind
import InlayHints.Text.Encoding

/-!
# Faults

Reading a text never fails; what does not fit the grammar is reported as a fault, which has
a cause and the offset of the token at which it was noticed.  So is a text that is too long to
be read.
-/

namespace InlayHints

/-- Why a text is not read as it should be.  What was found is `none` at the end of the text. -/
inductive Cause where
  /-- A certain token had to come. -/
  | missingToken (wanted : TokenKind) (found : Option TokenKind)
  /-- An expression had to come, and what came ends or divides something. -/
  | missingExpression (found : Option TokenKind)
  /-- An expression had to come, and what came starts none. -/
  | notAnExpression
  /-- The name of a builtin has no arguments after it. -/
  | missingArguments
  | notAnArgument
  | notAParameter
  | strayAtTop
  | strayInBlock
  | strayInContainer
  /-- The limit of nesting is reached. -/
  | nestedTooDeep
  /-- The text has `size` bytes, more than can be addressed. -/
  | tooLong (size : Nat)
deriving DecidableEq, Repr

/-- The wording of a cause. -/
def Cause.message : Cause → String
  | .missingToken wanted found =>
    "expected " ++ wanted.name ++ ", found " ++ (Kind.ofAhead found).name
  | .missingExpression found => "expected expression, found " ++ (Kind.ofAhead found).name
  | .notAnExpression => "expected expression"
  | .missingArguments => "expected argument list after builtin"
  | .notAnArgument => "expected argument"
  | .notAParameter => "expected parameter"
  | .strayAtTop => "unexpected token at top level"
  | .strayInBlock => "unexpected token in block"
  | .strayInContainer => "unexpected token in container"
  | .nestedTooDeep => "nesting too deep"
  | .tooLong size =>
    "source text is " ++ toString size ++ " bytes, limit is " ++ toString countLimit

/-- A cause and the offset of the token it was noticed at. -/
structure Fault where
  cause : Cause
  offset : Nat
deriving DecidableEq, Repr

end InlayHints

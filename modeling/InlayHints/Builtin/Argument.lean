import InlayHints.Text.Blank

/-!
# Descriptors of arguments

An argument of a builtin is described by a text such as `comptime T: type`: words, a colon and
a type.  The last word is the label of the argument, the words before it may be qualifiers.
The colon and the type may be missing.
-/

namespace InlayHints

/-- What a descriptor says. -/
structure BuiltinArgument where
  label : String := ""
  type : String := ""
  isNoalias : Bool := false
  isComptime : Bool := false
deriving DecidableEq, Repr, Inhabited

namespace BuiltinArgument

/-- The part of a descriptor before its first colon. -/
def head (descriptor : String) : List Char := descriptor.toList.takeWhile (· ≠ ':')

/-- The part of a descriptor after its first colon, empty if there is no colon. -/
def tail (descriptor : String) : List Char := (descriptor.toList.dropWhile (· ≠ ':')).drop 1

/-- Reads a descriptor. -/
def parse (descriptor : String) : BuiltinArgument :=
  let words := (Text.words (head descriptor)).map String.ofList
  { label := words.getLast?.getD ""
    type := String.ofList (Text.trim (tail descriptor))
    isNoalias := words.dropLast.contains "noalias"
    isComptime := words.dropLast.contains "comptime" }

/-- Whether no argument from this one on is described: there is no label, or the label says
that any number of arguments may follow. -/
def endsArguments (a : BuiltinArgument) : Bool := a.label = "" || a.label = "..."

end BuiltinArgument

end InlayHints

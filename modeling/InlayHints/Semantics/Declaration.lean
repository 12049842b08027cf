import InlayHints.Semantics.Signature

/-!
# What names stand for

The answers to questions about names and types: the declaration that a name refers to, and the
type of a declared value.
-/

namespace InlayHints

/-- What is declared. -/
inductive DeclarationKind where
  | function (signature : Signature)
  | variable
  | container
  | field
deriving DecidableEq, Repr, Inhabited

/-- A declared name. -/
structure Declaration where
  name : String
  kind : DeclarationKind
deriving DecidableEq, Repr, Inhabited

/-- The signature of a function, `none` for anything else. -/
def Declaration.signature? (d : Declaration) : Option Signature :=
  match d.kind with
  | .function signature => some signature
  | _ => none

/-- The type of a declared value: the text that shows it, and the names of the types that
occur in it. -/
structure InferredType where
  display : String := ""
  referenced : List String := []
deriving DecidableEq, Repr, Inhabited

/-- Adds names of types that occur in the type. -/
def InferredType.withReferenced (t : InferredType) (names : List String) : InferredType :=
  { t with referenced := t.referenced ++ names }

end InlayHints

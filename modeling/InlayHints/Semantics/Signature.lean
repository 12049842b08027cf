import InlayHints.Syntax.Node.Declaration

/-!
# Signatures

The signature of a function lists its parameters, as a caller sees them.  `Signature.ofFnDecl`
reads it off a declaration.  Of the qualifiers of a parameter, the last one and the one right
before it are taken.
-/

namespace InlayHints

/-- A parameter as a caller sees it. -/
structure Parameter where
  /-- The name, `none` for a parameter without one. -/
  name : Option String := none
  /-- The text of the type, empty if there is none. -/
  type : String := ""
  isAnytype : Bool := false
  isNoalias : Bool := false
  isComptime : Bool := false
deriving DecidableEq, Repr, Inhabited

/-- The parameters of a function, in order. -/
structure Signature where
  parameters : List Parameter
deriving DecidableEq, Repr, Inhabited

/-- The qualifiers of a parameter that a caller sees: the last one and, if it stands inside the
parameter, the token before it. -/
def Param.qualifiers (p : Param) : List TokenKind :=
  match p.qualifier? with
  | none => []
  | some last =>
    match last.previousSignificant? with
    | none => [last.kind]
    | some before => if p.start ≤ before.start then [last.kind, before.kind] else [last.kind]

/-- The parameter that a declaration describes. -/
def Parameter.ofParam (p : Param) : Parameter where
  name := p.name?.map Leaf.text
  type := (p.type?.map NodeSite.text).getD ""
  isAnytype := p.anytype?.isSome
  isNoalias := p.qualifiers.contains .noaliasKw
  isComptime := p.qualifiers.contains .comptimeKw

/-- The signature that a declaration describes. -/
def Signature.ofFnDecl (d : FnDecl) : Signature := ⟨d.parameters.map Parameter.ofParam⟩

end InlayHints

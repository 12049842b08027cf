import InlayHints.Syntax.Node.Expression

/-!
# Declarations

The parts of the declarations of variables, functions, parameters and containers.
-/

namespace InlayHints

/-- The declaration of a constant or a variable. -/
abbrev VarDecl : Type := NodeSite (NodeKind.is .varDecl)

/-- The type written after a declared name. -/
abbrev TypeAscription : Type := NodeSite (NodeKind.is .typeAscription)

/-- The declaration of a function. -/
abbrev FnDecl : Type := NodeSite (NodeKind.is .fnDecl)

/-- Parameters in parentheses. -/
abbrev ParamList : Type := NodeSite (NodeKind.is .paramList)

/-- A parameter of a function. -/
abbrev Param : Type := NodeSite (NodeKind.is .param)

/-- A container. -/
abbrev ContainerDecl : Type := NodeSite (NodeKind.is .containerDecl)

namespace VarDecl

/-- The keyword that says whether the value may change. -/
def mutability? (d : VarDecl) : Option Leaf :=
  d.site.ownTokens.find? fun l => l.kind = .constKw || l.kind = .varKw

/-- The token after the keyword, which is the declared name if the declaration has no fault. -/
def name? (d : VarDecl) : Option Leaf := d.mutability?.bind Leaf.nextSignificant?

/-- Whether a constant is declared. -/
def isConst (d : VarDecl) : Bool := d.mutability?.any (·.kind = .constKw)

/-- The type written after the name. -/
def typeAscription? (d : VarDecl) : Option TypeAscription := d.site.childOf? _

/-- The expression after the equals sign. -/
def initializer? (d : VarDecl) : Option Expr :=
  (d.site.ownToken? .eq).bind fun sign =>
    (d.site.elements.filter (sign.stop ≤ ·.start)).findSome? (NodeSite.ofSite? _)

end VarDecl

/-- The type itself. -/
def TypeAscription.type? (a : TypeAscription) : Option Expr := a.site.childOf? _

/-- The parameters in a list, from left to right. -/
def ParamList.parameters (l : ParamList) : List Param := l.site.childrenOf _

namespace FnDecl

/-- The name of the function. -/
def name? (d : FnDecl) : Option Leaf := d.site.ownToken? .ident

/-- The list of parameters. -/
def paramList? (d : FnDecl) : Option ParamList := d.site.childOf? _

/-- The parameters, from left to right. -/
def parameters (d : FnDecl) : List Param :=
  match d.paramList? with
  | some l => l.parameters
  | none => []

end FnDecl

namespace Param

/-- The last qualifier. -/
def qualifier? (p : Param) : Option Leaf := (p.site.ownTokens.filter (·.kind.isQualifier)).getLast?

/-- The name, which stands before the colon. -/
def name? (p : Param) : Option Leaf :=
  (p.site.ownToken? .colon).bind fun colon => colon.previousSignificant?.filter (·.kind = .ident)

/-- The keyword that stands in place of a type. -/
def anytype? (p : Param) : Option Leaf := p.site.ownToken? .anytypeKw

/-- The type. -/
def type? (p : Param) : Option Expr := p.site.childOf? _

end Param

/-- The functions declared directly in a container. -/
def ContainerDecl.functions (d : ContainerDecl) : List FnDecl := d.site.childrenOf _

end InlayHints

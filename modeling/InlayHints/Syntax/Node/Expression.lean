import InlayHints.Syntax.Node

/-!
# Expressions

The parts of expressions: what is called and with which arguments, what a field is taken of.
-/

namespace InlayHints

/-- An expression of any kind. -/
abbrev Expr : Type := NodeSite NodeKind.isExpr

/-- The call of a function. -/
abbrev Call : Type := NodeSite (NodeKind.is .callExpr)

/-- The call of a builtin. -/
abbrev BuiltinCall : Type := NodeSite (NodeKind.is .builtinCall)

/-- Arguments in parentheses. -/
abbrev ArgumentList : Type := NodeSite (NodeKind.is .argList)

/-- The access to a field. -/
abbrev FieldAccess : Type := NodeSite (NodeKind.is .fieldExpr)

/-- A name that stands as an expression. -/
abbrev NameRef : Type := NodeSite (NodeKind.is .nameRef)

namespace Expr

/-- Whether an expression has exactly one token other than trivia: its first one is its last
one. -/
def isSingleToken (e : Expr) : Bool :=
  match e.firstToken?, e.lastToken? with
  | some first, some last => first.start = last.start
  | _, _ => false

/-- The expression as a name. -/
def nameRef? (e : Expr) : Option NameRef := NodeSite.ofSite? _ e.site

/-- The expression as an access to a field. -/
def fieldAccess? (e : Expr) : Option FieldAccess := NodeSite.ofSite? _ e.site

end Expr

/-- The arguments in a list, from left to right. -/
def ArgumentList.arguments (l : ArgumentList) : List Expr := l.site.childrenOf _

namespace Call

/-- What is called. -/
def callee? (c : Call) : Option Expr := c.site.childOf? _

/-- The list of arguments. -/
def argumentList? (c : Call) : Option ArgumentList := c.site.childOf? _

/-- The arguments, from left to right. -/
def arguments (c : Call) : List Expr :=
  match c.argumentList? with
  | some l => l.arguments
  | none => []

end Call

namespace BuiltinCall

/-- The name of the builtin. -/
def name? (c : BuiltinCall) : Option Leaf := c.site.ownToken? .builtinIdent

/-- The list of arguments. -/
def argumentList? (c : BuiltinCall) : Option ArgumentList := c.site.childOf? _

/-- The arguments, from left to right. -/
def arguments (c : BuiltinCall) : List Expr :=
  match c.argumentList? with
  | some l => l.arguments
  | none => []

end BuiltinCall

namespace FieldAccess

/-- What the field is taken of. -/
def receiver? (f : FieldAccess) : Option Expr := f.site.childOf? _

/-- The name of the field. -/
def fieldName? (f : FieldAccess) : Option Leaf :=
  (f.site.ownTokens.filter (·.kind = .ident)).getLast?

end FieldAccess

/-- The identifier of a name. -/
def NameRef.identifier? (n : NameRef) : Option Leaf := n.site.ownToken? .ident

end InlayHints

/-!
# Kinds of tokens and nodes

A token kind classifies a piece of text, a node kind classifies a group of tokens.  `Kind`
joins both, together with the mark for the end of the text, and numbers them: token kinds
come first, then the end of the text, then node kinds.  `Kind.ofNumber` reads a number back
and takes every number beyond the last one for the kind of an error node.
-/

namespace InlayHints

/-- The kinds of tokens. -/
inductive TokenKind where
  | whitespace
  | comment
  | ident
  | builtinIdent
  | intNumber
  | stringLit
  | constKw
  | varKw
  | fnKw
  | pubKw
  | returnKw
  | structKw
  | noaliasKw
  | comptimeKw
  | anytypeKw
  | lParen
  | rParen
  | lBrace
  | rBrace
  | lBracket
  | rBracket
  | comma
  | semicolon
  | colon
  | dot
  | eq
  | star
  | question
  | bang
  | plus
  | minus
  | slash
  | amp
  /-- Text that no token class describes. -/
  | errorToken
deriving DecidableEq, Repr, Inhabited

/-- The kinds of nodes. -/
inductive NodeKind where
  | sourceFile
  | fnDecl
  | paramList
  | param
  | varDecl
  | typeAscription
  | containerDecl
  | containerField
  | block
  | returnStmt
  | exprStmt
  | callExpr
  | builtinCall
  | argList
  | fieldExpr
  | nameRef
  | literal
  | parenExpr
  | prefixExpr
  | sliceType
  | binExpr
  /-- Tokens that were skipped. -/
  | error
deriving DecidableEq, Repr, Inhabited

namespace TokenKind

/-- The token kinds in the order of their numbers. -/
def all : List TokenKind :=
  [.whitespace, .comment, .ident, .builtinIdent, .intNumber, .stringLit, .constKw, .varKw,
    .fnKw, .pubKw, .returnKw, .structKw, .noaliasKw, .comptimeKw, .anytypeKw, .lParen,
    .rParen, .lBrace, .rBrace, .lBracket, .rBracket, .comma, .semicolon, .colon, .dot, .eq,
    .star, .question, .bang, .plus, .minus, .slash, .amp, .errorToken]

/-- The name of a token kind in messages. -/
def name : TokenKind → String
  | .whitespace => "Whitespace"
  | .comment => "Comment"
  | .ident => "Ident"
  | .builtinIdent => "BuiltinIdent"
  | .intNumber => "IntNumber"
  | .stringLit => "StringLit"
  | .constKw => "ConstKw"
  | .varKw => "VarKw"
  | .fnKw => "FnKw"
  | .pubKw => "PubKw"
  | .returnKw => "ReturnKw"
  | .structKw => "StructKw"
  | .noaliasKw => "NoaliasKw"
  | .comptimeKw => "ComptimeKw"
  | .anytypeKw => "AnytypeKw"
  | .lParen => "LParen"
  | .rParen => "RParen"
  | .lBrace => "LBrace"
  | .rBrace => "RBrace"
  | .lBracket => "LBracket"
  | .rBracket => "RBracket"
  | .comma => "Comma"
  | .semicolon => "Semicolon"
  | .colon => "Colon"
  | .dot => "Dot"
  | .eq => "Eq"
  | .star => "Star"
  | .question => "Question"
  | .bang => "Bang"
  | .plus => "Plus"
  | .minus => "Minus"
  | .slash => "Slash"
  | .amp => "Amp"
  | .errorToken => "ErrorToken"

/-- Whitespace and comments carry no meaning. -/
def isTrivia : TokenKind → Bool
  | .whitespace | .comment => true
  | _ => false

/-- The keywords that may stand before a parameter. -/
def isQualifier : TokenKind → Bool
  | .noaliasKw | .comptimeKw => true
  | _ => false

/-- An opening bracket of any shape. -/
def isOpening : TokenKind → Bool
  | .lParen | .lBracket | .lBrace => true
  | _ => false

/-- A closing bracket of any shape. -/
def isClosing : TokenKind → Bool
  | .rParen | .rBracket | .rBrace => true
  | _ => false

/-- The marks that divide what stands side by side at one level of nesting. -/
def isDivider : TokenKind → Bool
  | .semicolon | .comma => true
  | _ => false

/-- How tightly a binary operator binds, `none` for a token that is no binary operator. -/
def bindingPower? : TokenKind → Option Nat
  | .plus | .minus => some 1
  | .star | .slash => some 2
  | _ => none

end TokenKind

namespace NodeKind

/-- The node kinds in the order of their numbers. -/
def all : List NodeKind :=
  [.sourceFile, .fnDecl, .paramList, .param, .varDecl, .typeAscription, .containerDecl,
    .containerField, .block, .returnStmt, .exprStmt, .callExpr, .builtinCall, .argList,
    .fieldExpr, .nameRef, .literal, .parenExpr, .prefixExpr, .sliceType, .binExpr, .error]

/-- The name of a node kind. -/
def name : NodeKind → String
  | .sourceFile => "SourceFile"
  | .fnDecl => "FnDecl"
  | .paramList => "ParamList"
  | .param => "Param"
  | .varDecl => "VarDecl"
  | .typeAscription => "TypeAnnotation"
  | .containerDecl => "ContainerDecl"
  | .containerField => "ContainerField"
  | .block => "Block"
  | .returnStmt => "ReturnStmt"
  | .exprStmt => "ExprStmt"
  | .callExpr => "CallExpr"
  | .builtinCall => "BuiltinCall"
  | .argList => "ArgList"
  | .fieldExpr => "FieldExpr"
  | .nameRef => "NameRef"
  | .literal => "Literal"
  | .parenExpr => "ParenExpr"
  | .prefixExpr => "PrefixExpr"
  | .sliceType => "SliceType"
  | .binExpr => "BinExpr"
  | .error => "Error"

/-- The node kinds that stand for an expression; a container is the expression of its type,
and skipped tokens stand where an expression was expected. -/
def isExpr : NodeKind → Bool
  | .callExpr | .builtinCall | .fieldExpr | .nameRef | .literal | .parenExpr | .prefixExpr
  | .sliceType | .binExpr | .containerDecl | .error => true
  | _ => false

end NodeKind

/-- What an element of a tree, or the place after the last one, can be. -/
inductive Kind where
  | token (kind : TokenKind)
  | endOfText
  | node (kind : NodeKind)
deriving DecidableEq, Repr, Inhabited

namespace Kind

/-- All kinds in the order of their numbers. -/
def all : List Kind :=
  TokenKind.all.map .token ++ .endOfText :: NodeKind.all.map .node

/-- The number of a kind: its place in `Kind.all`. -/
def number (k : Kind) : Nat := all.idxOf k

/-- The kind of a number; numbers beyond the last kind belong to error nodes. -/
def ofNumber (n : Nat) : Kind := all.getD n (.node .error)

/-- The name of a kind. -/
def name : Kind → String
  | .token k => k.name
  | .endOfText => "Eof"
  | .node k => k.name

/-- What stands at a place of the text: a token, or the end of the text. -/
def ofAhead : Option TokenKind → Kind
  | some k => .token k
  | none => .endOfText

/-- Whitespace and comments. -/
def isTrivia : Kind → Bool
  | .token k => k.isTrivia
  | _ => false

/-- The keywords that may stand before a parameter. -/
def isQualifier : Kind → Bool
  | .token k => k.isQualifier
  | _ => false

/-- The kinds of expression nodes. -/
def isExpr : Kind → Bool
  | .node k => k.isExpr
  | _ => false

/-- Every kind is read back from its number. -/
theorem ofNumber_number (k : Kind) :
  ofNumber k.number = k
  := by
  cases k with
  | token k => cases k <;> decide
  | endOfText => decide
  | node k => cases k <;> decide

end Kind

end InlayHints

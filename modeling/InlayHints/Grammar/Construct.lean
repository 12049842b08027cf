import InlayHints.Grammar.Rule

/-!
# The constructs of the language

The rules of the source language.  Expressions, operands and blocks nest, so they have
symbols; all other constructs are built from these.  Binary operators are read by binding
power: an expression takes only operators that bind more tightly than the operator whose
right operand it is, so operators of one power group to the left.
-/

namespace InlayHints

/-- The constructs that nest. -/
inductive Symbol where
  /-- An expression of operators that bind more tightly than `power`. -/
  | expression (power : Nat)
  /-- An operand: prefix operators and what they apply to. -/
  | operand
  /-- A block of statements. -/
  | block
deriving DecidableEq, Repr

namespace Construct

open Rule

/-- Any expression. -/
def expression : Rule Symbol := .nested (.expression 0)

/-- The tokens an expression statement may start with. -/
def startsExpression : TokenKind → Bool
  | .ident | .intNumber | .stringLit | .builtinIdent | .lParen | .structKw | .star | .question
  | .bang | .minus | .amp | .lBracket => true
  | _ => false

/-- The tokens that stand for a mutability. -/
def isMutability : TokenKind → Bool
  | .constKw | .varKw => true
  | _ => false

/-! ### Declarations -/

/-- A parameter: qualifiers, a name with a colon if there is one, and a type. -/
def parameter : Rule Symbol :=
  .node .param
    (.loop (·.isAny TokenKind.isQualifier) .take
      >> when (fun a => a.isAt .ident && a.second = some .colon) (.take >> .take)
      >> .branch (·.isAt .anytypeKw) .take expression)

/-- The parameters of a function, in parentheses. -/
def parameterList : Rule Symbol :=
  .node .paramList
    (expect .lParen
      >> commaSeparated .rParen (parameter.orReject .notAParameter)
      >> expect .rParen)

/-- A function: its name, its parameters, the type of its result and its body, or a semicolon
in place of the body. -/
def function : Rule Symbol :=
  .node .fnDecl
    (accept .pubKw
      >> expect .fnKw
      >> expect .ident
      >> parameterList
      >> whenNot (fun a => a.isAt .lBrace || a.isAt .semicolon) expression
      >> .branch (·.isAt .lBrace) (.nested .block) (expect .semicolon))

/-- A constant or a variable, with its type and its value if they are given. -/
def variableDeclaration : Rule Symbol :=
  .node .varDecl
    (accept .pubKw
      >> .branch (·.isAt .constKw) .take (expect .varKw)
      >> expect .ident
      >> when (·.isAt .colon) (.node .typeAscription (.take >> expression))
      >> when (·.isAt .eq) (.take >> expression)
      >> expect .semicolon)

/-- An expression that stands as a statement; nothing if no expression starts here. -/
def expressionStatement : Rule Symbol :=
  when (·.isAny startsExpression) (.node .exprStmt (expression >> expect .semicolon))

/-- Chooses among a function, a constant or variable and something else by the next keyword. -/
def declarationOr (other : Rule Symbol) : Rule Symbol :=
  .branch (·.keyword = some .fnKw) function
    (.branch (·.keyword.any isMutability) variableDeclaration other)

/-- A field of a container; its comma may be missing before the end of the container. -/
def field : Rule Symbol :=
  .node .containerField
    (.take
      >> when (·.isAt .colon) (.take >> expression)
      >> when (·.isAt .eq) (.take >> expression)
      >> whenNot (·.isAt .rBrace) (expect .comma))

/-- A member of a container: a function, a constant, a variable or a field. -/
def member : Rule Symbol :=
  (declarationOr (when (·.keyword = some .ident) field)).orReject .strayInContainer

/-- A container: its members in braces. -/
def container : Rule Symbol :=
  .node .containerDecl
    (expect .structKw >> expect .lBrace >> many .rBrace member >> expect .rBrace)

/-! ### Statements -/

/-- The statement that ends a function, with a value or without. -/
def returnStatement : Rule Symbol :=
  .node .returnStmt (.take >> whenNot (·.isAt .semicolon) expression >> expect .semicolon)

/-- A statement of a block; nothing if no statement starts here. -/
def statement : Rule Symbol :=
  .branch (·.isAny isMutability) variableDeclaration
    (.branch (·.isAt .lBrace) (.nested .block)
      (.branch (·.isAt .returnKw) returnStatement expressionStatement))

/-- Statements in braces. -/
def block : Rule Symbol :=
  .node .block
    (expect .lBrace >> many .rBrace (statement.orReject .strayInBlock) >> expect .rBrace)

/-! ### Expressions -/

/-- The arguments of a call, in parentheses. -/
def argumentList : Rule Symbol :=
  .node .argList
    (expect .lParen
      >> commaSeparated .rParen (expression.orReject .notAnArgument)
      >> expect .rParen)

/-- The tokens before which an expression is missing, `none` being the end of the text. -/
def endsExpression : Option TokenKind → Bool
  | none => true
  | some k => k.isClosing || k.isDivider

/-- An expression without operators, calls and field accesses around it. -/
def primary : Rule Symbol :=
  .branch (·.isAt .ident) (.node .nameRef .take)
    (.branch (fun a => a.isAt .intNumber || a.isAt .stringLit) (.node .literal .take)
      (.branch (·.isAt .builtinIdent)
        (.node .builtinCall
          (.take
            >> .branch (·.isAt .lParen) argumentList (.report fun _ => .missingArguments)))
        (.branch (·.isAt .lParen)
          (.node .parenExpr (.take >> expression >> expect .rParen))
          (.branch (·.isAt .structKw) container (reject .notAnExpression)))))

/-- A primary expression with its calls and field accesses. -/
def chain : Rule Symbol :=
  .apart
    (.branch (fun a => endsExpression a.first) (.report .missingExpression)
      (primary
        >> .loop (fun a => a.isAt .lParen || a.isAt .dot && a.second = some .ident)
            (.branch (·.isAt .lParen) (.wrap .callExpr argumentList)
              (.wrap .fieldExpr (.take >> .take)))))

/-- The operators that stand before an operand. -/
def isPrefixOperator : TokenKind → Bool
  | .star | .question | .bang | .minus | .amp => true
  | _ => false

/-- Prefix operators and slices of an operand, each maybe with `const`, or a chain. -/
def operand : Rule Symbol :=
  .branch (·.isAny isPrefixOperator)
    (.node .prefixExpr (.take >> accept .constKw >> .nested .operand))
    (.branch (·.isAt .lBracket)
      (.node .sliceType (.take >> expect .rBracket >> accept .constKw >> .nested .operand))
      chain)

/-- Whether the next token is a binary operator that binds more tightly than `power`. -/
def bindsOver (power : Nat) (a : Lookahead) : Bool :=
  (a.first.bind TokenKind.bindingPower?).any (power < ·)

/-- A binary operator of the given power and its right operand, after its left operand. -/
def operation (power : Nat) : Rule Symbol :=
  .wrap .binExpr (.take >> .nested (.expression power))

/-- Operands with binary operators that bind more tightly than `power` between them. -/
def operations (power : Nat) : Rule Symbol :=
  .apart
    (.nested .operand
      >> .loop (bindsOver power) (.branch (bindsOver 1) (operation 2) (operation 1)))

/-! ### The grammar -/

/-- The rule of a construct that nests. -/
def grammar : Grammar Symbol
  | .expression power => operations power
  | .operand => operand
  | .block => block

/-- A declaration or statement of a file; nothing if none starts here. -/
def item : Rule Symbol := declarationOr expressionStatement

/-- A whole file. -/
def file : Rule Symbol := .loop (!·.atEnd) (item.orReject .strayAtTop)

end Construct

end InlayHints

import InlayHints.Semantics.Signature
import InlayHints.Proofs.Syntax.Token.Language

/-!
# Written functions

Functions as one writes them down: a name and parameters, each with qualifiers, maybe a name, and
a type or `anytype` in place of it.  `WrittenFunction.text` is the text of such a function,
`WrittenParameter.parameter` what a caller sees of a parameter, and `TypeExpr.depth` how deep a
type nests.
-/

namespace InlayHints

/-- A name that is no keyword. -/
structure Identifier where
  text : String
  mem : text.toList ∈ Lexer.language .ident
  notKeyword : Lexer.keyword? text = none

/-- What may stand before a type: a prefix operator or the brackets of a slice. -/
inductive TypeModifier where
  | star
  | question
  | bang
  | amp
  | slice
deriving DecidableEq, Repr

/-- A type.  Modifiers that stand before the receiver of a field or before a callee are written
before the whole access or call. -/
inductive TypeExpr where
  | name (name : Identifier)
  | field (receiver : TypeExpr) (name : Identifier)
  | call (callee : TypeExpr) (arguments : List TypeExpr)
  | modified (modifier : TypeModifier) (isConst : Bool) (operand : TypeExpr)

/-- A keyword that qualifies a parameter. -/
inductive Qualifier where
  | noalias
  | comptime
deriving DecidableEq, Repr

/-- A parameter with at most two qualifiers.  If there is no type, `anytype` is written. -/
structure WrittenParameter where
  qualifiers : List Qualifier
  length_le : qualifiers.length ≤ 2
  name : Option Identifier
  type : Option TypeExpr

/-- A function by its name and its parameters. -/
structure WrittenFunction where
  name : Identifier
  parameters : List WrittenParameter

/-! ### Texts -/

def TypeModifier.text : TypeModifier → String
  | star => "*"
  | question => "?"
  | bang => "!"
  | amp => "&"
  | slice => "[]"

/-- The text of a type. -/
def TypeExpr.text : TypeExpr → String
  | name n => n.text
  | field receiver n => receiver.text ++ "." ++ n.text
  | call callee arguments => callee.text ++ "(" ++ ", ".intercalate (arguments.map text) ++ ")"
  | modified modifier isConst operand =>
    modifier.text ++ (if isConst then "const " else "") ++ operand.text

def Qualifier.text : Qualifier → String
  | noalias => "noalias"
  | comptime => "comptime"

/-- The text of a parameter. -/
def WrittenParameter.text (p : WrittenParameter) : String :=
  String.join (p.qualifiers.map fun q => q.text ++ " ")
    ++ p.name.elim "" (fun n => n.text ++ ": ")
    ++ p.type.elim "anytype" TypeExpr.text

/-- The text of a function, with an empty body. -/
def WrittenFunction.text (f : WrittenFunction) : String :=
  "fn " ++ f.name.text ++ "(" ++ ", ".intercalate (f.parameters.map WrittenParameter.text)
    ++ ") void {}"

/-! ### What is written -/

/-- What a caller sees of a parameter. -/
def WrittenParameter.parameter (p : WrittenParameter) : Parameter where
  name := p.name.map Identifier.text
  type := p.type.elim "" TypeExpr.text
  isAnytype := p.type.isNone
  isNoalias := p.qualifiers.contains .noalias
  isComptime := p.qualifiers.contains .comptime

namespace TypeExpr

/-- The modifiers before the first name of a type, each with or without `const`. -/
def modifiers : TypeExpr → List (TypeModifier × Bool)
  | name _ => []
  | field receiver _ => receiver.modifiers
  | call callee _ => callee.modifiers
  | modified modifier isConst operand => (modifier, isConst) :: operand.modifiers

/-- How deep the arguments of the calls in a type nest.  An argument is one level for itself, one
for each modifier and one for what they stand before, and then its own arguments. -/
def argumentDepth : TypeExpr → Nat
  | name _ => 0
  | field receiver _ => receiver.argumentDepth
  | call callee arguments =>
    (arguments.map fun a => a.modifiers.length + 2 + a.argumentDepth).foldr max
      callee.argumentDepth
  | modified _ _ operand => operand.argumentDepth

/-- How deep a type nests, as the parser counts: one level for the expression, and one for each
operand in it. -/
def depth (t : TypeExpr) : Nat := t.modifiers.length + 2 + t.argumentDepth

/-- Induction on types, with a hypothesis for every argument of a call. -/
@[elab_as_elim]
theorem induct {motive : TypeExpr → Prop} (name : ∀ n, motive (.name n))
    (field : ∀ receiver n, motive receiver → motive (.field receiver n))
    (call : ∀ callee arguments, motive callee → (∀ a ∈ arguments, motive a) →
      motive (.call callee arguments))
    (modified : ∀ modifier isConst operand, motive operand →
      motive (.modified modifier isConst operand)) :
  (t : TypeExpr) → motive t
  | .name n => name n
  | .field receiver n => field receiver n (induct name field call modified receiver)
  | .call callee arguments =>
    call callee arguments (induct name field call modified callee) fun a _ =>
      induct name field call modified a
  | .modified modifier isConst operand =>
    modified modifier isConst operand (induct name field call modified operand)

theorem foldr_max_le {m n : Nat} {ns : List Nat} :
  ns.foldr max m ≤ n ↔ m ≤ n ∧ ∀ k ∈ ns, k ≤ n
  := by
  induction ns with
  | nil => simp
  | cons k ns ih =>
    rw [List.foldr_cons, max_le_iff, ih, List.forall_mem_cons, and_left_comm]

/-- A call nests as deep as its callee and its arguments. -/
theorem argumentDepth_call_le {callee : TypeExpr} {arguments : List TypeExpr} {n : Nat} :
  (call callee arguments).argumentDepth ≤ n
    ↔ callee.argumentDepth ≤ n ∧ ∀ a ∈ arguments, a.depth ≤ n
  := by
  rw [argumentDepth, foldr_max_le, List.forall_mem_map]
  rfl

end TypeExpr

end InlayHints

import InlayHints.Semantics.Declaration

/-!
# Questions about the meaning of a file

Hints need to know what names refer to and which types values have.  These are the questions
that may be asked; `σ` is the state that answering may depend on and may change, and
`Receiver` is whatever stands for the type of a receiver.  With `σ := Unit` every answer
depends on the question alone.
-/

namespace InlayHints

/-- Answers to questions about the meaning of a file; an answer may be missing. -/
structure Semantics (σ Receiver : Type) where
  /-- What a name refers to, seen from an offset. -/
  globalSymbol? : String → Nat → StateM σ (Option Declaration)
  /-- The declaration that another one merely gives a new name to. -/
  aliased? : Declaration → StateM σ (Option Declaration)
  /-- The type of an expression that a field is taken of, seen from an offset. -/
  receiverType? : Expr → Nat → StateM σ (Option Receiver)
  /-- The member of a type with the given name. -/
  member? : Receiver → String → StateM σ (Option Declaration)
  /-- Whether a call of a function passes its receiver as the first argument. -/
  isInstanceCall : Call → Declaration → StateM σ Bool
  /-- The type of the value that a declaration gives a name to. -/
  declaredType? : VarDecl → StateM σ (Option InferredType)

/-! ### Recording questions -/

/-- A question that was asked. -/
inductive Query (Receiver : Type) where
  | globalSymbol (name : String) (origin : Nat)
  | aliased (declaration : String)
  | receiverType (text : String) (origin : Nat)
  | member (receiver : Receiver) (name : String)
  | instanceCall (callee declaration : String)
  | declaredType (name : Option String)
deriving DecidableEq

namespace Semantics

variable {σ Receiver α : Type}

/-- Records a question, in front of those asked before, and answers it. -/
def record (q : Query Receiver) (answer : StateM σ α) : StateM (σ × List (Query Receiver)) α :=
  fun (s, asked) =>
    let (a, s) := answer s
    (a, s, q :: asked)

/-- The same answers, with a record of the questions, the last one first. -/
def recorded (sem : Semantics σ Receiver) : Semantics (σ × List (Query Receiver)) Receiver where
  globalSymbol? name origin := record (.globalSymbol name origin) (sem.globalSymbol? name origin)
  aliased? d := record (.aliased d.name) (sem.aliased? d)
  receiverType? e origin := record (.receiverType e.text origin) (sem.receiverType? e origin)
  member? r name := record (.member r name) (sem.member? r name)
  isInstanceCall c d :=
    record (.instanceCall ((c.callee?.map NodeSite.text).getD "") d.name) (sem.isInstanceCall c d)
  declaredType? d := record (.declaredType (d.name?.map Leaf.text)) (sem.declaredType? d)

end Semantics

end InlayHints

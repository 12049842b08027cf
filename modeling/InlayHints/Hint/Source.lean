import InlayHints.Hint.Basic
import InlayHints.Builtin.Argument
import InlayHints.Semantics.Basic

/-!
# Where hints come from

Calls of functions, calls of builtins and declarations give hints.  The meaning of a call or
declaration is asked for first, and the hints then depend on the answers alone: `callHints` and
`declarationHints` ask, `labelArguments`, `builtinHints` and `typeHint?` say which hints there
are.
-/

namespace InlayHints

/-! ### Labels of arguments -/

/-- The hint that labels an argument; there is none if the argument has no first token. -/
def labelHint? (markup : Markup) (argument : Expr) (label : String)
    (isNoalias isComptime : Bool) (type : String) : Option RawHint :=
  argument.firstToken?.map fun first =>
    { offset := first.start
      label := label ++ ":"
      kind := .parameter
      tooltip := some (.ofParameter markup isNoalias isComptime type) }

/-- Whether an argument ends with the name of its parameter, and such labels are hidden. -/
def isRedundant (config : Config) (name : String) (argument : Expr) : Bool :=
  match argument.lastToken? with
  | none => false
  | some last =>
    last.kind = .ident && last.text = name &&
      if argument.isSingleToken then config.hideRedundantNames else config.hideRedundantLastTokens

/-- The hint that labels an argument with the name of its parameter. -/
def parameterHint? (options : Options) (parameter : Parameter) (argument : Expr) :
    Option RawHint :=
  parameter.name.bind fun name =>
    if isRedundant options.config name argument then none
    else
      labelHint? options.markup argument name parameter.isNoalias parameter.isComptime
        (if parameter.isAnytype then "anytype" else parameter.type)

/-- The hints that label arguments with the names of the parameters at their places. -/
def labelArguments (options : Options) (parameters : List Parameter) (arguments : List Expr) :
    List RawHint :=
  (parameters.zip arguments).filterMap fun (parameter, argument) =>
    parameterHint? options parameter argument

/-! ### Calls of functions -/

section

variable {σ Receiver : Type}

/-- What is called: a global name, or a member of the type of a receiver. -/
def lookupCallee (sem : Semantics σ Receiver) (callee : Expr) (origin : Nat) :
    StateM σ (Option Declaration) :=
  match callee.nameRef?, callee.fieldAccess? with
  | some name, _ =>
    match name.identifier? with
    | some identifier => sem.globalSymbol? identifier.text origin
    | none => return none
  | none, some access =>
    match access.receiver?, access.fieldName? with
    | some receiver, some field => do
      match ← sem.receiverType? receiver origin with
      | some type => sem.member? type field.text
      | none => return none
    | _, _ => return none
  | none, none => return none

/-- The declaration that another one is a new name of, or else the declaration itself; only one
such step is made. -/
def followAlias (sem : Semantics σ Receiver) (d : Declaration) : StateM σ Declaration := do
  return (← sem.aliased? d).getD d

/-- The declaration that a call refers to. -/
def resolveCall (sem : Semantics σ Receiver) (call : Call) : StateM σ (Option Declaration) := do
  match call.callee? with
  | none => return none
  | some callee =>
    match ← lookupCallee sem callee call.start with
    | none => return none
    | some d => return some (← followAlias sem d)

/-- The parameters that the arguments of a call stand for.  The first parameter is left out if
there is one parameter too many and the call passes its receiver for it. -/
def visibleParameters (sem : Semantics σ Receiver) (call : Call) (d : Declaration)
    (signature : Signature) : StateM σ (List Parameter) := do
  if signature.parameters.length = call.arguments.length + 1 then
    if ← sem.isInstanceCall call d then
      return signature.parameters.tail
    else
      return signature.parameters
  else
    return signature.parameters

/-- The hints of a call. -/
def callHints (sem : Semantics σ Receiver) (options : Options) (call : Call) :
    StateM σ (List RawHint) := do
  match ← resolveCall sem call with
  | none => return []
  | some d =>
    match d.signature? with
    | none => return []
    | some signature =>
      return labelArguments options (← visibleParameters sem call d signature) call.arguments

end

/-! ### Calls of builtins -/

/-- Whether a descriptor ends the list of the arguments that are described; an empty descriptor
does not. -/
def endsDescriptors (descriptor : String) : Bool :=
  descriptor ≠ "" && (BuiltinArgument.parse descriptor).endsArguments

/-- The hint that labels an argument as its descriptor says; an empty descriptor says nothing. -/
def descriptorHint? (options : Options) (argument : Expr) (descriptor : String) :
    Option RawHint :=
  if descriptor = "" then none
  else
    let a := BuiltinArgument.parse descriptor
    labelHint? options.markup argument a.label a.isNoalias a.isComptime a.type

/-- The hints that label arguments as the descriptors at their places say. -/
def describeArguments (options : Options) (arguments : List Expr) (descriptors : List String) :
    List RawHint :=
  ((arguments.zip descriptors).takeWhile fun (_, descriptor) => !endsDescriptors descriptor)
    |>.filterMap fun (argument, descriptor) => descriptorHint? options argument descriptor

/-- The hints of the call of a builtin. -/
def builtinHints (options : Options) (call : BuiltinCall) : List RawHint :=
  match call.name? with
  | none => []
  | some name =>
    if Builtin.isExcluded name.text then []
    else
      match options.builtins.find? name.text with
      | none => []
      | some builtin => describeArguments options call.arguments builtin.arguments

/-! ### Declarations -/

/-- The hint that shows the type of a declared value after its name. -/
def typeHint? (d : VarDecl) (type : InferredType) : Option RawHint :=
  if type.display = "" then none
  else
    d.name?.map fun name =>
      { offset := name.stop
        label := ": " ++ type.display
        kind := .type
        tooltip := none }

/-- The hints of a declaration; there are none if its type is written. -/
def declarationHints {σ Receiver : Type} (sem : Semantics σ Receiver) (d : VarDecl) :
    StateM σ (List RawHint) := do
  if d.typeAscription?.isSome then
    return []
  else
    match ← sem.declaredType? d with
    | none => return []
    | some type => return (typeHint? d type).toList

/-! ### Sources of hints -/

/-- What gives hints. -/
inductive HintSource where
  | call (call : Call)
  | builtinCall (call : BuiltinCall)
  | declaration (declaration : VarDecl)

namespace HintSource

/-- The source of hints at a site. -/
def ofSite? (s : Site) : Option HintSource :=
  ((NodeSite.ofSite? (NodeKind.is .callExpr) s).map .call).or
    (((NodeSite.ofSite? (NodeKind.is .builtinCall) s).map .builtinCall).or
      ((NodeSite.ofSite? (NodeKind.is .varDecl) s).map .declaration))

/-- Whether the switches let a source give hints. -/
def isAdmitted (config : Config) : HintSource → Bool
  | .call c =>
    config.showParameterNames && !(config.excludeSingleArguments && c.arguments.length = 1)
  | .builtinCall _ => config.showParameterNames && config.showBuiltins
  | .declaration _ => config.showVariableTypes

/-- The hints that a source gives. -/
def hints {σ Receiver : Type} (sem : Semantics σ Receiver) (options : Options) :
    HintSource → StateM σ (List RawHint)
  | .call c => callHints sem options c
  | .builtinCall c => return builtinHints options c
  | .declaration d => declarationHints sem d

end HintSource

end InlayHints

import Std.Data.HashMap
import Std.Data.HashSet
import InlayHints.Semantics.Basic

/-!
# Answers from tables

A simple way to answer questions about a file: tables that map names and texts to answers.
`Tables.ofFile` fills them with what the declarations of a file say by themselves; further
entries can be added.
-/

namespace InlayHints

/-- Answers by name or text. -/
structure Tables where
  /-- What names refer to. -/
  globals : Std.HashMap String Declaration := {}
  /-- The names that names are other names of. -/
  aliases : Std.HashMap String String := {}
  /-- The names of the types of expressions, by the text of the expression. -/
  receivers : Std.HashMap String String := {}
  /-- The members of types, by the name of the type and the name of the member. -/
  members : Std.HashMap String (Std.HashMap String Declaration) := {}
  /-- The texts of receivers that are passed as first arguments. -/
  instances : Std.HashSet String := {}
  /-- Whether every receiver is passed as first argument. -/
  allInstances : Bool := false
  /-- The types of declared values, by name. -/
  types : Std.HashMap String String := {}
  /-- The type of all other declared values. -/
  defaultType : Option String := none

namespace Tables

/-- Whether a call takes a field of a receiver that is passed as first argument. -/
def hasInstance (t : Tables) (c : Call) : Bool :=
  ((c.callee?.bind Expr.fieldAccess?).bind FieldAccess.receiver?).any
    fun receiver => t.instances.contains receiver.text

/-- The type of a declared value. -/
def typeOf? (t : Tables) (d : VarDecl) : Option String :=
  ((d.name?).bind fun name => t.types[name.text]?).or t.defaultType

/-- The answers that the tables give. -/
def semantics (t : Tables) {σ : Type} : Semantics σ String where
  globalSymbol? name _ := pure t.globals[name]?
  aliased? d := pure (t.aliases[d.name]?.bind fun target => t.globals[target]?)
  receiverType? e _ := pure t.receivers[e.text]?
  member? type name := pure (t.members[type]?.bind fun members => members[name]?)
  isInstanceCall c _ := pure (t.allInstances || t.hasInstance c)
  declaredType? d := pure ((t.typeOf? d).map fun text => { display := text })

/-! ### Filling tables from a file -/

/-- The declaration of a function, by its name; `none` if the name is missing. -/
def functionEntry? (d : FnDecl) : Option (String × Declaration) :=
  d.name?.map fun name => (name.text, ⟨name.text, .function (Signature.ofFnDecl d)⟩)

/-- Adds a function of the file; a later one of the same name counts. -/
def addFunction (t : Tables) (d : FnDecl) : Tables :=
  match functionEntry? d with
  | some (name, declaration) => { t with globals := t.globals.insert name declaration }
  | none => t

/-- Adds the value of a declared name: a container has members and is a type of its own, and
another name makes an alias.  Also gives what is declared. -/
def addValue (t : Tables) (name : String) (value : Option Expr) : Tables × DeclarationKind :=
  match value.bind fun e => NodeSite.ofSite? (NodeKind.is .containerDecl) e.site with
  | some container =>
    let functions := Std.HashMap.ofList (ContainerDecl.functions container |>.filterMap functionEntry?)
    ({ t with
        members := t.members.insert name functions
        receivers := t.receivers.insertIfNew name name }, .container)
  | none =>
    match (value.bind Expr.nameRef?).bind NameRef.identifier? with
    | some target => ({ t with aliases := t.aliases.insert name target.text }, .variable)
    | none => (t, .variable)

/-- Adds the type of a declared name, which is then passed as first argument. -/
def addType (t : Tables) (name : String) (type : Option Expr) : Tables :=
  match type with
  | some e =>
    { t with
      receivers := t.receivers.insert name e.text
      instances := t.instances.insert name }
  | none => t

/-- Adds a constant or variable of the file; of one name the first one counts. -/
def addVariable (t : Tables) (d : VarDecl) : Tables :=
  match d.name? with
  | none => t
  | some leaf =>
    let name := leaf.text
    let (t, kind) := t.addValue name d.initializer?
    let t := t.addType name (d.typeAscription?.bind TypeAscription.type?)
    { t with globals := t.globals.insertIfNew name ⟨name, kind⟩ }

/-- The tables that the declarations of a file give: its functions, and all its constants and
variables. -/
def ofFile (root : Site) : Tables :=
  let functions := (root.childrenOf (NodeKind.is .fnDecl)).foldl addFunction {}
  (root.descendants.filterMap (NodeSite.ofSite? (NodeKind.is .varDecl))).foldl addVariable functions

/-! ### Further entries -/

/-- Adds what names refer to. -/
def addGlobals (t : Tables) (entries : List (String × Declaration)) : Tables :=
  { t with globals := t.globals.insertMany entries }

/-- Adds names of names. -/
def addAliases (t : Tables) (entries : List (String × String)) : Tables :=
  { t with aliases := t.aliases.insertMany entries }

/-- Adds types of expressions. -/
def addReceivers (t : Tables) (entries : List (String × String)) : Tables :=
  { t with receivers := t.receivers.insertMany entries }

/-- Adds members to a type. -/
def addMembers (t : Tables) (type : String) (entries : List (String × Declaration)) : Tables :=
  { t with members := t.members.insert type ((t.members.getD type {}).insertMany entries) }

/-- Adds texts of receivers that are passed as first arguments. -/
def addInstances (t : Tables) (texts : List String) : Tables :=
  { t with instances := t.instances.insertMany texts }

/-- Adds types of declared values. -/
def addTypes (t : Tables) (entries : List (String × String)) : Tables :=
  { t with types := t.types.insertMany entries }

end Tables

end InlayHints

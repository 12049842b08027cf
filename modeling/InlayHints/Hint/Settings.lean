import InlayHints.Hint.Config

/-!
# Settings as structured values

Switches, encoding and markup as an editor sends them: a record or a list of switches, and a
name for the rest.  A record of switches may leave out fields, which then keep their default,
and may have other fields, which do not matter; a list gives the switches in order and may
stop early.  A name stands for itself, and so does a record of just that name and nothing.
-/

namespace InlayHints

/-- A structured value. -/
inductive Value where
  | null
  | bool (value : Bool)
  | number (mantissa : Int) (exponent : Nat)
  | text (value : String)
  | list (items : List Value)
  | record (fields : List (String × Value))
deriving Inhabited

namespace Value

/-- The truth value, `none` if the value is something else. -/
def bool? : Value → Option Bool
  | .bool b => some b
  | _ => none

/-- The first of the choices that the value names. -/
def choice? {α : Type} (choices : List (String × α)) : Value → Option α
  | .text name => choices.lookup name
  | .record [(name, .null)] => choices.lookup name
  | _ => none

end Value

namespace Config

/-- A switch: its name, how it is read and how it is set. -/
structure Switch where
  name : String
  get : Config → Bool
  set : Config → Bool → Config

/-- The switches in their order. -/
def switches : List Switch :=
  [⟨"showParameterNames", (·.showParameterNames), fun c b => { c with showParameterNames := b }⟩,
    ⟨"showVariableDeclarations", (·.showVariableTypes), fun c b => { c with showVariableTypes := b }⟩,
    ⟨"showBuiltins", (·.showBuiltins), fun c b => { c with showBuiltins := b }⟩,
    ⟨"excludeSingleArgumentCalls", (·.excludeSingleArguments),
      fun c b => { c with excludeSingleArguments := b }⟩,
    ⟨"hideRedundantParamNames", (·.hideRedundantNames),
      fun c b => { c with hideRedundantNames := b }⟩,
    ⟨"hideRedundantParamNamesLastToken", (·.hideRedundantLastTokens),
      fun c b => { c with hideRedundantLastTokens := b }⟩]

/-- Sets a switch to a value, if the value is a truth value. -/
def assign? (c : Config) (switch : Switch) (v : Value) : Option Config :=
  v.bool?.map (switch.set c)

/-- Reads switches. -/
def ofValue? : Value → Option Config
  | .record fields =>
    switches.foldlM (fun c switch =>
      match fields.lookup switch.name with
      | some v => c.assign? switch v
      | none => some c) {}
  | .list items =>
    if items.length ≤ switches.length then
      (switches.zip items).foldlM (fun c (switch, v) => c.assign? switch v) {}
    else none
  | _ => none

/-- The record of all switches. -/
def toValue (c : Config) : Value :=
  .record (switches.map fun switch => (switch.name, .bool (switch.get c)))

end Config

namespace Encoding

/-- The name of an encoding. -/
def name : Encoding → String
  | .utf8 => "utf-8"
  | .utf16 => "utf-16"
  | .utf32 => "utf-32"

/-- The encodings by name. -/
def byName : List (String × Encoding) := [.utf8, .utf16, .utf32].map fun e => (e.name, e)

/-- Reads an encoding. -/
def ofValue? : Value → Option Encoding := Value.choice? byName

/-- The name of an encoding as a value. -/
def toValue (e : Encoding) : Value := .text e.name

end Encoding

namespace Markup

/-- The name of a markup. -/
def name : Markup → String
  | .plaintext => "plaintext"
  | .markdown => "markdown"

/-- The markups by name. -/
def byName : List (String × Markup) := [.plaintext, .markdown].map fun m => (m.name, m)

/-- Reads a markup. -/
def ofValue? : Value → Option Markup := Value.choice? byName

/-- The name of a markup as a value. -/
def toValue (m : Markup) : Value := .text m.name

end Markup

end InlayHints

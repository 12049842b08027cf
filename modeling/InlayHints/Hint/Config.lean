import InlayHints.Builtin.Standard
import InlayHints.Text.Encoding

/-!
# What is asked for

The switches of the user and the preferences of the editor that shows the hints.
-/

namespace InlayHints

/-- The switches of the user. -/
structure Config where
  /-- Label the arguments of calls. -/
  showParameterNames : Bool := true
  /-- Show the types of constants and variables that are declared without one. -/
  showVariableTypes : Bool := true
  /-- Label the arguments of builtins, if those of calls are labelled. -/
  showBuiltins : Bool := true
  /-- Do not label the argument of a call that has just one. -/
  excludeSingleArguments : Bool := true
  /-- Do not label an argument that is just the name of its parameter. -/
  hideRedundantNames : Bool := false
  /-- Do not label a longer argument that ends with the name of its parameter. -/
  hideRedundantLastTokens : Bool := false
deriving DecidableEq, Repr, Inhabited

/-- How tooltips are marked up. -/
inductive Markup where
  | plaintext
  | markdown
deriving DecidableEq, Repr, Inhabited

/-- Everything about a request except the file and the range. -/
structure Options where
  config : Config := {}
  markup : Markup := .plaintext
  encoding : Encoding := .utf16
  builtins : BuiltinTable := BuiltinTable.standard

end InlayHints

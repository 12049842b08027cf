/-!
# Tables of builtins

A builtin has no declaration, so what its arguments are is written in a table.  Of several
entries with one name the last one counts.
-/

namespace InlayHints

/-- A builtin: its name, with the `@`, and the descriptors of its arguments. -/
structure Builtin where
  name : String
  arguments : List String
deriving DecidableEq, Repr, Inhabited

/-- Descriptions of builtins. -/
structure BuiltinTable where
  entries : List Builtin
deriving Repr, Inhabited

namespace BuiltinTable

/-- The last entry with the given name. -/
def find? (t : BuiltinTable) (name : String) : Option Builtin :=
  t.entries.reverse.find? (·.name = name)

/-- The number of builtins, counting those of one name once. -/
def size (t : BuiltinTable) : Nat := (t.entries.map Builtin.name).eraseDups.length

/-- Whether nothing is described. -/
def isEmpty (t : BuiltinTable) : Bool := t.entries.isEmpty

end BuiltinTable

namespace Builtin

/-- The builtins whose arguments are too plain to be labelled. -/
def excluded : List String :=
  ["@import", "@embedFile", "@cImport", "@cInclude", "@compileError", "@compileLog", "@panic",
    "@TypeOf", "@This", "@setEvalBranchQuota", "@setRuntimeSafety"]

/-- Whether the arguments of the builtin of this name are never labelled. -/
def isExcluded (name : String) : Bool := excluded.contains name

end Builtin

end InlayHints

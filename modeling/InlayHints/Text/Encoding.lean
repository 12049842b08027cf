/-!
# Units of columns

Columns are counted in the code units of an encoding.  Offsets into a text are always counted
in bytes, the code units of UTF-8.  Lines and columns are given up to a limit, and so are
the lengths they are computed from: what is larger counts as the limit.
-/

namespace InlayHints

/-- The largest line, column, length or offset that is given. -/
def countLimit : Nat := 4294967295

/-- The sum of two numbers up to the limit. -/
def addUpTo (m n : Nat) : Nat := min (m + n) countLimit

/-- The encoding whose code units columns are counted in. -/
inductive Encoding where
  | utf8
  | utf16
  | utf32
deriving DecidableEq, Repr, Inhabited

namespace Encoding

/-- The number of code units of a character. -/
def units (e : Encoding) (c : Char) : Nat :=
  match e with
  | .utf8 => c.utf8Size
  | .utf16 => if c.toNat < 0x10000 then 1 else 2
  | .utf32 => 1

/-- The number of code units of a text. -/
def size (e : Encoding) (cs : List Char) : Nat := cs.foldl (fun n c => n + e.units c) 0

/-- The number of code units of a text, up to the limit. -/
def measure (e : Encoding) (cs : List Char) : Nat := min (e.size cs) countLimit

end Encoding

end InlayHints

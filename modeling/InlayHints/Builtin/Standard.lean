import InlayHints.Builtin.Table

/-!
# The builtins of the language

What the compiler offers under names with an `@`, and how the arguments are called.
-/

namespace InlayHints

namespace BuiltinTable

/-- The builtins of the language, and the descriptors of their arguments. -/
def standardEntries : List Builtin :=
  [⟨"@addrSpaceCast", ["ptr: anytype"]⟩,
    ⟨"@addWithOverflow", ["a: anytype", "b: anytype"]⟩,
    ⟨"@alignCast", ["ptr: anytype"]⟩,
    ⟨"@alignOf", ["comptime T: type"]⟩,
    ⟨"@as", ["comptime T: type", "expression"]⟩,
    ⟨"@atomicLoad", ["comptime T: type", "ptr: *const T", "comptime ordering: AtomicOrder"]⟩,
    ⟨"@atomicRmw",
      ["comptime T: type", "ptr: *T", "comptime op: AtomicRmwOp", "operand: T",
        "comptime ordering: AtomicOrder"]⟩,
    ⟨"@atomicStore", ["comptime T: type", "ptr: *T", "value: T", "comptime ordering: AtomicOrder"]⟩,
    ⟨"@bitCast", ["value: anytype"]⟩,
    ⟨"@bitOffsetOf", ["comptime T: type", "comptime field_name: []const u8"]⟩,
    ⟨"@bitReverse", ["integer: anytype"]⟩,
    ⟨"@bitSizeOf", ["comptime T: type"]⟩,
    ⟨"@branchHint", ["hint: BranchHint"]⟩,
    ⟨"@breakpoint", []⟩,
    ⟨"@byteSwap", ["operand: anytype"]⟩,
    ⟨"@call", ["modifier: std.builtin.CallModifier", "function: anytype", "args: anytype"]⟩,
    ⟨"@cDefine", ["comptime name: []const u8", "value"]⟩,
    ⟨"@cImport", ["expression"]⟩,
    ⟨"@cInclude", ["comptime path: []const u8"]⟩,
    ⟨"@clz", ["operand: anytype"]⟩,
    ⟨"@cmpxchgStrong",
      ["comptime T: type", "ptr: *T", "expected_value: T", "new_value: T",
        "success_order: AtomicOrder", "fail_order: AtomicOrder"]⟩,
    ⟨"@cmpxchgWeak",
      ["comptime T: type", "ptr: *T", "expected_value: T", "new_value: T",
        "success_order: AtomicOrder", "fail_order: AtomicOrder"]⟩,
    ⟨"@compileError", ["comptime msg: []const u8"]⟩,
    ⟨"@compileLog", ["..."]⟩,
    ⟨"@constCast", ["value: anytype"]⟩,
    ⟨"@ctz", ["operand: anytype"]⟩,
    ⟨"@cUndef", ["comptime name: []const u8"]⟩,
    ⟨"@divExact", ["numerator: T", "denominator: T"]⟩,
    ⟨"@divFloor", ["numerator: T", "denominator: T"]⟩,
    ⟨"@divTrunc", ["numerator: T", "denominator: T"]⟩,
    ⟨"@embedFile", ["comptime path: []const u8"]⟩,
    ⟨"@enumFromInt", ["integer: anytype"]⟩,
    ⟨"@errorFromInt", ["value: std.meta.Int(.unsigned, @bitSizeOf(anyerror))"]⟩,
    ⟨"@errorName", ["err: anyerror"]⟩,
    ⟨"@errorReturnTrace", []⟩,
    ⟨"@errorCast", ["value: anytype"]⟩,
    ⟨"@export", ["comptime ptr: *const anyopaque", "comptime options: std.builtin.ExportOptions"]⟩,
    ⟨"@extern", ["T: type", "comptime options: std.builtin.ExternOptions"]⟩,
    ⟨"@field", ["lhs: anytype", "comptime field_name: []const u8"]⟩,
    ⟨"@fieldParentPtr", ["comptime field_name: []const u8", "field_ptr: *T"]⟩,
    ⟨"@floatCast", ["value: anytype"]⟩,
    ⟨"@floatFromInt", ["int: anytype"]⟩,
    ⟨"@frameAddress", []⟩,
    ⟨"@hasDecl", ["comptime Container: type", "comptime name: []const u8"]⟩,
    ⟨"@hasField", ["comptime Container: type", "comptime name: []const u8"]⟩,
    ⟨"@import", ["comptime path: []const u8"]⟩,
    ⟨"@inComptime", []⟩,
    ⟨"@intCast", ["int: anytype"]⟩,
    ⟨"@intFromBool", ["value: bool"]⟩,
    ⟨"@intFromEnum", ["enum_or_tagged_union: anytype"]⟩,
    ⟨"@intFromError", ["err: anytype"]⟩,
    ⟨"@intFromFloat", ["float: anytype"]⟩,
    ⟨"@intFromPtr", ["value: anytype"]⟩,
    ⟨"@max", ["a: T", "b: T", "..."]⟩,
    ⟨"@memcpy", ["noalias dest", "noalias source"]⟩,
    ⟨"@memset", ["dest", "elem"]⟩,
    ⟨"@min", ["a: T", "b: T", "..."]⟩,
    ⟨"@mod", ["numerator: T", "denominator: T"]⟩,
    ⟨"@mulAdd", ["comptime T: type", "a: T", "b: T", "c: T"]⟩,
    ⟨"@mulWithOverflow", ["a: anytype", "b: anytype"]⟩,
    ⟨"@panic", ["message: []const u8"]⟩,
    ⟨"@popCount", ["operand: anytype"]⟩,
    ⟨"@prefetch", ["ptr: anytype", "comptime options: PrefetchOptions"]⟩,
    ⟨"@ptrCast", ["value: anytype"]⟩,
    ⟨"@ptrFromInt", ["address: usize"]⟩,
    ⟨"@reduce", ["comptime op: std.builtin.ReduceOp", "value: anytype"]⟩,
    ⟨"@rem", ["numerator: T", "denominator: T"]⟩,
    ⟨"@returnAddress", []⟩,
    ⟨"@select",
      ["comptime T: type", "pred: @Vector(len, bool)", "a: @Vector(len, T)", "b: @Vector(len, T)"]⟩,
    ⟨"@setEvalBranchQuota", ["comptime new_quota: u32"]⟩,
    ⟨"@setFloatMode", ["comptime mode: FloatMode"]⟩,
    ⟨"@setRuntimeSafety", ["comptime safety_on: bool"]⟩,
    ⟨"@shlExact", ["value: T", "shift_amt: Log2T"]⟩,
    ⟨"@shlWithOverflow", ["a: anytype", "shift_amt: anytype"]⟩,
    ⟨"@shrExact", ["value: T", "shift_amt: Log2T"]⟩,
    ⟨"@shuffle",
      ["comptime E: type", "a: @Vector(a_len, E)", "b: @Vector(b_len, E)",
        "comptime mask: @Vector(mask_len, i32)"]⟩,
    ⟨"@sizeOf", ["comptime T: type"]⟩,
    ⟨"@splat", ["scalar: anytype"]⟩,
    ⟨"@sqrt", ["value: anytype"]⟩,
    ⟨"@src", []⟩,
    ⟨"@subWithOverflow", ["a: anytype", "b: anytype"]⟩,
    ⟨"@tagName", ["value: anytype"]⟩,
    ⟨"@This", []⟩,
    ⟨"@trap", []⟩,
    ⟨"@truncate", ["integer: anytype"]⟩,
    ⟨"@Type", ["comptime info: std.builtin.Type"]⟩,
    ⟨"@typeInfo", ["comptime T: type"]⟩,
    ⟨"@typeName", ["T: type"]⟩,
    ⟨"@TypeOf", ["..."]⟩,
    ⟨"@unionInit", ["comptime Union: type", "comptime active_field_name: []const u8", "init_expr"]⟩,
    ⟨"@Vector", ["len: comptime_int", "Element: type"]⟩,
    ⟨"@volatileCast", ["value: anytype"]⟩,
    ⟨"@wasmMemoryGrow", ["index: u32", "delta: usize"]⟩,
    ⟨"@wasmMemorySize", ["index: u32"]⟩,
    ⟨"@workGroupId", ["comptime dimension: u32"]⟩,
    ⟨"@workGroupSize", ["comptime dimension: u32"]⟩,
    ⟨"@workItemId", ["comptime dimension: u32"]⟩]

/-- The table of the builtins of the language. -/
def standard : BuiltinTable := ⟨standardEntries⟩

end BuiltinTable

end InlayHints

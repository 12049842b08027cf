import InlayHints.Proofs.Semantics.Written
import InlayHints.Proofs.Syntax.Listing

/-!
# The trees of written functions

`WrittenFunction.tree` is the tree that a written function should have, blanks included.  Its text
is the text of the function (`WrittenFunction.text_tree`).
-/

namespace InlayHints

/-! ### Trees -/

/-- The token of a name. -/
def Identifier.token (n : Identifier) : Token := ⟨.ident, n.text⟩

namespace TypeModifier

def kind : TypeModifier → NodeKind
  | slice => .sliceType
  | _ => .prefixExpr

def tokens : TypeModifier → List Token
  | star => [⟨.star, "*"⟩]
  | question => [⟨.question, "?"⟩]
  | bang => [⟨.bang, "!"⟩]
  | amp => [⟨.amp, "&"⟩]
  | slice => [⟨.lBracket, "["⟩, ⟨.rBracket, "]"⟩]

/-- The tokens of a modifier and of the `const` behind it, if there is one. -/
def allTokens (m : TypeModifier) (isConst : Bool) : List Token :=
  m.tokens ++ if isConst then [⟨.constKw, "const"⟩, .blank] else []

/-- The tree of a modifier before an operand. -/
def tree (m : TypeModifier × Bool) (t : Tree) : Tree :=
  .node m.1.kind ((m.1.allTokens m.2).map .token ++ [t])

end TypeModifier

namespace TypeExpr

/-- The tree of a type without the modifiers before it. -/
def chainTree : TypeExpr → Tree
  | name n => .node .nameRef [.token n.token]
  | field receiver n =>
    .node .fieldExpr [receiver.chainTree, .token ⟨.dot, "."⟩, .token n.token]
  | call callee arguments =>
    .node .callExpr [callee.chainTree,
      .listed [.comma, .blank] .argList
        (arguments.map fun a => a.modifiers.foldr TypeModifier.tree a.chainTree)]
  | modified _ _ operand => operand.chainTree

/-- The tree of a type. -/
def tree (t : TypeExpr) : Tree := t.modifiers.foldr TypeModifier.tree t.chainTree

theorem chainTree_call (callee : TypeExpr) (arguments : List TypeExpr) :
  (call callee arguments).chainTree
    = .node .callExpr
      [callee.chainTree, .listed [.comma, .blank] .argList (arguments.map tree)]
  := by
  rw [chainTree]
  rfl

end TypeExpr

/-- The token of a qualifier. -/
def Qualifier.token (q : Qualifier) : Token :=
  match q with
  | noalias => ⟨.noaliasKw, q.text⟩
  | comptime => ⟨.comptimeKw, q.text⟩

namespace WrittenParameter

/-- The tokens before the type of a parameter. -/
def frontTokens (p : WrittenParameter) : List Token :=
  p.qualifiers.flatMap (fun q => [q.token, .blank])
    ++ p.name.elim [] fun n => [n.token, ⟨.colon, ":"⟩, .blank]

/-- The tree of the type of a parameter, or of `anytype`. -/
def typeTree (p : WrittenParameter) : Tree :=
  p.type.elim (.token ⟨.anytypeKw, "anytype"⟩) TypeExpr.tree

/-- The tree of a parameter. -/
def tree (p : WrittenParameter) : Tree := .node .param (p.frontTokens.map .token ++ [p.typeTree])

end WrittenParameter

/-- The name of the type without values. -/
def Identifier.void : Identifier where
  text := "void"
  mem := Lexer.mem_ident.mpr ⟨'v', ['o', 'i', 'd'], rfl, rfl, List.all_eq_true.mp rfl⟩
  notKeyword := rfl

namespace WrittenFunction

/-- The tree of a function. -/
def tree (f : WrittenFunction) : Tree :=
  .node .fnDecl
    [.token ⟨.fnKw, "fn"⟩, .token .blank, .token f.name.token,
      .listed [.comma, .blank] .paramList (f.parameters.map WrittenParameter.tree),
      .token .blank, (TypeExpr.name .void).tree, .token .blank,
      .node .block [.token ⟨.lBrace, "\x7b"⟩, .token ⟨.rBrace, "\x7d"⟩]]

end WrittenFunction

/-! ### Texts of trees -/

namespace TypeExpr

theorem toList_text_modified (ms : List (TypeModifier × Bool)) (t : Tree) :
  (ms.foldr TypeModifier.tree t).text.toList
    = ms.flatMap (fun m => (m.1.allTokens m.2).flatMap (·.text.toList)) ++ t.text.toList
  := by
  induction ms with
  | nil => rfl
  | cons m ms ih =>
    rw [List.foldr_cons, TypeModifier.tree, Tree.toList_text_node, List.flatMap_append,
      List.flatMap_map]
    simp [Tree.text_token, ih]

theorem toList_allTokens (m : TypeModifier) (isConst : Bool) :
  (m.allTokens isConst).flatMap (·.text.toList)
    = (m.text ++ if isConst then "const " else "").toList
  := by
  cases m <;> cases isConst <;> rfl

/-- The texts of the modifiers and of what they stand before are the text of the type. -/
theorem toList_text_chainTree (t : TypeExpr) :
  t.modifiers.flatMap (fun m => (m.1.allTokens m.2).flatMap (·.text.toList))
      ++ t.chainTree.text.toList = t.text.toList
  := by
  induction t using induct with
  | name n =>
    simp [modifiers, chainTree, Tree.toList_text_node, Tree.text_token, text, Identifier.token]
  | field receiver n ih =>
    rw [modifiers, chainTree, Tree.toList_text_node, List.flatMap_cons, ← List.append_assoc, ih]
    simp [Tree.text_token, text, Identifier.token]
  | call callee arguments ih ihs =>
    have harguments : (arguments.map tree).map Tree.text = arguments.map text := by
      rw [List.map_map]
      apply List.map_congr_left
      intro a ha
      rw [Function.comp_apply, ← String.toList_inj, tree, toList_text_modified, ihs a ha]
    rw [modifiers, chainTree_call, Tree.toList_text_node, List.flatMap_cons, ← List.append_assoc,
      ih, List.flatMap_singleton, Tree.toList_listed, harguments]
    simp [text]
  | modified modifier isConst operand ih =>
    rw [modifiers, chainTree, List.flatMap_cons, List.append_assoc, ih, text]
    simp [toList_allTokens]

/-- The tree of a type has the text of the type. -/
theorem text_tree (t : TypeExpr) :
  t.tree.text = t.text
  := by
  rw [← String.toList_inj, tree, toList_text_modified, toList_text_chainTree]

end TypeExpr

namespace WrittenParameter

theorem text_typeTree (p : WrittenParameter) :
  p.typeTree.text = p.type.elim "anytype" TypeExpr.text
  := by
  rw [typeTree]
  cases p.type with
  | none => apply Tree.text_token
  | some t => apply t.text_tree

theorem text_tree (p : WrittenParameter) :
  p.tree.text = p.text
  := by
  have hqualifiers : (p.qualifiers.flatMap fun q => [q.token, .blank]).flatMap (·.text.toList)
      = (String.join (p.qualifiers.map fun q => q.text ++ " ")).toList := by
    rw [String.toList_join, List.flatMap_assoc, List.flatMap_map]
    apply List.flatMap_congr
    intro q _
    cases q <;> rfl
  have hname : (p.name.elim [] fun n => [n.token, ⟨.colon, ":"⟩, .blank]).flatMap (·.text.toList)
      = (p.name.elim "" fun n => n.text ++ ": ").toList := by
    cases p.name with
    | none => rfl
    | some n => simp [Identifier.token, Token.blank]
  rw [← String.toList_inj, tree, Tree.toList_text_node, List.flatMap_append, List.flatMap_map,
    List.flatMap_singleton, text_typeTree, text, String.toList_append, String.toList_append,
    ← hqualifiers, ← hname, ← List.flatMap_append]
  simp only [Tree.text_token, frontTokens]

end WrittenParameter

theorem WrittenFunction.text_tree (f : WrittenFunction) :
  f.tree.text = f.text
  := by
  have hparameters : (f.parameters.map WrittenParameter.tree).map Tree.text
      = f.parameters.map WrittenParameter.text := by
    rw [List.map_map]
    apply List.map_congr_left
    intro p _
    apply p.text_tree
  rw [← String.toList_inj, tree, Tree.toList_text_node]
  simp only [List.flatMap_cons, Tree.toList_listed, hparameters]
  simp [Tree.toList_text_node, Tree.text_token, text, TypeExpr.text_tree, TypeExpr.text,
    Identifier.token, Identifier.void, Token.blank]

end InlayHints

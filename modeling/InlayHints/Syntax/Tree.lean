import InlayHints.Syntax.Token

/-!
# Syntax trees

A tree is a token or a node over a list of trees.  Nothing of the text is left out: the
tokens of a tree, `Tree.tokens`, are its leaves from left to right, trivia included, and
`Tree.text` is the text they cover.  A node may be empty.  `Tree.induct` is induction on a
tree with a hypothesis for every child of a node.
-/

namespace InlayHints

/-- A token, or a node over its children.  Every tree carries its width, the number of bytes it
covers. -/
inductive Tree where
  | token (token : Token)
  | node (kind : NodeKind) (children : List Tree)
with
  @[computed_field] width : Tree → Nat
    | .token t => t.width
    | .node _ cs => cs.foldl (fun n c => n + c.width) 0
deriving Repr, Inhabited

namespace Tree

/-- Induction on trees, with a hypothesis for every child of a node. -/
@[elab_as_elim]
theorem induct {motive : Tree → Prop} (token : ∀ t, motive (.token t))
    (node : ∀ k cs, (∀ c ∈ cs, motive c) → motive (.node k cs)) :
  (t : Tree) → motive t
  | .token t => token t
  | .node k cs => node k cs fun c _ => induct token node c

/-- What a tree is. -/
def kind : Tree → Kind
  | .token t => .token t.kind
  | .node k _ => .node k

/-- The kind of a node, `none` for a token. -/
def nodeKind? : Tree → Option NodeKind
  | .token _ => none
  | .node k _ => some k

/-- The token of a leaf, `none` for a node. -/
def token? : Tree → Option Token
  | .token t => some t
  | .node _ _ => none

/-- The children of a node, none for a token. -/
def children : Tree → List Tree
  | .token _ => []
  | .node _ cs => cs

@[simp]
theorem width_token (t : Token) :
  (token t).width = t.width
  := by
  rw [width]

@[simp]
theorem width_node (k : NodeKind) (cs : List Tree) :
  (node k cs).width = cs.foldl (fun n c => n + c.width) 0
  := by
  rw [width]

/-- The tokens of a tree, from left to right, followed by `rest`. -/
def tokensBefore (rest : List Token) : Tree → List Token
  | .token t => t :: rest
  | .node _ cs => cs.foldr (fun c rest => c.tokensBefore rest) rest

/-- The tokens of a tree, from left to right. -/
def tokens (t : Tree) : List Token := t.tokensBefore []

theorem foldr_tokensBefore (cs : List Tree) (rest : List Token)
    (h : ∀ c ∈ cs, ∀ rest, c.tokensBefore rest = c.tokens ++ rest) :
  cs.foldr (fun c rest => c.tokensBefore rest) rest = cs.flatMap tokens ++ rest
  := by
  induction cs with
  | nil => rfl
  | cons c cs ih =>
    rw [List.foldr_cons, h c (by simp), ih]
    · simp
    · intro c' hc'
      apply h c' (by simp [hc'])

theorem tokensBefore_eq (t : Tree) (rest : List Token) :
  t.tokensBefore rest = t.tokens ++ rest
  := by
  induction t using induct generalizing rest with
  | token t => simp [tokens, tokensBefore]
  | node k cs ih => simp only [tokens, tokensBefore, foldr_tokensBefore cs _ ih, List.append_nil]

@[simp]
theorem tokens_token (t : Token) :
  (token t).tokens = [t]
  := by
  rw [tokens, tokensBefore]

@[simp]
theorem tokens_node (k : NodeKind) (cs : List Tree) :
  (node k cs).tokens = cs.flatMap tokens
  := by
  rw [tokens, tokensBefore, foldr_tokensBefore]
  · simp
  · intro c _ rest
    apply tokensBefore_eq

/-- The text before a tree, followed by the text of the tree. -/
def appendText (before : String) : Tree → String
  | .token t => before ++ t.text
  | .node _ cs => cs.foldl (fun before c => c.appendText before) before

/-- The text a tree covers. -/
def text (t : Tree) : String := t.appendText ""

theorem toList_foldl_appendText (cs : List Tree) (before : String)
    (h : ∀ c ∈ cs, ∀ before : String,
      (c.appendText before).toList = before.toList ++ c.tokens.flatMap (·.text.toList)) :
  (cs.foldl (fun before c => c.appendText before) before).toList
    = before.toList ++ (cs.flatMap tokens).flatMap (·.text.toList)
  := by
  induction cs generalizing before with
  | nil => simp
  | cons c cs ih =>
    rw [List.foldl_cons, ih, h c (by simp)]
    · simp
    · intro c' hc'
      apply h c' (by simp [hc'])

theorem toList_appendText (t : Tree) (before : String) :
  (t.appendText before).toList = before.toList ++ t.tokens.flatMap (·.text.toList)
  := by
  induction t using induct generalizing before with
  | token t => simp [appendText]
  | node k cs ih => rw [appendText, tokens_node, toList_foldl_appendText cs _ ih]

/-- The text of a tree is made of the texts of its tokens. -/
theorem toList_text (t : Tree) :
  t.text.toList = t.tokens.flatMap (·.text.toList)
  := by
  rw [text, toList_appendText]
  simp

mutual

/-- Whether two trees are the same. -/
def same : Tree → Tree → Bool
  | .token a, .token b => a = b
  | .node k as, .node l bs => k = l && sameAll as bs
  | _, _ => false

/-- Whether two lists of trees are the same. -/
def sameAll : List Tree → List Tree → Bool
  | [], [] => true
  | a :: as, b :: bs => same a b && sameAll as bs
  | _, _ => false

end

mutual

theorem same_iff (a b : Tree) :
  same a b = true ↔ a = b
  := by
  match a, b with
  | .token a, .token b => simp [same]
  | .node k as, .node l bs => simp [same, sameAll_iff as bs]
  | .token a, .node l bs => simp [same]
  | .node k as, .token b => simp [same]

theorem sameAll_iff (as bs : List Tree) :
  sameAll as bs = true ↔ as = bs
  := by
  match as, bs with
  | [], [] => simp [sameAll]
  | a :: as, b :: bs => simp [sameAll, same_iff a b, sameAll_iff as bs]
  | [], b :: bs => simp [sameAll]
  | a :: as, [] => simp [sameAll]

end

instance : DecidableEq Tree := fun a b => decidable_of_iff _ (same_iff a b)

theorem sizeOf_lt_of_mem_children {c t : Tree} (h : c ∈ t.children) :
  sizeOf c < sizeOf t
  := by
  cases t with
  | token t => simp [children] at h
  | node k cs =>
    have := List.sizeOf_lt_of_mem (show c ∈ cs from h)
    simp only [node.sizeOf_spec]
    omega

end Tree

end InlayHints

import InlayHints.Proofs.Grammar.Bare
import InlayHints.Proofs.Syntax.Site.Parts

/-!
# Nodes of a kind

How many nodes of a kind there are in a tree, `Tree.countNodes`, does not depend on trivia
(`Tree.countNodes_sift`), and it is how many sites below the site of the tree have this kind
(`Site.countP_descendants`).
-/

namespace InlayHints

namespace Tree

/-- How many nodes of a kind there are in a tree. -/
def countNodes (kind : NodeKind) : Tree → Nat
  | .token _ => 0
  | .node k cs => cs.foldr (fun c n => c.countNodes kind + n) (if k = kind then 1 else 0)

variable {kind : NodeKind}

@[simp]
theorem countNodes_token (kind : NodeKind) (t : Token) :
  (token t).countNodes kind = 0
  := by
  rw [countNodes]

@[simp]
theorem countNodes_node (kind k : NodeKind) (cs : List Tree) :
  (node k cs).countNodes kind = (if k = kind then 1 else 0) + (cs.map (countNodes kind)).sum
  := by
  rw [countNodes]
  induction cs with
  | nil => rfl
  | cons c cs ih =>
    rw [List.foldr_cons, ih, List.map_cons, List.sum_cons]
    omega

theorem countNodes_of_isTrivia {t : Tree} (h : t.isTrivia = true) :
  t.countNodes kind = 0
  := by
  cases t with
  | token t => apply countNodes_token
  | node k cs => contradiction

theorem countNodes_sift (kind : NodeKind) (t : Tree) :
  t.sift.countNodes kind = t.countNodes kind
  := by
  induction t using induct with
  | token t => rw [sift_token]
  | node k cs ih =>
    rw [sift_node, countNodes_node, countNodes_node]
    congr 1
    induction cs with
    | nil => rfl
    | cons c cs ih' =>
      have hc := ih c List.mem_cons_self
      have hcs := ih' fun d hd => ih d (List.mem_cons_of_mem c hd)
      rw [List.map_cons, List.sum_cons, ← hcs, ← hc]
      cases htrivia : c.sift.isTrivia with
      | true =>
        rw [countNodes_of_isTrivia htrivia, Nat.zero_add]
        simp [siftAll, htrivia]
      | false => simp [siftAll, htrivia]

end Tree

/-- The sites that have the kind of a node are those of the nodes of this kind. -/
theorem Site.countP_descendants (kind : NodeKind) (s : Site) :
  s.descendants.countP (fun d => d.kind = .node kind) = s.tree.countNodes kind
  := by
  generalize htree : s.tree = t
  induction t using Tree.induct generalizing s with
  | token t =>
    have helements : s.elements = [] := by
      rw [← List.map_eq_nil_iff, map_tree_elements, htree]
      rfl
    rw [descendants_eq, helements, Tree.countNodes_token]
    simp [Site.kind, htree, Tree.kind]
  | node k cs ih =>
    have htrees : s.elements.map tree = cs := by
      rw [map_tree_elements, htree]
      rfl
    have hbelow : s.elements.map (fun e => e.descendants.countP fun d => d.kind = .node kind)
        = cs.map (Tree.countNodes kind) := by
      rw [← htrees, List.map_map]
      apply List.map_congr_left
      intro e he
      apply ih e.tree _ e rfl
      rw [← htrees]
      apply List.mem_map_of_mem he
    have hself : decide (s.kind = .node kind) = decide (k = kind) := by
      simp [Site.kind, htree, Tree.kind]
    rw [descendants_eq, List.countP_cons, List.countP_flatMap, Function.comp_def, hbelow, hself,
      Tree.countNodes_node, Nat.add_comm]
    simp

end InlayHints

import InlayHints.Proofs.Hint.Arguments
import InlayHints.Proofs.Syntax.Trailing

/-!
# Redundant labels

A label that says what the argument says already may be hidden.  `isRedundant_iff` says when: the
last significant token of the argument is the name of the parameter, and the switch for arguments
of this length is on.  An argument that ends with an empty node, as one may where the text has
faults, has no last token to look at, and its label is not hidden.
-/

namespace InlayHints

/-- The last significant token of an expression is an identifier, the given name. -/
def Expr.Spells (a : Expr) (name : String) : Prop :=
  ∃ l, (Leaf.significant a.site.leaves).getLast? = some l ∧ l.kind = .ident ∧ l.text = name

theorem Expr.spells_iff {a : Expr} {name : String} :
  a.Spells name ↔ ((Leaf.significant a.site.leaves).getLast?.any fun l =>
    l.kind = .ident && l.text = name) = true
  := by
  simp [Spells, Option.any_eq_true]

/-- Whether the label on an argument that spells it is hidden. -/
def Config.hidesSpelled (config : Config) (a : Expr) : Bool :=
  if (Leaf.significant a.site.leaves).length = 1 then config.hideRedundantNames
  else config.hideRedundantLastTokens

/-- The label that shows a name before an argument is hidden. -/
structure Expr.Hides (config : Config) (a : Expr) (name : String) : Prop where
  ends : a.site.tree.EndsInToken
  spells : a.Spells name
  switch : config.hidesSpelled a = true

variable {text : String} {a : Expr} {config : Config} {name : String}

namespace SourceFile

theorem site_ne_root (a : Expr) :
  a.site ≠ (ofText text).root
  := by
  intro hroot
  have hkind := a.isExpr_kind
  rw [hroot, kind_root] at hkind
  contradiction

/-- In a text without faults all expressions end with tokens. -/
theorem endsInToken_expr (h : (ofText text).parse.faults = [])
    (ha : a.site ∈ (ofText text).root.descendants) :
  a.site.tree.EndsInToken
  := endsInToken_of_faults h ha (site_ne_root a) a.isNode_site

/-- The last significant token of an expression is found just if the expression ends with a
token. -/
theorem lastToken?_expr_eq_some_iff (ha : a.site ∈ (ofText text).root.descendants) {l : Leaf} :
  a.lastToken? = some l
    ↔ a.site.tree.EndsInToken ∧ (Leaf.significant a.site.leaves).getLast? = some l
  := lastSignificant?_eq_some_iff ha (site_ne_root a) a.isNode_site

/-- An expression is a single token if it has one significant token only. -/
theorem isSingleToken_iff (ha : a.site ∈ (ofText text).root.descendants) {l : Leaf}
    (hl : a.lastToken? = some l) :
  a.isSingleToken = true ↔ (Leaf.significant a.site.leaves).length = 1
  := by
  obtain ⟨first, hfirst, -, hhead, htrivia⟩ := exists_firstToken_expr ha
  obtain ⟨ls, hleaves⟩ := List.head?_eq_some_iff.mp hhead
  have hlast := ((lastToken?_expr_eq_some_iff ha).mp hl).2
  have hpairs := a.site.pairwise_leaves
  have hwidth := width_pos_of_mem_leaves (Site.leaves_subset ha (List.mem_of_mem_head? hhead))
  rw [Expr.isSingleToken, hfirst, hl]
  rw [hleaves] at hpairs
  rw [hleaves, Leaf.significant_cons htrivia] at hlast ⊢
  simp only [decide_eq_true_eq, List.length_cons, Nat.add_eq_right, List.length_eq_zero_iff]
  cases hrest : Leaf.significant ls with
  | nil =>
    rw [hrest] at hlast
    obtain rfl := Option.some_inj.mp hlast
    simp
  | cons m ms =>
    rw [hrest, List.getLast?_cons_cons, ← hrest] at hlast
    -- the last token, which comes after the first one, starts behind it
    have hmem : l ∈ ls := List.mem_of_mem_filter (List.mem_of_getLast? hlast)
    have hlt := (List.pairwise_cons.mp hpairs).1 l hmem
    rw [Leaf.stop] at hlt
    simp only [reduceCtorEq, iff_false]
    omega

end SourceFile

/-- A label is left out as redundant just if it is hidden. -/
theorem isRedundant_iff (ha : a.site ∈ (SourceFile.ofText text).root.descendants) :
  isRedundant config name a = true ↔ a.Hides config name
  := by
  have hlastToken := @SourceFile.lastToken?_expr_eq_some_iff text a ha
  rw [isRedundant]
  cases hlast : a.lastToken? with
  | none =>
    constructor
    · intro h
      contradiction
    · rintro ⟨hends, ⟨l, hl, -⟩, -⟩
      rw [hlastToken.mpr ⟨hends, hl⟩] at hlast
      contradiction
  | some l =>
    obtain ⟨hends, hl⟩ := hlastToken.mp hlast
    have hswitch : (if a.isSingleToken then config.hideRedundantNames
        else config.hideRedundantLastTokens) = config.hidesSpelled a := by
      apply if_congr (SourceFile.isSingleToken_iff ha hlast) rfl rfl
    have hspells : a.Spells name ↔ l.kind = .ident ∧ l.text = name := by
      rw [Expr.Spells, hl]
      simp
    rw [hswitch]
    simp only [Bool.and_eq_true, decide_eq_true_eq]
    rw [← hspells]
    constructor
    · rintro ⟨hspells, hswitch⟩
      exact ⟨hends, hspells, hswitch⟩
    · rintro ⟨-, hspells, hswitch⟩
      exact ⟨hspells, hswitch⟩

end InlayHints

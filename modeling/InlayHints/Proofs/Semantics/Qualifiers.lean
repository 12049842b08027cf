import Mathlib.Data.List.DropRight
import InlayHints.Semantics.Signature
import InlayHints.Proofs.Syntax.Adjacent
import InlayHints.Proofs.Syntax.Schema

/-!
# Qualifiers of parameters

The qualifiers of a parameter stand before everything else in it, in any number, but only the
last two of them count for its signature (`Param.qualifiers_eq`).  So the flags of a parameter are
those of its last two qualifiers (`SourceFile.flags_of_parameters`), and a qualifier before these
is lost (`SourceFile.qualifier_lost`).
-/

namespace InlayHints

open Layout

/-- The keywords that qualify a parameter, from left to right. -/
def Param.qualifierTokens (p : Param) : List Leaf := p.site.ownTokens.filter (·.kind.isQualifier)

/-! ### Parts of a parameter -/

namespace Kind

theorem isTrivia_of_isQualifier {k : TokenKind} (h : k.isQualifier = true) :
  k.isTrivia = false
  := by
  cases k with
  | noaliasKw => rfl
  | comptimeKw => rfl
  | _ => contradiction

end Kind

/-- The qualifiers come first in the layout of a parameter. -/
theorem NodeKind.exists_qualifiers {ks : List Kind} (h : ks ∈ (layout .param).language) :
  ∃ qs rest, ks = qs ++ rest ∧ (∀ k ∈ qs, k.isQualifier = true)
    ∧ ∀ k ∈ rest, k.isQualifier = false
  := by
  obtain ⟨qs, hqs, rest, hrest, rfl⟩ := mem_andThen.mp h
  refine ⟨qs, rest, rfl, forall_of_only (by decide) hqs, ?_⟩
  intro k hk
  have honly := forall_of_only (p := (!·.isQualifier)) (by decide) hrest k hk
  simpa using honly

namespace Site

variable {s : Site}

/-- Sites of qualifiers are sites of tokens. -/
theorem exists_leaves {es : List Site} (h : ∀ e ∈ es, e.kind.isQualifier = true) :
  ∃ ls : List Leaf, es = ls.map Leaf.site ∧ ∀ l ∈ ls, l.kind.isQualifier = true
  := by
  induction es with
  | nil => exact ⟨[], rfl, List.forall_mem_nil _⟩
  | cons e es ih =>
    obtain ⟨ls, rfl, hls⟩ := ih (List.forall_mem_cons.mp h).2
    have he := h e List.mem_cons_self
    cases hkind : e.kind with
    | token k =>
      rw [hkind] at he
      obtain ⟨l, rfl, rfl⟩ := exists_leaf hkind
      exact ⟨l :: ls, rfl, List.forall_mem_cons.mpr ⟨he, hls⟩⟩
    | _ =>
      rw [hkind] at he
      contradiction

end Site

namespace Param

variable {text : String} {p : Param}

/-- The parts of a parameter are its qualifiers and then others. -/
theorem exists_parts (hp : p.site ∈ (SourceFile.ofText text).root.descendants) :
  ∃ rest, p.site.parts = p.qualifierTokens.map Leaf.site ++ rest
  := by
  obtain ⟨qs, ks, hkinds, hqs, hks⟩ :=
    NodeKind.exists_qualifiers (SourceFile.partKinds_mem hp p.kind_site)
  obtain ⟨es, rest, hparts, rfl, rfl⟩ := List.map_eq_append_iff.mp hkinds
  rw [List.forall_mem_map] at hqs hks
  obtain ⟨ls, rfl, hls⟩ := Site.exists_leaves hqs
  have hrest : (rest.filterMap Site.leaf?).filter (·.kind.isQualifier) = [] := by
    apply List.filter_eq_nil_iff.mpr
    intro l hl
    obtain ⟨e, he, hle⟩ := List.mem_filterMap.mp hl
    rw [← Site.site_of_leaf? hle] at he
    have hkind : l.kind.isQualifier = false := hks l.site he
    rw [hkind]
    nofun
  have htokens : p.qualifierTokens = ls := by
    rw [qualifierTokens, Site.filter_ownTokens, hparts, List.filterMap_append, List.filter_append,
      hrest, List.append_nil, List.filterMap_map]
    · have hleaf : Site.leaf? ∘ Leaf.site = some := rfl
      rw [hleaf, List.filterMap_some]
      apply List.filter_eq_self.mpr hls
    · intro l hl
      rw [l.isTrivia_eq]
      apply Kind.isTrivia_of_isQualifier hl
  use rest
  rw [htokens, hparts]

/-- The first part of a parameter starts where the parameter does. -/
theorem start_of_parts (hp : p.site ∈ (SourceFile.ofText text).root.descendants) {e : Site}
    {rest : List Site} (hparts : p.site.parts = e :: rest) :
  e.start = p.start
  := by
  have hhead : p.site.elements.head? = some e := by
    rw [Site.head?_elements (SourceFile.trimmed_children hp p.kind_site nofun), hparts]
    rfl
  obtain ⟨post, helements⟩ := List.head?_eq_some_iff.mp hhead
  have hsplit : p.site.elements = [] ++ e :: post := helements
  obtain ⟨-, -, -, hstart⟩ := Site.path_of_elements hsplit
  apply hstart

/-- What stands before the first part of a parameter starts before the parameter. -/
theorem start_of_previous (hp : p.site ∈ (SourceFile.ofText text).root.descendants) {l m : Leaf}
    {rest : List Site} (hparts : p.site.parts = l.site :: rest)
    (hm : l.previousSignificant? = some m) :
  m.start < p.start
  := by
  have hl : l.site ∈ p.site.parts := by rw [hparts]; apply List.mem_cons_self
  have hmem := Site.element_mem_descendants hp (Site.mem_parts.mp hl).1
  obtain ⟨before, after, haround⟩ := Site.exists_around l.site hmem
  have hleaves := haround.leaves_eq
  rw [Site.leaves_site] at hleaves
  have hbefore := List.mem_of_getLast? ((Site.reaches_previousSignificant rfl hleaves).sound m hm)
  have hbefore : m ∈ before := List.mem_of_mem_filter hbefore
  have hstop := haround.bounds.1 m hbefore
  have hleaf : m ∈ (SourceFile.ofText text).root.leaves := by
    rw [hleaves]
    apply List.mem_append_left _ hbefore
  have hwidth := SourceFile.width_pos_of_mem_leaves hleaf
  rw [start_of_parts hp hparts, Leaf.stop] at hstop
  omega

/-- The qualifiers that count are the last two, the last one first. -/
theorem qualifiers_eq (hp : p.site ∈ (SourceFile.ofText text).root.descendants) :
  p.qualifiers = (p.qualifierTokens.reverse.take 2).map Leaf.kind
  := by
  obtain ⟨rest, hparts⟩ := exists_parts hp
  have hlast : p.qualifier? = p.qualifierTokens.reverse.head? := List.head?_reverse.symm
  have htokens := p.qualifierTokens.reverse_reverse
  rw [qualifiers, hlast]
  match hreverse : p.qualifierTokens.reverse with
  | [] => rfl
  | [last] =>
    rw [← htokens, hreverse] at hparts
    simp only [List.head?_cons]
    split
    · rfl
    · next before hbefore =>
      have := start_of_previous hp hparts hbefore
      rw [if_neg (by omega)]
      rfl
  | last :: before :: others =>
    have hsplit : p.site.parts
        = others.reverse.map Leaf.site ++ before.site :: last.site :: rest := by
      rw [hparts, ← htokens, hreverse]
      simp
    have hinside : p.start ≤ before.start := by
      have hmem : before.site ∈ p.site.parts := by rw [hsplit]; simp
      obtain ⟨_, _, _, -, hstart, -⟩ := Site.exists_of_mem_elements (Site.mem_parts.mp hmem).1
      apply le_of_le_of_eq (Nat.le_add_right _ _) hstart.symm
    simp only [List.head?_cons, Site.previousSignificant?_of_parts hsplit, if_pos hinside]
    rfl

theorem contains_qualifiers_iff (hp : p.site ∈ (SourceFile.ofText text).root.descendants)
    (k : TokenKind) :
  p.qualifiers.contains k = true ↔ ∃ l ∈ p.qualifierTokens.rtake 2, l.kind = k
  := by
  rw [qualifiers_eq hp, List.contains_iff_mem, List.mem_map, List.rtake_eq_reverse_take_reverse]
  simp only [List.mem_reverse]

end Param

/-! ### Parameters of a function -/

namespace FnDecl

variable {text : String} {d : FnDecl} {l : ParamList}

/-- The list of parameters in the declaration of a function is the only one. -/
theorem paramList?_eq (hd : d.site ∈ (SourceFile.ofText text).root.descendants)
    (hl : l.site ∈ d.site.elements) :
  d.paramList? = some l
  := by
  have hcount : d.site.partKinds.countP (Kind.isNode (NodeKind.is .paramList)) ≤ 1 :=
    countP_le_one (by decide) (SourceFile.partKinds_mem hd d.kind_site)
  apply Site.findSome?_of_countP hcount (fun _ he => he) hl

theorem mem_parameters (hd : d.site ∈ (SourceFile.ofText text).root.descendants)
    (hl : l.site ∈ d.site.elements) {p : Param} (hp : p.site ∈ l.site.elements) :
  p ∈ d.parameters
  := by
  rw [parameters, paramList?_eq hd hl]
  apply List.mem_filterMap.mpr ⟨p.site, hp, NodeSite.ofSite?_site p⟩

end FnDecl

namespace NodeKind

theorem avoids_param {kind : NodeKind} (h : kind ≠ .paramList) :
  kind.layout.avoids (· == .node .param) = true
  := by
  cases kind with
  | paramList => contradiction
  | _ => decide

theorem avoids_paramList {kind : NodeKind} (h : kind ≠ .fnDecl) :
  kind.layout.avoids (· == .node .paramList) = true
  := by
  cases kind with
  | fnDecl => contradiction
  | _ => decide

end NodeKind

namespace SourceFile

variable {text : String} {p : Param}

/-- Every parameter is one of a function. -/
theorem exists_function (hp : p.site ∈ (ofText text).root.descendants) :
  ∃ d : FnDecl, d.site ∈ (ofText text).root.descendants ∧ p ∈ d.parameters
  := by
  obtain ⟨list, hlist, hkind, hpl⟩ := exists_parent_of_avoids hp p.kind_site p.isTrivia_site
    (fun _ => NodeKind.avoids_param) nofun
  obtain ⟨l, rfl⟩ : ∃ l : ParamList, l.site = list := by
    apply Site.exists_node
    rw [hkind]
    rfl
  obtain ⟨decl, hdecl, hkind, hld⟩ := exists_parent_of_avoids hlist l.kind_site l.isTrivia_site
    (fun _ => NodeKind.avoids_paramList) nofun
  obtain ⟨d, rfl⟩ : ∃ d : FnDecl, d.site = decl := by
    apply Site.exists_node
    rw [hkind]
    rfl
  exact ⟨d, hdecl, FnDecl.mem_parameters hdecl hld hpl⟩

/-- Every parameter in a file is one of a function, at some place, and at this place of the
signature stands a parameter whose flags are those of the last two qualifiers in the file. -/
theorem flags_of_parameters (hp : p.site ∈ (ofText text).root.descendants) :
  ∃ (d : FnDecl) (i : Nat) (q : Parameter), d.site ∈ (ofText text).root.descendants
    ∧ d.parameters[i]? = some p ∧ (Signature.ofFnDecl d).parameters[i]? = some q
    ∧ (q.isNoalias = true ↔ ∃ l ∈ p.qualifierTokens.rtake 2, l.kind = .noaliasKw)
    ∧ (q.isComptime = true ↔ ∃ l ∈ p.qualifierTokens.rtake 2, l.kind = .comptimeKw)
  := by
  obtain ⟨d, hd, hmem⟩ := exists_function hp
  obtain ⟨i, hi⟩ := List.getElem?_of_mem hmem
  refine ⟨d, i, .ofParam p, hd, hi, ?_, ?_, ?_⟩
  · rw [Signature.ofFnDecl, List.getElem?_map, hi]
    rfl
  · apply Param.contains_qualifiers_iff hp
  · apply Param.contains_qualifiers_iff hp

/-- Looks for a parameter with the given qualifiers. -/
theorem exists_param {ks : List TokenKind}
    (h : ((ofText text).root.descendants.any fun s =>
      (NodeSite.ofSite? (NodeKind.is .param) s).any fun p =>
        decide ((Param.qualifierTokens p).map Leaf.kind = ks)) = true) :
  ∃ p : Param, p.site ∈ (ofText text).root.descendants ∧ p.qualifierTokens.map Leaf.kind = ks
  := by
  obtain ⟨s, hs, h⟩ := List.any_eq_true.mp h
  obtain ⟨p, hp, hkinds⟩ := (Option.any_eq_true _ _).mp h
  obtain rfl := NodeSite.site_of_ofSite? hp
  exact ⟨p, hs, of_decide_eq_true hkinds⟩

/-- Of two qualifiers both count. -/
theorem flags_of_parameters_both :
  ∃ p : Param, p.site ∈ (ofText "fn f(noalias comptime x: T) void {}").root.descendants
    ∧ p.qualifierTokens.map Leaf.kind = [.noaliasKw, .comptimeKw]
    ∧ ∃ (d : FnDecl) (i : Nat) (q : Parameter),
      d.site ∈ (ofText "fn f(noalias comptime x: T) void {}").root.descendants
      ∧ d.parameters[i]? = some p ∧ (Signature.ofFnDecl d).parameters[i]? = some q
      ∧ (q.isNoalias = true ↔ ∃ l ∈ p.qualifierTokens.rtake 2, l.kind = .noaliasKw)
      ∧ (q.isComptime = true ↔ ∃ l ∈ p.qualifierTokens.rtake 2, l.kind = .comptimeKw)
  := by
  obtain ⟨p, hp, hkinds⟩ : ∃ p : Param,
      p.site ∈ (ofText "fn f(noalias comptime x: T) void {}").root.descendants
        ∧ p.qualifierTokens.map Leaf.kind = [.noaliasKw, .comptimeKw] := by
    apply exists_param
    cbv
  exact ⟨p, hp, hkinds, flags_of_parameters hp⟩

/-- Of three qualifiers the first one is lost. -/
theorem qualifier_lost :
  ¬ ∀ (d : FnDecl) (i : Nat) (p : Param) (q : Parameter),
      d.site ∈ (ofText "fn f(noalias comptime comptime x: T) void {}").root.descendants →
      d.parameters[i]? = some p → (Signature.ofFnDecl d).parameters[i]? = some q →
      (q.isNoalias = true ↔ ∃ l ∈ p.qualifierTokens, l.kind = .noaliasKw)
  := by
  intro hclaim
  obtain ⟨p, hp, hkinds⟩ : ∃ p : Param,
      p.site ∈ (ofText "fn f(noalias comptime comptime x: T) void {}").root.descendants
        ∧ p.qualifierTokens.map Leaf.kind = [.noaliasKw, .comptimeKw, .comptimeKw] := by
    apply exists_param
    cbv
  obtain ⟨d, hd, hmem⟩ := exists_function hp
  obtain ⟨i, hi⟩ := List.getElem?_of_mem hmem
  have hq : (Signature.ofFnDecl d).parameters[i]? = some (.ofParam p) := by
    rw [Signature.ofFnDecl, List.getElem?_map, hi]
    rfl
  have hlost : (Parameter.ofParam p).isNoalias = false := by
    rw [Parameter.ofParam, Param.qualifiers_eq hp, List.map_take, List.map_reverse, hkinds]
    rfl
  have hgiven : .noaliasKw ∈ p.qualifierTokens.map Leaf.kind := by
    rw [hkinds]
    apply List.mem_cons_self
  have hflag := (hclaim d i p _ hd hi hq).mpr (List.mem_map.mp hgiven)
  rw [hlost] at hflag
  contradiction

end SourceFile

end InlayHints

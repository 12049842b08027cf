import InlayHints.Proofs.Hint.Purity
import InlayHints.Proofs.Hint.Redundancy
import InlayHints.Proofs.Hint.Visits

/-!
# Labels of calls

The hints of a call, said through what stands in the text and what the questions are answered:
what the callee refers to (`Call.RefersTo`), how many parameters are left out (`Call.skipped`), and
which arguments get a label (`Call.IsLabel`).  `inlayHints_labelled` says that a request gives
these hints for every call that it visits.
-/

namespace InlayHints

/-! ### Arguments and parameters -/

/-- The hint that stands before an argument and shows the name of a parameter, with a tooltip that
describes the parameter. -/
def Parameter.hint (markup : Markup) (p : Parameter) (name : String) (a : Expr) : RawHint where
  offset := a.start
  label := name ++ ":"
  kind := .parameter
  tooltip := some (.ofParameter markup p.isNoalias p.isComptime
    (if p.isAnytype then "anytype" else p.type))

/-- The hint `h` labels the argument `i` of a call with the name of the parameter at its place,
where the first `skipped` parameters do not count. -/
def Call.IsLabel (options : Options) (parameters : List Parameter) (skipped : Nat) (c : Call)
    (i : Nat) (h : RawHint) : Prop :=
  ∃ a p name, c.arguments[i]? = some a ∧ parameters[i + skipped]? = some p ∧ p.name = some name
    ∧ ¬ a.Hides options.config name ∧ h = p.hint options.markup name a

section

variable {text : String} {options : Options}

/-- An argument gets a label unless its parameter has no name or the label is hidden. -/
theorem parameterHint?_eq_some_iff {p : Parameter} {a : Expr} {h : RawHint}
    (ha : a.site ∈ (SourceFile.ofText text).root.descendants) :
  parameterHint? options p a = some h
    ↔ ∃ name, p.name = some name ∧ ¬ a.Hides options.config name
      ∧ h = p.hint options.markup name a
  := by
  obtain ⟨first, hfirst, hstart, -⟩ := SourceFile.exists_firstToken_expr ha
  have hlabel : ∀ name, labelHint? options.markup a name p.isNoalias p.isComptime
      (if p.isAnytype then "anytype" else p.type) = some (p.hint options.markup name a) := by
    intro name
    rw [labelHint?, hfirst, Parameter.hint, ← hstart]
    rfl
  rw [parameterHint?, Option.bind_eq_some_iff]
  apply exists_congr
  intro name
  apply and_congr_right
  intro _
  rw [← isRedundant_iff ha, hlabel]
  cases isRedundant options.config name a with
  | true => simp
  | false => simp [eq_comm]

/-- What pairs at equal places give, by their places. -/
theorem filterMap_zip_eq {α β γ : Type} (f : α → β → Option γ) (xs : List α) (ys : List β) :
  ((xs.zip ys).filterMap fun (x, y) => f x y)
    = (List.range ys.length).filterMap fun i => ys[i]?.bind fun y => xs[i]?.bind fun x => f x y
  := by
  induction ys generalizing xs with
  | nil =>
    rw [List.zip_nil_right]
    rfl
  | cons y ys ih =>
    rw [List.length_cons, List.range_succ_eq_map, List.filterMap_cons, List.filterMap_map]
    cases xs with
    | nil => simp
    | cons x xs =>
      rw [List.zip_cons_cons, List.filterMap_cons, ih]
      rfl

/-- The arguments of a call are labelled with the parameters that are not left out. -/
theorem exists_labels (options : Options) {c : Call}
    (hc : c.site ∈ (SourceFile.ofText text).root.descendants)
    (parameters : List Parameter) (skipped : Nat) :
  ∃ label : Nat → Option RawHint,
    (∀ i h, label i = some h ↔ c.IsLabel options parameters skipped i h)
      ∧ labelArguments options (parameters.drop skipped) c.arguments
        = (List.range c.arguments.length).filterMap label
  := by
  refine ⟨_, ?_, filterMap_zip_eq (parameterHint? options) _ _⟩
  intro i h
  simp only [Option.bind_eq_some_iff, List.getElem?_drop, Nat.add_comm skipped]
  constructor
  · rintro ⟨a, ha, p, hp, hh⟩
    have hmem := SourceFile.mem_descendants_of_argument hc (List.mem_of_getElem? ha)
    obtain ⟨name, hname, hh⟩ := (parameterHint?_eq_some_iff hmem).mp hh
    exact ⟨a, p, name, ha, hp, hname, hh⟩
  · rintro ⟨a, p, name, ha, hp, hname, hh⟩
    have hmem := SourceFile.mem_descendants_of_argument hc (List.mem_of_getElem? ha)
    exact ⟨a, ha, p, hp, (parameterHint?_eq_some_iff hmem).mpr ⟨name, hname, hh⟩⟩

end

/-! ### What is called -/

section

variable {σ Receiver : Type} (sem : Semantics σ Receiver) (options : Options) (st : σ)

/-- What the callee of a call refers to: a name is looked up, a field is looked up among the
members of the type of what it is taken of, and no other callee refers to anything. -/
inductive Call.RefersTo (c : Call) : Option Declaration → Prop where
  | name {callee : NameRef} {list : ArgumentList} {name : Leaf}
    (parts : c.site.parts = [callee.site, list.site])
    (callee_parts : callee.site.parts = [name.site]) :
    RefersTo c ((sem.globalSymbol? name.text c.start).run st).1
  | member {callee : FieldAccess} {list : ArgumentList} {receiver : Expr} {dot name : Leaf}
    {type : Receiver} (parts : c.site.parts = [callee.site, list.site])
    (callee_parts : callee.site.parts = [receiver.site, dot.site, name.site])
    (typed : ((sem.receiverType? receiver c.start).run st).1 = some type) :
    RefersTo c ((sem.member? type name.text).run st).1
  | untyped {callee : FieldAccess} {list : ArgumentList} {receiver : Expr} {dot name : Leaf}
    (parts : c.site.parts = [callee.site, list.site])
    (callee_parts : callee.site.parts = [receiver.site, dot.site, name.site])
    (untyped : ((sem.receiverType? receiver c.start).run st).1 = none) :
    RefersTo c none
  | other {callee : Expr} {list : ArgumentList} (parts : c.site.parts = [callee.site, list.site])
    (name : callee.site.kind ≠ .node .nameRef) (access : callee.site.kind ≠ .node .fieldExpr) :
    RefersTo c none

/-- What a declaration is merely a new name of, or else the declaration itself; only one such step
is made. -/
def Semantics.target (d : Declaration) : Declaration := ((sem.aliased? d).run st).1.getD d

/-- How many parameters are left out: the first one, if the call passes its receiver for it. -/
def Call.skipped (c : Call) (d : Declaration) (s : Signature) : Nat :=
  if s.parameters.length = c.arguments.length + 1 ∧ ((sem.isInstanceCall c d).run st).1 = true
  then 1 else 0

/-- The hints of a call, by what is called.  Only a function gives any. -/
inductive Call.Labelled (c : Call) : Option Declaration → List RawHint → Prop where
  | unknown : Labelled c none []
  | other {d : Declaration} (signature : d.signature? = none) : Labelled c (some d) []
  | function {d : Declaration} {s : Signature} {label : Nat → Option RawHint}
    (signature : d.signature? = some s)
    (labels : ∀ i h, label i = some h
      ↔ c.IsLabel options s.parameters (c.skipped sem st d s) i h) :
    Labelled c (some d) ((List.range c.arguments.length).filterMap label)

variable {sem} {text : String} {c : Call}

section

variable (hc : c.site ∈ (SourceFile.ofText text).root.descendants)

include hc

theorem refersTo_lookupCallee {callee : Expr} {list : ArgumentList}
    (hparts : c.site.parts = [callee.site, list.site]) (hpure : sem.IsPure) :
  c.RefersTo sem st ((lookupCallee sem callee c.start).run st).1
  := by
  have hpart : callee.site ∈ c.site.parts := by
    rw [hparts]
    apply List.mem_cons_self
  have hmem := Site.element_mem_descendants hc (Site.mem_parts.mp hpart).1
  unfold lookupCallee
  split
  · next access? name hname =>
    have hsite : name.site = callee.site := NodeSite.site_of_ofSite? hname
    rw [← hsite] at hmem hparts
    obtain ⟨identifier, hidentifier, -, hfound⟩ :=
      name.wellFormed (SourceFile.partKinds_mem hmem name.kind_site)
    rw [hfound]
    apply Call.RefersTo.name hparts hidentifier
  · next access hname haccess =>
    have hsite : access.site = callee.site := NodeSite.site_of_ofSite? haccess
    rw [← hsite] at hmem hparts
    obtain ⟨receiver, dot, field, hfield, -, -, hreceiver, hfieldName⟩ :=
      access.wellFormed (SourceFile.partKinds_mem hmem access.kind_site)
    rw [hreceiver, hfieldName]
    simp only [run_bind_eq]
    cases htype : ((sem.receiverType? receiver c.start).run st).1 with
    | none => apply Call.RefersTo.untyped hparts hfield htype
    | some type =>
      simp only [hpure.member type field.text _ st]
      apply Call.RefersTo.member hparts hfield htype
  · next hname haccess =>
    apply Call.RefersTo.other hparts
    · apply NodeSite.kind_ne_of_ofSite?_eq_none hname
    · apply NodeSite.kind_ne_of_ofSite?_eq_none haccess

/-- What a call stands for is what its callee refers to, or what that is a new name of. -/
theorem exists_refersTo (hpure : sem.IsPure) :
  ∃ d, c.RefersTo sem st d ∧ ((resolveCall sem c).run st).1 = d.map (sem.target st)
  := by
  obtain ⟨callee, list, hparts, hcallee, -⟩ :=
    c.wellFormed (SourceFile.partKinds_mem hc c.kind_site)
  refine ⟨_, refersTo_lookupCallee st hc hparts hpure, ?_⟩
  rw [resolveCall, hcallee]
  simp only [run_bind_eq]
  cases ((lookupCallee sem callee c.start).run st).1 with
  | none => rfl
  | some d =>
    rw [Option.map_some, Semantics.target, ← hpure.aliased d _ st]
    rfl

omit hc in
theorem run_visibleParameters (hpure : sem.IsPure) (d : Declaration) (s : Signature) (st' : σ) :
  ((visibleParameters sem c d s).run st').1 = s.parameters.drop (c.skipped sem st d s)
  := by
  by_cases hlength : s.parameters.length = c.arguments.length + 1
  · rw [visibleParameters, if_pos hlength, run_bind_eq, hpure.instanceCall c d st' st]
    cases hinstance : ((sem.isInstanceCall c d).run st).1 with
    | false =>
      have hskipped : c.skipped sem st d s = 0 := by
        apply if_neg
        rintro ⟨-, htrue⟩
        rw [hinstance] at htrue
        contradiction
      rw [hskipped]
      rfl
    | true =>
      have hskipped : c.skipped sem st d s = 1 := if_pos ⟨hlength, hinstance⟩
      rw [hskipped, List.drop_one]
      rfl
  · have hskipped : c.skipped sem st d s = 0 := if_neg fun h => hlength h.1
    rw [visibleParameters, if_neg hlength, hskipped]
    rfl

/-- The hints of a call label its arguments as what is called says. -/
theorem exists_labelled (hpure : sem.IsPure) :
  ∃ d, c.RefersTo sem st d
    ∧ c.Labelled sem options st (d.map (sem.target st)) ((callHints sem options c).run st).1
  := by
  obtain ⟨d, hd, hresolve⟩ := exists_refersTo st hc hpure
  use d, hd
  rw [callHints, run_bind_eq, hresolve]
  cases d.map (sem.target st) with
  | none => apply Call.Labelled.unknown
  | some d =>
    simp only
    cases hsignature : d.signature? with
    | none => apply Call.Labelled.other hsignature
    | some s =>
      obtain ⟨label, hlabel, hlabels⟩ :=
        exists_labels options hc s.parameters (c.skipped sem st d s)
      simp only [run_bind_eq, run_visibleParameters st hpure]
      change c.Labelled sem options st (some d) (labelArguments options _ c.arguments)
      rw [hlabels]
      apply Call.Labelled.function hsignature hlabel

end

/-- A request gives the hints of all visited sites.  A visited call that the switches admit labels
those of its arguments that have a parameter with a name at their place, unless the label is
hidden.  In a text without faults no argument ends with an empty node, which would keep its label
from being hidden. -/
theorem inlayHints_labelled (sem : Semantics σ Receiver) (hpure : sem.IsPure) (text : String)
    (range : TextRange) (options : Options) (st : σ) :
  ((inlayHints sem (.ofText text) range options).run st).1
      = RawHint.place options.encoding text ((visitedSites (.ofText text) range).flatMap fun s =>
          ((hintsAt sem options s).run st).1)
    ∧ ∀ c : Call, c.site ∈ visitedSites (.ofText text) range →
      (HintSource.call c).isAdmitted options.config = true →
      (∃ d, c.RefersTo sem st d ∧ c.Labelled sem options st (d.map (sem.target st))
          ((hintsAt sem options c.site).run st).1)
        ∧ ((SourceFile.ofText text).parse.faults = [] →
          ∀ a ∈ c.arguments, a.site.tree.EndsInToken)
  := by
  use hpure.inlayHints_eq (.ofText text) range options st
  intro c hvisited hadmitted
  have hc := (visitedSites_sublist (.ofText text) range).subset hvisited
  have hhints : hintsAt sem options c.site = callHints sem options c := by
    rw [hintsAt, HintSource.ofSite?_call]
    apply if_pos hadmitted
  rw [hhints]
  use exists_labelled options st hc hpure
  intro hfaults a ha
  apply SourceFile.endsInToken_expr hfaults (SourceFile.mem_descendants_of_argument hc ha)

/-- A member of any type is a new name of a function of three parameters, of which the receiver is
the first one; the function is a new name of the member again. -/
def Semantics.renamedMember : Semantics Unit Unit where
  globalSymbol? _ _ := pure none
  aliased? d := pure (if d.name = "g" then some ⟨"f", .variable⟩ else some
    ⟨"g", .function ⟨[{ name := "self" }, { name := "a", type := "u8" }, { name := "b" }]⟩⟩)
  receiverType? _ _ := pure (some ())
  member? _ name := pure (some ⟨name, .variable⟩)
  isInstanceCall _ _ := pure true
  declaredType? _ := pure none

/-- The receiver is left out, one step is made from the member to the function, and the argument
that spells its parameter has no label. -/
theorem inlayHints_labelled_member :
  let options : Options := { config := { hideRedundantNames := true } }
  Semantics.renamedMember.IsPure
    ∧ ∃ c : Call, c.site ∈ visitedSites (.ofText "x.f(1, b);") (.ofWidth 0 10)
      ∧ (HintSource.call c).isAdmitted options.config = true
      ∧ ((hintsAt .renamedMember options c.site).run ()).1
        = [⟨4, "a:", .parameter, some ⟨.plaintext, "u8"⟩⟩]
      ∧ (∃ d, c.RefersTo .renamedMember () d
        ∧ c.Labelled .renamedMember options () (d.map (Semantics.renamedMember.target ()))
          ((hintsAt .renamedMember options c.site).run ()).1)
      ∧ ∀ a ∈ c.arguments, a.site.tree.EndsInToken
  := by
  intro options
  have hpure := Semantics.isPure_of_subsingleton Semantics.renamedMember
  have hfound : (((visitedSites (.ofText "x.f(1, b);") (.ofWidth 0 10)).filterMap
      (NodeSite.ofSite? (NodeKind.is .callExpr))).any fun c =>
        (HintSource.call c).isAdmitted options.config
          && ((hintsAt .renamedMember options c.site).run ()).1
            = [⟨4, "a:", .parameter, some ⟨.plaintext, "u8"⟩⟩]) = true := by cbv
  obtain ⟨c, hvisited, hcall⟩ := exists_nodeSite hfound
  obtain ⟨hadmitted, hhints⟩ := Bool.and_eq_true_iff.mp hcall
  obtain ⟨-, hlabelled⟩ := inlayHints_labelled .renamedMember hpure "x.f(1, b);" (.ofWidth 0 10)
    options ()
  obtain ⟨hlabels, hends⟩ := hlabelled c hvisited hadmitted
  have hfaults : (SourceFile.ofText "x.f(1, b);").parse.faults = [] := by decide +kernel
  exact ⟨hpure, c, hvisited, hadmitted, of_decide_eq_true hhints, hlabels, hends hfaults⟩

/-- The declaration that a name refers to takes a type as its parameter `a`. -/
def Semantics.typeParameter : Semantics Unit Unit where
  globalSymbol? name _ := pure (some ⟨name, .function ⟨[{ name := "a", type := "type" }]⟩⟩)
  aliased? _ := pure none
  receiverType? _ _ := pure none
  member? _ _ := pure none
  isInstanceCall _ _ := pure false
  declaredType? _ := pure none

/-- An argument whose last significant token is the name of its parameter, and which is longer,
has a label although such labels are to be hidden: the argument ends with an empty node, the
parameters that the function in it does not have. -/
theorem inlayHints_labelled_unfinished :
  let options : Options :=
    { config := { excludeSingleArguments := false, hideRedundantLastTokens := true } }
  ∃ c : Call, c.site ∈ visitedSites (.ofText " f(struct\x7bfn a") (.ofWidth 0 14)
    ∧ (HintSource.call c).isAdmitted options.config = true
    ∧ (∃ a ∈ c.arguments, a.Spells "a" ∧ options.config.hidesSpelled a = true)
    ∧ ((hintsAt .typeParameter options c.site).run ()).1
      = [⟨3, "a:", .parameter, some ⟨.plaintext, "type"⟩⟩]
  := by
  intro options
  have hfound : (((visitedSites (.ofText " f(struct\x7bfn a") (.ofWidth 0 14)).filterMap
      (NodeSite.ofSite? (NodeKind.is .callExpr))).any fun c : Call =>
        (HintSource.call c).isAdmitted options.config
          && ((c.arguments.any fun a => options.config.hidesSpelled a
              && (Leaf.significant a.site.leaves).getLast?.any fun l =>
                l.kind = .ident && l.text = "a")
            && ((hintsAt .typeParameter options c.site).run ()).1
              = [⟨3, "a:", .parameter, some ⟨.plaintext, "type"⟩⟩])) = true := by cbv
  obtain ⟨c, hvisited, hcall⟩ := exists_nodeSite hfound
  obtain ⟨hadmitted, hcall⟩ := Bool.and_eq_true_iff.mp hcall
  obtain ⟨hargument, hhints⟩ := Bool.and_eq_true_iff.mp hcall
  obtain ⟨a, ha, hspells⟩ := List.any_eq_true.mp hargument
  obtain ⟨hswitch, hspells⟩ := Bool.and_eq_true_iff.mp hspells
  exact ⟨c, hvisited, hadmitted, ⟨a, ha, Expr.spells_iff.mpr hspells, hswitch⟩,
    of_decide_eq_true hhints⟩

end

end InlayHints

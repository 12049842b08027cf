import InlayHints.Proofs.Hint.Anchor
import InlayHints.Proofs.Hint.Siblings

/-!
# What the visited sites contribute

A request visits each site once, and what it finds there depends on the state in which the visit
starts.  So the answer is told by what each visited site contributes, and this is what `hintsAt`
gives at the site in some state (`Contribution`).
-/

namespace InlayHints

variable {σ Receiver α β : Type}

/-- A walk over a list without repetition finds something at each member, as a function of the
member. -/
theorem exists_map_run_mapM [DecidableEq α] (f : α → StateM σ β) {xs : List α} (hxs : xs.Nodup)
    (st : σ) :
  ∃ g : α → β, ((xs.mapM f).run st).1 = xs.map g ∧ ∀ x ∈ xs, ∃ st', g x = ((f x).run st').1
  := by
  induction xs generalizing st with
  | nil => exact ⟨fun x => ((f x).run st).1, rfl, List.forall_mem_nil _⟩
  | cons x xs ih =>
    obtain ⟨hx, hxs⟩ := List.nodup_cons.mp hxs
    obtain ⟨g, hg, hsome⟩ := ih hxs ((f x).run st).2
    have hrest : ∀ y ∈ xs, Function.update g x ((f x).run st).1 y = g y := by
      intro y hy
      apply Function.update_of_ne
      rintro rfl
      contradiction
    use Function.update g x ((f x).run st).1
    constructor
    · rw [List.mapM_cons, List.map_cons, Function.update_self, List.map_congr_left hrest, ← hg]
      rfl
    · intro y hy
      rcases List.mem_cons.mp hy with rfl | hy
      · use st
        apply Function.update_self
      · rw [hrest y hy]
        apply hsome y hy

/-- The answer to a request places what the visited sites contribute, one after the other: the
hints of each site, found in some state. -/
structure Contribution (sem : Semantics σ Receiver) (file : SourceFile) (range : TextRange)
    (options : Options) (st : σ) (given : Site → List RawHint) : Prop where
  answer : ((inlayHints sem file range options).run st).1
    = RawHint.place options.encoding file.text ((visitedSites file range).flatMap given)
  site : ∀ s ∈ visitedSites file range, ∃ st', given s = ((hintsAt sem options s).run st').1

/-- Every request is answered by what the visited sites contribute. -/
theorem exists_contribution (sem : Semantics σ Receiver) (file : SourceFile) (range : TextRange)
    (options : Options) (st : σ) :
  ∃ given, Contribution sem file range options st given
  := by
  obtain ⟨given, hgiven, hsite⟩ :=
    exists_map_run_mapM (hintsAt sem options) (selected_siblings file range).2 st
  use given
  constructor
  · rw [List.flatMap_def, ← hgiven]
    rfl
  · apply hsite

/-- A check that passes at some node of a list of sites. -/
theorem exists_nodeSite {p : NodeKind → Bool} {sites : List Site} {q : NodeSite p → Bool}
    (h : (sites.filterMap (NodeSite.ofSite? p)).any q = true) :
  ∃ n : NodeSite p, n.site ∈ sites ∧ q n = true
  := by
  obtain ⟨n, hn, hq⟩ := List.any_eq_true.mp h
  obtain ⟨s, hs, hnode⟩ := List.mem_filterMap.mp hn
  refine ⟨n, ?_, hq⟩
  rw [NodeSite.site_of_ofSite? hnode]
  apply hs

end InlayHints

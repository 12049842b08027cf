import InlayHints.Proofs.Hint.Placing
import InlayHints.Proofs.Hint.Purity
import InlayHints.Proofs.Hint.Siblings

/-!
# Hints for a part of a file

A request for a range finds a portion of the hints of the whole file (`inlayHints_sublist`): no
hint that the file does not have, none of them twice, and all in the order of the file.  The
sites that a request visits are listed as they are in the file, and the hints of a site do not
depend on which other sites are visited; sorting and placing keep this.
-/

namespace InlayHints

variable {σ Receiver : Type} {sem : Semantics σ Receiver}

/-- The hints of a whole file: all its nodes are visited, outer ones first, and the hints of all
of them are sorted and placed. -/
def fileHints (sem : Semantics σ Receiver) (file : SourceFile) (options : Options) :
    StateM σ (List Hint) := do
  let hints ← (file.root.descendants.filter Site.isNode).mapM (hintsAt sem options)
  return RawHint.place options.encoding file.text hints.flatten

/-- A token has no hints. -/
theorem hintsAt_of_token (options : Options) {s : Site} (h : s.isNode = false) :
  hintsAt sem options s = pure []
  := by
  have hnone (p : NodeKind → Bool) : NodeSite.ofSite? p s = none := by
    rw [Site.isNode, Option.isSome_eq_false_iff, Option.isNone_iff_eq_none] at h
    apply dif_neg
    rw [h]
    apply Bool.false_ne_true
  rw [hintsAt, HintSource.ofSite?, hnone, hnone, hnone]
  rfl

/-- Only nodes have hints, so tokens may be left out. -/
theorem flatMap_hintsAt_filter (options : Options) (sites : List Site) (st : σ) :
  ((sites.filter Site.isNode).flatMap fun s => ((hintsAt sem options s).run st).1)
    = sites.flatMap fun s => ((hintsAt sem options s).run st).1
  := by
  induction sites with
  | nil => rfl
  | cons s sites ih =>
    cases hnode : s.isNode with
    | true => rw [List.filter_cons_of_pos hnode, List.flatMap_cons, List.flatMap_cons, ih]
    | false =>
      rw [List.filter_cons_of_neg (by simp [hnode]), List.flatMap_cons,
        hintsAt_of_token options hnode, ih]
      rfl

/-- The hints of a whole file are those of all its sites, sorted and placed. -/
theorem Semantics.IsPure.fileHints_eq (h : sem.IsPure) (file : SourceFile) (options : Options)
    (st : σ) :
  ((fileHints sem file options).run st).1
    = RawHint.place options.encoding file.text
        (file.root.descendants.flatMap fun s => ((InlayHints.hintsAt sem options s).run st).1)
  := by
  rw [fileHints, run_bind_eq, run_mapM_eq (h.hintsAt options), ← flatMap_hintsAt_filter,
    List.flatMap_def]
  rfl

/-- If answers depend on the question alone, the hints for a range are some of the hints of the
file, each as often as in the file at most, and in the same order. -/
theorem inlayHints_sublist (sem : Semantics σ Receiver) (hpure : sem.IsPure) (file : SourceFile)
    (range : TextRange) (options : Options) (st st' : σ) :
  ((inlayHints sem file range options).run st).1.Sublist
    ((fileHints sem file options).run st').1
  := by
  rw [hpure.inlayHints_eq, hpure.fileHints_eq]
  apply RawHint.place_sublist
  simp only [hpure.hintsAt options _ st' st]
  apply (visitedSites_sublist file range).flatMap

/-- A request for the second of two calls finds the hints of this call. -/
theorem inlayHints_sublist_second :
  let file := SourceFile.ofText "foo(1, 2); foo(3, 4);"
  let hints := ((inlayHints .twoParameters file (.ofWidth 11 10) {}).run ()).1
  let all := ((fileHints .twoParameters file {}).run ()).1
  Semantics.twoParameters.IsPure
    ∧ hints.map Hint.position = [⟨0, 15⟩, ⟨0, 18⟩]
    ∧ all.map Hint.position = [⟨0, 4⟩, ⟨0, 7⟩, ⟨0, 15⟩, ⟨0, 18⟩]
    ∧ hints.Sublist all
  := by
  have hpure := Semantics.isPure_of_subsingleton Semantics.twoParameters
  refine ⟨hpure, ?_, ?_, inlayHints_sublist .twoParameters hpure _ _ {} () ()⟩
  · cbv
  · cbv

end InlayHints

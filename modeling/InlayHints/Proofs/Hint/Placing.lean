import InlayHints.Proofs.Hint.Order
import InlayHints.Proofs.Text.Scan

/-!
# Placing fewer hints

A hint is placed by itself: the position it gets does not depend on the other hints, and sorting
keeps the order of any two.  So if some of the hints are left out, the others come out as they
are, in the same order (`RawHint.place_sublist`), and it is the same to pick hints before or after
they are placed (`RawHint.filter_place`).
-/

namespace InlayHints

namespace RawHint

variable {hints hints' : List RawHint}

instance : IsTrans RawHint fun a b => a.le b = true := ⟨le_trans⟩

/-- Sorting puts the first hint into its place among the others, before those at its offset. -/
theorem mergeSort_cons_eq (h : RawHint) (hints : List RawHint) :
  (h :: hints).mergeSort le
    = (hints.mergeSort le).orderedInsert (fun a b => a.le b = true) h
  := by
  obtain ⟨before, after, hcons, hsorted, hbefore⟩ :=
    List.mergeSort_cons le_trans le_total h hints
  have hpairwise := List.pairwise_mergeSort le_trans le_total (h :: hints)
  rw [hcons] at hpairwise
  have hafter : ∀ b ∈ after, h.le b = true :=
    (List.pairwise_cons.mp (List.pairwise_append.mp hpairwise).2.1).1
  have hbefore : ∀ b ∈ before, decide (¬ h.le b = true) = true := by
    intro b hb
    simpa using hbefore b hb
  rw [hcons, hsorted, List.orderedInsert_eq_take_drop, List.takeWhile_append_of_pos hbefore,
    List.dropWhile_append_of_pos hbefore]
  cases after with
  | nil => simp
  | cons b after => simp [hafter b List.mem_cons_self]

/-- If some hints are left out, the others are sorted in the same way. -/
theorem mergeSort_sublist (h : hints'.Sublist hints) :
  (hints'.mergeSort le).Sublist (hints.mergeSort le)
  := by
  induction h with
  | slnil => apply List.Sublist.refl
  | cons a h ih =>
    rw [mergeSort_cons_eq]
    apply ih.trans (List.sublist_orderedInsert a _)
  | cons_cons a h ih =>
    rw [mergeSort_cons_eq, mergeSort_cons_eq]
    apply ih.orderedInsert_sublist a
    apply List.pairwise_mergeSort le_trans le_total

theorem filter_mergeSort (p : RawHint → Bool) (hints : List RawHint) :
  (hints.mergeSort le).filter p = (hints.filter p).mergeSort le
  := by
  have hsublist := (mergeSort_sublist (hints.filter_sublist (p := p))).filter p
  have hall : ((hints.filter p).mergeSort le).filter p = (hints.filter p).mergeSort le := by
    apply List.filter_eq_self.mpr
    intro h hh
    apply (List.mem_filter.mp (List.mem_mergeSort.mp hh)).2
  rw [hall] at hsublist
  symm
  apply hsublist.eq_of_length
  rw [List.length_mergeSort, ((List.mergeSort_perm hints le).filter p).length_eq]

/-- Placing hints sorts them and gives each the position of one scan up to its offset. -/
theorem place_eq_map_scanned (e : Encoding) (text : String) (hints : List RawHint) :
  place e text hints
    = (hints.mergeSort le).map fun h => h.placeAt (.scanned e text.toList h.offset)
  := by
  rw [place, Cursor.positions_start, List.map_map, List.zipWith_map_right, List.zipWith_self]
  rfl

/-- If some hints are left out, the others are placed in the same way. -/
theorem place_sublist (e : Encoding) (text : String) (h : hints'.Sublist hints) :
  (place e text hints').Sublist (place e text hints)
  := by
  rw [place_eq_map_scanned, place_eq_map_scanned]
  apply (mergeSort_sublist h).map

/-- Hints of some kind may be picked before or after they are placed. -/
theorem filter_place (e : Encoding) (text : String) (k : HintKind) (hints : List RawHint) :
  (place e text hints).filter (·.kind = k) = place e text (hints.filter (·.kind = k))
  := by
  rw [place_eq_map_scanned, place_eq_map_scanned, List.filter_map, ← filter_mergeSort]
  rfl

end RawHint

end InlayHints

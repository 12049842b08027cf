import Mathlib
import InlayHints.Proofs.Hint.Anchor
import InlayHints.Proofs.Syntax.Lossless
import InlayHints.Proofs.Text.Order

/-!
# The order of hints

The hints of a request are those that were found, sorted by offset, and hints at one offset
stay in the order in which they were found.  Since each of them stands at the boundary of a
token, no offset is moved when it is turned into a line and a column, and the lines and columns
come out in order.
-/

namespace InlayHints

/-! ### Stable sorting -/

namespace RawHint

/-- The same hints in the order of their offsets, those at one offset in the order they had. -/
structure StableSort (hints sorted : List RawHint) : Prop where
  perm : sorted.Perm hints
  ordered : sorted.Pairwise fun a b => a.offset ≤ b.offset
  ties : ∀ n, sorted.filter (·.offset = n) = hints.filter (·.offset = n)

theorem le_trans (a b c : RawHint) (hab : a.le b = true) (hbc : b.le c = true) :
  a.le c = true
  := by
  rw [le, decide_eq_true_eq] at hab hbc ⊢
  apply Nat.le_trans hab hbc

theorem le_total (a b : RawHint) :
  (a.le b || b.le a) = true
  := by
  rw [Bool.or_eq_true, le, le, decide_eq_true_eq, decide_eq_true_eq]
  apply Nat.le_total

/-- Hints at one offset are in order as they are. -/
theorem pairwise_le_filter (hints : List RawHint) (n : Nat) :
  (hints.filter (·.offset = n)).Pairwise fun a b => a.le b = true
  := by
  apply List.pairwise_of_forall_mem_list
  intro a ha b hb
  have ha : a.offset = n := by simpa using (List.mem_filter.mp ha).2
  have hb : b.offset = n := by simpa using (List.mem_filter.mp hb).2
  rw [le, ha, hb, decide_eq_true_eq]

theorem stableSort_mergeSort (hints : List RawHint) :
  StableSort hints (hints.mergeSort le)
  where
  perm := List.mergeSort_perm hints le
  ordered := by
    apply (List.pairwise_mergeSort le_trans le_total hints).imp
    intro a b hab
    simpa [le] using hab
  ties := by
    intro n
    have hperm := (List.mergeSort_perm hints le).filter (·.offset = n)
    have hsublist : (hints.filter (·.offset = n)).Sublist (hints.mergeSort le) :=
      List.sublist_mergeSort le_trans le_total (pairwise_le_filter hints n)
        List.filter_sublist
    have hfilter := hsublist.filter (·.offset = n)
    rw [List.filter_filter] at hfilter
    simp only [Bool.and_self] at hfilter
    symm
    apply hfilter.eq_of_length hperm.length_eq.symm

/-- Placing hints sorts them and gives each the position of its offset from scratch. -/
theorem place_eq_map (e : Encoding) (text : String) (hints : List RawHint)
    (hsize : text.utf8ByteSize ≤ countLimit) :
  place e text hints
    = (hints.mergeSort le).map fun h => h.placeAt (.ofOffset e text.toList h.offset)
  := by
  rw [← Encoding.size_utf8] at hsize
  rw [place, (Cursor.correct_start e text.toList).positions hsize, List.map_map,
    List.zipWith_map_right, List.zipWith_self]
  rfl

end RawHint

/-! ### Boundaries of a text -/

namespace Token

/-- Where a leaf of the tree of a text starts or ends, a character of the text does. -/
theorem IsBoundary.isBoundary_text {text : String} {n : Nat}
    (h : IsBoundary (Parse.ofText text).tree.tokens n) :
  isBoundary n text.toList = true
  := by
  obtain ⟨before, after, htokens, rfl⟩ := h
  obtain ⟨rest, hrest⟩ := Parse.prefix_tokens_ofText text
  apply isBoundary_iff.mpr
  use before.flatMap (·.text.toList), (after ++ rest).flatMap (·.text.toList)
  constructor
  · rw [← Lexer.texts_pieces, ← hrest, htokens, List.append_assoc, List.flatMap_append]
  · apply size_flatMap_text

end Token

/-! ### Requests -/

variable {σ Receiver : Type}

/-- The hints of a request are the hints found, in the stable order of their offsets.  Each
stands at a boundary of a token, so its offset is neither cut off at the end of the text nor
rounded, and its line and column are those of its offset from scratch; they are in order. -/
theorem inlayHints_ordered (sem : Semantics σ Receiver) (text : String) (range : TextRange)
    (options : Options) (st : σ) (hsize : text.utf8ByteSize ≤ countLimit) :
  ∃ sorted,
    RawHint.StableSort ((rawHints sem (.ofText text) range options).run st).1 sorted
    ∧ ((inlayHints sem (.ofText text) range options).run st).1
      = sorted.map (fun h => h.placeAt (.ofOffset options.encoding text.toList h.offset))
    ∧ (∀ h ∈ ((rawHints sem (.ofText text) range options).run st).1,
        Token.IsBoundary (Token.lex text) h.offset
        ∧ min h.offset text.utf8ByteSize = h.offset
        ∧ boundary text.toList h.offset = h.offset)
    ∧ ((inlayHints sem (.ofText text) range options).run st).1.Pairwise
        (fun a b => a.position.le b.position = true)
  := by
  have hstable := RawHint.stableSort_mergeSort
    ((rawHints sem (.ofText text) range options).run st).1
  have hplace := RawHint.place_eq_map options.encoding text
    ((rawHints sem (.ofText text) range options).run st).1 hsize
  have hanchor : ∀ h ∈ ((rawHints sem (.ofText text) range options).run st).1,
      Token.IsBoundary (Parse.ofText text).tree.tokens h.offset :=
    isBoundary_rawHints sem options (.ofText text) range st
  have hordered : (RawHint.place options.encoding text
      ((rawHints sem (.ofText text) range options).run st).1).Pairwise
        (fun a b => a.position.le b.position = true) := by
    rw [hplace, List.pairwise_map]
    apply hstable.ordered.imp_of_mem
    intro a b ha hb hab
    apply LineCol.ofOffset_le_ofOffset _ _ _ hab
    · apply (hanchor a (hstable.perm.mem_iff.mp ha)).isBoundary_text
    · apply (hanchor b (hstable.perm.mem_iff.mp hb)).isBoundary_text
  refine ⟨_, hstable, hplace, ?_, hordered⟩
  intro h hh
  have hboundary := (hanchor h hh).isBoundary_text
  have hle := le_size_of_isBoundary hboundary
  rw [Encoding.size_utf8] at hle
  rw [← Parse.tokens_ofText hsize]
  use hanchor h hh, Nat.min_eq_left hle
  apply boundary_eq_self hboundary

/-- Every name refers to a function of two parameters, and nothing else is known. -/
def Semantics.twoParameters : Semantics Unit Unit where
  globalSymbol? name _ := pure (some ⟨name, .function ⟨[⟨some "a", "u8", false, false, false⟩,
    ⟨some "b", "u8", false, false, false⟩]⟩⟩)
  aliased? _ := pure none
  receiverType? _ _ := pure none
  member? _ _ := pure none
  isInstanceCall _ _ := pure false
  declaredType? _ := pure none

/-- The hints of an outer call are found before those of a call in its first argument, and the
second of them comes last. -/
theorem inlayHints_ordered_nested :
  "foo(foo(\"é\", 2), 3);".utf8ByteSize ≤ countLimit
    ∧ ((rawHints .twoParameters (.ofText "foo(foo(\"é\", 2), 3);") (.ofWidth 0 20) {}).run
        ()).1.map RawHint.offset = [4, 18, 8, 14]
    ∧ ((inlayHints .twoParameters (.ofText "foo(foo(\"é\", 2), 3);") (.ofWidth 0 20) {}).run
        ()).1.map Hint.position = [⟨0, 4⟩, ⟨0, 8⟩, ⟨0, 13⟩, ⟨0, 17⟩]
  := by
  have hsize : "foo(foo(\"é\", 2), 3);".utf8ByteSize ≤ countLimit := by decide
  have hfound : ((rawHints .twoParameters (.ofText "foo(foo(\"é\", 2), 3);") (.ofWidth 0 20)
      {}).run ()).1.map RawHint.offset = [4, 18, 8, 14] := by
    cbv
  use hsize, hfound
  obtain ⟨sorted, hstable, hplace, -⟩ := inlayHints_ordered .twoParameters
    "foo(foo(\"é\", 2), 3);" (.ofWidth 0 20) {} () hsize
  have hsorted : sorted.map RawHint.offset = [4, 8, 14, 18] := by
    have hperm := hstable.perm.map RawHint.offset
    rw [hfound] at hperm
    have hperm := hperm.trans (show [4, 18, 8, 14].Perm [4, 8, 14, 18] by decide)
    apply hperm.eq_of_pairwise (fun _ _ _ _ => Nat.le_antisymm)
      (List.pairwise_map.mpr hstable.ordered) (by decide)
  have hpositions : sorted.map (fun h => LineCol.ofOffset .utf16
      "foo(foo(\"é\", 2), 3);".toList h.offset) = [⟨0, 4⟩, ⟨0, 8⟩, ⟨0, 13⟩, ⟨0, 17⟩] := by
    rw [← Function.comp_def (LineCol.ofOffset _ _), ← List.map_map, hsorted]
    decide
  rw [hplace, List.map_map, ← hpositions]
  rfl

end InlayHints

import InlayHints.Proofs.Hint.Order
import InlayHints.Proofs.Hint.Purity
import InlayHints.Proofs.Text.Columns

/-!
# The encoding changes columns only

Hints are found at offsets, which are bytes in every encoding, so the encoding makes no difference
before the hints are placed.  Then each of them gets the position of the text before it, and so
three requests that differ in the encoding give the same hints but for their columns
(`inlayHints_recounted`).
-/

namespace InlayHints

/-- One hint in every encoding, `before` being the text before it: its column is counted in other
units, and nothing else changes. -/
structure Hint.Recounted (before : List Char) (h : Encoding → Hint) : Prop where
  position : LineCol.Scaled before fun e => (h e).position
  label_eq : ∀ e e', (h e).label = (h e').label
  kind_eq : ∀ e e', (h e).kind = (h e').kind
  tooltip_eq : ∀ e e', (h e).tooltip = (h e').tooltip
  paddingLeft_eq : ∀ e e', (h e).paddingLeft = (h e').paddingLeft
  paddingRight_eq : ∀ e e', (h e).paddingRight = (h e').paddingRight

/-- A hint that is placed at one offset in every encoding. -/
theorem RawHint.recounted_placeAt (h : RawHint) {text : List Char}
    (hsize : Encoding.utf8.size text ≤ countLimit) :
  Hint.Recounted (charsBefore (boundary text h.offset) text)
    fun e => h.placeAt (.ofOffset e text h.offset)
  where
  position := LineCol.scaled_ofEnd (Nat.le_trans (size_charsBefore_le _ text) hsize)
  label_eq _ _ := rfl
  kind_eq _ _ := rfl
  tooltip_eq _ _ := rfl
  paddingLeft_eq _ _ := rfl
  paddingRight_eq _ _ := rfl

variable {σ Receiver : Type} {sem : Semantics σ Receiver}

/-- In every encoding the same hints are placed at the same offsets. -/
theorem inlayHints_encoding_eq (hpure : sem.IsPure) (text : String) (range : TextRange)
    (options : Options) (hsize : text.utf8ByteSize ≤ countLimit) (e : Encoding) (st st' : σ) :
  ((inlayHints sem (.ofText text) range { options with encoding := e }).run st).1
    = (((rawHints sem (.ofText text) range options).run st').1.mergeSort RawHint.le).map
        fun h => h.placeAt (.ofOffset e text.toList h.offset)
  := by
  have hsites : ∀ s, ((hintsAt sem { options with encoding := e } s).run st).1
      = ((hintsAt sem options s).run st').1 :=
    fun s => hpure.hintsAt options s st st'
  rw [hpure.inlayHints_eq, hpure.rawHints_eq]
  simp only [hsites]
  apply RawHint.place_eq_map e text _ hsize

/-- The encoding changes columns only: requests that differ in nothing else give equally many
hints, and hints at one index agree in all but the column, which is counted in the units of the
encoding in the same text. -/
theorem inlayHints_recounted (sem : Semantics σ Receiver) (hpure : sem.IsPure) (text : String)
    (range : TextRange) (options : Options) (hsize : text.utf8ByteSize ≤ countLimit)
    (st : Encoding → σ) :
  let hints := fun e =>
    ((inlayHints sem (.ofText text) range { options with encoding := e }).run (st e)).1
  (∀ e e', (hints e).length = (hints e').length)
    ∧ ∀ (i : Nat) (h : Encoding → Hint), (∀ e, (hints e)[i]? = some (h e)) →
      ∃ before after, text.toList = before ++ after ∧ Hint.Recounted before h
  := by
  have hplace := fun e =>
    inlayHints_encoding_eq hpure text range options hsize e (st e) (st .utf8)
  simp only [hplace]
  constructor
  · intro e e'
    rw [List.length_map, List.length_map]
  · intro i h hh
    simp only [List.getElem?_map] at hh
    obtain ⟨found, hfound, -⟩ := Option.map_eq_some_iff.mp (hh .utf8)
    have hplaced : h = fun e => found.placeAt (.ofOffset e text.toList found.offset) := by
      funext e
      have he := hh e
      rw [hfound, Option.map_some, Option.some_inj] at he
      apply he.symm
    obtain ⟨before, after, hsplit, hoffset⟩ :=
      isBoundary_iff.mp (isBoundary_boundary text.toList found.offset)
    have hrecounted := found.recounted_placeAt (Encoding.size_utf8 text ▸ hsize)
    have hbefore := charsBefore_append before after 0
    rw [Nat.add_zero, charsBefore_zero, List.append_nil, hoffset, ← hsplit] at hbefore
    rw [hbefore, ← hplaced] at hrecounted
    use before, after, hsplit

/-- A second argument behind characters of two and of four bytes. -/
theorem inlayHints_recounted_wide :
  let hints := fun e => ((inlayHints .twoParameters (.ofText "foo(\"é𝕜\", 2);") (.ofWidth 0 18)
    { encoding := e }).run ()).1
  Semantics.twoParameters.IsPure
    ∧ "foo(\"é𝕜\", 2);".utf8ByteSize ≤ countLimit
    ∧ (hints .utf8).map Hint.position = [⟨0, 4⟩, ⟨0, 14⟩]
    ∧ (hints .utf16).map Hint.position = [⟨0, 4⟩, ⟨0, 11⟩]
    ∧ (hints .utf32).map Hint.position = [⟨0, 4⟩, ⟨0, 10⟩]
    ∧ ∃ before h, (∀ e, (hints e)[1]? = some (h e)) ∧ Hint.Recounted before h
  := by
  have hpure := Semantics.isPure_of_subsingleton Semantics.twoParameters
  have hsize : "foo(\"é𝕜\", 2);".utf8ByteSize ≤ countLimit := by decide
  obtain ⟨hlength, hrecounted⟩ := inlayHints_recounted .twoParameters hpure "foo(\"é𝕜\", 2);"
    (.ofWidth 0 18) {} hsize fun _ => ()
  have hutf8 : (((inlayHints .twoParameters (.ofText "foo(\"é𝕜\", 2);") (.ofWidth 0 18)
      { encoding := .utf8 }).run ()).1).map Hint.position = [⟨0, 4⟩, ⟨0, 14⟩] := by
    cbv
  refine ⟨hpure, hsize, hutf8, by cbv, by cbv, ?_⟩
  have htwo : ∀ e, 1 < ((inlayHints .twoParameters (.ofText "foo(\"é𝕜\", 2);") (.ofWidth 0 18)
      { encoding := e }).run ()).1.length := by
    intro e
    rw [hlength e .utf8, ← List.length_map Hint.position, hutf8]
    decide
  obtain ⟨before, after, -, hrecounted⟩ :=
    hrecounted 1 _ fun e => List.getElem?_eq_getElem (htwo e)
  exact ⟨before, _, fun e => List.getElem?_eq_getElem (htwo e), hrecounted⟩

end InlayHints

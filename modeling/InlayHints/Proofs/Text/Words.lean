import InlayHints.Text.Blank
import Mathlib.Data.List.Basic

/-!
# Words and trimmed texts

The words of a text that is cut at a blank character are those of the two pieces
(`words_append_blank`), and a nonempty text without blank characters is its only word
(`words_of_isWord`).  Together with `isWord_of_mem_words` this says what `Text.words` gives for
any text that is put together from words.  In the same way `isTrimmed_trim` and
`trim_of_isTrimmed` say that trimming leaves those texts that neither begin nor end with a blank
character.
-/

namespace InlayHints

namespace Text

variable {c : Char} {w cs : List Char}

/-! ### Words -/

/-- A nonempty text without blank characters. -/
def IsWord (w : List Char) : Prop := w ≠ [] ∧ ∀ c ∈ w, isBlank c = false

theorem isWord_of_any {w : List Char} (hne : w ≠ []) (h : w.any isBlank = false) :
  IsWord w
  := by
  use hne
  intro c hc
  exact Bool.eq_false_iff.mpr (List.any_eq_false.mp h c hc)

/-- The characters in front of the first blank one, and the words after it. -/
def cutWord (cs : List Char) : List Char × List (List Char) :=
  cs.foldr
    (fun c (word, rest) => if isBlank c then ([], consWord word rest) else (c :: word, rest))
    ([], [])

theorem words_eq_consWord (cs : List Char) :
  words cs = consWord (cutWord cs).1 (cutWord cs).2
  := rfl

theorem cutWord_blank (h : isBlank c = true) (cs : List Char) :
  cutWord (c :: cs) = ([], words cs)
  := by
  rw [cutWord, List.foldr_cons, h]
  rfl

theorem cutWord_cons (h : isBlank c = false) (cs : List Char) :
  cutWord (c :: cs) = (c :: (cutWord cs).1, (cutWord cs).2)
  := by
  rw [cutWord, List.foldr_cons, h]
  rfl

theorem consWord_append (w : List Char) (ws ws' : List (List Char)) :
  consWord w (ws ++ ws') = consWord w ws ++ ws'
  := by
  rw [consWord, consWord]
  split <;> rfl

/-- The first word of a text is still the first one if the text goes on after a blank character,
however many words there are then. -/
theorem cutWord_append_blank (h : isBlank c = true) (cs ds : List Char) :
  cutWord (cs ++ c :: ds) = ((cutWord cs).1, (cutWord cs).2 ++ words ds)
  := by
  induction cs with
  | nil => apply cutWord_blank h
  | cons d cs ih =>
    cases hd : isBlank d with
    | true =>
      rw [List.cons_append, cutWord_blank hd, cutWord_blank hd, words_eq_consWord, ih,
        consWord_append, ← words_eq_consWord]
    | false => rw [List.cons_append, cutWord_cons hd, cutWord_cons hd, ih]

theorem words_append_blank (h : isBlank c = true) (cs ds : List Char) :
  words (cs ++ c :: ds) = words cs ++ words ds
  := by
  rw [words_eq_consWord, cutWord_append_blank h, consWord_append, ← words_eq_consWord]

theorem cutWord_of_isWord (h : ∀ c ∈ w, isBlank c = false) :
  cutWord w = (w, [])
  := by
  induction w with
  | nil => rfl
  | cons c w ih =>
    obtain ⟨hc, hw⟩ := List.forall_mem_cons.mp h
    rw [cutWord_cons hc, ih hw]

theorem words_of_isWord (h : IsWord w) :
  words w = [w]
  := by
  obtain ⟨hne, hw⟩ := h
  rw [words_eq_consWord, cutWord_of_isWord hw, consWord, if_neg]
  rwa [List.isEmpty_iff]

/-- The word that is still open at the front of a text may be empty, and is none of its words then. -/
theorem isWord_of_mem_consWord {v : List Char} {ws : List (List Char)}
    (hopen : ∀ c ∈ w, isBlank c = false ∧ c ∈ cs) (hrest : ∀ v ∈ ws, IsWord v ∧ v ⊆ cs)
    (h : v ∈ consWord w ws) :
  IsWord v ∧ v ⊆ cs
  := by
  cases w with
  | nil => exact hrest v h
  | cons c w =>
    cases h with
    | head =>
      use ⟨List.cons_ne_nil c w, fun d hd => (hopen d hd).1⟩
      intro d hd
      exact (hopen d hd).2
    | tail _ h => exact hrest v h

theorem cutWord_parts (cs : List Char) :
  (∀ c ∈ (cutWord cs).1, isBlank c = false ∧ c ∈ cs) ∧ ∀ w ∈ (cutWord cs).2, IsWord w ∧ w ⊆ cs
  := by
  induction cs with
  | nil => simp [cutWord]
  | cons d cs ih =>
    obtain ⟨hopen, hrest⟩ := ih
    cases hd : isBlank d with
    | true =>
      rw [cutWord_blank hd]
      use fun _ h => nomatch h
      intro w hw
      obtain ⟨hword, hsub⟩ := isWord_of_mem_consWord hopen hrest hw
      use hword
      apply List.subset_cons_of_subset _ hsub
    | false =>
      rw [cutWord_cons hd]
      constructor
      · intro c hc
        obtain rfl | hc := List.mem_cons.mp hc
        · use hd
          apply List.mem_cons_self
        · obtain ⟨hblank, hmem⟩ := hopen c hc
          use hblank
          apply List.mem_cons_of_mem _ hmem
      · intro w hw
        obtain ⟨hword, hsub⟩ := hrest w hw
        use hword
        apply List.subset_cons_of_subset _ hsub

/-- No word is empty, and its characters are characters of the text that are not blank. -/
theorem isWord_of_mem_words (h : w ∈ words cs) :
  IsWord w ∧ w ⊆ cs
  := by
  obtain ⟨hopen, hrest⟩ := cutWord_parts cs
  apply isWord_of_mem_consWord hopen hrest h

/-! ### Trimmed texts -/

/-- Whether a text neither begins nor ends with a blank character. -/
def IsTrimmed (cs : List Char) : Prop :=
  (∀ c ∈ cs.head?, isBlank c = false) ∧ ∀ c ∈ cs.getLast?, isBlank c = false

theorem dropWhile_blank_of_isTrimmed (h : IsTrimmed cs) :
  cs.dropWhile isBlank = cs
  := by
  cases cs with
  | nil => rfl
  | cons c cs => rw [List.dropWhile_cons, h.1 c rfl, if_neg Bool.false_ne_true]

theorem IsTrimmed.reverse (h : IsTrimmed cs) :
  IsTrimmed cs.reverse
  := by
  obtain ⟨hhead, hlast⟩ := h
  rw [IsTrimmed, List.head?_reverse, List.getLast?_reverse]
  exact ⟨hlast, hhead⟩

theorem trim_of_isTrimmed (h : IsTrimmed cs) :
  trim cs = cs
  := by
  rw [trim, dropWhile_blank_of_isTrimmed h, dropWhile_blank_of_isTrimmed h.reverse,
    List.reverse_reverse]

theorem trim_blank (h : isBlank c = true) (cs : List Char) :
  trim (c :: cs) = trim cs
  := by
  rw [trim, List.dropWhile_cons, h, if_pos rfl, ← trim]

theorem isBlank_head?_dropWhile (cs : List Char) :
  ∀ c ∈ (cs.dropWhile isBlank).head?, isBlank c = false
  := by
  intro c hc
  have hnot := List.head?_dropWhile_not isBlank cs
  rw [hc] at hnot
  exact hnot

theorem isTrimmed_trim (cs : List Char) :
  IsTrimmed (trim cs)
  := by
  set kept := cs.dropWhile isBlank with hkept
  have htrim : trim cs = (kept.reverse.dropWhile isBlank).reverse := rfl
  rw [htrim]
  constructor
  · -- what is left is a prefix of the text that the first step left
    intro c hc
    have hprefix : (kept.reverse.dropWhile isBlank).reverse <+: kept := by
      rw [← List.reverse_suffix, List.reverse_reverse]
      apply List.dropWhile_suffix
    obtain ⟨ds, hds⟩ := hprefix
    apply isBlank_head?_dropWhile cs
    rw [← hkept, ← hds, List.head?_append, hc]
    rfl
  · intro c hc
    rw [List.getLast?_reverse] at hc
    apply isBlank_head?_dropWhile _ c hc

end Text

end InlayHints

import InlayHints.Builtin.Argument
import InlayHints.Proofs.Text.Words
import Mathlib.Data.List.TakeWhile

/-!
# Written descriptors

`BuiltinArgument.render` writes what a descriptor says: the qualifiers that are set, the label, and
the type behind a colon.  What is read back from there is the same argument if its label is a word
without a colon and its type is trimmed (`parse_render_of_isCanonical`), and every argument that
was read is of this kind (`isCanonical_parse`).  So writing is a normal form of descriptors: the
label may be the word of a qualifier, and the type may hold colons and blanks.
-/

namespace InlayHints

open Text (IsWord IsTrimmed isBlank words trim)

namespace BuiltinArgument

variable {a : BuiltinArgument}

/-! ### Cutting at the first colon -/

section Colon

variable {descriptor : String} {cs ds : List Char}

theorem head_append_colon (h : ∀ c ∈ cs, c ≠ ':') (hd : descriptor.toList = cs ++ ':' :: ds) :
  head descriptor = cs
  := by
  rw [head, hd, List.takeWhile_append_of_pos (by simpa using h), List.takeWhile_cons_of_neg (by simp),
    List.append_nil]

theorem tail_append_colon (h : ∀ c ∈ cs, c ≠ ':') (hd : descriptor.toList = cs ++ ':' :: ds) :
  tail descriptor = ds
  := by
  rw [tail, hd, List.dropWhile_append_of_pos (by simpa using h), List.dropWhile_cons_of_neg (by simp),
    List.drop_succ_cons, List.drop_zero]

theorem head_eq_self (h : ∀ c ∈ descriptor.toList, c ≠ ':') :
  head descriptor = descriptor.toList
  := by
  rw [head, List.takeWhile_eq_self_iff]
  simpa using h

theorem tail_eq_nil (h : ∀ c ∈ descriptor.toList, c ≠ ':') :
  tail descriptor = []
  := by
  rw [tail, List.dropWhile_eq_nil_iff.mpr (by simpa using h), List.drop_nil]

theorem ne_colon_of_mem_head {c : Char} (h : c ∈ head descriptor) :
  c ≠ ':'
  := by
  simpa using List.mem_takeWhile_imp h

end Colon

/-! ### Writing an argument -/

/-- The word of a qualifier and the blank after it, if the qualifier is set. -/
def qualifier (isSet : Bool) (word : String) : String := if isSet then word ++ " " else ""

/-- The qualifiers that are set, and the label. -/
def renderHead (a : BuiltinArgument) : String :=
  qualifier a.isNoalias "noalias" ++ qualifier a.isComptime "comptime" ++ a.label

/-- Writes a descriptor that says what is known of the argument. -/
def render (a : BuiltinArgument) : String :=
  a.renderHead ++ if a.type = "" then "" else ": " ++ a.type

/-- What descriptors can say: the label has no blank and no colon in it, the type has no blank at
its ends, and qualifiers stand in front of a label only. -/
structure IsCanonical (a : BuiltinArgument) : Prop where
  label : ∀ c ∈ a.label.toList, isBlank c = false ∧ c ≠ ':'
  type : IsTrimmed a.type.toList
  qualifiers : a.label = "" → a.isNoalias = false ∧ a.isComptime = false

theorem IsCanonical.ne_colon (h : a.IsCanonical) :
  ∀ c ∈ a.renderHead.toList, c ≠ ':'
  := by
  have hqualifier : ∀ isSet, ∀ word ∈ ["noalias", "comptime"],
      ':' ∉ (qualifier isSet word).toList := by decide
  intro c hc
  simp only [renderHead, String.toList_append, List.mem_append] at hc
  obtain (hc | hc) | hc := hc
  · exact ne_of_mem_of_not_mem hc (hqualifier _ _ (by simp))
  · exact ne_of_mem_of_not_mem hc (hqualifier _ _ (by simp))
  · exact (h.label c hc).2

theorem head_render (h : a.IsCanonical) :
  head a.render = a.renderHead.toList
  := by
  by_cases htype : a.type = ""
  · have hrender : a.render = a.renderHead := by simp [render, htype]
    rw [hrender, head_eq_self h.ne_colon]
  · apply head_append_colon h.ne_colon
    rw [render, if_neg htype, String.toList_append, String.toList_append]
    rfl

theorem tail_render (h : a.IsCanonical) :
  trim (tail a.render) = a.type.toList
  := by
  by_cases htype : a.type = ""
  · have hrender : a.render = a.renderHead := by simp [render, htype]
    rw [hrender, tail_eq_nil h.ne_colon, htype]
    rfl
  · have htail : tail a.render = ' ' :: a.type.toList := by
      apply tail_append_colon h.ne_colon
      rw [render, if_neg htype, String.toList_append, String.toList_append]
      rfl
    rw [htail, Text.trim_blank rfl, Text.trim_of_isTrimmed h.type]

theorem words_qualifier {word : String} (h : IsWord word.toList) (isSet : Bool) (cs : List Char) :
  words ((qualifier isSet word).toList ++ cs) = (if isSet then [word.toList] else []) ++ words cs
  := by
  cases isSet with
  | false => simp [qualifier]
  | true =>
    have hblank : isBlank ' ' = true := rfl
    calc words ((qualifier true word).toList ++ cs)
      _ = words (word.toList ++ ' ' :: cs) := by simp [qualifier]
      _ = words word.toList ++ words cs := Text.words_append_blank hblank _ _
      _ = [word.toList] ++ words cs := by rw [Text.words_of_isWord h]

/-- The words that are read are the qualifiers that are set, and then the label. -/
theorem words_renderHead (h : a.IsCanonical) (hlabel : a.label ≠ "") :
  (words a.renderHead.toList).map String.ofList
    = (if a.isNoalias then ["noalias"] else []) ++ (if a.isComptime then ["comptime"] else [])
      ++ [a.label]
  := by
  have hword : IsWord a.label.toList := by
    use by simpa using hlabel
    intro c hc
    exact (h.label c hc).1
  have hnoalias : IsWord "noalias".toList := Text.isWord_of_any (by decide) (by decide)
  have hcomptime : IsWord "comptime".toList := Text.isWord_of_any (by decide) (by decide)
  rw [renderHead, String.toList_append, String.toList_append, List.append_assoc,
    words_qualifier hnoalias, words_qualifier hcomptime, Text.words_of_isWord hword]
  cases a.isNoalias <;> cases a.isComptime <;> simp

/-! ### Reading what was written -/

theorem parse_render_of_isCanonical (h : a.IsCanonical) :
  parse a.render = a
  := by
  obtain ⟨label, type, isNoalias, isComptime⟩ := a
  by_cases hlabel : label = ""
  · -- without a label no words are written
    subst hlabel
    obtain ⟨rfl, rfl⟩ : isNoalias = false ∧ isComptime = false := h.qualifiers rfl
    simp only [parse, head_render h, tail_render h, String.ofList_toList]
    rfl
  · simp only [parse, head_render h, tail_render h, words_renderHead h hlabel,
      String.ofList_toList, List.getLast?_append, List.dropLast_append, mk.injEq]
    cases isNoalias <;> cases isComptime <;> simp

theorem isCanonical_parse (descriptor : String) :
  (parse descriptor).IsCanonical
  := by
  constructor
  case label =>
    intro c hc
    cases hlast : (words (head descriptor)).getLast? with
    | none => simp [parse, hlast] at hc
    | some w =>
      obtain ⟨⟨-, hblank⟩, hsub⟩ := Text.isWord_of_mem_words (List.mem_of_getLast? hlast)
      have hmem : c ∈ w := by simpa [parse, hlast] using hc
      use hblank c hmem
      apply ne_colon_of_mem_head (hsub hmem)
  case type =>
    rw [parse, String.toList_ofList]
    apply Text.isTrimmed_trim
  case qualifiers =>
    intro hlabel
    -- words are not empty, so the label is missing only if there is no word
    have hwords : words (head descriptor) = [] := by
      cases hlast : (words (head descriptor)).getLast? with
      | none => exact List.getLast?_eq_none_iff.mp hlast
      | some w =>
        obtain ⟨⟨hne, -⟩, -⟩ := Text.isWord_of_mem_words (List.mem_of_getLast? hlast)
        simp [parse, hlast, hne] at hlabel
    simp [parse, hwords]

/-- Writing an argument and reading it again gives the argument, if its label is a word without a
colon and its type is trimmed; and it does so for everything that was read from a descriptor. -/
theorem parse_render_roundtrip :
  (∀ a : BuiltinArgument, a.label ≠ "" → (∀ c ∈ a.label.toList, isBlank c = false ∧ c ≠ ':') →
      IsTrimmed a.type.toList → parse a.render = a)
    ∧ ∀ descriptor : String, parse (parse descriptor).render = parse descriptor
      ∧ (∀ c ∈ (parse descriptor).label.toList, isBlank c = false ∧ c ≠ ':')
      ∧ IsTrimmed (parse descriptor).type.toList
  := by
  constructor
  · intro a hlabel hchars htype
    apply parse_render_of_isCanonical
    use hchars, htype
    intro hempty
    contradiction
  · intro descriptor
    have hcanonical := isCanonical_parse descriptor
    exact ⟨parse_render_of_isCanonical hcanonical, hcanonical.label, hcanonical.type⟩

/-- The label is the word of a qualifier, and there are a colon and blanks in the type. -/
theorem parse_render_roundtrip_qualifier :
  let a : BuiltinArgument :=
    { label := "noalias", type := "fn (a: b) c", isNoalias := false, isComptime := true }
  a.label ≠ "" ∧ (∀ c ∈ a.label.toList, isBlank c = false ∧ c ≠ ':') ∧ IsTrimmed a.type.toList
    ∧ a.render = "comptime noalias: fn (a: b) c" ∧ parse a.render = a
  := by
  intro a
  have hlabel : a.label ≠ "" := by decide
  have hall : (a.label.toList.all fun c => !isBlank c && c != ':') = true := by decide
  have hchars : ∀ c ∈ a.label.toList, isBlank c = false ∧ c ≠ ':' := by
    simpa only [List.all_eq_true, Bool.and_eq_true, Bool.not_eq_true', bne_iff_ne] using hall
  have htype : IsTrimmed a.type.toList := by
    have hfirst : a.type.toList.head? = some 'f' := by decide
    have hlast : a.type.toList.getLast? = some 'c' := by decide
    rw [IsTrimmed, hfirst, hlast]
    simp only [Option.mem_some, forall_eq']
    decide
  use hlabel, hchars, htype, rfl
  exact parse_render_roundtrip.1 a hlabel hchars htype

end BuiltinArgument

end InlayHints

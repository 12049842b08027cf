import InlayHints.Proofs.Grammar.Significant
import InlayHints.Proofs.Syntax.Token.LongestMatch

/-!
# Texts with a line end between them

A line end separates tokens: no token goes over it but a piece of white space.  So if two texts
are joined by a line end, their tokens stay as they are, but for white space on both sides of
the line end, which becomes one token with it (`Token.joins_lex`).
-/

namespace InlayHints

namespace Lexer

variable {c : Char} {xs ys : List Char} {p : Char → Bool}

/-! ### Scans up to a line end -/

theorem reach_lineEnd (hp : p '\n' = false) :
  reach p (xs ++ '\n' :: ys) = reach p xs
  := by
  rw [reach, reach, List.takeWhile_append]
  split
  · next hall => simp [hp, hall]
  · rfl

theorem quotedReach_lineEnd (n : Nat) :
  quotedReach n (xs ++ '\n' :: ys) = quotedReach n xs
  := by
  fun_induction quotedReach n xs with
  | case1 n => rfl
  | case2 n cs => simp [quotedReach]
  | case3 n d cs hd ih => simp [quotedReach, hd, ih]
  | case4 n c cs hescape hc =>
    -- a backslash at the end of the first text does not escape the line end
    by_cases hbackslash : c = '\\'
    · cases cs with
      | nil => simp [hbackslash, quotedReach]
      | cons d ds => apply (hescape d ds hbackslash rfl).elim
    · rw [List.cons_append, quotedReach, if_pos hc]
      intro d ds hc'
      apply absurd hc' hbackslash
  | case5 n c cs hescape hc ih =>
    have hbackslash : c ≠ '\\' := by
      rintro rfl
      simp at hc
    rw [List.cons_append, quotedReach, if_neg hc, ih]
    intro d ds hc'
    apply absurd hc' hbackslash

theorem quotedReach_le (n : Nat) (xs : List Char) :
  quotedReach n xs ≤ n + xs.length
  := by
  fun_induction quotedReach n xs with
  | case1 n => apply Nat.le_refl
  | case2 n cs => apply Nat.le_add_right
  | case3 n d cs hd ih =>
    simp only [List.length_cons]
    omega
  | case4 n c cs _ hc => apply Nat.le_add_right
  | case5 n c cs _ hc ih =>
    simp only [List.length_cons]
    omega

theorem reach_le (p : Char → Bool) (xs : List Char) :
  reach p xs ≤ xs.length
  := (List.takeWhile_prefix p).length_le

/-- A token does not reach behind the end of the text. -/
theorem scan_le (c : Char) (xs : List Char) :
  (scan c xs).2 ≤ xs.length
  := by
  have hscans := scans c xs
  generalize (scan c xs).1 = k at hscans
  generalize (scan c xs).2 = n at hscans
  cases hscans with
  | blank h => apply reach_le
  | comment => apply reach_le
  | word h => apply reach_le
  | builtin h => apply reach_le
  | number h => apply reach_le
  | closed h =>
    obtain ⟨ds, hds⟩ := List.head?_eq_some_iff.mp h
    have hlength := congrArg List.length hds
    rw [List.length_drop, List.length_cons] at hlength
    omega
  | unclosed => simpa using quotedReach_le 0 xs
  | punctuation h => apply Nat.zero_le
  | stray h => apply Nat.zero_le

/-- A test of the next character does not see what follows a line end. -/
theorem head?_lineEnd (test : Option Char → Bool) (h : test (some '\n') = test none) :
  test (xs ++ '\n' :: ys).head? = test xs.head?
  := by
  cases xs with
  | nil => apply h
  | cons x xs => rfl

/-- White space ends before a line end if something else does. -/
theorem reach_isBlank_lineEnd (h : xs.all isBlank = false) :
  reach isBlank (xs ++ '\n' :: ys) = reach isBlank xs
  := by
  rw [reach, reach, List.takeWhile_append, if_neg]
  intro hlength
  have hall := (List.takeWhile_prefix isBlank).eq_of_length hlength
  rw [List.all_eq_false] at h
  obtain ⟨x, hx, hblank⟩ := h
  rw [← hall] at hx
  apply hblank (List.mem_takeWhile_imp hx)

/-- A token before a line end does not depend on what follows the line end, unless it is white
space up to there. -/
theorem scan_lineEnd (h : isBlank c = true → xs.all isBlank = false) :
  scan c (xs ++ '\n' :: ys) = scan c xs
  := by
  cases hblank : isBlank c with
  | true => rw [scan_blank hblank, scan_blank hblank, reach_isBlank_lineEnd (h hblank)]
  | false =>
    have hslash : decide ((xs ++ '\n' :: ys).head? = some '/') = decide (xs.head? = some '/') :=
      head?_lineEnd (fun o => decide (o = some '/')) rfl
    have hword : (xs ++ '\n' :: ys).head?.any isWordStart = xs.head?.any isWordStart :=
      head?_lineEnd (Option.any isWordStart) rfl
    have hquote : ((xs ++ '\n' :: ys).drop (quotedReach 0 xs)).head? = some '"'
        ↔ (xs.drop (quotedReach 0 xs)).head? = some '"' := by
      have hle : quotedReach 0 xs ≤ xs.length := by simpa using quotedReach_le 0 xs
      rw [List.drop_append_of_le_length hle, ← decide_eq_decide]
      apply head?_lineEnd (fun o => decide (o = some '"')) rfl
    have htake : (xs ++ '\n' :: ys).take (reach isWordPart xs) = xs.take (reach isWordPart xs) :=
      List.take_append_of_le_length (reach_le isWordPart xs)
    rw [scan, scan]
    simp only [hblank, hslash, hword, reach_lineEnd (p := fun c => decide (c ≠ '\n')) rfl,
      reach_lineEnd (p := isWordPart) rfl, reach_lineEnd (p := isNumberPart) rfl,
      quotedReach_lineEnd, hquote, htake, Bool.false_eq_true, if_false]

theorem first_lineEnd (h : isBlank c = true → xs.all isBlank = false) :
  first c (xs ++ '\n' :: ys) = first c xs
  := by
  rw [first, first, scan_lineEnd h, List.take_append_of_le_length (scan_le c xs)]

theorem rest_lineEnd (h : isBlank c = true → xs.all isBlank = false) :
  rest c (xs ++ '\n' :: ys) = rest c xs ++ '\n' :: ys
  := by
  rw [rest, rest, scan_lineEnd h, List.drop_append_of_le_length (scan_le c xs)]

/-! ### White space -/

/-- What follows white space at the front is what is left without blank characters. -/
theorem rest_of_isBlank (h : isBlank c = true) :
  rest c xs = xs.dropWhile isBlank
  := by
  have hsplit : xs.takeWhile isBlank ++ xs.dropWhile isBlank = xs :=
    List.takeWhile_append_dropWhile
  calc rest c xs
    _ = xs.drop (xs.takeWhile isBlank).length := by rw [rest, scan_blank h, reach]
    _ = (xs.takeWhile isBlank ++ xs.dropWhile isBlank).drop (xs.takeWhile isBlank).length := by
      rw [hsplit]
    _ = xs.dropWhile isBlank := List.drop_left

theorem isTrivia_of_isBlank (h : isBlank c = true) :
  (first c xs).isTrivia = true
  := by
  rw [Token.isTrivia, first, scan_blank h]
  rfl

/-- A blank character before one that is not blank is a token of its own. -/
theorem Cuts.blank {ts : List Token} (h : Cuts xs ts) (hc : isBlank c = true)
    (hxs : ∀ x ∈ xs.head?, isBlank x = false) :
  Cuts (c :: xs) (⟨.whitespace, String.ofList [c]⟩ :: ts)
  := by
  have hreach : reach isBlank xs = 0 := by
    cases xs with
    | nil => rfl
    | cons x xs =>
      rw [reach, List.takeWhile_cons_of_neg (by simp [hxs x rfl])]
      rfl
  have hfirst : first c xs = ⟨.whitespace, String.ofList [c]⟩ := by
    rw [first, scan_blank hc, hreach, List.take_zero]
  have hrest : rest c xs = xs := by rw [rest, scan_blank hc, hreach, List.drop_zero]
  rw [← hfirst]
  apply Cuts.cons
  rw [hrest]
  apply h

/-- A text is cut into tokens in one way only. -/
theorem Cuts.unique {ts us : List Token} (h : Cuts xs ts) (h' : Cuts xs us) :
  ts = us
  := by
  induction h generalizing us with
  | nil =>
    cases h'
    rfl
  | cons _ ih =>
    cases h' with
    | cons hrest => rw [ih hrest]

/-- Blank characters at the front of a text are a token of white space, or there are none. -/
theorem Cuts.dropWhile {ts : List Token} (h : Cuts xs ts) :
  ∃ leading after, ts = leading ++ after ∧ (∀ t ∈ leading, t.isTrivia = true)
    ∧ Cuts (xs.dropWhile isBlank) after
  := by
  cases h with
  | nil => exact ⟨[], [], rfl, List.forall_mem_nil _, Cuts.nil⟩
  | @cons c cs ts hrest =>
    cases hblank : isBlank c with
    | true =>
      refine ⟨[first c cs], ts, rfl, ?_, ?_⟩
      · intro t ht
        rw [List.mem_singleton.mp ht]
        apply isTrivia_of_isBlank hblank
      · rw [List.dropWhile_cons_of_pos hblank, ← rest_of_isBlank hblank]
        apply hrest
    | false =>
      refine ⟨[], first c cs :: ts, rfl, List.forall_mem_nil _, ?_⟩
      rw [List.dropWhile_cons_of_neg (by simp [hblank])]
      apply Cuts.cons hrest

end Lexer

namespace Token

open Lexer

/-- The tokens `vs` are those of `ts` and `us`, with one token of trivia in place of the trivia
that `ts` may end with and `us` may start with. -/
structure Joins (ts us vs before after : List Token) : Prop where
  first : ∃ trailing, ts = before ++ trailing ∧ ∀ t ∈ trailing, t.isTrivia = true
  second : ∃ leading, us = leading ++ after ∧ ∀ t ∈ leading, t.isTrivia = true
  both : ∃ joint, vs = before ++ joint :: after ∧ joint.isTrivia = true

/-- White space before a line end goes on after it, up to a character that is not blank. -/
theorem joins_of_isBlank {c : Char} {xs ys : List Char} {ts us vs : List Token}
    (hblank : isBlank c = true) (hall : ∀ x ∈ xs, isBlank x = true)
    (hts : ∀ t ∈ ts, t.isTrivia = true) (hus : Cuts ys us) (hvs : Cuts (c :: (xs ++ ys)) vs) :
  ∃ before after, Joins ts us vs before after
  := by
  obtain ⟨leading, after, rfl, hleading, hafter⟩ := hus.dropWhile
  cases hvs with
  | cons hrest =>
    rw [rest_of_isBlank hblank, List.dropWhile_append_of_pos hall] at hrest
    obtain rfl := hafter.unique hrest
    use [], after
    constructor
    · use ts
      constructor
      · rfl
      · apply hts
    · use leading
    · use first c (xs ++ ys)
      constructor
      · rfl
      · apply isTrivia_of_isBlank hblank

/-- If two texts are joined by a line end, so are their tokens. -/
theorem joins_of_cuts {xs ys : List Char} {ts us vs : List Token} (hts : Cuts xs ts)
    (hus : Cuts ys us) (hvs : Cuts (xs ++ '\n' :: ys) vs) :
  ∃ before after, Joins ts us vs before after
  := by
  induction hts generalizing vs with
  | nil => apply joins_of_isBlank rfl (List.forall_mem_nil _) (List.forall_mem_nil _) hus hvs
  | @cons c cs ts hrest ih =>
    by_cases hblank : isBlank c = true ∧ cs.all isBlank = true
    · -- the first text is white space, so it has no further tokens
      obtain ⟨hc, hcs⟩ := hblank
      have hnil : cs.dropWhile isBlank = [] :=
        List.dropWhile_eq_nil_iff.mpr (List.all_eq_true.mp hcs)
      rw [rest_of_isBlank hc, hnil] at hrest
      cases hrest
      have hall : ∀ x ∈ cs ++ ['\n'], isBlank x = true := by
        rw [List.forall_mem_append]
        use List.all_eq_true.mp hcs
        intro x hx
        rw [List.mem_singleton.mp hx]
        rfl
      rw [List.cons_append, List.append_cons] at hvs
      apply joins_of_isBlank hc hall _ hus hvs
      intro t ht
      rw [List.mem_singleton.mp ht]
      apply isTrivia_of_isBlank hc
    · have hbefore : isBlank c = true → cs.all isBlank = false := by
        intro hc
        apply Bool.eq_false_iff.mpr
        intro hcs
        apply hblank ⟨hc, hcs⟩
      rw [List.cons_append] at hvs
      cases hvs with
      | cons hvs =>
        rw [rest_lineEnd hbefore] at hvs
        rw [first_lineEnd hbefore]
        obtain ⟨before, after, hfirst, hsecond, joint, rfl, hjoint⟩ := ih hvs
        obtain ⟨trailing, rfl, htrailing⟩ := hfirst
        exact ⟨first c cs :: before, after, ⟨trailing, rfl, htrailing⟩, hsecond,
          ⟨joint, rfl, hjoint⟩⟩

theorem utf8ByteSize_join (a b : String) :
  (a ++ "\n" ++ b).utf8ByteSize = a.utf8ByteSize + 1 + b.utf8ByteSize
  := by
  rw [String.utf8ByteSize_append, String.utf8ByteSize_append]
  rfl

/-- The tokens of two texts that are joined by a line end. -/
theorem joins_lex {a b : String} (h : (a ++ "\n" ++ b).utf8ByteSize ≤ countLimit) :
  ∃ before after, Joins (lex a) (lex b) (lex (a ++ "\n" ++ b)) before after
  := by
  have hcuts := cuts_lex h
  rw [utf8ByteSize_join] at h
  rw [String.toList_append, String.toList_append, List.append_assoc] at hcuts
  apply joins_of_cuts (cuts_lex (by omega)) (cuts_lex (by omega)) hcuts

/-- White space has no significant tokens, however much there is of it. -/
theorem significant_lex_of_isBlank {text : String} (h : ∀ c ∈ text.toList, isBlank c = true) :
  significant (lex text) = []
  := by
  obtain ⟨leading, after, hpieces, hleading, hafter⟩ := (cuts_pieces text).dropWhile
  rw [List.dropWhile_eq_nil_iff.mpr h] at hafter
  cases hafter
  rw [List.append_nil] at hpieces
  apply significant_eq_nil.mpr
  intro t ht
  apply hleading
  rw [← hpieces]
  apply (prefix_lex text).subset ht

/-- From two places of a list between which there is only trivia, the same tokens come after the
trivia. -/
theorem dropWhile_eq_of_suffix {ts us vs : List Token} (hts : ts <:+ vs) (hus : us <:+ vs)
    (h : significant ts = significant us) :
  ts.dropWhile isTrivia = us.dropWhile isTrivia
  := by
  have hsuffix : ∀ {ts us : List Token}, ts <:+ us → significant ts = significant us →
      ts.dropWhile isTrivia = us.dropWhile isTrivia := by
    rintro ts us ⟨ws, rfl⟩ h
    rw [significant_append] at h
    have hnil : significant ws = [] := List.self_eq_append_left.mp h
    rw [List.dropWhile_append_of_pos (significant_eq_nil.mp hnil)]
  rcases List.suffix_or_suffix_of_suffix hts hus with hsub | hsub
  · apply hsuffix hsub h
  · symm
    apply hsuffix hsub h.symm

namespace Joins

variable {ts us vs before after : List Token}

theorem significant_both (h : Joins ts us vs before after) :
  significant vs = significant ts ++ significant us
  := by
  obtain ⟨trailing, rfl, htrailing⟩ := h.first
  obtain ⟨leading, rfl, hleading⟩ := h.second
  obtain ⟨joint, rfl, hjoint⟩ := h.both
  have hjoint : significant [joint] = [] := by
    apply significant_eq_nil.mpr
    intro t ht
    rw [List.mem_singleton.mp ht, hjoint]
  rw [List.append_cons]
  simp only [significant_append, hjoint, significant_eq_nil.mpr htrailing,
    significant_eq_nil.mpr hleading, List.append_nil, List.nil_append]

/-- After the significant tokens of the first text, and trivia, come the tokens of the second
text without the trivia at its front. -/
theorem dropWhile_second (h : Joins ts us vs before after) {ws : List Token} (hws : ws <:+ vs)
    (hsignificant : significant ws = significant us) :
  ws.dropWhile isTrivia = us.dropWhile isTrivia
  := by
  obtain ⟨leading, rfl, hleading⟩ := h.second
  obtain ⟨joint, rfl, -⟩ := h.both
  have hafter : after <:+ before ++ joint :: after := by
    use before ++ [joint]
    rw [List.append_assoc]
    rfl
  rw [List.dropWhile_append_of_pos hleading]
  apply dropWhile_eq_of_suffix hws hafter
  rw [hsignificant, significant_append, significant_eq_nil.mpr hleading, List.nil_append]

end Joins

end Token

end InlayHints

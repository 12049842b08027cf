import Mathlib.Data.List.TakeWhile
import InlayHints.Proofs.Syntax.Token.Language
import InlayHints.Proofs.Syntax.Token.Width

/-!
# Cutting a text takes longest matches

The tokens of a text cover it without gaps, and each of them is the longest text at its place
that is in the language of any kind of token.  Where no such text starts there is an error
token: one character, or a quote with all the quoted text after it.

The first token is scanned by the first characters of the text, `Lexer.Scans`, and what is
scanned is in the language of its kind.  That it is the longest is seen the other way round:
whatever language a beginning of the text is in, the first token covers it
(`Lexer.covers_of_mem`).
-/

namespace InlayHints

open scoped Computability

namespace Lexer

open Token

variable {c : Char} {cs w : List Char} {p : Char → Bool}

/-! ### Reach -/

theorem take_reach (p : Char → Bool) (cs : List Char) :
  cs.take (reach p cs) = cs.takeWhile p
  := by
  rw [reach]
  apply (List.prefix_iff_eq_take.mp (List.takeWhile_prefix p)).symm

/-- Characters at the front that pass a test are in reach. -/
theorem length_le_reach {ds : List Char} (h : ds <+: cs) (hds : ∀ d ∈ ds, p d = true) :
  ds.length ≤ reach p cs
  := by
  obtain ⟨es, rfl⟩ := h
  rw [reach, List.takeWhile_append_of_pos hds, List.length_append]
  omega

/-! ### Scans by the first character -/

theorem isBlank_cases (h : isBlank c = true) :
  c = ' ' ∨ c = '\t' ∨ c = '\r' ∨ c = '\n'
  := by
  simpa [isBlank, or_assoc] using h

theorem isBlank_eq_false (h : isWordPart c = true) :
  isBlank c = false
  := by
  by_contra hblank
  rw [Bool.not_eq_false] at hblank
  rcases isBlank_cases hblank with rfl | rfl | rfl | rfl <;> contradiction

theorem isWordPart_of_isWordStart (h : isWordStart c = true) :
  isWordPart c = true
  := by
  rw [isWordPart, h, Bool.true_or]

theorem isWordPart_of_isDigit (h : c.isDigit = true) :
  isWordPart c = true
  := by
  rw [isWordPart, h, Bool.or_true]

theorem isWordStart_eq_false (h : c.isDigit = true) :
  isWordStart c = false
  := by
  have hdigit := isDigit_iff.mp h
  by_contra hstart
  rw [Bool.not_eq_false, isWordStart_iff] at hstart
  have hnine : c.val.toNat ≤ 57 := hdigit.2
  rcases hstart with ⟨hupper, -⟩ | ⟨hlower, -⟩ | rfl
  · have hupper : 65 ≤ c.val.toNat := hupper
    omega
  · have hlower : 97 ≤ c.val.toNat := hlower
    omega
  · contradiction

theorem ne_of_isWordPart (h : isWordPart c = true) {d : Char} (hd : isWordPart d = false) :
  c ≠ d
  := by
  rintro rfl
  rw [h] at hd
  contradiction

theorem scan_blank (h : isBlank c = true) :
  scan c cs = (.whitespace, reach isBlank cs)
  := by
  rw [scan, if_pos h]

theorem scan_comment :
  scan '/' ('/' :: cs) = (.comment, reach (· ≠ '\n') ('/' :: cs))
  := rfl

theorem scan_word (h : isWordStart c = true) :
  scan c cs = ((keyword? (String.ofList (c :: cs.takeWhile isWordPart))).getD .ident,
    reach isWordPart cs)
  := by
  have hpart := isWordPart_of_isWordStart h
  have hslash : c ≠ '/' := ne_of_isWordPart hpart rfl
  rw [← take_reach]
  simp [scan, isBlank_eq_false hpart, hslash, h]

theorem scan_builtin {d : Char} (h : isWordStart d = true) :
  scan '@' (d :: cs) = (.builtinIdent, reach isWordPart (d :: cs))
  := by
  have hscan : scan '@' (d :: cs) = if isWordStart d = true
      then (.builtinIdent, reach isWordPart (d :: cs)) else (.errorToken, 0) := rfl
  rw [hscan, if_pos h]

theorem scan_digit (h : c.isDigit = true) :
  scan c cs = (.intNumber, reach isNumberPart cs)
  := by
  have hpart := isWordPart_of_isDigit h
  have hslash : c ≠ '/' := ne_of_isWordPart hpart rfl
  have hat : c ≠ '@' := ne_of_isWordPart hpart rfl
  simp [scan, isBlank_eq_false hpart, isWordStart_eq_false h, hslash, hat, h]

theorem scan_quote :
  scan '"' cs = if (cs.drop (quotedReach 0 cs)).head? = some '"'
    then (.stringLit, quotedReach 0 cs + 1) else (.errorToken, quotedReach 0 cs)
  := rfl

theorem scan_punctuation {k : TokenKind} (h : punctuation? c = some k) (cs : List Char) :
  scan c cs = (k, 0) ∨ ∃ ds, c = '/' ∧ cs = '/' :: ds
  := by
  by_cases hcomment : c = '/' ∧ cs.head? = some '/'
  · obtain ⟨ds, hds⟩ := List.head?_eq_some_iff.mp hcomment.2
    apply Or.inr ⟨ds, hcomment.1, hds⟩
  · apply Or.inl
    unfold punctuation? at h
    split at h <;> cases h
    case h_17 =>
      have hnext : cs.head? ≠ some '/' := fun hnext => hcomment ⟨rfl, hnext⟩
      simp [scan, isBlank, isWordStart, punctuation?, hnext]
    all_goals rfl

/-! ### What a scan can be -/

/-- The ways in which a token starts, with its kind and the number of characters after the
first one. -/
inductive Scans : Char → List Char → TokenKind → Nat → Prop where
  | blank {c : Char} {cs : List Char} : isBlank c = true →
    Scans c cs .whitespace (reach isBlank cs)
  | comment {cs : List Char} : Scans '/' ('/' :: cs) .comment (reach (· ≠ '\n') ('/' :: cs))
  | word {c : Char} {cs : List Char} : isWordStart c = true →
    Scans c cs ((keyword? (String.ofList (c :: cs.takeWhile isWordPart))).getD .ident)
      (reach isWordPart cs)
  | builtin {d : Char} {cs : List Char} : isWordStart d = true →
    Scans '@' (d :: cs) .builtinIdent (reach isWordPart (d :: cs))
  | number {c : Char} {cs : List Char} : c.isDigit = true →
    Scans c cs .intNumber (reach isNumberPart cs)
  | closed {cs : List Char} : (cs.drop (quotedReach 0 cs)).head? = some '"' →
    Scans '"' cs .stringLit (quotedReach 0 cs + 1)
  | unclosed {cs : List Char} : Scans '"' cs .errorToken (quotedReach 0 cs)
  | punctuation {c : Char} {cs : List Char} {k : TokenKind} : punctuation? c = some k →
    Scans c cs k 0
  | stray {c : Char} {cs : List Char} : c ≠ '"' → Scans c cs .errorToken 0

theorem scans (c : Char) (cs : List Char) :
  Scans c cs (scan c cs).1 (scan c cs).2
  := by
  fun_cases scan c cs with
  | case1 h => apply Scans.blank h
  | case2 _ h =>
    rw [Bool.and_eq_true, decide_eq_true_eq, decide_eq_true_eq] at h
    obtain ⟨rfl, hnext⟩ := h
    obtain ⟨ds, rfl⟩ := List.head?_eq_some_iff.mp hnext
    apply Scans.comment
  | case3 _ _ h n =>
    rw [take_reach]
    apply Scans.word h
  | case4 _ _ _ h =>
    rw [Bool.and_eq_true, decide_eq_true_eq, Option.any_eq_true] at h
    obtain ⟨rfl, d, hnext, hd⟩ := h
    obtain ⟨ds, rfl⟩ := List.head?_eq_some_iff.mp hnext
    apply Scans.builtin hd
  | case5 _ _ _ _ h => apply Scans.number h
  | case6 _ _ _ _ _ hquote n h =>
    rw [hquote]
    apply Scans.closed h
  | case7 _ _ _ _ _ hquote n h =>
    rw [hquote]
    apply Scans.unclosed
  | case8 _ _ _ _ _ h =>
    cases hpunctuation : punctuation? c with
    | none => apply Scans.stray h
    | some k => apply Scans.punctuation hpunctuation

/-! ### Keywords and punctuation -/

/-- The keywords with their kinds. -/
def keywords : List (TokenKind × String) :=
  [(.constKw, "const"), (.varKw, "var"), (.fnKw, "fn"), (.pubKw, "pub"), (.returnKw, "return"),
    (.structKw, "struct"), (.noaliasKw, "noalias"), (.comptimeKw, "comptime"),
    (.anytypeKw, "anytype")]

theorem keyword?_eq_some {k : TokenKind} {text : String} :
  keyword? text = some k ↔ (k, text) ∈ keywords
  := by
  constructor
  · intro h
    unfold keyword? at h
    split at h <;> cases h <;> decide
  · intro h
    have hall : ∀ kw ∈ keywords, keyword? kw.2 = some kw.1 := by decide
    apply hall (k, text) h

/-- A keyword or a name is no error. -/
theorem keyword?_getD_ne (text : String) :
  (keyword? text).getD .ident ≠ .errorToken
  := by
  cases hkeyword : keyword? text with
  | none => nofun
  | some k =>
    have hall : ∀ kw ∈ keywords, kw.1 ≠ .errorToken := by decide
    apply hall (k, text) (keyword?_eq_some.mp hkeyword)

/-- A keyword is the only word of its language, and it is a name as well. -/
theorem language_keyword {kw : TokenKind × String} (h : kw ∈ keywords) :
  language kw.1 = word kw.2 ∧ kw.2.toList ∈ language .ident
  := by
  have hname : ∀ kw ∈ keywords, (kw.2.toList.head?.any isWordStart
      && kw.2.toList.tail.all isWordPart) = true := by decide
  constructor
  · simp only [keywords, List.mem_cons, List.not_mem_nil, or_false] at h
    rcases h with rfl | rfl | rfl | rfl | rfl | rfl | rfl | rfl | rfl <;> rfl
  · apply mem_ident_of_all (hname kw h)

/-- The characters of punctuation with their kinds. -/
def marks : List (TokenKind × Char) :=
  [(.lParen, '('), (.rParen, ')'), (.lBrace, '{'), (.rBrace, '}'), (.lBracket, '['),
    (.rBracket, ']'), (.comma, ','), (.semicolon, ';'), (.colon, ':'), (.dot, '.'), (.eq, '='),
    (.star, '*'), (.question, '?'), (.bang, '!'), (.plus, '+'), (.minus, '-'), (.slash, '/'),
    (.amp, '&')]

theorem punctuation?_eq_some {k : TokenKind} :
  punctuation? c = some k ↔ (k, c) ∈ marks
  := by
  constructor
  · intro h
    unfold punctuation? at h
    split at h <;> cases h <;> decide
  · intro h
    have hall : ∀ m ∈ marks, punctuation? m.2 = some m.1 := by decide
    apply hall (k, c) h

theorem mark_ne {m : TokenKind × Char} (h : m ∈ marks) :
  m.1 ≠ .errorToken
  := by
  revert m
  decide

/-- A character of punctuation is the only word of its language. -/
theorem language_mark {m : TokenKind × Char} (h : m ∈ marks) :
  language m.1 = {[m.2]}
  := by
  simp only [marks, List.mem_cons, List.not_mem_nil, or_false] at h
  rcases h with rfl | rfl | rfl | rfl | rfl | rfl | rfl | rfl | rfl | rfl | rfl | rfl | rfl | rfl
    | rfl | rfl | rfl | rfl <;> rfl

/-! ### The text of the first token -/

theorem toList_first (c : Char) (cs : List Char) :
  (first c cs).text.toList = c :: cs.take (scan c cs).2
  := by
  rw [first, String.toList_ofList]

/-- The characters in reach pass the test. -/
theorem mem_take_reach {d : Char} (h : d ∈ cs.take (reach p cs)) :
  p d = true
  := by
  rw [take_reach] at h
  apply List.mem_takeWhile_imp h

/-- What was scanned is in the language of its kind, if it is not an error. -/
theorem mem_of_scans {k : TokenKind} {n : Nat} (h : Scans c cs k n) (hk : k ≠ .errorToken) :
  c :: cs.take n ∈ language k
  := by
  cases h with
  | blank hc => apply mem_whitespace.mpr ⟨c, _, rfl, hc, fun d hd => mem_take_reach hd⟩
  | @comment cs =>
    apply mem_comment.mpr
    use cs.takeWhile (· ≠ '\n')
    constructor
    · rw [take_reach, List.takeWhile_cons_of_pos (by decide)]
    · intro d hd
      apply List.mem_takeWhile_imp hd
  | word hc =>
    have hname : c :: cs.take (reach isWordPart cs) ∈ language .ident :=
      mem_ident.mpr ⟨c, _, rfl, hc, fun d hd => mem_take_reach hd⟩
    rw [take_reach] at hname ⊢
    cases hkeyword : keyword? (String.ofList (c :: cs.takeWhile isWordPart)) with
    | none => apply hname
    | some k =>
      obtain ⟨hlanguage, -⟩ := language_keyword (keyword?_eq_some.mp hkeyword)
      rw [Option.getD_some, hlanguage]
      apply String.toList_ofList.symm
  | @builtin d cs hd =>
    apply mem_builtinIdent.mpr
    use d :: cs.takeWhile isWordPart
    constructor
    · apply mem_ident.mpr ⟨d, _, rfl, hd, fun d hd => List.mem_takeWhile_imp hd⟩
    · rw [take_reach, List.takeWhile_cons_of_pos (isWordPart_of_isWordStart hd)]
  | number hc => apply mem_intNumber.mpr ⟨c, _, rfl, hc, fun d hd => mem_take_reach hd⟩
  | closed hclosed =>
    apply mem_stringLit.mpr
    use cs.take (quotedReach 0 cs), take_quotedReach 0 cs
    obtain ⟨ds, hds⟩ := List.head?_eq_some_iff.mp hclosed
    rw [List.take_add, hds]
    rfl
  | unclosed => contradiction
  | punctuation hpunctuation =>
    rw [language_mark (punctuation?_eq_some.mp hpunctuation)]
    rfl
  | stray => contradiction

/-! ### The length of the first token -/

/-- The first token is no error, and it is not shorter than `w`. -/
def Covers (c : Char) (cs w : List Char) : Prop :=
  (scan c cs).1 ≠ .errorToken ∧ w.length ≤ (scan c cs).2 + 1

theorem covers_whitespace (hw : w ∈ language .whitespace) (h : w <+: c :: cs) :
  Covers c cs w
  := by
  obtain ⟨d, ds, rfl, hd, hds⟩ := mem_whitespace.mp hw
  obtain ⟨rfl, hds'⟩ := List.cons_prefix_cons.mp h
  rw [Covers, scan_blank hd]
  use nofun
  apply Nat.succ_le_succ (length_le_reach hds' hds)

theorem covers_comment (hw : w ∈ language .comment) (h : w <+: c :: cs) :
  Covers c cs w
  := by
  obtain ⟨ds, rfl, hds⟩ := mem_comment.mp hw
  obtain ⟨rfl, ⟨es, rfl⟩⟩ := List.cons_prefix_cons.mp h
  rw [Covers, List.cons_append, scan_comment]
  use nofun
  apply Nat.succ_le_succ
  apply length_le_reach
  · apply List.prefix_append
  · intro d hd
    rcases List.mem_cons.mp hd with rfl | hd
    · rfl
    · apply hds d hd

theorem covers_ident (hw : w ∈ language .ident) (h : w <+: c :: cs) :
  Covers c cs w
  := by
  obtain ⟨d, ds, rfl, hd, hds⟩ := mem_ident.mp hw
  obtain ⟨rfl, hds'⟩ := List.cons_prefix_cons.mp h
  rw [Covers, scan_word hd]
  use keyword?_getD_ne _
  apply Nat.succ_le_succ (length_le_reach hds' hds)

theorem covers_builtinIdent (hw : w ∈ language .builtinIdent) (h : w <+: c :: cs) :
  Covers c cs w
  := by
  obtain ⟨u, hu, rfl⟩ := mem_builtinIdent.mp hw
  obtain ⟨d, ds, rfl, hd, hds⟩ := mem_ident.mp hu
  obtain ⟨rfl, ⟨es, rfl⟩⟩ := List.cons_prefix_cons.mp h
  rw [Covers, List.cons_append, scan_builtin hd]
  use nofun
  apply Nat.succ_le_succ
  apply length_le_reach
  · apply List.prefix_append
  · intro e he
    rcases List.mem_cons.mp he with rfl | he
    · apply isWordPart_of_isWordStart hd
    · apply hds e he

theorem covers_intNumber (hw : w ∈ language .intNumber) (h : w <+: c :: cs) :
  Covers c cs w
  := by
  obtain ⟨d, ds, rfl, hd, hds⟩ := mem_intNumber.mp hw
  obtain ⟨rfl, hds'⟩ := List.cons_prefix_cons.mp h
  rw [Covers, scan_digit hd]
  use nofun
  apply Nat.succ_le_succ (length_le_reach hds' hds)

theorem covers_stringLit (hw : w ∈ language .stringLit) (h : w <+: c :: cs) :
  Covers c cs w
  := by
  obtain ⟨u, hu, rfl⟩ := mem_stringLit.mp hw
  obtain ⟨rfl, ⟨es, rfl⟩⟩ := List.cons_prefix_cons.mp h
  have hreach : quotedReach 0 (u ++ ['"'] ++ es) = u.length := by
    rw [List.append_assoc, quotedReach_append hu, Nat.zero_add]
    rfl
  have hclosed : ((u ++ ['"'] ++ es).drop u.length).head? = some '"' := by
    rw [List.append_assoc, List.drop_left]
    rfl
  rw [Covers, scan_quote, hreach, if_pos hclosed]
  use nofun
  simp

theorem covers_mark {m : TokenKind × Char} (hm : m ∈ marks) (h : [m.2] <+: c :: cs) :
  Covers c cs [m.2]
  := by
  obtain ⟨hc, -⟩ := List.cons_prefix_cons.mp h
  rcases scan_punctuation (punctuation?_eq_some.mpr hm) cs with hscan | ⟨ds, hslash, rfl⟩
  · rw [Covers, ← hc, hscan]
    use mark_ne hm
    rfl
  · rw [Covers, ← hc, hslash, scan_comment]
    use nofun
    simp

/-- Whatever language a beginning of the text is in, the first token covers it. -/
theorem covers_of_mem {k : TokenKind} (hw : w ∈ language k) (h : w <+: c :: cs) :
  Covers c cs w
  := by
  have hkeyword : (∃ kw ∈ keywords, kw.1 = k) → Covers c cs w := by
    rintro ⟨kw, hkw, rfl⟩
    obtain ⟨hlanguage, hname⟩ := language_keyword hkw
    rw [hlanguage] at hw
    obtain rfl : w = kw.2.toList := hw
    apply covers_ident hname h
  have hmark : (∃ m ∈ marks, m.1 = k) → Covers c cs w := by
    rintro ⟨m, hm, rfl⟩
    rw [language_mark hm] at hw
    obtain rfl : w = [m.2] := hw
    apply covers_mark hm h
  cases k with
  | whitespace => apply covers_whitespace hw h
  | comment => apply covers_comment hw h
  | ident => apply covers_ident hw h
  | builtinIdent => apply covers_builtinIdent hw h
  | intNumber => apply covers_intNumber hw h
  | stringLit => apply covers_stringLit hw h
  | constKw | varKw | fnKw | pubKw | returnKw | structKw | noaliasKw | comptimeKw | anytypeKw =>
    apply hkeyword (by decide)
  | errorToken => apply absurd hw (Language.notMem_zero w)
  | _ => apply hmark (by decide)

/-- An error is one character, or a quote with the quoted text after it. -/
theorem eq_of_scans_error {k : TokenKind} {n : Nat} (h : Scans c cs k n)
    (hk : k = .errorToken) :
  c = '"' ∧ n = quotedReach 0 cs ∨ c ≠ '"' ∧ n = 0
  := by
  cases h with
  | word => apply absurd hk (keyword?_getD_ne _)
  | unclosed => apply Or.inl ⟨rfl, rfl⟩
  | punctuation hpunctuation =>
    apply absurd hk (mark_ne (punctuation?_eq_some.mp hpunctuation))
  | stray hc => apply Or.inr ⟨hc, rfl⟩
  | _ => contradiction

/-! ### The first token -/

/-- A token is the longest text at the front of `cs` that is in the language of some kind, and
it is a keyword if its text is one. -/
structure IsLongest (cs : List Char) (t : Token) : Prop where
  mem : t.text.toList ∈ language t.kind
  longest : ∀ k w, w <+: cs → w ∈ language k → w.length ≤ t.text.toList.length
  keyword : ∀ kw ∈ keywords, t.kind = kw.1 ↔ t.text = kw.2

/-- Nothing at the front of `cs` is in the language of any kind, and a token is its first
character, or a quote with as much quoted text as there is. -/
structure IsStray (cs : List Char) (t : Token) : Prop where
  not_mem : ∀ k w, w <+: cs → w ∉ language k
  quoted : cs.head? = some '"' → ∃ u ∈ quotedUnit∗, t.text.toList = '"' :: u
    ∧ ∀ v ∈ quotedUnit∗, '"' :: v <+: cs → v.length ≤ u.length
  single : cs.head? ≠ some '"' → t.text.toList.length = 1

theorem mem_first (h : (first c cs).kind ≠ .errorToken) :
  (first c cs).text.toList ∈ language (first c cs).kind
  := by
  rw [toList_first]
  apply mem_of_scans (scans c cs) h

/-- A name that is cut off is a keyword if its text is one. -/
theorem first_word (h : isWordStart c = true) :
  (first c cs).kind = (keyword? (first c cs).text).getD .ident
  := by
  rw [first, scan_word h, take_reach]

theorem kind_first_iff (h : (first c cs).kind ≠ .errorToken) {kw : TokenKind × String}
    (hkw : kw ∈ keywords) :
  (first c cs).kind = kw.1 ↔ (first c cs).text = kw.2
  := by
  obtain ⟨hlanguage, hname⟩ := language_keyword hkw
  constructor
  · intro hkind
    have hmem := mem_first h
    rw [hkind, hlanguage] at hmem
    apply String.toList_injective hmem
  · intro htext
    rw [← htext, toList_first] at hname
    obtain ⟨d, ds, heq, hd, -⟩ := mem_ident.mp hname
    obtain ⟨rfl, -⟩ := List.cons_eq_cons.mp heq
    rw [first_word hd, htext, keyword?_eq_some.mpr hkw, Option.getD_some]

theorem isLongest_first (h : (first c cs).kind ≠ .errorToken) :
  IsLongest (c :: cs) (first c cs)
  where
  mem := mem_first h
  longest := by
    intro k w hprefix hw
    have hlength := hprefix.length_le
    obtain ⟨-, hcovers⟩ := covers_of_mem hw hprefix
    rw [List.length_cons] at hlength
    rw [toList_first, List.length_cons, List.length_take]
    omega
  keyword := fun _ hkw => kind_first_iff h hkw

theorem isStray_first (h : (first c cs).kind = .errorToken) :
  IsStray (c :: cs) (first c cs)
  where
  not_mem := by
    intro k w hprefix hw
    apply (covers_of_mem hw hprefix).1 h
  quoted := by
    intro hc
    obtain ⟨rfl, hn⟩ | ⟨hne, -⟩ := eq_of_scans_error (scans c cs) h
    · rw [toList_first, hn]
      use cs.take (quotedReach 0 cs), take_quotedReach 0 cs, rfl
      intro v hv hprefix
      obtain ⟨-, es, rfl⟩ := List.cons_prefix_cons.mp hprefix
      have hreach := le_quotedReach (0 + v.length) es
      rw [← quotedReach_append hv] at hreach
      rw [List.length_take, List.length_append]
      omega
    · apply absurd (Option.some_inj.mp hc) hne
  single := by
    intro hc
    obtain ⟨rfl, -⟩ | ⟨-, hn⟩ := eq_of_scans_error (scans c cs) h
    · contradiction
    · rw [toList_first, hn]
      rfl

/-! ### All tokens -/

/-- The tokens that are cut off a text one after the other. -/
inductive Cuts : List Char → List Token → Prop where
  | nil : Cuts [] []
  | cons {c : Char} {cs : List Char} {ts : List Token} :
    Cuts (rest c cs) ts → Cuts (c :: cs) (first c cs :: ts)

theorem cuts_cut (done : List Token) (cs : List Char) :
  ∃ ts, cut done cs = done.reverse ++ ts ∧ Cuts cs ts
  := by
  fun_induction cut done cs with
  | case1 done =>
    use [], (List.append_nil _).symm
    apply Cuts.nil
  | case2 done c cs ih =>
    obtain ⟨ts, hcut, hts⟩ := ih
    use first c cs :: ts
    constructor
    · rw [hcut, List.reverse_cons, List.append_assoc, List.singleton_append]
    · apply Cuts.cons hts

/-- Every token that is cut off has some text. -/
theorem Cuts.width_pos {cs : List Char} {ts : List Token} (h : Cuts cs ts) {t : Token}
    (ht : t ∈ ts) :
  0 < t.width
  := by
  induction h with
  | nil => contradiction
  | @cons c cs ts _ ih =>
    rcases List.mem_cons.mp ht with rfl | ht
    · rw [Token.width, Nat.pos_iff_ne_zero, Ne, String.utf8ByteSize_eq_zero_iff]
      intro hempty
      have hlist := toList_first c cs
      rw [hempty] at hlist
      contradiction
    · apply ih ht

/-- Every token that is cut off is the first one of what is left of the text at its place. -/
theorem Cuts.located {cs : List Char} {ts : List Token} (h : Cuts cs ts) {n : Nat}
    {r : Nat × Token} (hr : r ∈ startsFrom n ts) :
  ∃ before after, cs = before ++ (r.2.text.toList ++ after)
    ∧ n + (String.ofList before).utf8ByteSize = r.1
    ∧ (r.2.kind ≠ .errorToken → IsLongest (r.2.text.toList ++ after) r.2)
    ∧ (r.2.kind = .errorToken → IsStray (r.2.text.toList ++ after) r.2)
  := by
  induction h generalizing n with
  | nil => contradiction
  | @cons c cs ts _ ih =>
    rcases List.mem_cons.mp hr with rfl | hr
    · use [], rest c cs
      rw [scan_cut]
      use rfl, rfl, isLongest_first
      apply isStray_first
    · obtain ⟨before, after, hrest, hoffset, hlongest, hstray⟩ := ih hr
      use (first c cs).text.toList ++ before, after
      constructor
      · rw [← scan_cut, hrest, List.append_assoc]
      · rw [String.ofList_append, String.utf8ByteSize_append, String.ofList_toList,
          ← Nat.add_assoc]
        use hoffset, hlongest

theorem cuts_pieces (text : String) :
  Cuts text.toList (pieces text)
  := by
  obtain ⟨ts, hcut, hts⟩ := cuts_cut [] text.toList
  rw [pieces, hcut]
  apply hts

end Lexer

namespace Token

open Lexer

/-- The tokens of a text that ends within the limit of offsets are cut off it. -/
theorem cuts_lex {text : String} (h : text.utf8ByteSize ≤ countLimit) :
  Cuts text.toList (lex text)
  := by
  rw [lex_eq_pieces h]
  apply cuts_pieces

/-- Every token of a text has some text. -/
theorem width_pos_of_mem_lex {text : String} {t : Token} (ht : t ∈ lex text) :
  0 < t.width
  := by
  apply (cuts_pieces text).width_pos ((prefix_lex text).subset ht)

/-- Tokens with offsets that cover a text from its start to its end without gaps. -/
structure Tiles (text : String) (ranges : List (Nat × Token)) : Prop where
  nonempty : ∀ r ∈ ranges, 0 < r.2.width
  start : ∀ r ∈ ranges.head?, r.1 = 0
  consecutive : ranges.IsChain fun r q => r.1 + r.2.width = q.1
  finish : ∀ r ∈ ranges.getLast?, r.1 + r.2.width = text.utf8ByteSize
  total : ranges = [] → text = ""

theorem tiles_lex {text : String} (h : text.utf8ByteSize ≤ countLimit) :
  Tiles text (withStarts (lex text))
  where
  nonempty := by
    intro r hr
    rw [withStarts_eq] at hr
    apply width_pos_of_mem_lex (mem_of_mem_startsFrom hr)
  start := by
    intro r hr
    rw [withStarts_eq] at hr
    cases hts : lex text with
    | nil =>
      rw [hts] at hr
      contradiction
    | cons t ts =>
      rw [hts] at hr
      obtain rfl : (0, t) = r := Option.some_inj.mp hr
      rfl
  consecutive := by
    rw [withStarts_eq]
    apply isChain_startsFrom
  finish := by
    intro r hr
    rw [withStarts_eq] at hr
    rw [end_startsFrom hr, lex_texts h, String.ofList_toList, Nat.zero_add]
  total := by
    intro hnil
    rw [withStarts_eq] at hnil
    have htexts := lex_texts h
    cases hts : lex text with
    | nil =>
      rw [hts, List.flatMap_nil] at htexts
      apply String.toList_eq_nil_iff.mp htexts.symm
    | cons t ts =>
      rw [hts] at hnil
      contradiction

/-- Cutting a text takes longest matches: the tokens cover a text that ends within the limit of
offsets without gaps, and each token of any text stands at a boundary between characters, and
from there it is the longest text that is in the language of any kind, or, where there is none,
an error. -/
theorem lex_longestMatch (text : String) :
  (text.utf8ByteSize ≤ countLimit → Tiles text (withStarts (lex text)))
    ∧ ∀ r ∈ withStarts (lex text), ∃ before after,
        text.toList = before ++ (r.2.text.toList ++ after)
        ∧ (String.ofList before).utf8ByteSize = r.1
        ∧ (r.2.kind ≠ .errorToken → IsLongest (r.2.text.toList ++ after) r.2)
        ∧ (r.2.kind = .errorToken → IsStray (r.2.text.toList ++ after) r.2)
  := by
  use tiles_lex
  intro r hr
  rw [withStarts_eq] at hr
  obtain ⟨before, after, htext, hoffset, hright⟩ :=
    (cuts_pieces text).located (mem_startsFrom_pieces hr)
  rw [Nat.zero_add] at hoffset
  use before, after, htext, hoffset

/-- A string that is not closed, after a builtin and a division. -/
theorem lex_longestMatch_unclosed :
  "@f/ \"a".utf8ByteSize ≤ countLimit
    ∧ Tiles "@f/ \"a" [(0, ⟨.builtinIdent, "@f"⟩), (2, ⟨.slash, "/"⟩), (3, ⟨.whitespace, " "⟩),
      (4, ⟨.errorToken, "\"a"⟩)]
  := by
  have hlex : withStarts (lex "@f/ \"a") = [(0, ⟨.builtinIdent, "@f"⟩), (2, ⟨.slash, "/"⟩),
      (3, ⟨.whitespace, " "⟩), (4, ⟨.errorToken, "\"a"⟩)] := by decide +kernel
  have hsize : "@f/ \"a".utf8ByteSize ≤ countLimit := by decide
  use hsize
  rw [← hlex]
  apply (lex_longestMatch _).1 hsize

end Token

end InlayHints

import InlayHints.Proofs.Syntax.Token.Spacing

/-!
# Tokens on lines of their own

Where a token ends depends on what follows it, but the token can be read off its own text as
well: from the characters that it covers, and nothing else, the same token is scanned
(`Lexer.scan_take`).  No token but white space goes over a line end.  So if each token of a text
is put on a line of its own, white space left out, the tokens stay as they are, errors included,
and the line ends are the only tokens between them (`Token.lex_lines`).  The lines may be longer
than the text, though, and if they end past the limit of offsets, then the last of them are lost
(`Token.lex_lines_overflow`).
-/

namespace InlayHints

open scoped Computability

namespace Lexer

variable {c : Char} {cs ds : List Char} {t : Token} {ts : List Token}

/-! ### Scanning a token once more -/

theorem reach_takeWhile (p : Char → Bool) (cs : List Char) :
  reach p (cs.takeWhile p) = reach p cs
  := by
  rw [reach, reach, List.takeWhile_idem]

theorem length_take_quotedReach (cs : List Char) :
  (cs.take (quotedReach 0 cs)).length = quotedReach 0 cs
  := by
  apply List.length_take_of_le
  simpa using quotedReach_le 0 cs

/-- Quoted text is read in full, whatever follows it, and then goes on with what follows. -/
theorem quotedReach_take_append (cs ds : List Char) :
  quotedReach 0 (cs.take (quotedReach 0 cs) ++ ds) = quotedReach (quotedReach 0 cs) ds
  := by
  have hquoted : cs.take (quotedReach 0 cs) ∈ quotedUnit∗ := take_quotedReach 0 cs
  rw [quotedReach_append hquoted, length_take_quotedReach, Nat.zero_add]

theorem scan_take_closed (h : (cs.drop (quotedReach 0 cs)).head? = some '"') :
  scan '"' (cs.take (quotedReach 0 cs + 1)) = (.stringLit, quotedReach 0 cs + 1)
  := by
  obtain ⟨ds, hds⟩ := List.head?_eq_some_iff.mp h
  have htake : cs.take (quotedReach 0 cs + 1) = cs.take (quotedReach 0 cs) ++ ['"'] := by
    rw [List.take_add, hds]
    rfl
  have hreach : quotedReach 0 (cs.take (quotedReach 0 cs) ++ ['"']) = quotedReach 0 cs :=
    quotedReach_take_append cs ['"']
  have hdrop : (cs.take (quotedReach 0 cs) ++ ['"']).drop (quotedReach 0 cs) = ['"'] :=
    List.drop_left' (length_take_quotedReach cs)
  rw [htake, scan_quote, hreach, hdrop]
  rfl

/-- A quote that is not closed stays so: its text ends before what stopped it. -/
theorem scan_take_unclosed (cs : List Char) :
  scan '"' (cs.take (quotedReach 0 cs)) = (.errorToken, quotedReach 0 cs)
  := by
  have hreach : quotedReach 0 (cs.take (quotedReach 0 cs)) = quotedReach 0 cs := by
    have happend := quotedReach_take_append cs []
    rw [List.append_nil] at happend
    apply happend
  have hdrop : (cs.take (quotedReach 0 cs)).drop (quotedReach 0 cs) = [] :=
    List.drop_eq_nil_of_le (List.length_take_le _ _)
  rw [scan_quote, hreach, hdrop]
  rfl

/-- From the characters that a token covers, the same token is scanned. -/
theorem scan_take (c : Char) (cs : List Char) :
  scan c (cs.take (scan c cs).2) = scan c cs
  := by
  fun_cases scan c cs with
  | case1 hblank => rw [take_reach, scan_blank hblank, reach_takeWhile]
  | case2 _ h =>
    rw [Bool.and_eq_true, decide_eq_true_eq, decide_eq_true_eq] at h
    obtain ⟨rfl, hnext⟩ := h
    obtain ⟨ds, rfl⟩ := List.head?_eq_some_iff.mp hnext
    have htake : ('/' :: ds).takeWhile (· ≠ '\n') = '/' :: ds.takeWhile (· ≠ '\n') := rfl
    rw [take_reach, htake, scan_comment, ← htake, reach_takeWhile]
  | case3 _ _ hword n => rw [take_reach, scan_word hword, reach_takeWhile, List.takeWhile_idem]
  | case4 _ _ _ h =>
    rw [Bool.and_eq_true, decide_eq_true_eq, Option.any_eq_true] at h
    obtain ⟨rfl, d, hnext, hd⟩ := h
    obtain ⟨ds, rfl⟩ := List.head?_eq_some_iff.mp hnext
    have htake : (d :: ds).takeWhile isWordPart = d :: ds.takeWhile isWordPart :=
      List.takeWhile_cons_of_pos (isWordPart_of_isWordStart hd)
    rw [take_reach, htake, scan_builtin hd, ← htake, reach_takeWhile]
  | case5 _ _ _ _ hdigit => rw [take_reach, scan_digit hdigit, reach_takeWhile]
  | case6 _ _ _ _ _ hquote n hclosed =>
    rw [hquote]
    apply scan_take_closed hclosed
  | case7 _ _ _ _ _ hquote n _ =>
    rw [hquote]
    apply scan_take_unclosed
  | case8 hblank _ hword _ hdigit hquote =>
    -- the token is its first character, so neither a comment nor a builtin can start with it
    simp [scan, hblank, hword, hdigit, hquote]

/-! ### Tokens that stand alone -/

/-- A token is white space exactly if it starts with a blank character. -/
theorem kind_first_eq_whitespace :
  (first c cs).kind = .whitespace ↔ isBlank c = true
  := by
  constructor
  · intro hkind
    have hmem : (first c cs).text.toList ∈ language (first c cs).kind := by
      apply mem_first
      rw [hkind]
      nofun
    rw [hkind, toList_first] at hmem
    obtain ⟨d, ds, heq, hd, -⟩ := mem_whitespace.mp hmem
    obtain ⟨rfl, -⟩ := List.cons_eq_cons.mp heq
    apply hd
  · intro hblank
    rw [first, scan_blank hblank]

/-- The text of a token does not start with a blank character, and it is cut into this token
alone. -/
def StandsAlone (t : Token) : Prop :=
  ∃ c cs, t.text.toList = c :: cs ∧ isBlank c = false ∧ first c cs = t ∧ rest c cs = []

theorem standsAlone_first (h : isBlank c = false) :
  StandsAlone (first c cs)
  := by
  refine ⟨c, cs.take (scan c cs).2, toList_first c cs, h, ?_, ?_⟩
  · rw [first, scan_take, List.take_take, Nat.min_self]
    rfl
  · rw [rest, scan_take]
    apply List.drop_eq_nil_of_le (List.length_take_le _ _)

/-- All tokens of a text stand alone, but for white space. -/
theorem Cuts.standsAlone (h : Cuts cs ts) (ht : t ∈ ts) (hkind : t.kind ≠ .whitespace) :
  StandsAlone t
  := by
  induction h with
  | nil => contradiction
  | @cons c cs ts _ ih =>
    rcases List.mem_cons.mp ht with rfl | ht
    · apply standsAlone_first
      apply Bool.eq_false_iff.mpr
      intro hblank
      apply hkind (kind_first_eq_whitespace.mpr hblank)
    · apply ih ht

/-! ### Lines -/

/-- White space that is a single line end. -/
def lineEnd : Token := ⟨.whitespace, "\n"⟩

/-- A line end before a character that is not blank is a token of its own. -/
theorem Cuts.lineEnd (h : Cuts (c :: cs) ts) (hc : isBlank c = false) :
  Cuts ('\n' :: c :: cs) (Lexer.lineEnd :: ts)
  := by
  apply h.blank rfl
  rintro _ ⟨⟩
  apply hc

/-- A token that stands alone is cut off at the line end after it. -/
theorem StandsAlone.cuts_append (ht : StandsAlone t) (h : Cuts ('\n' :: ds) ts) :
  Cuts (t.text.toList ++ '\n' :: ds) (t :: ts)
  := by
  obtain ⟨c, cs, htext, hblank, hfirst, hrest⟩ := ht
  have hbefore : isBlank c = true → cs.all isBlank = false := by
    intro hc
    rw [hblank] at hc
    contradiction
  rw [htext, List.cons_append, ← hfirst, ← first_lineEnd hbefore]
  apply Cuts.cons
  rw [rest_lineEnd hbefore, hrest]
  apply h

theorem StandsAlone.cuts (ht : StandsAlone t) :
  Cuts t.text.toList [t]
  := by
  obtain ⟨c, cs, htext, -, hfirst, hrest⟩ := ht
  rw [htext, ← hfirst]
  apply Cuts.cons
  rw [hrest]
  apply Cuts.nil

/-- Lines that each hold a token which stands alone do not start with a blank character. -/
theorem StandsAlone.exists_lines (ht : StandsAlone t) (ts : List Token) :
  ∃ c cs, ['\n'].intercalate ((t :: ts).map (·.text.toList)) = c :: cs ∧ isBlank c = false
  := by
  obtain ⟨c, cs, htext, hblank, -⟩ := ht
  cases ts with
  | nil => exact ⟨c, cs, by simpa using htext, hblank⟩
  | cons u us =>
    rw [List.map_cons, List.map_cons, List.intercalate_cons_cons, htext]
    exact ⟨c, _, rfl, hblank⟩

/-- Tokens that stand alone, each on a line of its own, are cut into these tokens and the line
ends between them. -/
theorem cuts_lines (h : ∀ t ∈ ts, StandsAlone t) :
  Cuts (['\n'].intercalate (ts.map (·.text.toList))) (ts.intersperse lineEnd)
  := by
  induction ts with
  | nil => apply Cuts.nil
  | cons t ts ih =>
    have ht := h t List.mem_cons_self
    have hts : ∀ u ∈ ts, StandsAlone u := fun u hu => h u (List.mem_cons_of_mem t hu)
    cases ts with
    | nil =>
      rw [List.map_singleton, List.intercalate_singleton, List.intersperse_singleton]
      apply ht.cuts
    | cons u us =>
      obtain ⟨c, cs, hlines, hblank⟩ := (hts u List.mem_cons_self).exists_lines us
      have hsplit : ['\n'].intercalate ((t :: u :: us).map (·.text.toList))
          = t.text.toList ++ '\n' :: c :: cs := by
        rw [← hlines, List.map_cons, List.map_cons, List.intercalate_cons_cons,
          List.append_assoc]
        rfl
      rw [hsplit, List.intersperse_cons_cons]
      apply ht.cuts_append
      apply Cuts.lineEnd _ hblank
      rw [← hlines]
      apply ih hts

end Lexer

namespace Token

open Lexer

/-- The tokens of a text, white space left out, on lines of their own. -/
def linesOf (text : String) : String :=
  "\n".intercalate (((lex text).filter (·.kind ≠ .whitespace)).map Token.text)

theorem cuts_linesOf (text : String) :
  Cuts (linesOf text).toList
    (((lex text).filter (·.kind ≠ .whitespace)).intersperse lineEnd)
  := by
  rw [linesOf, String.toList_intercalate, List.map_map]
  apply cuts_lines
  intro t ht
  obtain ⟨ht, hkind⟩ := List.mem_filter.mp ht
  apply (cuts_pieces text).standsAlone ((prefix_lex text).subset ht) (of_decide_eq_true hkind)

/-- If the tokens of a text, white space left out, are put on lines of their own, they are cut
again as they were, with one line end between each two of them and nothing else, provided that
the lines end within the limit of offsets. -/
theorem lex_lines (text : String) (h : (linesOf text).utf8ByteSize ≤ countLimit) :
  lex (linesOf text)
    = ((lex text).filter (·.kind ≠ .whitespace)).intersperse ⟨.whitespace, "\n"⟩
  := by
  apply (cuts_lex h).unique (cuts_linesOf text)

/-- A quote that is not closed is stopped by an escape at the end of the line, and after that by
the line end. -/
theorem lex_lines_unclosed :
  (linesOf "\"a\\\n@ 1").utf8ByteSize ≤ countLimit
    ∧ lex "\"a\n\\\n@\n1" = [⟨.errorToken, "\"a"⟩, lineEnd, ⟨.errorToken, "\\"⟩, lineEnd,
      ⟨.errorToken, "@"⟩, lineEnd, ⟨.intNumber, "1"⟩]
  := by
  have hlex : lex "\"a\\\n@ 1" = [⟨.errorToken, "\"a"⟩, ⟨.errorToken, "\\"⟩, lineEnd,
      ⟨.errorToken, "@"⟩, blank, ⟨.intNumber, "1"⟩] := by decide +kernel
  have hlines : linesOf "\"a\\\n@ 1" = "\"a\n\\\n@\n1" := by
    rw [linesOf, hlex]
    rfl
  have hsize : (linesOf "\"a\\\n@ 1").utf8ByteSize ≤ countLimit := by
    rw [hlines]
    decide
  use hsize
  rw [← hlines, lex_lines _ hsize, hlex]
  rfl

/-! ### Lines past the limit -/

/-- A number of `n` digits. -/
def number (n : Nat) : Token := ⟨.intNumber, repeated '1' n⟩

/-- The end of a statement. -/
def lastMark : Token := ⟨.semicolon, ";"⟩

theorem toList_number (n : Nat) :
  (number n).text.toList = List.replicate n '1'
  := toList_repeated '1' n

theorem width_number (n : Nat) :
  (number n).width = n
  := utf8ByteSize_repeated rfl n

theorem mem_number {n : Nat} (hn : 0 < n) :
  (number n).text.toList ∈ language .intNumber
  := by
  obtain ⟨m, rfl⟩ := Nat.exists_eq_add_of_lt hn
  rw [toList_number, Nat.zero_add, List.replicate_succ]
  apply mem_intNumber.mpr ⟨'1', List.replicate m '1', rfl, rfl, _⟩
  exact List.forall_mem_replicate.mpr (Or.inr rfl)

/-- A number and a semicolon after it. -/
def statement (n : Nat) : String := (number n).text ++ ";"

theorem pieces_statement {n : Nat} (hn : 0 < n) :
  pieces (statement n) = [number n, lastMark]
  := by
  have hmark : Cuts (lastMark.text.toList ++ []) [lastMark] := Cuts.nil.mark rfl
  have hcuts : Cuts ((number n).text.toList ++ (lastMark.text.toList ++ []))
      [number n, lastMark] := by
    apply hmark.number (mem_number hn) rfl
    rintro _ ⟨⟩
    rfl
  rw [List.append_nil, ← String.toList_append] at hcuts
  apply (cuts_pieces _).unique hcuts

theorem utf8ByteSize_statement (n : Nat) :
  (statement n).utf8ByteSize = n + 1
  := by
  have hwidth := width_number n
  rw [width] at hwidth
  rw [statement, String.utf8ByteSize_append, hwidth]
  rfl

/-- Lines that do not end within the limit lose their last token. -/
theorem lex_lines_ne {n : Nat} (hn : n + 1 = countLimit) :
  lex (linesOf (statement n))
    ≠ ((lex (statement n)).filter (·.kind ≠ .whitespace)).intersperse ⟨.whitespace, "\n"⟩
  := by
  have hpos : 0 < n := by
    rw [countLimit] at hn
    omega
  have hlex : lex (statement n) = [number n, lastMark] := by
    rw [lex_eq_pieces, pieces_statement hpos]
    rw [utf8ByteSize_statement, hn]
  have hfilter : [number n, lastMark].filter (·.kind ≠ .whitespace) = [number n, lastMark] := rfl
  have hwidth : totalWidth ([number n, lastMark].intersperse ⟨.whitespace, "\n"⟩) = n + 2 := by
    simp only [List.intersperse_cons_cons, List.intersperse_singleton, totalWidth_cons,
      totalWidth_nil, width_number]
    rfl
  intro h
  have hle := totalWidth_lex_le (linesOf (statement n))
  rw [h, hlex, hfilter, hwidth] at hle
  omega

/-- A text that ends at the limit, of two tokens side by side, has no room for the line end. -/
theorem lex_lines_overflow :
  (statement 4294967294).utf8ByteSize = countLimit
    ∧ lex (linesOf (statement 4294967294))
      ≠ ((lex (statement 4294967294)).filter (·.kind ≠ .whitespace)).intersperse
        ⟨.whitespace, "\n"⟩
  := ⟨utf8ByteSize_statement _, lex_lines_ne rfl⟩

end Token

end InlayHints

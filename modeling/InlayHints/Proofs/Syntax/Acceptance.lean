import InlayHints.Proofs.Grammar.Faultless
import InlayHints.Proofs.Syntax.Agreement.Expression
import InlayHints.Proofs.Syntax.Rejection
import InlayHints.Proofs.Syntax.Token.Joining

/-!
# Parsing accepts the grammar

A text is parsed without faults exactly if the grammar derives it, and then its tree, without
trivia, is the tree of the derivation; so there is at most one.  This holds of all texts that
are not too long and do not nest too deep.  It is carried over from the rules to parsing by
induction on the levels of nesting: reading a construct without faults is what its symbol means.
-/

namespace InlayHints

open Relation Rule Pattern Phrase

namespace Construct

variable {b c : Bare} {symbol : Symbol}

/-- Whatever a symbol means has a token in it. -/
theorem length_lt_of_meaning (h : Meaning symbol b c) :
  c.ahead.length < b.ahead.length
  := by
  cases symbol with
  | expression power => apply h.1.length_lt startsTable rfl
  | operand => apply h.1.length_lt startsTable rfl
  | block => apply h.length_lt startsTable rfl

theorem productive_grammar (symbol : Symbol) :
  (grammar symbol).productive = true
  := by
  cases symbol with
  | expression power => rfl
  | operand => rfl
  | block => rfl

theorem productive_file :
  Construct.file.productive = true
  := rfl

/-- What is read without faults is what the symbol means. -/
theorem meaning_of_read (levels : Nat) {s : State}
    (h : (grammar.read levels symbol s).faults = s.faults) :
  Meaning symbol s.bare (grammar.read levels symbol s).bare
  := by
  induction levels generalizing symbol s with
  | zero => apply absurd h (Grammar.faults_read_zero grammar symbol s)
  | succ levels ih =>
    apply reads_grammar.mp
    apply reads_of_run (State.kept_faults.read grammar levels)
      (State.kept_takes.read grammar levels) length_lt_of_meaning ih (productive_grammar symbol) h

/-- What a symbol means is read without faults, if it does not nest too deep. -/
theorem read_of_meaning (levels : Nat) {s : State} (h : Meaning symbol s.bare c) :
  s.Arrives (grammar.read levels symbol s) c
  := by
  induction levels generalizing symbol s c with
  | zero =>
    apply Or.inl
    apply State.Deep.mono _ (State.kept_faults.skipLevel (s.report fun _ => .nestedTooDeep))
    apply Exists.intro _ ⟨List.mem_cons_self, rfl⟩
  | succ levels ih =>
    apply run_of_reads (State.kept_faults.read grammar levels)
      (State.kept_takes.read grammar levels) length_lt_of_meaning ih (productive_grammar symbol)
    apply reads_grammar.mpr h

theorem agrees_file :
  Agrees Meaning production (fun _ => True) Construct.file Phrase.file (·.atEnd = true)
  := by
  apply Agrees.loop (I := fun _ => True) agrees_item
  · intro b c h
    obtain ⟨k, -, hlook⟩ := h.look_first startsTable rfl
    simp [Lookahead.atEnd, hlook]
  · intro b c _
    trivial
  · intro a ha
    simp [ha]

/-- The rule of a file reads the files of the grammar, to their end. -/
theorem reads_file :
  Construct.file.Reads Meaning b c ↔ Phrase.file.Spans production b c ∧ c.ahead = []
  := by
  have hend : c.look.atEnd = true ↔ c.ahead = [] := by
    rw [Lookahead.atEnd, decide_eq_true_eq, Bare.look_first_eq_none]
  constructor
  · intro h
    have hatEnd : c.look.atEnd = true := by simpa using h.2
    use (agrees_file b c trivial hatEnd).mp h, hend.mp hatEnd
  · rintro ⟨h, hahead⟩
    apply (agrees_file b c trivial (hend.mpr hahead)).mpr h

end Construct

namespace Parse

open Construct

/-- The state after a file was read, but for trivia at its end. -/
theorem bare_finalState (ts : List Token) :
  (finalState ts).bare = (Construct.file.run (grammar.read nestingLimit) (.start ts)).bare
  := State.bare_flush _

/-- A file of the grammar that takes all tokens is a derivation. -/
theorem spans_file_iff {ts : List Token} {us : List Tree} :
  Phrase.file.Spans production (State.start ts).bare ⟨[], us.reverse⟩
    ↔ Phrase.file.Derives production (Token.significant ts) us
  := by
  constructor
  · rintro ⟨w, vs, h, hahead, hout⟩
    have hw : Token.significant ts = w ++ [] := hahead
    have hvs : us.reverse = vs.reverse ++ [] := hout
    rw [List.append_nil] at hw hvs
    rw [hw, List.reverse_inj.mp hvs]
    apply h
  · intro h
    use Token.significant ts, us, h
    constructor
    · apply (List.append_nil _).symm
    · apply (List.append_nil _).symm

/-- The tree of a list of tokens without trivia. -/
theorem sift_ofTokens (ts : List Token) :
  (ofTokens ts).tree.sift = .node .sourceFile (finalState ts).bare.out.reverse
  := by
  rw [ofTokens, Tree.sift_node, Tree.siftAll_reverse, State.bare]

/-- Tokens that do not nest too deep are read without faults, and to some tree, exactly if
they derive to the tree. -/
theorem derives_iff_ofTokens {ts : List Token}
    (hdeep : ∀ f ∈ (ofTokens ts).faults, f.cause ≠ .nestedTooDeep) (us : List Tree) :
  Phrase.file.Derives production (Token.significant ts) us
    ↔ (ofTokens ts).faults = [] ∧ (ofTokens ts).tree.sift = .node .sourceFile us
  := by
  have hfaults := State.kept_faults.read grammar nestingLimit
  have htakes := State.kept_takes.read grammar nestingLimit
  have hreverse : (ofTokens ts).faults = (finalState ts).faults.reverse := rfl
  rw [hreverse, List.reverse_eq_nil_iff, sift_ofTokens, ← spans_file_iff]
  constructor
  · intro h
    have hreads := reads_file.mpr ⟨h, rfl⟩
    rcases run_of_reads hfaults htakes length_lt_of_meaning (read_of_meaning nestingLimit)
      productive_file hreads with ⟨f, hf, hcause⟩ | ⟨hbare, hnone⟩
    · apply absurd hcause (hdeep f _)
      rw [hreverse, List.mem_reverse]
      apply hf
    · constructor
      · apply hnone
      · rw [bare_finalState, hbare, List.reverse_reverse]
  · rintro ⟨hnone, htree⟩
    obtain ⟨h, hahead⟩ := reads_file.mp (reads_of_run hfaults htakes length_lt_of_meaning
      (meaning_of_read nestingLimit) productive_file hnone)
    rw [← bare_finalState] at h hahead
    obtain rfl : (finalState ts).bare.out.reverse = us := by simpa using htree
    rw [List.reverse_reverse, ← hahead]
    apply h

/-- A text that is not too long and does not nest too deep is parsed without faults exactly if
the grammar derives its significant tokens, and then its tree, but for trivia, is the tree of the
derivation. -/
theorem ofText_accepts_grammar {text : String} (hsize : text.utf8ByteSize ≤ countLimit)
    (hdeep : ∀ f ∈ (ofText text).faults, f.cause ≠ .nestedTooDeep) :
  ((ofText text).faults = []
      ↔ ∃ ts, Phrase.file.Derives production (Token.significant (Token.lex text)) ts)
    ∧ ∀ ts, Phrase.file.Derives production (Token.significant (Token.lex text)) ts
        → (ofText text).tree.sift = .node .sourceFile ts
  := by
  have hread := ofText_of_le hsize
  rw [hread] at hdeep ⊢
  constructor
  · constructor
    · intro h
      use (finalState (Token.lex text)).bare.out.reverse
      apply (derives_iff_ofTokens hdeep _).mpr ⟨h, sift_ofTokens _⟩
    · rintro ⟨ts, h⟩
      apply ((derives_iff_ofTokens hdeep ts).mp h).1
  · intro ts h
    apply ((derives_iff_ofTokens hdeep ts).mp h).2

/-- The grammar derives a declaration with a value, and nothing if the value is missing. -/
theorem ofText_accepts_declaration :
  (∃ ts, Phrase.file.Derives production
      (Token.significant (Token.lex "const x: u8 = f(1) + 2 * 3;")) ts)
    ∧ ¬ ∃ ts, Phrase.file.Derives production
      (Token.significant (Token.lex "const x: u8 = ;")) ts
  := by
  constructor
  · have hsize : "const x: u8 = f(1) + 2 * 3;".utf8ByteSize ≤ countLimit := by decide
    apply (ofText_accepts_grammar hsize (by decide +kernel)).1.mp
    decide +kernel
  · have hsize : "const x: u8 = ;".utf8ByteSize ≤ countLimit := by decide
    rw [← (ofText_accepts_grammar hsize (by decide +kernel)).1]
    decide +kernel

/-! ### Too many blanks -/

/-- A text of `n` blanks. -/
def blanks (n : Nat) : String := repeated ' ' n

theorem significant_lex_blanks (n : Nat) :
  Token.significant (Token.lex (blanks n)) = []
  := by
  apply Token.significant_lex_of_isBlank
  rw [blanks, toList_repeated]
  exact List.forall_mem_replicate.mpr (Or.inr rfl)

theorem faults_blanks {n : Nat} (hn : countLimit < n) :
  (ofText (blanks n)).faults = [⟨.tooLong n, 0⟩]
  := by
  have hsize : (blanks n).utf8ByteSize = n := utf8ByteSize_repeated rfl n
  rw [faults_ofText_of_lt (by rwa [hsize]), hsize]

/-- The grammar derives a file without significant tokens. -/
theorem derives_nil {ts : List Token} (h : Token.significant ts = []) :
  ∃ us, Phrase.file.Derives production (Token.significant ts) us
  := by
  have hfaults : (ofTokens []).faults = [] := by decide +kernel
  have hnil : Token.significant ts = Token.significant [] := h
  rw [hnil]
  use (finalState []).bare.out.reverse
  apply (derives_iff_ofTokens _ _).mpr ⟨hfaults, sift_ofTokens _⟩
  rw [hfaults]
  apply List.forall_mem_nil

/-- The grammar derives a file of blanks only, but if there are too many then it is not read. -/
theorem ofText_rejects_blanks :
  (∃ ts, Phrase.file.Derives production
      (Token.significant (Token.lex (blanks 4294967296))) ts)
    ∧ (ofText (blanks 4294967296)).faults = [⟨.tooLong 4294967296, 0⟩]
  := ⟨derives_nil (significant_lex_blanks _), faults_blanks (by decide)⟩

end Parse

end InlayHints

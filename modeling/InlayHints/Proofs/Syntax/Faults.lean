import Mathlib
import InlayHints.Proofs.Grammar.Reports
import InlayHints.Proofs.Syntax.Schema
import InlayHints.Proofs.Syntax.Token.LongestMatch

/-!
# Where the faults of a text are

The faults of a text are listed in the order in which they are noted, which is the order of the
text, since reading only goes forward.  Each stands at the next significant token ahead, or at the
end of the text if there is none (`SourceFile.faults_located`).  Tokens are put into error nodes
only after a fault was noted, so a tree with an error node comes with faults, and so does a token
that no token class describes, as it stands in such a node.
-/

namespace InlayHints

/-- A report is made before the tokens that are still ahead: its fault stands at the start of the
first significant one, and at the end of the text if and only if there is none. -/
structure Report.LocatedIn (text : String) (r : Report) : Prop where
  ahead : r.state.ahead.tokens <:+ Token.lex text
  starts : ∀ t ∈ r.state.significant.head?,
    (r.fault.offset, t) ∈ Token.withStarts (Token.lex text) ∧ t.isTrivia = false
  atEnd : r.fault.offset = text.utf8ByteSize ↔ r.state.significant = []

namespace Parse

/-- The reports of reading a list of tokens. -/
def reports (ts : List Token) : List Report :=
  Construct.file.reports (Construct.grammar.read nestingLimit)
    (Construct.grammar.reports nestingLimit) (.start ts)

theorem notes_file (ts : List Token) :
  State.Notes (.start ts) (reports ts)
    (Construct.file.run (Construct.grammar.read nestingLimit) (.start ts))
  := Rule.notes_run (Construct.grammar.notes_read nestingLimit) _ _

/-- The faults of a list of tokens are those of its reports. -/
theorem faults_ofTokens (ts : List Token) :
  (ofTokens ts).faults = (reports ts).map Report.fault
  := by
  have hfaults : (finalState ts).faults = ((reports ts).map Report.fault).reverse ++ [] :=
    (notes_file ts).faults_eq
  rw [ofTokens, hfaults, List.append_nil, List.reverse_reverse]

section

variable {text : String}

/-- The next significant token ahead starts where the tokens before it end. -/
theorem exists_passed {s : State} (h : (State.start (Token.lex text)).Passes s) :
  ∃ passed, Token.lex text = passed ++ s.flush.ahead.tokens
    ∧ s.nextStart = Token.totalWidth passed
  := by
  obtain ⟨before, hahead, hoffset⟩ := h
  use before ++ s.ahead.trivia
  constructor
  · rw [List.append_assoc, State.trivia_append_flush]
    apply hahead
  · rw [Token.totalWidth_append, State.nextStart, hoffset.trans (Nat.zero_add _)]

/-- A state that is passed in reading a text stands before the tokens ahead. -/
theorem locatedIn_of_passes (hle : text.utf8ByteSize ≤ countLimit) {s : State}
    (h : (State.start (Token.lex text)).Passes s) (cause : Option TokenKind → Cause) :
  (Report.mk s cause).LocatedIn text
  := by
  obtain ⟨passed, htokens, hstart⟩ := exists_passed h
  have hahead : s.ahead.tokens <:+ Token.lex text := by
    obtain ⟨before, hahead, -⟩ := h
    exact ⟨before, hahead.symm⟩
  have hsize : text.utf8ByteSize = s.nextStart + Token.totalWidth s.flush.ahead.tokens := by
    rw [← Token.totalWidth_lex hle, htokens, Token.totalWidth_append, hstart]
  cases hdrop : s.flush.ahead.tokens with
  | nil =>
    have hnil : s.significant = [] := by
      rw [← State.significant_flush, State.significant, hdrop]
      rfl
    rw [hdrop, Token.totalWidth_nil, Nat.add_zero] at hsize
    use hahead
    · intro t ht
      simp [hnil] at ht
    · simp only [hnil, Report.fault, hsize]
  | cons t rest =>
    have hcons : s.significant = t :: Token.significant rest :=
      Token.significant_of_dropWhile hdrop
    have hmem : t ∈ Token.lex text := by rw [htokens, hdrop]; simp
    have hpos := Token.width_pos_of_mem_lex hmem
    rw [hdrop, Token.totalWidth_cons] at hsize
    use hahead
    · intro t' ht'
      simp only [hcons, List.head?_cons, Option.mem_def, Option.some_inj] at ht'
      obtain rfl := ht'
      constructor
      · rw [Token.withStarts_eq, htokens, hdrop, Token.startsFrom_append, Nat.zero_add, ← hstart]
        apply List.mem_append_right _ List.mem_cons_self
      · apply Token.isTrivia_of_dropWhile hdrop
    · simp only [hcons, Report.fault, reduceCtorEq, iff_false]
      omega

/-- All reports of a text are located in it. -/
theorem locatedIn_of_mem_reports (hle : text.utf8ByteSize ≤ countLimit) {r : Report}
    (hr : r ∈ reports (Token.lex text)) :
  r.LocatedIn text
  := locatedIn_of_passes hle ((notes_file _).within r hr).1 r.cause

end

/-- The offsets of the faults go up. -/
theorem pairwise_offset_faults (ts : List Token) :
  ((ofTokens ts).faults.map Fault.offset).Pairwise (· ≤ ·)
  := by
  rw [faults_ofTokens, List.pairwise_map, List.pairwise_map]
  apply (notes_file ts).ordered.imp
  intro q r hpasses
  apply hpasses.nextStart_le

/-! ### Error nodes -/

theorem builds_grammar (symbol : Symbol) :
  (Construct.grammar symbol).buildsUnlessFaults (fun kind => kind ≠ .error) = true
  := by
  cases symbol with
  | expression power => rfl
  | operand => rfl
  | block => rfl

/-- In the tree of a text without faults there are no error nodes. -/
theorem ne_error_ofTokens {ts : List Token} (h : (ofTokens ts).faults = []) :
  ∀ c ∈ (ofTokens ts).tree.children, c.Shaped fun kind _ => decide (kind ≠ .error) = true
  := by
  have hfaults : (finalState ts).faults = [] := List.reverse_eq_nil_iff.mp h
  have hfile : Construct.file.buildsUnlessFaults (fun kind => kind ≠ .error) = true := rfl
  have hshaped := Rule.shaped_of_faults
    (State.kept_faults.read Construct.grammar nestingLimit)
    (Grammar.shaped_of_faults builds_grammar nestingLimit) hfile (s := .start ts) hfaults
    (List.forall_mem_nil _)
  intro c hc
  apply hshaped.flush c (List.mem_reverse.mp hc)

end Parse

namespace SourceFile

variable {text : String} {s : Site}

/-- A text with an error node has faults. -/
theorem faults_ne_of_error (hs : s ∈ (ofText text).root.descendants)
    (hkind : s.kind = .node .error) :
  (ofText text).parse.faults ≠ []
  := by
  intro hfaults
  have hne : s ≠ (ofText text).root := by
    rintro rfl
    rw [kind_root] at hkind
    contradiction
  have hshaped := Site.shaped_of_children
    (Parse.shaped_children_of_faults Parse.ne_error_ofTokens hfaults) hs hne
  have hfits := Site.fits_of_shaped hshaped hkind
  contradiction

/-- The faults of a text are those of its reports, and their offsets go up; each report is located
at the next significant token ahead, or at the end of the text.  A text with an error node, or with
a token that no token class describes, has faults. -/
theorem faults_located {text : String} (h : text.utf8ByteSize ≤ countLimit) :
  (ofText text).parse.faults = (Parse.reports (Token.lex text)).map Report.fault
    ∧ ((ofText text).parse.faults.map Fault.offset).Pairwise (· ≤ ·)
    ∧ (∀ r ∈ Parse.reports (Token.lex text), r.LocatedIn text)
    ∧ ∀ s ∈ (ofText text).root.descendants,
        s.kind = .node .error ∨ s.kind = .token .errorToken → (ofText text).parse.faults ≠ []
  := by
  have hfaults : (ofText text).parse.faults = (Parse.ofTokens (Token.lex text)).faults :=
    congrArg Parse.faults (Parse.ofText_of_le h)
  refine ⟨?_, ?_, fun r => Parse.locatedIn_of_mem_reports h, ?_⟩
  · rw [hfaults, Parse.faults_ofTokens]
  · rw [hfaults]
    apply Parse.pairwise_offset_faults
  rintro s hs (hkind | hkind)
  · apply faults_ne_of_error hs hkind
  · obtain ⟨e, he, herror, -⟩ := exists_error hs hkind
    apply faults_ne_of_error he herror

/-- A dollar sign is no token of the language, so there is a fault. -/
theorem faults_located_errorToken :
  (∃ s ∈ (ofText "a.b($").root.descendants, s.kind = .token .errorToken)
    ∧ (ofText "a.b($").parse.faults ≠ []
  := by
  have hfound : ((ofText "a.b($").root.descendants.any fun s =>
      s.kind = .token .errorToken) = true := by
    cbv
  obtain ⟨s, hs, hkind⟩ := List.any_eq_true.mp hfound
  have hkind := of_decide_eq_true hkind
  have hsize : "a.b($".utf8ByteSize ≤ countLimit := by decide
  obtain ⟨-, -, -, hfaults⟩ := faults_located hsize
  exact ⟨⟨s, hs, hkind⟩, hfaults s hs (Or.inr hkind)⟩

/-- What is missing at the end of a text is missed at its end, behind the blank there. -/
example :
  (ofText "a.b( ").parse.faults.map Fault.offset = [5, 5]
  := by
  decide +kernel

end SourceFile

end InlayHints

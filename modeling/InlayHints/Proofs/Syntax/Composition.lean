import InlayHints.Proofs.Grammar.Extension
import InlayHints.Proofs.Grammar.Leading
import InlayHints.Proofs.Grammar.Place
import InlayHints.Proofs.Syntax.Acceptance
import InlayHints.Proofs.Syntax.Progress
import InlayHints.Proofs.Syntax.Token.Joining

/-!
# Texts are parsed item by item

If a text has no faults, then a line end and another text may follow it: the parse of the whole
is that of the two texts side by side (`Parse.ofText_join`).  The items of the first text end in
a semicolon or a brace, and do not look past it.  The second text is read as if it stood alone,
since what was read before has no influence, and neither has the trivia in front of it, which may
have become one token with the line end.
-/

namespace InlayHints

/-- A text that is put after `n` bytes and then after `m` more is put after all of them. -/
theorem Fault.after_comp_after (m n : Nat) :
  Fault.after m ∘ Fault.after n = Fault.after (m + n)
  := by
  funext f
  rw [Function.comp_apply, after, after, after, Nat.add_assoc]

/-- What is built after the past, without trivia. -/
theorem Past.bare_out_resume (p : Past) (s : State) :
  (p.resume s).bare.out = s.bare.out ++ Tree.siftAll p.out
  := Tree.siftAll_append s.out p.out

namespace Construct

open Rule

/-- The kinds of token that items end with. -/
def closers : List TokenKind := [.semicolon, .rBrace]

/-- The symbols whose constructs end with a token of their own. -/
def isClosed : Symbol → Bool
  | .block => true
  | _ => false

theorem delimited_grammar :
  grammar.Delimited closers isClosed
  where
  takes symbol := by
    cases symbol with
    | expression power => rfl
    | operand => rfl
    | block => rfl
  productive := productive_grammar
  settled symbol := by
    cases symbol with
    | expression power => rfl
    | operand => rfl
    | block => rfl
  closes symbol h := by
    cases symbol with
    | expression power => contradiction
    | operand => contradiction
    | block => rfl

theorem settled_file :
  file.settled closers = true
  := rfl

theorem closes_item :
  item.closes isClosed = true
  := rfl

/-- A file is read in the same way from after the trivia at its front. -/
theorem run_file_flush (levels : Nat) (s : State) :
  (file.run (grammar.read levels) s.flush).flush = (file.run (grammar.read levels) s).flush
  := run_items_flush (State.kept_takes.read grammar levels) (advances_item levels) rfl _ s

end Construct

namespace Parse

open Construct Pattern Phrase

variable {ts us vs more : List Token}

/-- Reading a file goes on from any state as it would start from there, after the trivia at the
front. -/
theorem run_file_eq_resume (s : State) :
  (Construct.file.run (grammar.read nestingLimit) s).flush
    = s.flush.past.resume (finalState s.flush.ahead.tokens)
  := by
  have hframes : s.flush.past.Frames (Construct.file.run (grammar.read nestingLimit)) :=
    Rule.frames_run (frames_read nestingLimit) (Or.inl rfl)
  rw [← run_file_flush, finalState, ← Past.frames_flush, ← hframes, State.resume_start]

/-- The last token of a file without faults ends an item. -/
theorem endsIn_closers (h : (ofTokens ts).faults = []) :
  (State.start ts).bare.EndsIn closers
  := by
  have hderives := (derives_iff_ofTokens (by rw [h]; nofun) _).mpr ⟨h, sift_ofTokens ts⟩
  apply hderives.ends startsTable endsTable

/-- If more significant tokens follow a file without faults, the file is read as if they did
not. -/
theorem exists_run_file (h : (ofTokens ts).faults = [])
    (hvs : Token.significant vs = Token.significant ts ++ more) :
  ∃ s, finalState vs = (Construct.file.run (grammar.read nestingLimit) s).flush
    ∧ s.bare = ⟨more, (finalState ts).bare.out⟩ ∧ s.faults = [] ∧ ∃ before, s.At vs before
  := by
  have hfaults : (finalState ts).faults = [] := List.reverse_eq_nil_iff.mp h
  have hreads := Rule.reads_of_run (State.kept_faults.read grammar nestingLimit)
    (State.kept_takes.read grammar nestingLimit) delimited_grammar.length_lt
    delimited_grammar.reads_of_read productive_file hfaults
  rw [← bare_finalState] at hreads
  have hend : (finalState ts).bare.ahead = [] := by
    rw [← Bare.look_first_eq_none]
    simpa [Lookahead.atEnd] using hreads.2
  have hbare : (State.start vs).bare = (State.start ts).bare.extend more :=
    congrArg (Bare.mk · []) hvs
  obtain ⟨s, heq, hs, hnone, hkept⟩ := delimited_grammar.exists_run_loop productive_file
    settled_file closes_item hreads (endsIn_closers h) hbare
  rw [Bare.extend, hend, List.nil_append] at hs
  refine ⟨s, ?_, hs, hnone, ?_⟩
  · rw [finalState]
    apply congrArg State.flush heq
  · apply hkept (State.kept_at vs) ⟨[], State.At.start vs⟩

/-- If two lists of tokens are joined, and the first has no faults, then so are their trees, and
the faults are those of the second, where it stands. -/
theorem finalState_join {before after : List Token} (hjoins : Token.Joins ts us vs before after)
    (h : (ofTokens ts).faults = []) {n : Nat}
    (hn : Token.totalWidth vs = n + Token.totalWidth us) :
  (finalState vs).bare.out = (finalState us).bare.out ++ (finalState ts).bare.out
    ∧ (finalState vs).faults = (finalState us).faults.map (Fault.after n)
  := by
  obtain ⟨s, heq, hbare, hfaults, before', hat⟩ := exists_run_file h hjoins.significant_both
  have hahead : s.flush.ahead.tokens = (State.start us).flush.ahead.tokens := by
    apply hjoins.dropWhile_second ⟨before', hat.tokens_eq.symm⟩
    apply congrArg Bare.ahead hbare
  have hvs : finalState vs
      = s.flush.past.resume (finalState (State.start us).flush.ahead.tokens) := by
    rw [heq, run_file_eq_resume, hahead]
  have hus : finalState us = (State.start us).flush.past.resume
      (finalState (State.start us).flush.ahead.tokens) := run_file_eq_resume (State.start us)
  have hoffset : s.flush.offset = n + (State.start us).flush.offset := by
    have hwidth := hat.flush.offset_add
    have hwidth' := (State.At.start us).flush.offset_add
    rw [hahead] at hwidth
    omega
  constructor
  · have hout : Tree.siftAll s.flush.past.out = (finalState ts).bare.out := by
      rw [State.past, State.siftAll_out_flush, hbare]
    have hout' : Tree.siftAll (State.start us).flush.past.out = [] := by
      rw [State.past, State.siftAll_out_flush]
      rfl
    rw [hvs, hus, Past.bare_out_resume, Past.bare_out_resume, hout, hout', List.append_nil]
  · have hnone : s.flush.past.faults = [] := hfaults
    have hnone' : (State.start us).flush.past.faults = [] := rfl
    rw [hvs, hus, Past.resume, Past.resume]
    simp only [hnone, hnone', List.append_nil, List.map_map, Fault.after_comp_after]
    rw [State.past, State.past, hoffset]

/-- If a text has no faults, and a line end and any other text follow it, then the items of the
whole, but for trivia, are those of the two texts, and its faults are those of the second text,
where it stands in the whole. -/
theorem ofText_join {a b : String} (hsize : (a ++ "\n" ++ b).utf8ByteSize ≤ countLimit)
    (h : (ofText a).faults = []) :
  Tree.siftAll (ofText (a ++ "\n" ++ b)).tree.children
      = Tree.siftAll (ofText a).tree.children ++ Tree.siftAll (ofText b).tree.children
    ∧ (ofText (a ++ "\n" ++ b)).faults
      = (ofText b).faults.map (Fault.after (a.utf8ByteSize + 1))
  := by
  obtain ⟨before, after, hjoins⟩ := Token.joins_lex hsize
  have hjoined := Token.utf8ByteSize_join a b
  have hb : b.utf8ByteSize ≤ countLimit := by omega
  have hwidth : Token.totalWidth (Token.lex (a ++ "\n" ++ b))
      = a.utf8ByteSize + 1 + Token.totalWidth (Token.lex b) := by
    rw [Token.totalWidth_lex hsize, Token.totalWidth_lex hb, hjoined]
  have hchildren : ∀ ts : List Token, Tree.siftAll (ofTokens ts).tree.children
      = (finalState ts).bare.out.reverse :=
    fun ts => Tree.siftAll_reverse _
  have hread := ofText_of_faults h
  rw [hread] at h
  obtain ⟨hout, hfaults⟩ := finalState_join hjoins h hwidth
  rw [hread, ofText_of_le hsize, ofText_of_le hb]
  constructor
  · rw [hchildren, hchildren, hchildren, hout, List.reverse_append]
  · rw [ofTokens, ofTokens, List.map_reverse]
    apply congrArg List.reverse hfaults

/-- After a constant and a comment, a call that is not closed has the faults that it has alone,
twenty bytes further on. -/
theorem ofText_join_call :
  (ofText "const x = 1; // one").faults = []
    ∧ Tree.siftAll (ofText ("const x = 1; // one" ++ "\n" ++ "foo(")).tree.children
      = Tree.siftAll (ofText "const x = 1; // one").tree.children
        ++ Tree.siftAll (ofText "foo(").tree.children
    ∧ (ofText ("const x = 1; // one" ++ "\n" ++ "foo(")).faults
      = (ofText "foo(").faults.map (Fault.after 20)
    ∧ (ofText "foo(").faults ≠ []
  := by
  have h : (ofText "const x = 1; // one").faults = [] := by decide +kernel
  have hsize : ("const x = 1; // one" ++ "\n" ++ "foo(").utf8ByteSize ≤ countLimit := by decide
  obtain ⟨hchildren, hfaults⟩ := ofText_join hsize h
  exact ⟨h, hchildren, hfaults, by decide +kernel⟩

end Parse

end InlayHints

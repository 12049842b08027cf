import InlayHints.Proofs.Grammar.Shape
import InlayHints.Proofs.Syntax.Composition

/-!
# No node starts with trivia

A group is opened only when no trivia stands before it, and reading adds tokens at its end, so
the first token of a group is never trivia.  What reading keeps of an open group is
`State.Fronted`: it starts with a significant token, and while it has no tokens, no trivia is
ahead.  Only the file itself may start with trivia, since it has nothing around it that could take
this trivia; its items do not (`Parse.startsSignificant_ofTokens`).
-/

namespace InlayHints

/-- The first token, if there is one, is not trivia. -/
def Token.StartsSignificant (ts : List Token) : Prop := ∀ t ∈ ts.head?, t.isTrivia = false

namespace Tree

/-- The trees in a list do not start with trivia. -/
def Trimmed (cs : List Tree) : Prop := ∀ c ∈ cs.head?, c.isTrivia = false

/-- The trees in a list start with a significant token, if there is any token in them. -/
def StartsSignificant (_ : NodeKind) (cs : List Tree) : Prop :=
  Token.StartsSignificant (cs.flatMap tokens)

theorem StartsSignificant.trimmed {kind : NodeKind} {cs : List Tree}
    (h : StartsSignificant kind cs) :
  Trimmed cs
  := by
  intro c hc
  obtain ⟨ds, rfl⟩ := List.head?_eq_some_iff.mp hc
  cases c with
  | token t =>
    apply h t
    rw [List.flatMap_cons, tokens_token]
    rfl
  | node k cs => rfl

end Tree

namespace State

variable {s t : State}

/-- The innermost group starts with a significant token, or will do so. -/
structure Fronted (s : State) : Prop where
  first : Token.StartsSignificant s.taken
  opened : s.taken = [] → s.ahead.trivia = []

theorem fronted_opened (s : State) :
  (s.flush.withOut []).Fronted
  where
  first := nofun
  opened _ := trivia_flush s

/-- After the trivia at its front, a file is a group like any other. -/
theorem fronted_start_flush (ts : List Token) :
  (start (start ts).flush.ahead.tokens).Fronted
  where
  first := nofun
  opened _ := trivia_flush (start ts)

/-- Reading adds tokens at the end of a group, so it leaves the front as it is. -/
theorem Takes.fronted (h : s.Takes t) (hs : s.Fronted) :
  t.Fronted
  := by
  obtain ⟨ts, hahead, htaken⟩ := h
  cases hempty : s.taken with
  | cons u us =>
    rw [hempty] at htaken
    constructor
    · intro v hv
      rw [htaken] at hv
      apply hs.first v
      rw [hempty]
      apply hv
    · rw [htaken]
      nofun
  | nil =>
    have htrivia : s.ahead.tokens.takeWhile Token.isTrivia = [] := hs.opened hempty
    rw [hempty, List.nil_append] at htaken
    rw [hahead] at htrivia
    cases ts with
    | nil =>
      constructor
      · rw [htaken]
        nofun
      · intro _
        apply htrivia
    | cons u us =>
      constructor
      · intro v hv
        rw [htaken] at hv
        obtain rfl := Option.some_inj.mp hv
        apply Bool.eq_false_iff.mpr
        intro htrue
        rw [List.cons_append, List.takeWhile_cons_of_pos htrue] at htrivia
        contradiction
      · rw [htaken]
        nofun

/-- Reading builds nodes that start with significant tokens. -/
theorem kept_fronted :
  Kept fun s t =>
    s.Takes t ∧ (s.Fronted → s.Shaped Tree.StartsSignificant → t.Shaped Tree.StartsSignificant)
  where
  refl s := ⟨kept_takes.refl s, fun _ h => h⟩
  trans hst htu :=
    ⟨kept_takes.trans hst.1 htu.1, fun hs h => htu.2 (hst.1.fronted hs) (hst.2 hs h)⟩
  flush s := ⟨takes_flush s, fun _ h => h.flush⟩
  shift s := ⟨takes_shift s, fun _ h => h.shift⟩
  report cause s := ⟨kept_takes.report cause s, fun _ h => h⟩
  within kind s t ht := by
    use kept_takes.within kind s t ht.1
    intro _ h
    have hbody := ht.2 (fronted_opened s) (shaped_opened _)
    apply List.forall_mem_cons.mpr ⟨hbody.node _, h.flush⟩
    apply (ht.1.fronted (fronted_opened s)).first
  apart s t ht := by
    use kept_takes.apart s t ht.1
    intro _ h
    apply List.forall_mem_append.mpr ⟨ht.2 (fronted_opened s) (shaped_opened _), h.flush⟩
  wrap kind s t ht := by
    use kept_takes.wrap kind s t ht.1
    intro hs h
    apply List.forall_mem_singleton.mpr ((ht.2 hs h).node _)
    apply (ht.1.fronted hs).first

end State

namespace Parse

/-- The trees of a file are those that are read after the trivia at its front, and this
trivia. -/
theorem shaped_children {Fits : NodeKind → List Tree → Prop} {ts : List Token}
    (h : (finalState (State.start ts).flush.ahead.tokens).Shaped Fits) :
  ∀ c ∈ (ofTokens ts).tree.children, c.Shaped Fits
  := by
  have heq : finalState ts = (State.start ts).flush.past.resume
      (finalState (State.start ts).flush.ahead.tokens) := run_file_eq_resume (.start ts)
  have hempty : (State.start ts).Shaped Fits := List.forall_mem_nil _
  intro c hc
  have hc : c ∈ (finalState ts).out := List.mem_reverse.mp hc
  rw [heq, Past.out_resume] at hc
  rcases List.mem_append.mp hc with hc | hc
  · apply h c hc
  · apply hempty.flush c hc

/-- In the tree of any text, all nodes start with significant tokens, the file itself apart. -/
theorem startsSignificant_ofTokens (ts : List Token) :
  ∀ c ∈ (ofTokens ts).tree.children, c.Shaped Tree.StartsSignificant
  := by
  apply shaped_children
  apply (State.kept_fronted.finalState _).2 (State.fronted_start_flush ts)
  apply List.forall_mem_nil

end Parse

end InlayHints

import InlayHints.Proofs.Grammar.Faultless

/-!
# What rules result in

`Rule.Results` says what a rule does on bare states, faults or not: from every state that looks
like one bare state it leads to one that looks like another, and the faults that it notes have
certain causes.  There is one lemma for each way to build rules, so that the result of a rule on
given tokens is put together from those of its parts.  Where the levels of nesting are used up, a
balanced piece is skipped as a whole (`Grammar.results_read_zero`), and reading goes on after it as
if the piece had been read.
-/

namespace InlayHints

/-- How many brackets are open after some tokens when `opened` were open before them; `none` if one
of the tokens ends the level. -/
def Token.balance? (opened : Nat) (ts : List Token) : Option Nat :=
  ts.foldlM (fun opened t => State.balance? opened t.kind) opened

theorem Token.balance?_append (opened : Nat) (ts us : List Token) :
  balance? opened (ts ++ us) = (balance? opened ts).bind fun opened => balance? opened us
  := List.foldlM_append

namespace State

variable {s : State}

/-- The causes of the faults noted so far, the last one first. -/
def causes (s : State) : List Cause := s.faults.map Fault.cause

theorem causes_take (s : State) :
  s.take.causes = s.causes
  := congrArg (List.map Fault.cause) (faults_take s)

theorem bare_take_of_cons {t : Token} {ts : List Token} {out : List Tree}
    (h : s.bare = ⟨t :: ts, out⟩) :
  s.take.bare = ⟨ts, .token t :: out⟩
  := by
  rw [bare_take, h]
  rfl

/-! ### Skipping -/

theorem nextBalance?_of_bare {ts : List Token} {out : List Tree} (h : s.bare = ⟨ts, out⟩)
    (opened : Nat) :
  s.nextBalance? opened = (ts.head?.map Token.kind).bind (balance? opened)
  := by
  rw [nextBalance?, ← look_bare, h]
  cases ts with
  | nil => rfl
  | cons t ts => rfl

/-- Skipping takes a piece in which no token ends the level, and goes on after it. -/
theorem exists_takeLevel {opened opened' : Nat} {ts rest : List Token} {out : List Tree}
    (hts : Token.balance? opened ts = some opened') (hs : s.bare = ⟨ts ++ rest, out⟩) :
  ∃ t : State, s.takeLevel opened = t.takeLevel opened'
    ∧ t.bare = ⟨rest, (ts.map Tree.token).reverse ++ out⟩ ∧ t.causes = s.causes
  := by
  induction ts generalizing opened s out with
  | nil =>
    obtain rfl := Option.some_inj.mp hts
    exact ⟨s, rfl, hs, rfl⟩
  | cons t ts ih =>
    obtain ⟨next, hnext, hts⟩ := Option.bind_eq_some_iff.mp hts
    have hbalance : s.nextBalance? opened = some next := by
      rw [nextBalance?_of_bare hs]
      exact hnext
    obtain ⟨u, hu, hbare, hcauses⟩ := ih hts (bare_take_of_cons hs)
    refine ⟨u, ?_, ?_, hcauses.trans (causes_take s)⟩
    · rw [takeLevel_of_some hbalance, hu]
    · rw [hbare]
      simp

/-- A balanced piece is skipped as one error node, up to where the level ends. -/
theorem bare_skipLevel {ts rest : List Token} {out : List Tree} (hne : ts ≠ [])
    (hts : Token.balance? 0 ts = some 0)
    (hrest : (rest.head?.map Token.kind).bind (balance? 0) = none)
    (hs : s.bare = ⟨ts ++ rest, out⟩) :
  s.skipLevel.bare = ⟨rest, .node .error (ts.map Tree.token) :: out⟩
    ∧ s.skipLevel.causes = s.causes
  := by
  have hopened : (s.flush.withOut []).bare = ⟨ts ++ rest, []⟩ := by
    rw [bare_opened, hs]
    rfl
  obtain ⟨t, htaken, hbare, hcauses⟩ := exists_takeLevel hts hopened
  have hstop : t.nextBalance? 0 = none := by rw [nextBalance?_of_bare hbare, hrest]
  rw [takeLevel_of_none hstop] at htaken
  have hskip : s.skipLevel = s.within .error (takeLevel 0) := by
    obtain ⟨u, us, rfl⟩ := List.exists_cons_of_ne_nil hne
    obtain ⟨opened, hnext, -⟩ := Option.bind_eq_some_iff.mp hts
    have hnext : s.nextBalance? 0 = some opened := by
      rw [nextBalance?_of_bare hs]
      exact hnext
    rw [skipLevel, hnext]
  rw [hskip]
  constructor
  · rw [bare_within, htaken, hbare, hs]
    simp
  · calc (s.within .error (takeLevel 0)).causes
      _ = ((s.flush.withOut []).takeLevel 0).causes := rfl
      _ = s.causes := by rw [htaken, hcauses]; rfl

end State

namespace Rule

variable {σ : Type} {inner : σ → State → State} {r r' : Rule σ} {b c d : Bare}
variable {causes causes' : List Cause} {ts rest : List Token} {out out' : List Tree}
variable {test : Lookahead → Bool}

/-- From every state that looks like `b` the rule leads to one that looks like `c`, and the faults
it notes have the given causes, in this order. -/
def Results (inner : σ → State → State) (r : Rule σ) (b : Bare) (causes : List Cause) (c : Bare) :
    Prop :=
  ∀ s : State, s.bare = b →
    (r.run inner s).bare = c ∧ (r.run inner s).causes = causes.reverse ++ s.causes

theorem results_pass (b : Bare) :
  pass.Results inner b [] b
  := fun _ hs => ⟨hs, rfl⟩

theorem results_take (t : Token) (ts : List Token) (out : List Tree) :
  take.Results inner ⟨t :: ts, out⟩ [] ⟨ts, .token t :: out⟩
  := fun s hs => ⟨State.bare_take_of_cons hs, State.causes_take s⟩

namespace Results

theorem andThen (h : r.Results inner b causes c) (h' : r'.Results inner c causes' d) :
  (r >> r').Results inner b (causes ++ causes') d
  := by
  intro s hs
  obtain ⟨hbare, hcauses⟩ := h s hs
  obtain ⟨hbare', hcauses'⟩ := h' _ hbare
  use hbare'
  rw [run_andThen, hcauses', hcauses, List.reverse_append, List.append_assoc]

/-- What notes no fault may stand in front of a rule without changing the causes. -/
theorem after (h' : r'.Results inner c causes d) (h : r.Results inner b [] c) :
  (r >> r').Results inner b causes d
  := h.andThen h'

theorem before (h : r.Results inner b causes c) (h' : r'.Results inner c [] d) :
  (r >> r').Results inner b causes d
  := by
  have hboth := h.andThen h'
  rwa [List.append_nil] at hboth

/-- What is read in an empty group makes one node. -/
theorem node (h : r.Results inner ⟨ts, []⟩ causes ⟨rest, out'⟩) (kind : NodeKind)
    (out : List Tree) :
  (Rule.node kind r).Results inner ⟨ts, out⟩ causes ⟨rest, .node kind out'.reverse :: out⟩
  := by
  intro s hs
  have hopened : (s.flush.withOut []).bare = ⟨ts, []⟩ := by
    rw [State.bare_opened, hs]
    rfl
  obtain ⟨hbare, hcauses⟩ := h _ hopened
  use (State.bare_within kind (r.run inner) s).trans (by rw [hbare, hs]), hcauses

/-- What is read in an empty group is added to the group around it. -/
theorem apart (h : r.Results inner ⟨ts, []⟩ causes ⟨rest, out'⟩) (out : List Tree) :
  (Rule.apart r).Results inner ⟨ts, out⟩ causes ⟨rest, out' ++ out⟩
  := by
  intro s hs
  have hopened : (s.flush.withOut []).bare = ⟨ts, []⟩ := by
    rw [State.bare_opened, hs]
    rfl
  obtain ⟨hbare, hcauses⟩ := h _ hopened
  use (State.bare_apart (r.run inner) s).trans (by rw [hbare, hs]), hcauses

theorem branch_true (htest : test b.look = true) (h : r.Results inner b causes c) :
  (Rule.branch test r r').Results inner b causes c
  := by
  intro s hs
  rw [← hs, State.look_bare] at htest
  rw [run_branch_true htest]
  apply h s hs

theorem branch_false (htest : test b.look = false) (h : r'.Results inner b causes c) :
  (Rule.branch test r r').Results inner b causes c
  := by
  intro s hs
  rw [← hs, State.look_bare] at htest
  rw [run_branch_false htest]
  apply h s hs

/-- What is left out notes nothing and takes nothing. -/
theorem when_false (htest : test b.look = false) :
  (when test r).Results inner b [] b
  := branch_false htest (results_pass b)

theorem expect_take {k : TokenKind} {t : Token} (h : t.kind = k) (ts : List Token)
    (out : List Tree) :
  (expect k).Results inner ⟨t :: ts, out⟩ [] ⟨ts, .token t :: out⟩
  := by
  apply branch_true _ (results_take t ts out)
  exact decide_eq_true (congrArg some h)

theorem loop_stop (htest : test b.look = false) :
  (Rule.loop test r).Results inner b [] b
  := by
  intro s hs
  have hstop : ¬ test s.look = true := by
    rw [← State.look_bare, hs, htest]
    exact Bool.false_ne_true
  rw [run, State.repeatWhile_of_false hstop]
  use hs
  rfl

section

variable (htakes : ∀ symbol s, State.Takes s (inner symbol s))

include htakes

/-- A round that takes significant tokens, and the rounds after it. -/
theorem loop_round (h : r.Results inner b causes c) (htest : test b.look = true)
    (hlt : c.ahead.length < b.ahead.length) (h' : (Rule.loop test r).Results inner c causes' d) :
  (Rule.loop test r).Results inner b (causes ++ causes') d
  := by
  intro s hs
  have hround : test s.look = true := by rw [← State.look_bare, hs, htest]
  obtain ⟨hbare, hcauses⟩ := h s hs
  have hcount : (r.run inner s).count < s.count := by
    apply (State.kept_takes.run htakes r s).count_lt
    rw [hbare, hs]
    apply hlt
  obtain ⟨hbare', hcauses'⟩ := h' _ hbare
  rw [run, State.repeatWhile_of_lt hround hcount]
  use hbare'
  rw [run] at hcauses'
  rw [hcauses', hcauses, List.reverse_append, List.append_assoc]

/-- The only round of a loop. -/
theorem loop_once (h : r.Results inner b causes c) (htest : test b.look = true)
    (hlt : c.ahead.length < b.ahead.length) (hstop : test c.look = false) :
  (Rule.loop test r).Results inner b causes c
  := by
  have hrounds := h.loop_round htakes htest hlt (loop_stop hstop)
  rwa [List.append_nil] at hrounds

/-- An item that takes significant tokens is not rejected. -/
theorem orReject (h : r.Results inner b causes c) (hlt : c.ahead.length < b.ahead.length)
    (cause : Cause) :
  (r.orReject cause).Results inner b causes c
  := by
  intro s hs
  obtain ⟨hbare, hcauses⟩ := h s hs
  have hcount : (r.run inner s).count < s.count := by
    apply (State.kept_takes.run htakes r s).count_lt
    rw [hbare, hs]
    apply hlt
  simp only [Rule.orReject, run, State.unlessTaken]
  rw [if_neg (Nat.ne_of_lt hcount)]
  use hbare, hcauses

end

end Results

end Rule

namespace Grammar

variable {σ : Type} {g : Grammar σ} {symbol : σ} {levels : Nat} {causes : List Cause}

/-- One level further in, a construct is read by its rule. -/
theorem results_read_succ {b c : Bare} (h : (g symbol).Results (g.read levels) b causes c) :
  (Rule.nested symbol).Results (g.read (levels + 1)) b causes c
  := h

/-- At the last level, a balanced piece is skipped, up to where the level ends. -/
theorem results_read_zero {ts rest : List Token} (hne : ts ≠ [])
    (hts : Token.balance? 0 ts = some 0)
    (hrest : (rest.head?.map Token.kind).bind (State.balance? 0) = none) (out : List Tree) :
  (Rule.nested symbol).Results (g.read 0) ⟨ts ++ rest, out⟩ [.nestedTooDeep]
    ⟨rest, .node .error (ts.map Tree.token) :: out⟩
  := by
  intro s hs
  have hreport : (s.report fun _ => .nestedTooDeep).bare = ⟨ts ++ rest, out⟩ := hs
  apply State.bare_skipLevel hne hts hrest hreport

end Grammar

end InlayHints

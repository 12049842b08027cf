import InlayHints.Proofs.Grammar.Progress
import InlayHints.Proofs.Grammar.Place

/-!
# Two texts in lockstep

Two lists of tokens that differ in their trivia only are read in lockstep: what is built, but
for trivia, and the causes of faults stay the same (`State.Alike`).  There is one place where
reading looks at trivia.  An item is rejected if it has taken no token at all, and an argument
or a parameter takes the trivia before it even if nothing else is there, so it is rejected only
where there was none.  Reading stays in lockstep if the two lists have trivia at the same places
wherever this happened in one of them (`Fault.SpacedAlike`).
-/

namespace InlayHints

namespace Token

/-- Whether the last token of a list is trivia. -/
def endInTrivia (ts : List Token) : Bool := ts.getLast?.any isTrivia

/-- Whether the first token of a list is trivia. -/
def startInTrivia (ts : List Token) : Bool := ts.head?.any isTrivia

theorem startInTrivia_dropWhile (ts : List Token) :
  startInTrivia (ts.dropWhile isTrivia) = false
  := by
  rw [startInTrivia]
  cases hdrop : ts.dropWhile isTrivia with
  | nil => rfl
  | cons t us => apply isTrivia_of_dropWhile hdrop

theorem endInTrivia_append_singleton (ts : List Token) (t : Token) :
  endInTrivia (ts ++ [t]) = t.isTrivia
  := by
  rw [endInTrivia, List.getLast?_append]
  rfl

/-- Trivia that follows some tokens ends the whole of them. -/
theorem endInTrivia_append_takeWhile {ts us : List Token} (h : us.takeWhile isTrivia ≠ []) :
  endInTrivia (ts ++ us.takeWhile isTrivia) = true
  := by
  rw [endInTrivia, List.getLast?_append, List.getLast?_eq_some_getLast h, Option.some_or,
    Option.any_some]
  apply List.mem_takeWhile_imp (List.getLast_mem h)

end Token

/-- The causes of faults that depend on trivia: an argument or a parameter is missing, and no
trivia stands in its place. -/
def Cause.countsTrivia : Cause → Bool
  | .notAnArgument | .notAParameter => true
  | _ => false

/-- At the place where the tokens `ts` have a fault, the tokens `us` have trivia right before
the next significant token exactly if `ts` have. -/
def Fault.SpacedAlike (ts us : List Token) (f : Fault) : Prop :=
  ∀ before after before' after', ts = before ++ after → us = before' ++ after' →
    Token.totalWidth before = f.offset → Token.startInTrivia after' = false →
    Token.significant after = Token.significant after' →
    Token.endInTrivia before = Token.endInTrivia before'

/-- The places in a list of tokens are after its first tokens, however many. -/
theorem Fault.spacedAlike_iff {ts us : List Token} {f : Fault} :
  f.SpacedAlike ts us ↔ ∀ m < ts.length + 1, ∀ n < us.length + 1,
    Token.totalWidth (ts.take m) = f.offset ∧ Token.startInTrivia (us.drop n) = false
      ∧ Token.significant (ts.drop m) = Token.significant (us.drop n) →
    Token.endInTrivia (ts.take m) = Token.endInTrivia (us.take n)
  := by
  constructor
  · rintro h m - n - ⟨hwidth, hstart, hsignificant⟩
    apply h _ _ _ _ _ _ hwidth hstart hsignificant
    · apply (List.take_append_drop m ts).symm
    · apply (List.take_append_drop n us).symm
  · rintro h before after before' after' rfl rfl hwidth hstart hsignificant
    have hsplit := h before.length (by rw [List.length_append]; omega)
      before'.length (by rw [List.length_append]; omega)
    simp only [List.take_left, List.drop_left] at hsplit
    apply hsplit ⟨hwidth, hstart, hsignificant⟩

instance (ts us : List Token) (f : Fault) : Decidable (f.SpacedAlike ts us) :=
  decidable_of_iff' _ Fault.spacedAlike_iff

namespace State

variable {ts us : List Token} {s t s' t' : State}

/-! ### States in lockstep -/

/-- Two states of reading `ts` and `us` that differ in trivia and offsets only.  In both of
them the trivia before the next token was taken, or in none of them. -/
structure Alike (ts us : List Token) (s t : State) : Prop where
  bare_eq : s.bare = t.bare
  causes_eq : s.faults.map Fault.cause = t.faults.map Fault.cause
  places : ∃ before before', s.At ts before ∧ t.At us before'
    ∧ (s.ahead.trivia = [] ∧ t.ahead.trivia = []
      ∨ Token.endInTrivia before = false ∧ Token.endInTrivia before' = false)

namespace Alike

theorem symm (h : Alike ts us s t) :
  Alike us ts t s
  where
  bare_eq := h.bare_eq.symm
  causes_eq := h.causes_eq.symm
  places := by
    obtain ⟨before, before', hs, ht, hspaced⟩ := h.places
    exact ⟨before', before, ht, hs, hspaced.imp And.symm And.symm⟩

theorem significant_eq (h : Alike ts us s t) :
  s.significant = t.significant
  := congrArg Bare.ahead h.bare_eq

theorem look_eq (h : Alike ts us s t) :
  s.look = t.look
  := by
  rw [State.look_eq, State.look_eq, h.significant_eq]

theorem start (h : Token.significant ts = Token.significant us) :
  Alike ts us (.start ts) (.start us)
  where
  bare_eq := congrArg (Bare.mk · []) h
  causes_eq := rfl
  places := ⟨[], [], At.start ts, At.start us, Or.inr ⟨rfl, rfl⟩⟩

theorem flush (h : Alike ts us s t) :
  Alike ts us s.flush t.flush
  where
  bare_eq := by rw [bare_flush, bare_flush, h.bare_eq]
  causes_eq := h.causes_eq
  places := by
    obtain ⟨before, before', hs, ht, -⟩ := h.places
    exact ⟨_, _, hs.flush, ht.flush, Or.inl ⟨trivia_flush s, trivia_flush t⟩⟩

theorem take (h : Alike ts us s t) :
  Alike ts us s.take t.take
  where
  bare_eq := by rw [bare_take, bare_take, h.bare_eq]
  causes_eq := by rw [faults_take, faults_take, h.causes_eq]
  places := by
    obtain ⟨before, before', hs, ht, -⟩ := h.flush.places
    have hhead : s.flush.ahead.tokens.head? = t.flush.ahead.tokens.head? := by
      have hhead := congrArg List.head? h.significant_eq
      rw [significant, significant, ← Token.head?_dropWhile, ← Token.head?_dropWhile] at hhead
      apply hhead
    cases hahead : s.flush.ahead.tokens with
    | nil =>
      -- both lists have been taken to their ends, so nothing but trivia is taken
      have hahead' : t.flush.ahead.tokens = [] := by
        rw [hahead] at hhead
        apply List.head?_eq_none_iff.mp hhead.symm
      have hshift : s.take = s.flush := by rw [State.take, State.shift, hahead]
      have hshift' : t.take = t.flush := by rw [State.take, State.shift, hahead']
      rw [hshift, hshift']
      exact ⟨before, before', hs, ht, Or.inl ⟨trivia_flush s, trivia_flush t⟩⟩
    | cons u rest =>
      obtain ⟨rest', hahead'⟩ : ∃ rest', t.flush.ahead.tokens = u :: rest' := by
        rw [hahead] at hhead
        apply List.head?_eq_some_iff.mp hhead.symm
      have hu : u.isTrivia = false := Token.isTrivia_of_dropWhile hahead
      refine ⟨_, _, hs.shift hahead, ht.shift hahead', Or.inr ⟨?_, ?_⟩⟩
      · rw [Token.endInTrivia_append_singleton, hu]
      · rw [Token.endInTrivia_append_singleton, hu]

theorem report (h : Alike ts us s t) (cause : Option TokenKind → Cause) :
  Alike ts us (s.report cause) (t.report cause)
  where
  bare_eq := h.bare_eq
  causes_eq := by
    rw [State.report, State.report, List.map_cons, List.map_cons, h.causes_eq, h.look_eq]
  places := by
    obtain ⟨before, before', hs, ht, hspaced⟩ := h.places
    exact ⟨before, before', hs.report cause, ht.report cause, hspaced⟩

/-- The trees of the innermost groups may be changed to others that differ in trivia only. -/
theorem withOut (h : Alike ts us s t) {out out' : List Tree}
    (hout : Tree.siftAll out = Tree.siftAll out') :
  Alike ts us (s.withOut out) (t.withOut out')
  where
  bare_eq := by rw [bare_withOut, bare_withOut, h.bare_eq, hout]
  causes_eq := h.causes_eq
  places := by
    obtain ⟨before, before', hs, ht, hspaced⟩ := h.places
    exact ⟨before, before', hs.withOut out, ht.withOut out', hspaced⟩

theorem opened (h : Alike ts us s t) :
  Alike ts us (s.flush.withOut []) (t.flush.withOut [])
  := h.flush.withOut rfl

theorem sift_out_eq (h : Alike ts us s t) :
  Tree.siftAll s.out = Tree.siftAll t.out
  := congrArg Bare.out h.bare_eq

theorem within (h : Alike ts us s t) (kind : NodeKind) {step : State → State}
    (hstep : Alike ts us (step (s.flush.withOut [])) (step (t.flush.withOut []))) :
  Alike ts us (s.within kind step) (t.within kind step)
  := by
  apply hstep.withOut
  rw [Tree.siftAll_cons_node, Tree.siftAll_cons_node, Tree.siftAll_reverse, Tree.siftAll_reverse,
    hstep.sift_out_eq, h.flush.sift_out_eq]

theorem apart (h : Alike ts us s t) {step : State → State}
    (hstep : Alike ts us (step (s.flush.withOut [])) (step (t.flush.withOut []))) :
  Alike ts us (s.apart step) (t.apart step)
  := by
  apply hstep.withOut
  rw [Tree.siftAll_append, Tree.siftAll_append, hstep.sift_out_eq, h.flush.sift_out_eq]

theorem wrap (kind : NodeKind) {step : State → State}
    (hstep : Alike ts us (step s) (step t)) :
  Alike ts us (s.wrap kind step) (t.wrap kind step)
  := by
  apply hstep.withOut
  rw [Tree.siftAll_cons_node, Tree.siftAll_cons_node, Tree.siftAll_reverse, Tree.siftAll_reverse,
    hstep.sift_out_eq]

theorem nextBalance_eq (h : Alike ts us s t) (opened : Nat) :
  s.nextBalance? opened = t.nextBalance? opened
  := by
  rw [nextBalance?, nextBalance?, h.look_eq]

theorem takeLevel (h : Alike ts us s t) (opened : Nat) :
  Alike ts us (s.takeLevel opened) (t.takeLevel opened)
  := by
  fun_induction State.takeLevel opened s generalizing t with
  | case1 opened s heq =>
    rw [h.nextBalance_eq] at heq
    rw [takeLevel_of_none heq]
    apply h
  | case2 opened s opened' heq ih =>
    rw [h.nextBalance_eq] at heq
    rw [takeLevel_of_some heq]
    apply ih h.take

theorem skipLevel (h : Alike ts us s t) :
  Alike ts us s.skipLevel t.skipLevel
  := by
  unfold State.skipLevel
  rw [h.nextBalance_eq]
  split
  · apply h
  · apply h.within .error (h.opened.takeLevel 0)

theorem advances_iff (h : Alike ts us s t) (h' : Alike ts us s' t') :
  s.Advances s' ↔ t.Advances t'
  := by
  rw [Advances, Advances, h.significant_eq, h'.significant_eq]

/-- If an item took nothing but trivia, and was rejected in the first list since there was
none, then there was none in the second list, because the lists agree on this. -/
theorem count_eq_of_rejected (h : Alike ts us s t) (h' : Alike ts us s' t')
    (hs : s'.ahead.tokens = s.flush.ahead.tokens) (ht : t'.ahead.tokens = t.flush.ahead.tokens)
    (hcount : s'.count = s.count) {f : Fault}
    (hf : f.offset = s'.offset + Token.totalWidth s'.ahead.trivia)
    (hspaced : f.SpacedAlike ts us) :
  t'.count = t.count
  := by
  have htrivia : s.ahead.trivia = [] := by
    have hlength := congrArg List.length (trivia_append_flush s)
    rw [List.length_append, ← hs, ← Input.count_eq, ← Input.count_eq] at hlength
    have hcount : s'.ahead.count = s.ahead.count := hcount
    apply List.eq_nil_of_length_eq_zero
    omega
  have hahead : s'.ahead.tokens = s.ahead.tokens := by
    rw [hs, ← trivia_append_flush s, htrivia, List.nil_append]
  obtain ⟨before, before', hat, hat', hsync⟩ := h.places
  obtain ⟨before'', -, hat'', -, -⟩ := h'.places
  have hflush : t.ahead.trivia = [] := by
    by_contra hne
    have hlast : Token.endInTrivia before = false := (hsync.resolve_left fun h => hne h.2).1
    have hsame : Token.endInTrivia before = Token.endInTrivia (before' ++ t.ahead.trivia) := by
      apply hspaced before s.ahead.tokens _ t.flush.ahead.tokens hat.tokens_eq
        hat'.flush.tokens_eq
      · rw [hf, hat.offset_congr hat'' hahead, Input.trivia, hahead, ← Input.trivia, htrivia,
          hat.offset_eq]
        rfl
      · apply Token.startInTrivia_dropWhile
      · have hsignificant := h.flush.significant_eq
        rw [significant_flush] at hsignificant
        apply hsignificant
    rw [hlast, Input.trivia, Token.endInTrivia_append_takeWhile hne] at hsame
    contradiction
  rw [count, count, Input.count_eq, Input.count_eq, ht, ← trivia_append_flush t, hflush]
  rfl

end Alike

/-- Wherever a fault that depends on trivia was noted in one of two lists, the lists have trivia
at the same places. -/
structure Spaced (ts us : List Token) (s t : State) : Prop where
  left : ∀ f ∈ s.faults, f.cause.countsTrivia = true → f.SpacedAlike ts us
  right : ∀ f ∈ t.faults, f.cause.countsTrivia = true → f.SpacedAlike us ts

theorem Spaced.mono (h : Spaced ts us s' t') (hs : s.faults <:+ s'.faults)
    (ht : t.faults <:+ t'.faults) :
  Spaced ts us s t
  where
  left f hf := h.left f (hs.subset hf)
  right f hf := h.right f (ht.subset hf)

/-- A loop that advances in every round keeps two lists in lockstep if its rounds do. -/
theorem Alike.repeatWhile {test : Lookahead → Bool} {step : State → State}
    (hlt : ∀ s : State, test s.look = true → (step s).count < s.count)
    (hfaults : ∀ s : State, s.faults <:+ (step s).faults)
    (hstep : ∀ {s t : State}, Alike ts us s t → Spaced ts us (step s) (step t) →
      Alike ts us (step s) (step t))
    (h : Alike ts us s t)
    (hspaced : Spaced ts us (s.repeatWhile test step) (t.repeatWhile test step)) :
  Alike ts us (s.repeatWhile test step) (t.repeatWhile test step)
  := by
  have hloop := kept_faults.repeatWhile test hfaults
  induction hn : s.count using Nat.strong_induction_on generalizing s t with
  | _ n ih =>
    by_cases htest : test s.look = true
    · have htest' : test t.look = true := by rw [← h.look_eq, htest]
      rw [repeatWhile_of_lt htest (hlt s htest), repeatWhile_of_lt htest' (hlt t htest')]
        at hspaced ⊢
      apply ih (step s).count _ _ hspaced rfl
      · rw [← hn]
        apply hlt s htest
      · apply hstep h (hspaced.mono (hloop _) (hloop _))
    · have htest' : ¬ test t.look = true := by rw [← h.look_eq]; apply htest
      rw [repeatWhile_of_false htest, repeatWhile_of_false htest']
      apply h

end State

namespace Rule

variable {σ : Type} {inner : σ → State → State}

/-- A rule advances, or takes no token at all. -/
def Still (inner : σ → State → State) (r : Rule σ) : Prop :=
  ∀ s, s.Advances (r.run inner s) ∨ (r.run inner s).count = s.count

/-- A rule advances, or takes the trivia at the front and nothing else. -/
def Flushes (inner : σ → State → State) (r : Rule σ) : Prop :=
  ∀ s, s.Advances (r.run inner s) ∨ (r.run inner s).ahead.tokens = s.flush.ahead.tokens

/-- The loops of a rule advance in every round, and trivia alone decides only about faults that
depend on it. -/
def Steady (inner : σ → State → State) : Rule σ → Prop
  | .seq first second => first.Steady inner ∧ second.Steady inner
  | .node _ body => body.Steady inner
  | .apart body => body.Steady inner
  | .wrap _ body => body.Steady inner
  | .branch _ yes no => yes.Steady inner ∧ no.Steady inner
  | .loop test body =>
    (∀ s : State, test s.look = true → s.Advances (body.run inner s)) ∧ body.Steady inner
  | .unlessTaken body other =>
    body.Steady inner ∧ other.Steady inner
      ∧ (body.Still inner
        ∨ body.Flushes inner ∧ ∃ cause, cause.countsTrivia = true ∧ other = reject cause)
  | _ => True

/-- Whether a rule has neither loops nor items that may be rejected. -/
def straight : Rule σ → Bool
  | .seq first second => first.straight && second.straight
  | .node _ body => body.straight
  | .apart body => body.straight
  | .wrap _ body => body.straight
  | .branch _ yes no => yes.straight && no.straight
  | .loop _ _ => false
  | .unlessTaken _ _ => false
  | _ => true

theorem steady_of_straight {r : Rule σ} (hr : r.straight = true) :
  r.Steady inner
  := by
  induction r with
  | pass => trivial
  | seq first second ih₁ ih₂ =>
    rw [straight, Bool.and_eq_true] at hr
    exact ⟨ih₁ hr.1, ih₂ hr.2⟩
  | take => trivial
  | report cause => trivial
  | node kind body ih => apply ih hr
  | apart body ih => apply ih hr
  | wrap kind body ih => apply ih hr
  | branch test yes no ih₁ ih₂ =>
    rw [straight, Bool.and_eq_true] at hr
    exact ⟨ih₁ hr.1, ih₂ hr.2⟩
  | loop test body ih => contradiction
  | unlessTaken body other ih₁ ih₂ => contradiction
  | nested symbol => trivial

/-- Items that advance or take nothing may be rejected. -/
theorem steady_orReject {item : Rule σ} (cause : Cause) (hitem : item.Steady inner)
    (hadvances : ∀ s : State, s.Advances (item.run inner s) ∨ item.run inner s = s) :
  (item.orReject cause).Steady inner
  := by
  refine ⟨hitem, steady_of_straight rfl, Or.inl ?_⟩
  intro s
  apply (hadvances s).imp_right (congrArg State.count)

section

variable (htakes : ∀ symbol s, State.Takes s (inner symbol s))

include htakes

theorem flushes_node (kind : NodeKind) (body : Rule σ) :
  (node kind body).Flushes inner
  := fun s => (State.kept_takes.run htakes body (s.flush.withOut [])).advances_or_ahead_eq

theorem flushes_apart (body : Rule σ) :
  (apart body).Flushes inner
  := fun s => (State.kept_takes.run htakes body (s.flush.withOut [])).advances_or_ahead_eq

theorem steady_commaSeparated {item : Rule σ} (closing : TokenKind)
    (hitem : item.Steady inner) :
  (commaSeparated closing item).Steady inner
  := by
  refine ⟨⟨hitem, ?_, trivial, hitem, trivial⟩, trivial⟩
  intro s hcomma
  apply advances_andThen htakes
  apply State.advances_take (Lookahead.first_ne_none_of_isAt hcomma)

end

section

variable {ts us : List Token} {s t : State}

open State

/-- A rejection notes its fault at the next token. -/
theorem mem_faults_reject (hfaults : ∀ symbol s, s.faults <:+ (inner symbol s).faults)
    (cause : Cause) (s : State) :
  ⟨cause, s.offset + Token.totalWidth s.ahead.trivia⟩ ∈ ((reject cause).run inner s).faults
  := by
  rw [reject, run_andThen]
  apply (kept_faults.run hfaults _ _).subset
  apply List.mem_cons_self

/-- If an item was rejected in the first list, it was in the second. -/
theorem count_eq_of_steady (htakes : ∀ symbol s, State.Takes s (inner symbol s))
    (hfaults : ∀ symbol s, s.faults <:+ (inner symbol s).faults) {body other : Rule σ}
    (hsteady : body.Still inner
      ∨ body.Flushes inner ∧ ∃ cause, cause.countsTrivia = true ∧ other = reject cause)
    (h : Alike ts us s t) (h' : Alike ts us (body.run inner s) (body.run inner t))
    (hcount : (body.run inner s).count = s.count)
    (hspaced : ∀ f ∈ (other.run inner (body.run inner s)).faults, f.cause.countsTrivia = true →
      f.SpacedAlike ts us) :
  (body.run inner t).count = t.count
  := by
  have hstays : ¬ t.Advances (body.run inner t) := by
    rw [← h.advances_iff h']
    intro hadvances
    have := (kept_takes.run htakes body s).count_lt hadvances
    omega
  rcases hsteady with hstill | ⟨hflushes, cause, hcause, rfl⟩
  · apply (hstill t).resolve_left hstays
  · have hs := (hflushes s).resolve_left ((h.advances_iff h').not.mpr hstays)
    have ht := (hflushes t).resolve_left hstays
    have hmem := mem_faults_reject hfaults cause (body.run inner s)
    apply h.count_eq_of_rejected h' hs ht hcount rfl (hspaced _ hmem hcause)

/-- A steady rule keeps two lists in lockstep, if the symbols do. -/
theorem alike_run (htakes : ∀ symbol s, State.Takes s (inner symbol s))
    (hfaults : ∀ symbol s, s.faults <:+ (inner symbol s).faults)
    (hinner : ∀ {symbol s t}, Alike ts us s t → Spaced ts us (inner symbol s) (inner symbol t) →
      Alike ts us (inner symbol s) (inner symbol t))
    {r : Rule σ} (hr : r.Steady inner) {s t : State} (h : Alike ts us s t)
    (hspaced : Spaced ts us (r.run inner s) (r.run inner t)) :
  Alike ts us (r.run inner s) (r.run inner t)
  := by
  have hrun := kept_faults.run hfaults
  induction r generalizing s t with
  | pass => apply h
  | seq first second ih₁ ih₂ =>
    have hfirst := ih₁ hr.1 h (hspaced.mono (hrun second _) (hrun second _))
    apply ih₂ hr.2 hfirst hspaced
  | take => apply h.take
  | report cause => apply h.report
  | node kind body ih => apply h.within kind (ih hr h.opened ⟨hspaced.left, hspaced.right⟩)
  | apart body ih => apply h.apart (ih hr h.opened ⟨hspaced.left, hspaced.right⟩)
  | wrap kind body ih => apply Alike.wrap kind (ih hr h ⟨hspaced.left, hspaced.right⟩)
  | branch test yes no ih₁ ih₂ =>
    simp only [run, ← h.look_eq] at hspaced ⊢
    split
    · next htest =>
      rw [if_pos htest, if_pos htest] at hspaced
      apply ih₁ hr.1 h hspaced
    · next htest =>
      rw [if_neg htest, if_neg htest] at hspaced
      apply ih₂ hr.2 h hspaced
  | loop test body ih =>
    obtain ⟨hadvances, hbody⟩ := hr
    have hlt : ∀ s : State, test s.look = true → (body.run inner s).count < s.count := by
      intro s htest
      apply (kept_takes.run htakes body s).count_lt (hadvances s htest)
    apply h.repeatWhile hlt (hrun body) (ih hbody) hspaced
  | unlessTaken body other ih₁ ih₂ =>
    obtain ⟨hbody, hother, hsteady⟩ := hr
    have hnext : ∀ s : State, (body.run inner s).faults
        <:+ ((unlessTaken body other).run inner s).faults := by
      intro s
      simp only [run, State.unlessTaken]
      split
      · apply hrun other
      · apply List.suffix_rfl
    have h' := ih₁ hbody h (hspaced.mono (hnext s) (hnext t))
    simp only [run, State.unlessTaken] at hspaced ⊢
    by_cases hs : (body.run inner s).count = s.count
    · rw [if_pos hs] at hspaced ⊢
      have ht := count_eq_of_steady htakes hfaults hsteady h h' hs hspaced.left
      rw [if_pos ht] at hspaced ⊢
      apply ih₂ hother h' hspaced
    · have ht : (body.run inner t).count ≠ t.count := by
        intro ht
        rw [if_pos ht] at hspaced
        apply hs (count_eq_of_steady htakes hfaults hsteady h.symm h'.symm ht hspaced.right)
      rw [if_neg hs, if_neg ht]
      apply h'
  | nested symbol => apply hinner h hspaced

end

end Rule

/-- Reading a construct keeps two lists in lockstep, if all rules are steady. -/
theorem Grammar.alike_read {σ : Type} {g : Grammar σ}
    (hg : ∀ levels symbol, (g symbol).Steady (g.read levels)) (levels : Nat) {ts us : List Token}
    {symbol : σ} {s t : State} (h : State.Alike ts us s t)
    (hspaced : State.Spaced ts us (g.read levels symbol s) (g.read levels symbol t)) :
  State.Alike ts us (g.read levels symbol s) (g.read levels symbol t)
  := by
  induction levels generalizing symbol s t with
  | zero => apply (h.report _).skipLevel
  | succ levels ih =>
    apply Rule.alike_run (State.kept_takes.read g levels) (State.kept_faults.read g levels) ih
      (hg levels symbol) h hspaced

end InlayHints

import InlayHints.Proofs.Grammar.Extension
import InlayHints.Proofs.Grammar.Shape

/-!
# The ends of groups

Trivia comes into a group together with the token after it, or when a group inside it is opened.
So a group ends with a significant token, it is `State.Sealed`, if whatever is opened in it takes
a token.  Without faults this is so: `Rule.seals` tells from a rule, and from what its tests say
of the tokens ahead, that it ends by taking a token, or else does nothing at all, and
`Rule.sealed_run` and `Grammar.sealed_read` carry it to all nodes that are read.
-/

namespace InlayHints

/-- There is a last token, and it is not trivia. -/
def Token.EndsSignificant (ts : List Token) : Prop := ∃ t ∈ ts.getLast?, t.isTrivia = false

theorem Token.EndsSignificant.append_left {us : List Token} (h : EndsSignificant us)
    (ts : List Token) :
  EndsSignificant (ts ++ us)
  := by
  obtain ⟨t, ht, htrivia⟩ := h
  use t
  rw [List.getLast?_append, Option.mem_def.mp ht]
  exact ⟨rfl, htrivia⟩

/-- The trees in a list end with a significant token. -/
def Tree.EndsSignificant (_ : NodeKind) (cs : List Tree) : Prop :=
  Token.EndsSignificant (cs.flatMap tokens)

namespace State

variable {s t : State}

/-- The innermost group ends with a significant token. -/
def Sealed (s : State) : Prop := Token.EndsSignificant s.taken

/-- Taking a token that is there seals the group. -/
theorem sealed_take (h : s.significant ≠ []) :
  s.take.Sealed
  := by
  rw [Sealed, take, shift]
  split
  · next heq =>
    have hdrop : s.ahead.tokens.dropWhile Token.isTrivia = [] := heq
    rw [significant, ← Token.significant_dropWhile, hdrop] at h
    contradiction
  · next t ts heq =>
    have hdrop : s.ahead.tokens.dropWhile Token.isTrivia = t :: ts := heq
    use t
    constructor
    · simp [taken]
    · apply Token.isTrivia_of_dropWhile hdrop

/-- A node or a group that ends with a significant token seals the group around it. -/
theorem Sealed.group (h : t.Sealed) {out : List Tree}
    (hout : out.reverse.flatMap Tree.tokens = s.flush.taken ++ t.taken) :
  (t.withOut out).Sealed
  := by
  rw [Sealed, taken_withOut, hout]
  apply Token.EndsSignificant.append_left h

end State

/-! ### What may be ahead -/

namespace Lookahead

/-- What may be ahead after the next token, from what may be ahead before it. -/
def afterTake (may : Lookahead → Bool) (a : Lookahead) : Bool :=
  may ⟨none, none⟩ || TokenKind.all.any fun k => may ⟨some k, a.first⟩

theorem afterTake_look {may : Lookahead → Bool} {s : State} (h : may s.look = true) :
  afterTake may s.take.look = true
  := by
  rw [State.look_eq] at h ⊢
  rw [State.significant_take, afterTake, Bool.or_eq_true]
  cases hs : s.significant with
  | nil =>
    rw [hs] at h
    apply Or.inl h
  | cons t ts =>
    apply Or.inr
    rw [hs] at h
    have hfirst : (ofTokens (t :: ts).tail).first = (ofTokens (t :: ts)).second := by
      cases ts with
      | nil => rfl
      | cons u us => rfl
    rw [hfirst]
    apply List.any_eq_true.mpr ⟨t.kind, TokenKind.mem_all t.kind, h⟩

/-- If the end of the text may not be ahead, then there is a token. -/
theorem significant_ne_nil {may : Lookahead → Bool} {s : State} (h : may s.look = true)
    (hend : may ⟨none, none⟩ = false) :
  s.significant ≠ []
  := by
  intro hnil
  rw [State.look_eq, hnil] at h
  apply Bool.false_ne_true (hend.symm.trans h)

end Lookahead

/-! ### Rules that end by taking a token -/

namespace Rule

variable {σ : Type} {inner : σ → State → State} {may : Lookahead → Bool}

/-- What may be ahead after a rule, from what may be ahead before it. -/
def leaves (may : Lookahead → Bool) : Rule σ → Lookahead → Bool
  | .take => Lookahead.afterTake may
  | _ => fun _ => true

/-- Whether a rule ends by taking a token whenever it finds no fault, and so does every node in
it.  If `idle` is true, it may do nothing instead. -/
def seals (idle : Bool) (may : Lookahead → Bool) : Rule σ → Bool
  | .pass => idle
  | .seq first second =>
    first.seals true may && second.seals false (first.leaves may)
      || first.seals idle may && second.seals true (first.leaves may)
  | .take => !may ⟨none, none⟩
  | .report _ => true
  | .node _ body => body.seals false may
  | .apart body => body.seals false may
  | .wrap _ body => body.seals false may
  | .branch test yes no =>
    yes.seals idle (fun a => may a && test a) && no.seals idle fun a => may a && !test a
  | .loop test body => idle && body.seals true test
  | .unlessTaken body other => body.seals true may && other.alwaysFaults
  | .nested _ => true

theorem leaves_look {s : State} (h : may s.look = true) (r : Rule σ) :
  r.leaves may (r.run inner s).look = true
  := by
  cases r with
  | take => apply Lookahead.afterTake_look h
  | _ => rfl

/-- From one state to another all nodes are sealed, and so is the innermost group, unless nothing
was done and this is allowed. -/
structure Seals (idle : Bool) (s t : State) : Prop where
  shaped : t.Shaped Tree.EndsSignificant
  rests : idle = true ∧ t = s ∨ t.Sealed

theorem Seals.isSealed {s t : State} (h : Seals false s t) :
  t.Sealed
  := h.rests.resolve_left nofun

/-- Where nothing was done, all is as it was before. -/
theorem Seals.trans {idle : Bool} {s t u : State} (h : Seals idle s t) (h' : Seals true t u) :
  Seals idle s u
  where
  shaped := h'.shaped
  rests := by
    rcases h'.rests with ⟨-, rfl⟩ | hsealed
    · apply h.rests
    · apply Or.inr hsealed

section

variable (hfaults : ∀ symbol s, s.faults <:+ (inner symbol s).faults)
variable (hinner : ∀ symbol s, (inner symbol s).faults = s.faults →
  s.Shaped Tree.EndsSignificant → Seals false s (inner symbol s))

include hfaults hinner

/-- A rule that ends by taking a token seals what it reads without faults, if the symbols do. -/
theorem sealed_run {r : Rule σ} {idle : Bool} (hr : r.seals idle may = true) {s : State}
    (hmay : may s.look = true) (h : (r.run inner s).faults = s.faults)
    (hs : s.Shaped Tree.EndsSignificant) :
  Seals idle s (r.run inner s)
  := by
  induction r generalizing idle may s with
  | pass => exact ⟨hs, Or.inl ⟨hr, rfl⟩⟩
  | seq first second ih₁ ih₂ =>
    obtain ⟨h₁, h₂⟩ := State.faults_eq_of_suffix (State.kept_faults.run hfaults first s)
      (State.kept_faults.run hfaults second _) h
    have hleaves : first.leaves may (first.run inner s).look = true := leaves_look hmay first
    simp only [seals, Bool.or_eq_true, Bool.and_eq_true] at hr
    -- the last token is taken by the second rule, or by the first if the second does nothing
    rcases hr with ⟨hr₁, hr₂⟩ | ⟨hr₁, hr₂⟩
    · have hfirst := ih₁ hr₁ hmay h₁ hs
      have hsecond := ih₂ hr₂ hleaves h₂ hfirst.shaped
      exact ⟨hsecond.shaped, Or.inr hsecond.isSealed⟩
    · have hfirst := ih₁ hr₁ hmay h₁ hs
      apply hfirst.trans (ih₂ hr₂ hleaves h₂ hfirst.shaped)
  | take =>
    use hs.take
    apply Or.inr
    apply State.sealed_take
    apply Lookahead.significant_ne_nil hmay ((Bool.not_eq_true' _).mp hr)
  | report cause => simp [run, State.report] at h
  | node kind body ih =>
    rw [← State.look_flush, ← State.look_withOut s.flush []] at hmay
    have hbody := ih hr hmay h (State.shaped_opened _)
    constructor
    · apply hs.within hbody.shaped hbody.isSealed
    · apply Or.inr
      apply hbody.isSealed.group (s := s)
      simp [State.taken]
  | apart body ih =>
    rw [← State.look_flush, ← State.look_withOut s.flush []] at hmay
    have hbody := ih hr hmay h (State.shaped_opened _)
    constructor
    · apply hs.apart hbody.shaped
    · apply Or.inr
      apply hbody.isSealed.group (s := s)
      simp [State.taken]
  | wrap kind body ih =>
    have hbody := ih hr hmay h hs
    constructor
    · apply State.Shaped.wrap hbody.shaped hbody.isSealed
    · apply Or.inr
      have htaken : ((wrap kind body).run inner s).taken = (body.run inner s).taken := by
        simp [run, State.wrap, State.taken, State.withOut]
      rw [State.Sealed, htaken]
      apply hbody.isSealed
  | branch test yes no ih₁ ih₂ =>
    rw [seals, Bool.and_eq_true] at hr
    cases htest : test s.look with
    | true =>
      rw [run_branch_true htest] at h ⊢
      apply ih₁ hr.1 _ h hs
      rw [hmay, htest]
      rfl
    | false =>
      rw [run_branch_false htest] at h ⊢
      apply ih₂ hr.2 _ h hs
      rw [hmay, htest]
      rfl
  | loop test body ih =>
    rw [seals, Bool.and_eq_true] at hr
    obtain ⟨rfl, hr⟩ := hr
    clear hmay
    simp only [run] at h ⊢
    fun_induction State.repeatWhile test (body.run inner) s with
    | case1 s htest next hlt ih' =>
      obtain ⟨h₁, h₂⟩ := State.faults_eq_of_suffix (State.kept_faults.run hfaults body s)
        (State.kept_faults.repeatWhile test (State.kept_faults.run hfaults body) next) h
      have hfirst := ih hr htest h₁ hs
      apply hfirst.trans (ih' h₂ hfirst.shaped)
    | case2 s htest next hlt => apply ih hr htest h hs
    | case3 s htest => exact ⟨hs, Or.inl ⟨rfl, rfl⟩⟩
  | unlessTaken body other ih₁ ih₂ =>
    rw [seals, Bool.and_eq_true] at hr
    simp only [run, State.unlessTaken] at h ⊢
    split at h
    · -- what follows would note a fault
      obtain ⟨-, h₂⟩ := State.faults_eq_of_suffix (State.kept_faults.run hfaults body s)
        (State.kept_faults.run hfaults other _) h
      apply absurd h₂ (faults_ne hfaults hr.2 _)
    · next hcount =>
      rw [if_neg hcount]
      have hbody := ih₁ hr.1 hmay h hs
      use hbody.shaped
      apply Or.inr
      apply hbody.rests.resolve_left
      rintro ⟨-, heq⟩
      apply hcount (congrArg State.count heq)
  | nested symbol =>
    have hsymbol := hinner symbol s h hs
    exact ⟨hsymbol.shaped, Or.inr hsymbol.isSealed⟩

end

end Rule

/-- Constructs that are read without faults are sealed if their rules end by taking tokens. -/
theorem Grammar.sealed_read {σ : Type} {g : Grammar σ}
    (hg : ∀ symbol, (g symbol).seals false (fun _ => true) = true) (levels : Nat) (symbol : σ)
    (s : State) (h : (g.read levels symbol s).faults = s.faults)
    (hs : s.Shaped Tree.EndsSignificant) :
  Rule.Seals false s (g.read levels symbol s)
  := by
  induction levels generalizing symbol s with
  | zero => apply absurd h (faults_read_zero g symbol s)
  | succ levels ih =>
    apply Rule.sealed_run (State.kept_faults.read g levels) ih (hg symbol) rfl h hs

end InlayHints

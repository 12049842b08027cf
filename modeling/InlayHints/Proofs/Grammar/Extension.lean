import InlayHints.Proofs.Grammar.Faultless

/-!
# Reading does not look past its end

What was read without faults is read in the same way if more tokens follow, as long as the rule
cannot go on by them.  A rule that `Rule.closes` ends in a token it requires; any other rule
stays the same only if it stops before the last token.  Tests look two tokens ahead, so the
second of them may be a new one: they have to be `Lookahead.settles`, that is, to make nothing of
what follows the tokens a text may end with.

`Grammar.Reads` is the meaning of the symbols without faults, by levels like `Grammar.read`; so
what follows does not make the nesting too deep either.
-/

namespace InlayHints

open Relation

theorem TokenKind.mem_all (k : TokenKind) :
  k ∈ all
  := by
  cases k <;> decide

/-- Whether a test makes nothing of the second token if the first is of one of the given kinds. -/
def Lookahead.settles (ks : List TokenKind) (test : Lookahead → Bool) : Bool :=
  ks.all fun k => TokenKind.all.all fun j => test ⟨some k, some j⟩ == test ⟨some k, none⟩

theorem Lookahead.settles_iff {ks : List TokenKind} {test : Lookahead → Bool} :
  settles ks test = true ↔ ∀ k ∈ ks, ∀ second, test ⟨some k, second⟩ = test ⟨some k, none⟩
  := by
  simp only [settles, List.all_eq_true, beq_iff_eq]
  constructor
  · intro h k hk second
    cases second with
    | none => rfl
    | some j => apply h k hk j (TokenKind.mem_all j)
  · intro h k hk j _
    apply h k hk

namespace Bare

variable {ks : List TokenKind} {b c : Bare} {more : List Token}

/-- The bare state with more tokens after those ahead. -/
def extend (b : Bare) (more : List Token) : Bare := ⟨b.ahead ++ more, b.out⟩

/-- The last token ahead is of one of the given kinds. -/
def EndsIn (ks : List TokenKind) (b : Bare) : Prop := ∀ t ∈ b.ahead.getLast?, t.kind ∈ ks

theorem EndsIn.suffix (hb : b.EndsIn ks) (h : c.ahead <:+ b.ahead) :
  c.EndsIn ks
  := by
  obtain ⟨taken, htaken⟩ := h
  intro t ht
  apply hb t
  rw [← htaken, List.getLast?_append, Option.mem_def.mp ht]
  rfl

theorem take_extend (hb : b.ahead ≠ []) :
  (b.extend more).take = b.take.extend more
  := by
  obtain ⟨ahead, out⟩ := b
  cases ahead with
  | nil => contradiction
  | cons t ts => rfl

/-- A settled test does not see the new tokens. -/
theorem test_extend {test : Lookahead → Bool} (htest : Lookahead.settles ks test = true)
    (hb : b.ahead ≠ []) (hends : b.EndsIn ks) :
  test (b.extend more).look = test b.look
  := by
  obtain ⟨ahead, out⟩ := b
  match ahead with
  | [] => contradiction
  | [t] =>
    have ht : t.kind ∈ ks := hends t rfl
    apply Lookahead.settles_iff.mp htest _ ht
  | t :: u :: us => rfl

end Bare

namespace Rule

variable {σ : Type} {R : σ → Bare → Bare → Prop} {ks : List TokenKind} {closed : σ → Bool}
variable {more : List Token}

/-- Whether all tests that a rule makes without a fault are settled. -/
def settled (ks : List TokenKind) : Rule σ → Bool
  | .seq first second => first.settled ks && second.settled ks
  | .node _ body => body.settled ks
  | .apart body => body.settled ks
  | .wrap _ body => body.settled ks
  | .branch test yes no => Lookahead.settles ks test && yes.settled ks && no.settled ks
  | .loop test body => Lookahead.settles ks test && body.settled ks
  | .unlessTaken body _ => body.settled ks
  | _ => true

/-- Whether a rule ends in tokens that it requires, if the closed symbols do. -/
def closes (closed : σ → Bool) : Rule σ → Bool
  | .seq _ second => second.closes closed && second.takes false
  | .node _ body => body.closes closed
  | .apart body => body.closes closed
  | .wrap _ body => body.closes closed
  | .branch _ yes no => yes.closes closed && no.closes closed
  | .loop _ _ => false
  | .unlessTaken body _ => body.closes closed
  | .nested symbol => closed symbol
  | _ => true

/-- Reading without faults takes tokens from the front. -/
theorem Reads.suffix (hR : ∀ {symbol b c}, R symbol b c → c.ahead <:+ b.ahead) {r : Rule σ}
    {b c : Bare} (h : r.Reads R b c) :
  c.ahead <:+ b.ahead
  := by
  induction r generalizing b c with
  | pass =>
    obtain rfl : c = b := h
    apply List.suffix_rfl
  | seq first second ih₁ ih₂ =>
    obtain ⟨d, h₁, h₂⟩ := h
    apply (ih₂ h₂).trans (ih₁ h₁)
  | take =>
    rw [h, Bare.take]
    split
    · apply List.suffix_rfl
    · next heq =>
      rw [heq]
      apply List.suffix_cons
  | report cause => apply h.elim
  | node kind body ih =>
    obtain ⟨d, h, rfl⟩ := h
    apply ih h
  | apart body ih =>
    obtain ⟨d, h, rfl⟩ := h
    apply ih h
  | wrap kind body ih =>
    obtain ⟨d, h, rfl⟩ := h
    apply ih h
  | branch test yes no ih₁ ih₂ =>
    simp only [Reads] at h
    split at h
    · apply ih₁ h
    · apply ih₂ h
  | loop test body ih =>
    obtain ⟨h, -⟩ := h
    induction h with
    | refl => apply List.suffix_rfl
    | tail _ hstep ih' => apply (ih hstep.2).trans ih'
  | unlessTaken body other ih₁ ih₂ => apply ih₁ h.1
  | nested symbol => apply hR h

section

variable (hlt : ∀ {symbol b c}, R symbol b c → c.ahead.length < b.ahead.length)
variable (hsuffix : ∀ {symbol b c}, R symbol b c → c.ahead <:+ b.ahead)

include hlt

/-- A token is ahead before a rule that takes one, and before any rule that leaves one. -/
theorem Reads.ahead_ne_nil {r : Rule σ} {b c : Bare} (h : r.Reads R b c)
    (hc : r.takes false = true ∨ c.ahead ≠ []) :
  b.ahead ≠ []
  := by
  rw [← List.length_pos_iff]
  rcases hc with htakes | hc
  · have := h.length_lt hlt htakes nofun
    omega
  · have := h.length_le hlt
    have := List.length_pos_iff.mpr hc
    omega

include hsuffix

/-- What a settled rule reads without faults, it reads in the same way if more tokens follow,
if it closes or leaves a token. -/
theorem Reads.extend
    (hR : ∀ {symbol b c}, R symbol b c → b.EndsIn ks → closed symbol = true ∨ c.ahead ≠ [] →
      R symbol (b.extend more) (c.extend more))
    {r : Rule σ} (hr : r.settled ks = true) {b c : Bare} (h : r.Reads R b c) (hb : b.ahead ≠ [])
    (hends : b.EndsIn ks) (hc : r.closes closed = true ∨ c.ahead ≠ []) :
  r.Reads R (b.extend more) (c.extend more)
  := by
  induction r generalizing b c with
  | pass =>
    rw [h]
    rfl
  | seq first second ih₁ ih₂ =>
    rw [settled, Bool.and_eq_true] at hr
    obtain ⟨d, h₁, h₂⟩ := h
    rw [closes, Bool.and_eq_true] at hc
    have hd : d.ahead ≠ [] := h₂.ahead_ne_nil hlt (hc.imp_left And.right)
    use d.extend more, ih₁ hr.1 h₁ hb hends (Or.inr hd)
    apply ih₂ hr.2 h₂ hd (hends.suffix (h₁.suffix hsuffix)) (hc.imp_left And.left)
  | take =>
    rw [h]
    apply (Bare.take_extend hb).symm
  | report cause => apply h.elim
  | node kind body ih =>
    obtain ⟨d, h, rfl⟩ := h
    use d.extend more, ih hr (b := b.opened) h hb hends hc
    rfl
  | apart body ih =>
    obtain ⟨d, h, rfl⟩ := h
    use d.extend more, ih hr (b := b.opened) h hb hends hc
    rfl
  | wrap kind body ih =>
    obtain ⟨d, h, rfl⟩ := h
    use d.extend more, ih hr h hb hends hc
    rfl
  | branch test yes no ih₁ ih₂ =>
    simp only [settled, closes, Bool.and_eq_true] at hr hc
    simp only [Reads] at h ⊢
    rw [Bare.test_extend hr.1.1 hb hends]
    split at h
    · next htest =>
      rw [if_pos htest]
      apply ih₁ hr.1.2 h hb hends (hc.imp_left And.left)
    · next htest =>
      rw [if_neg htest]
      apply ih₂ hr.2 h hb hends (hc.imp_left And.right)
  | loop test body ih =>
    -- a loop does not close, so a token is left after it and after all its rounds
    rw [settled, Bool.and_eq_true] at hr
    have hc : c.ahead ≠ [] := hc.resolve_left Bool.false_ne_true
    obtain ⟨hsteps, hstop⟩ := h
    induction hsteps using ReflTransGen.head_induction_on with
    | refl =>
      use ReflTransGen.refl
      rw [Bare.test_extend hr.1 hc hends, hstop]
    | @head b d hstep hrest ih' =>
      obtain ⟨htest, hround⟩ := hstep
      have hloop : (loop test body).Reads R d c := ⟨hrest, hstop⟩
      have hd : d.ahead ≠ [] := hloop.ahead_ne_nil hlt (Or.inr hc)
      obtain ⟨hsteps, hstop⟩ := ih' hd (hends.suffix (hround.suffix hsuffix))
      use ReflTransGen.head ⟨?_, ih hr.2 hround hb hends (Or.inr hd)⟩ hsteps
      rw [Bare.test_extend hr.1 hb hends, htest]
  | unlessTaken body other ih₁ ih₂ =>
    obtain ⟨h, hlength⟩ := h
    use ih₁ hr h hb hends hc
    simp only [Bare.extend, List.length_append]
    omega
  | nested symbol => apply hR h hends hc

end

end Rule

namespace Grammar

variable {σ : Type}

/-- What reading a construct without faults does to bare states, if the construct may nest
`levels` deep. -/
def Reads (g : Grammar σ) : Nat → σ → Bare → Bare → Prop
  | 0, _ => fun _ _ => False
  | levels + 1, symbol => (g symbol).Reads (g.Reads levels)

theorem Reads.suffix {g : Grammar σ} {levels : Nat} {symbol : σ} {b c : Bare}
    (h : g.Reads levels symbol b c) :
  c.ahead <:+ b.ahead
  := by
  induction levels generalizing symbol b c with
  | zero => apply h.elim
  | succ levels ih => apply Rule.Reads.suffix ih h

theorem rightUnique_reads (g : Grammar σ) (levels : Nat) (symbol : σ) :
  Relator.RightUnique (g.Reads levels symbol)
  := by
  induction levels generalizing symbol with
  | zero => exact fun _ _ _ h _ => h.elim
  | succ levels ih => apply Rule.rightUnique_reads ih

/-- The rules of a grammar take tokens, and its closed symbols do not look past their ends, in
texts that end in the given kinds of token. -/
structure Delimited (g : Grammar σ) (ks : List TokenKind) (closed : σ → Bool) : Prop where
  takes : ∀ symbol, (g symbol).takes false = true
  productive : ∀ symbol, (g symbol).productive = true
  settled : ∀ symbol, (g symbol).settled ks = true
  closes : ∀ symbol, closed symbol = true → (g symbol).closes closed = true

namespace Delimited

variable {g : Grammar σ} {ks : List TokenKind} {closed : σ → Bool} {levels : Nat} {symbol : σ}
variable {b c : Bare} {more : List Token} {s : State}

theorem length_lt (hg : g.Delimited ks closed) (h : g.Reads levels symbol b c) :
  c.ahead.length < b.ahead.length
  := by
  induction levels generalizing symbol b c with
  | zero => apply h.elim
  | succ levels ih => apply Rule.Reads.length_lt ih (hg.takes symbol) nofun h

/-! ### Reading by levels -/

/-- A construct that is read without faults is read as the relation describes it. -/
theorem reads_of_read (hg : g.Delimited ks closed)
    (h : (g.read levels symbol s).faults = s.faults) :
  g.Reads levels symbol s.bare (g.read levels symbol s).bare
  := by
  induction levels generalizing symbol s with
  | zero => apply absurd h (faults_read_zero g symbol s)
  | succ levels ih =>
    apply Rule.reads_of_run (State.kept_faults.read g levels) (State.kept_takes.read g levels)
      hg.length_lt ih (hg.productive symbol) h

/-- A rule is read as the relation describes it, without a fault, if the symbols are. -/
theorem run_of_reads (hg : g.Delimited ks closed)
    (hread : ∀ {symbol s c}, g.Reads levels symbol s.bare c →
      (g.read levels symbol s).bare = c ∧ (g.read levels symbol s).faults = s.faults)
    {r : Rule σ} (hr : r.productive = true) (h : r.Reads (g.Reads levels) s.bare c) :
  (r.run (g.read levels) s).bare = c ∧ (r.run (g.read levels) s).faults = s.faults
  := by
  have harrives := Rule.run_of_reads_unless (D := fun _ => False) (fun h _ => h)
    (State.kept_faults.read g levels) (State.kept_takes.read g levels) hg.length_lt
    (fun h => Or.inr (hread h)) hr h
  apply harrives.resolve_left not_false

/-- A construct is read as the relation describes it, without a fault. -/
theorem read_of_reads (hg : g.Delimited ks closed) (h : g.Reads levels symbol s.bare c) :
  (g.read levels symbol s).bare = c ∧ (g.read levels symbol s).faults = s.faults
  := by
  induction levels generalizing symbol s c with
  | zero => apply h.elim
  | succ levels ih => apply hg.run_of_reads ih (hg.productive symbol) h

/-! ### More tokens -/

/-- What is read without faults is read in the same way if more tokens follow, at the same
levels. -/
theorem extend (hg : g.Delimited ks closed) (h : g.Reads levels symbol b c)
    (hends : b.EndsIn ks) (hc : closed symbol = true ∨ c.ahead ≠ []) :
  g.Reads levels symbol (b.extend more) (c.extend more)
  := by
  induction levels generalizing symbol b c with
  | zero => apply h.elim
  | succ levels ih =>
    have hb := Rule.Reads.ahead_ne_nil hg.length_lt h (Or.inl (hg.takes symbol))
    apply Rule.Reads.extend (R := g.Reads levels) hg.length_lt Reads.suffix ih
      (hg.settled symbol) h hb hends
    apply hc.imp_left (hg.closes symbol)

section

variable {test : Lookahead → Bool} {item : Rule σ}
variable (hg : g.Delimited ks closed) (hloop : (Rule.loop test item).productive = true)
variable (hsettled : (Rule.loop test item).settled ks = true) (hitem : item.closes closed = true)

include hg hloop hsettled hitem

/-- If the items of a list close, and one of them is read without faults, then it is read in the
same way if more tokens follow, and the list goes on after it. -/
theorem run_round {d : Bare} (htest : test b.look = true)
    (hround : item.Reads (g.Reads levels) b d) (hends : b.EndsIn ks)
    (hs : s.bare = b.extend more) :
  (Rule.loop test item).run (g.read levels) s
      = (Rule.loop test item).run (g.read levels) (item.run (g.read levels) s)
    ∧ (item.run (g.read levels) s).bare = d.extend more
    ∧ (item.run (g.read levels) s).faults = s.faults
  := by
  simp only [Rule.productive, Rule.settled, Bool.and_eq_true, Bool.not_eq_true'] at hloop hsettled
  obtain ⟨⟨hend, htakes⟩, hproductive⟩ := hloop
  have hb : b.ahead ≠ [] := by
    intro hnil
    rw [Bare.look, hnil, Lookahead.ofTokens, hend] at htest
    contradiction
  have htest' : test s.look = true := by
    rw [← State.look_bare, hs, Bare.test_extend hsettled.1 hb hends, htest]
  have hround' : item.Reads (g.Reads levels) s.bare (d.extend more) := by
    rw [hs]
    apply Rule.Reads.extend (R := g.Reads levels) hg.length_lt Reads.suffix hg.extend hsettled.2
      hround hb hends (Or.inl hitem)
  obtain ⟨hbare, hfaults⟩ := hg.run_of_reads hg.read_of_reads hproductive hround'
  have hcount : (item.run (g.read levels) s).count < s.count := by
    apply (State.kept_takes.run (State.kept_takes.read g levels) item s).count_lt
    rw [hbare]
    apply hround'.length_lt hg.length_lt htakes fun _ => State.bare_ahead_ne_nil htest' hend
  exact ⟨State.repeatWhile_of_lt htest' hcount, hbare, hfaults⟩

/-- If the items of a list close, and the list is read without faults, then it is read up to the
same place if more tokens follow. -/
theorem exists_run_loop (h : (Rule.loop test item).Reads (g.Reads levels) b c)
    (hends : b.EndsIn ks) (hs : s.bare = b.extend more) :
  ∃ t, (Rule.loop test item).run (g.read levels) s = (Rule.loop test item).run (g.read levels) t
    ∧ t.bare = c.extend more ∧ t.faults = s.faults
    ∧ ∀ {P : State → State → Prop}, State.Kept P → P s t
  := by
  obtain ⟨hsteps, -⟩ := h
  induction hsteps using ReflTransGen.head_induction_on generalizing s with
  | refl => exact ⟨s, rfl, hs, rfl, fun hP => hP.refl s⟩
  | head hstep _ ih =>
    obtain ⟨htest, hround⟩ := hstep
    obtain ⟨hrun, hbare, hfaults⟩ := hg.run_round hloop hsettled hitem htest hround hends hs
    obtain ⟨t, hrest, htbare, htfaults, hkept⟩ :=
      ih (hends.suffix (hround.suffix Reads.suffix)) hbare
    refine ⟨t, hrun.trans hrest, htbare, htfaults.trans hfaults, ?_⟩
    intro P hP
    apply hP.trans (hP.run (hP.read g levels) item s) (hkept hP)

end

end Delimited

end Grammar

end InlayHints

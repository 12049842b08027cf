import Mathlib.Tactic.Use
import InlayHints.Proofs.Grammar.Progress
import InlayHints.Proofs.Grammar.Reader

/-!
# What reading costs

`Reader.Costs` says that one reader comes to another and bounds the steps on the way: every token
that is taken pays for the same number of steps, and some steps are free.  Where a token pays for
more steps than are made, the number of free steps is negative, and what is left over pays for the
steps around it.  Free steps add up when one thing is done after the other.

`Rule.Costs` says this of a rule, for given meanings of the symbols, and so it says in particular
that a reader does what the rule means.  There is one lemma for each way to build rules.  A
repetition costs nothing but its last test if every round of it pays for itself (`Rule.Settles`),
and then the free steps of a rule are those that can be read off the rule (`Rule.costs_of_settles`);
if the rule takes a token first, that token pays for them (`Rule.Pays`).
-/

namespace InlayHints

variable {σ : Type}

namespace Reader

/-- One reader comes to another, every token taken on the way pays for `price` steps, and `free`
more are free. -/
def Costs (g : Grammar σ) (limit price : Nat) (free : Int) (c d : Reader σ) : Prop :=
  ∃ n : Nat, n + price * (d.state.count : Int) ≤ free + price * (c.state.count : Int)
    ∧ c.after g limit n = d

variable {g : Grammar σ} {limit price : Nat} {free free' : Int} {c d e : Reader σ}

theorem Costs.reaches (h : Costs g limit price free c d) :
  c.Reaches g limit d
  := by
  obtain ⟨n, -, hn⟩ := h
  exact ⟨n, hn⟩

theorem Costs.trans (h : Costs g limit price free c d) (h' : Costs g limit price free' d e) :
  Costs g limit price (free + free') c e
  := by
  obtain ⟨m, hm, rfl⟩ := h
  obtain ⟨n, hn, rfl⟩ := h'
  use m + n
  constructor
  · omega
  · apply after_add

theorem Costs.mono (h : Costs g limit price free c d) (hfree : free ≤ free') :
  Costs g limit price free' c d
  := by
  obtain ⟨n, hn, hd⟩ := h
  exact ⟨n, by omega, hd⟩

/-- One step is free, if it gives no token back. -/
theorem costs_step (h : c.step? g limit = some d) (hcount : d.state.count ≤ c.state.count) :
  Costs g limit price 1 c d
  := by
  have := Nat.mul_le_mul_left price hcount
  use 1
  constructor
  · push_cast
    omega
  · rw [after, h]
    rfl

/-- A step that takes a token is paid by it. -/
theorem costs_step_lt (h : c.step? g limit = some d) (hcount : d.state.count < c.state.count) :
  Costs g limit price (1 - price) c d
  := by
  have := Nat.mul_le_mul_left price (Nat.succ_le_of_lt hcount)
  rw [Nat.mul_succ] at this
  use 1
  constructor
  · push_cast
    omega
  · rw [after, h]
    rfl

/-- Where not even no step is free, a token is taken. -/
theorem Costs.count_lt (h : Costs g limit price free c d) (hfree : free < 0) :
  d.state.count < c.state.count
  := by
  obtain ⟨n, hn, -⟩ := h
  have hlt : price * d.state.count < price * c.state.count := by
    have : (price * d.state.count : Int) < price * c.state.count := by omega
    exact_mod_cast this
  apply Nat.lt_of_mul_lt_mul_left hlt

/-- A reader that has nothing left to do stays as it is, so it may be given more steps than it
needs. -/
theorem Costs.after_eq (h : Costs g limit price free c d) (hd : d.tasks = []) {n : Nat}
    (hn : free + price * (c.state.count : Int) ≤ n) :
  c.after g limit n = d
  := by
  obtain ⟨m, hm, rfl⟩ := h
  have hcount : 0 ≤ price * ((c.after g limit m).state.count : Int) := Int.natCast_nonneg _
  obtain ⟨more, rfl⟩ := Nat.exists_eq_add_of_le (show m ≤ n by omega)
  rw [after_add]
  apply after_of_none
  rw [step?, hd]

end Reader

/-! ### Rules -/

/-- What a rule is read in: the grammar and its limit, how deep the rule is nested and what the
symbols mean there, for how many steps a token pays, and how many steps of each symbol are free. -/
structure Setting (σ : Type) where
  grammar : Grammar σ
  limit : Nat
  depth : Nat
  inner : σ → State → State
  price : Nat
  free : σ → Nat

namespace Rule

/-- A reader does what the rule means, whatever is to be done after it, and the tokens that the rule
takes pay for all steps but those that are free. -/
def Costs (S : Setting σ) (free : Int) (r : Rule σ) (s : State) : Prop :=
  ∀ tasks, Reader.Costs S.grammar S.limit S.price free ⟨.read r :: tasks, S.depth, s⟩
    ⟨tasks, S.depth, r.run S.inner s⟩

variable {S : Setting σ} {r first second body other yes no : Rule σ} {free free' : Int}
variable {s : State} {kind : NodeKind} {test : Lookahead → Bool}

theorem Costs.mono (h : r.Costs S free s) (hfree : free ≤ free') :
  r.Costs S free' s
  := fun tasks => (h tasks).mono hfree

theorem costs_pass (s : State) :
  pass.Costs S 1 s
  := fun _ => Reader.costs_step rfl (Nat.le_refl _)

theorem costs_take (s : State) :
  take.Costs S 1 s
  := fun _ => Reader.costs_step rfl (State.kept_takes.take s).count_le

theorem costs_take_of_first (h : s.look.first ≠ none) :
  take.Costs S (1 - S.price) s
  := fun _ => Reader.costs_step_lt rfl (State.count_take_lt h)

theorem costs_report (cause : Option TokenKind → Cause) (s : State) :
  (report cause).Costs S 1 s
  := fun _ => Reader.costs_step rfl (Nat.le_refl _)

theorem Costs.andThen (h : first.Costs S free s)
    (h' : second.Costs S free' (first.run S.inner s)) :
  (first >> second).Costs S (1 + free + free') s
  := by
  intro tasks
  have hopen : Reader.Costs S.grammar S.limit S.price 1
      ⟨.read (first >> second) :: tasks, S.depth, s⟩
      ⟨.read first :: .read second :: tasks, S.depth, s⟩ := Reader.costs_step rfl (Nat.le_refl _)
  apply (hopen.trans (h _)).trans (h' tasks)

theorem Costs.node (h : body.Costs S free (s.flush.withOut [])) :
  (node kind body).Costs S (2 + free) s
  := by
  intro tasks
  have hopen : Reader.Costs S.grammar S.limit S.price 1
      ⟨.read (.node kind body) :: tasks, S.depth, s⟩
      ⟨.read body :: .close kind s.flush.out :: tasks, S.depth, s.flush.withOut []⟩ :=
    Reader.costs_step rfl s.count_flush_le
  have hclose : Reader.Costs S.grammar S.limit S.price 1
      ⟨.close kind s.flush.out :: tasks, S.depth, body.run S.inner (s.flush.withOut [])⟩
      ⟨tasks, S.depth, (Rule.node kind body).run S.inner s⟩ :=
    Reader.costs_step rfl (Nat.le_refl _)
  apply ((hopen.trans (h _)).trans hclose).mono
  omega

theorem Costs.apart (h : body.Costs S free (s.flush.withOut [])) :
  (apart body).Costs S (2 + free) s
  := by
  intro tasks
  have hopen : Reader.Costs S.grammar S.limit S.price 1
      ⟨.read (.apart body) :: tasks, S.depth, s⟩
      ⟨.read body :: .join s.flush.out :: tasks, S.depth, s.flush.withOut []⟩ :=
    Reader.costs_step rfl s.count_flush_le
  have hjoin : Reader.Costs S.grammar S.limit S.price 1
      ⟨.join s.flush.out :: tasks, S.depth, body.run S.inner (s.flush.withOut [])⟩
      ⟨tasks, S.depth, (Rule.apart body).run S.inner s⟩ := Reader.costs_step rfl (Nat.le_refl _)
  apply ((hopen.trans (h _)).trans hjoin).mono
  omega

theorem Costs.wrap (h : body.Costs S free s) :
  (wrap kind body).Costs S (2 + free) s
  := by
  intro tasks
  have hopen : Reader.Costs S.grammar S.limit S.price 1
      ⟨.read (.wrap kind body) :: tasks, S.depth, s⟩
      ⟨.read body :: .wrap kind :: tasks, S.depth, s⟩ := Reader.costs_step rfl (Nat.le_refl _)
  have hwrap : Reader.Costs S.grammar S.limit S.price 1
      ⟨.wrap kind :: tasks, S.depth, body.run S.inner s⟩
      ⟨tasks, S.depth, (Rule.wrap kind body).run S.inner s⟩ :=
    Reader.costs_step rfl (Nat.le_refl _)
  apply ((hopen.trans (h _)).trans hwrap).mono
  omega

theorem Costs.branch_true (h : yes.Costs S free s) (htest : test s.look = true) :
  (branch test yes no).Costs S (1 + free) s
  := by
  intro tasks
  have hstep : Reader.step? S.grammar S.limit ⟨.read (.branch test yes no) :: tasks, S.depth, s⟩
      = some ⟨.read yes :: tasks, S.depth, s⟩ := by
    simp only [Reader.step?, Task.perform, if_pos htest]
    rfl
  rw [run_branch_true htest]
  apply (Reader.costs_step hstep (Nat.le_refl _)).trans (h tasks)

theorem Costs.branch_false (h : no.Costs S free s) (htest : test s.look = false) :
  (branch test yes no).Costs S (1 + free) s
  := by
  intro tasks
  have hstep : Reader.step? S.grammar S.limit ⟨.read (.branch test yes no) :: tasks, S.depth, s⟩
      = some ⟨.read no :: tasks, S.depth, s⟩ := by
    simp only [Reader.step?, Task.perform, if_neg (Bool.eq_false_iff.mp htest)]
    rfl
  rw [run_branch_false htest]
  apply (Reader.costs_step hstep (Nat.le_refl _)).trans (h tasks)

/-- A repetition whose rounds pay for themselves and for the test before them costs nothing but the
last test. -/
theorem costs_loop (hround : ∀ s, test s.look = true → body.Costs S (-1) s) (s : State) :
  (loop test body).Costs S 1 s
  := by
  intro tasks
  rw [run]
  fun_induction State.repeatWhile test (body.run S.inner) s with
  | case1 s htest next hlt ih =>
    have hstep : Reader.step? S.grammar S.limit ⟨.read (.loop test body) :: tasks, S.depth, s⟩
        = some ⟨.read body :: .read (.loop test body) :: tasks, S.depth, s⟩ := by
      simp only [Reader.step?, Task.perform, if_pos htest]
      rfl
    apply (((Reader.costs_step hstep (Nat.le_refl _)).trans (hround s htest _)).trans ih).mono
    omega
  | case2 s htest next hlt => apply absurd ((hround s htest tasks).count_lt (by decide)) hlt
  | case3 s htest =>
    have hstep : Reader.step? S.grammar S.limit ⟨.read (.loop test body) :: tasks, S.depth, s⟩
        = some ⟨tasks, S.depth, s⟩ := by
      simp only [Reader.step?, Task.perform, if_neg htest]
      rfl
    apply Reader.costs_step hstep (Nat.le_refl _)

/-- Another rule follows if no token is taken. -/
theorem Costs.unlessTaken_eq (h : body.Costs S free s)
    (h' : other.Costs S free' (body.run S.inner s))
    (hsame : (body.run S.inner s).count = s.count) :
  (unlessTaken body other).Costs S (2 + free + free') s
  := by
  intro tasks
  have hopen : Reader.Costs S.grammar S.limit S.price 1
      ⟨.read (.unlessTaken body other) :: tasks, S.depth, s⟩
      ⟨.read body :: .retry s.count other :: tasks, S.depth, s⟩ :=
    Reader.costs_step rfl (Nat.le_refl _)
  have hstep : Reader.step? S.grammar S.limit
      ⟨.retry s.count other :: tasks, S.depth, body.run S.inner s⟩
      = some ⟨.read other :: tasks, S.depth, body.run S.inner s⟩ := by
    simp only [Reader.step?, Task.perform, if_pos hsame]
    rfl
  have hretry := (hopen.trans (h _)).trans (Reader.costs_step hstep (Nat.le_refl _))
  simp only [run, State.unlessTaken, if_pos hsame]
  apply (hretry.trans (h' tasks)).mono
  omega

theorem Costs.unlessTaken_ne (h : body.Costs S free s)
    (hne : (body.run S.inner s).count ≠ s.count) :
  (unlessTaken body other).Costs S (2 + free) s
  := by
  intro tasks
  have hopen : Reader.Costs S.grammar S.limit S.price 1
      ⟨.read (.unlessTaken body other) :: tasks, S.depth, s⟩
      ⟨.read body :: .retry s.count other :: tasks, S.depth, s⟩ :=
    Reader.costs_step rfl (Nat.le_refl _)
  have hstep : Reader.step? S.grammar S.limit
      ⟨.retry s.count other :: tasks, S.depth, body.run S.inner s⟩
      = some ⟨tasks, S.depth, body.run S.inner s⟩ := by
    simp only [Reader.step?, Task.perform, if_neg hne]
    rfl
  simp only [run, State.unlessTaken, if_neg hne]
  apply ((hopen.trans (h _)).trans (Reader.costs_step hstep (Nat.le_refl _))).mono
  omega

/-! ### Free steps -/

/-- How many steps of a rule are free, apart from the rounds of its repetitions. -/
def cost (free : σ → Nat) : Rule σ → Nat
  | .seq first second => 1 + first.cost free + second.cost free
  | .node _ body => 2 + body.cost free
  | .apart body => 2 + body.cost free
  | .wrap _ body => 2 + body.cost free
  | .branch _ yes no => 1 + yes.cost free + no.cost free
  | .unlessTaken body other => 2 + body.cost free + other.cost free
  | .nested symbol => free symbol
  | _ => 1

@[simp]
theorem cost_andThen (free : σ → Nat) (first second : Rule σ) :
  (first >> second).cost free = 1 + first.cost free + second.cost free
  := rfl

@[simp]
theorem cost_node (free : σ → Nat) (kind : NodeKind) (body : Rule σ) :
  (node kind body).cost free = 2 + body.cost free
  := rfl

@[simp]
theorem cost_apart (free : σ → Nat) (body : Rule σ) :
  (apart body).cost free = 2 + body.cost free
  := rfl

@[simp]
theorem cost_wrap (free : σ → Nat) (kind : NodeKind) (body : Rule σ) :
  (wrap kind body).cost free = 2 + body.cost free
  := rfl

@[simp]
theorem cost_branch (free : σ → Nat) (test : Lookahead → Bool) (yes no : Rule σ) :
  (branch test yes no).cost free = 1 + yes.cost free + no.cost free
  := rfl

@[simp]
theorem cost_unlessTaken (free : σ → Nat) (body other : Rule σ) :
  (unlessTaken body other).cost free = 2 + body.cost free + other.cost free
  := rfl

/-- Every round of a repetition in a rule pays for itself, and whatever takes no token where one
should be taken is followed by a rejection. -/
def Settles (S : Setting σ) : Rule σ → Prop
  | .seq first second => first.Settles S ∧ second.Settles S
  | .node _ body => body.Settles S
  | .apart body => body.Settles S
  | .wrap _ body => body.Settles S
  | .branch _ yes no => yes.Settles S ∧ no.Settles S
  | .loop test body => (∀ s, test s.look = true → body.Costs S (-1) s) ∧ body.Settles S
  | .unlessTaken body other => body.Settles S ∧ ∃ cause, other = reject cause
  | _ => True

/-- Whether a rule repeats and rejects nothing, symbols apart. -/
def isPlain : Rule σ → Bool
  | .seq first second => first.isPlain && second.isPlain
  | .node _ body => body.isPlain
  | .apart body => body.isPlain
  | .wrap _ body => body.isPlain
  | .branch _ yes no => yes.isPlain && no.isPlain
  | .loop _ _ => false
  | .unlessTaken _ _ => false
  | _ => true

theorem settles_of_isPlain (hr : r.isPlain = true) :
  r.Settles S
  := by
  induction r with
  | seq first second ih₁ ih₂ =>
    rw [isPlain, Bool.and_eq_true] at hr
    exact ⟨ih₁ hr.1, ih₂ hr.2⟩
  | node kind body ih => apply ih hr
  | apart body ih => apply ih hr
  | wrap kind body ih => apply ih hr
  | branch test yes no ih₁ ih₂ =>
    rw [isPlain, Bool.and_eq_true] at hr
    exact ⟨ih₁ hr.1, ih₂ hr.2⟩
  | loop test body ih => contradiction
  | unlessTaken body other ih₁ ih₂ => contradiction
  | _ => trivial

/-- The tokens that a rule takes pay for its free steps, too. -/
def Pays (S : Setting σ) (r : Rule σ) (s : State) : Prop := r.Costs S (r.cost S.free - S.price) s

section

variable (hsymbols : ∀ symbol s, (nested symbol).Costs S (S.free symbol) s)

include hsymbols

/-- If the rounds of the repetitions pay for themselves, then all other steps are free. -/
theorem costs_of_settles (hr : r.Settles S) (s : State) :
  r.Costs S (r.cost S.free) s
  := by
  induction r generalizing s with
  | pass => apply costs_pass
  | seq first second ih₁ ih₂ =>
    apply ((ih₁ hr.1 s).andThen (ih₂ hr.2 _)).mono
    have hcost : (seq first second).cost S.free = 1 + first.cost S.free + second.cost S.free := rfl
    rw [hcost]
    omega
  | take => apply costs_take
  | report cause => apply costs_report
  | node kind body ih =>
    apply (ih hr _).node.mono
    rw [cost_node]
    omega
  | apart body ih =>
    apply (ih hr _).apart.mono
    rw [cost_apart]
    omega
  | wrap kind body ih =>
    apply (ih hr _).wrap.mono
    rw [cost_wrap]
    omega
  | branch test yes no ih₁ ih₂ =>
    rw [cost_branch]
    cases htest : test s.look with
    | true =>
      apply ((ih₁ hr.1 s).branch_true htest).mono
      omega
    | false =>
      apply ((ih₂ hr.2 s).branch_false htest).mono
      omega
  | loop test body ih => apply costs_loop hr.1
  | unlessTaken body other ih₁ ih₂ =>
    obtain ⟨hbody, cause, rfl⟩ := hr
    rw [cost_unlessTaken]
    by_cases hsame : (body.run S.inner s).count = s.count
    · apply ((ih₁ hbody s).unlessTaken_eq (ih₂ (settles_of_isPlain rfl) _) hsame).mono
      omega
    · apply ((ih₁ hbody s).unlessTaken_ne hsame).mono
      omega
  | nested symbol => apply hsymbols

/-- A rule pays if the first of its parts does. -/
theorem Pays.andThen (h : first.Pays S s) (hsecond : second.Settles S) :
  (first >> second).Pays S s
  := by
  apply (Costs.andThen h (costs_of_settles hsymbols hsecond _)).mono
  rw [cost_andThen]
  omega

/-- A rule pays if the second of its parts does. -/
theorem Pays.after (h : second.Pays S (first.run S.inner s)) (hfirst : first.Settles S) :
  (first >> second).Pays S s
  := by
  apply ((costs_of_settles hsymbols hfirst s).andThen h).mono
  rw [cost_andThen]
  omega

end

theorem pays_take (h : s.look.first ≠ none) :
  take.Pays S s
  := costs_take_of_first h

theorem Pays.node (h : body.Pays S (s.flush.withOut [])) :
  (node kind body).Pays S s
  := by
  apply (Costs.node h).mono
  rw [cost_node]
  omega

theorem Pays.wrap (h : body.Pays S s) :
  (wrap kind body).Pays S s
  := by
  apply (Costs.wrap h).mono
  rw [cost_wrap]
  omega

theorem Pays.apart (h : body.Pays S (s.flush.withOut [])) :
  (apart body).Pays S s
  := by
  apply (Costs.apart h).mono
  rw [cost_apart]
  omega

theorem Pays.branch_true (h : yes.Pays S s) (htest : test s.look = true) :
  (branch test yes no).Pays S s
  := by
  apply (Costs.branch_true h htest).mono
  rw [cost_branch]
  omega

theorem Pays.branch_false (h : no.Pays S s) (htest : test s.look = false) :
  (branch test yes no).Pays S s
  := by
  apply (Costs.branch_false h htest).mono
  rw [cost_branch]
  omega

theorem pays_expect {k : TokenKind} (h : s.look.isAt k = true) :
  (expect k).Pays S s
  := (pays_take (Lookahead.first_ne_none_of_isAt h)).branch_true h

/-- A token that may stand before the first one pays if it is there. -/
theorem pays_accept {k : TokenKind}
    (hsymbols : ∀ symbol s, (nested symbol).Costs S (S.free symbol) s)
    (hsecond : second.Settles S) (h : s.look.isAt k = false → second.Pays S s) :
  (accept k >> second).Pays S s
  := by
  have haccept : (accept k : Rule σ).Settles S := ⟨trivial, trivial⟩
  cases hk : s.look.isAt k with
  | true =>
    apply Pays.andThen hsymbols _ hsecond
    apply (pays_take (Lookahead.first_ne_none_of_isAt hk)).branch_true hk
  | false =>
    apply Pays.after hsymbols _ haccept
    rw [run_accept_false hk]
    apply h hk

/-- A rejection pays with the token that it takes. -/
theorem pays_reject (hsymbols : ∀ symbol s, (nested symbol).Costs S (S.free symbol) s)
    (cause : Cause) (hfirst : s.look.first ≠ none) :
  (reject cause).Pays S s
  := by
  have hreport : (report fun _ => cause : Rule σ).Settles S := trivial
  apply Pays.after hsymbols _ hreport
  apply Pays.branch_false (Pays.node (pays_take _)) (decide_eq_false hfirst)
  rw [State.look_withOut, State.look_flush]
  apply hfirst

/-- An item that costs less than nothing is not rejected. -/
theorem Costs.orReject (h : r.Costs S free s) (hfree : free < 0) (cause : Cause) :
  (r.orReject cause).Costs S (2 + free) s
  := by
  apply h.unlessTaken_ne
  have := (h []).count_lt hfree
  apply Nat.ne_of_lt this

/-- An item that takes nothing is rejected. -/
theorem costs_orReject (hsymbols : ∀ symbol s, (nested symbol).Costs S (S.free symbol) s)
    (hr : r.Settles S) (hsame : r.run S.inner s = s) (cause : Cause)
    (hfirst : s.look.first ≠ none) :
  (r.orReject cause).Costs S ((r.orReject cause).cost S.free - S.price) s
  := by
  have hitem := costs_of_settles hsymbols hr s
  have hreject : (reject cause).Pays S (r.run S.inner s) := by
    rw [hsame]
    apply pays_reject hsymbols cause hfirst
  apply (hitem.unlessTaken_eq hreject (congrArg State.count hsame)).mono
  rw [Rule.orReject, cost_unlessTaken]
  omega

end Rule

/-! ### Constructs -/

/-- What the constructs are read in that may still nest `levels` deep. -/
def Grammar.setting (g : Grammar σ) (limit price : Nat) (free : σ → Nat) (levels : Nat) :
    Setting σ where
  grammar := g
  limit := limit
  depth := limit - levels
  inner := g.read levels
  price := price
  free := free

/-- A round of skipping takes a token. -/
theorem State.count_take_lt_of_nextBalance? {opened : Nat} {s : State}
    (h : s.nextBalance? opened ≠ none) :
  s.take.count < s.count
  := by
  apply count_take_lt
  intro hnone
  apply h
  rw [nextBalance?, hnone]
  rfl

namespace Reader

variable {g : Grammar σ} {limit price depth : Nat} {s : State}

/-- The tokens of a level that is skipped pay for one step each, and the first one for all steps
around these. -/
theorem costs_takeLevel (hprice : 1 ≤ price) (opened : Nat) (tasks : List (Task σ)) (s : State) :
  Costs g limit price (if s.nextBalance? opened = none then 1 else 2 - price)
    ⟨.skip opened :: tasks, depth, s⟩ ⟨tasks, depth, s.takeLevel opened⟩
  := by
  fun_induction State.takeLevel opened s with
  | case1 opened s hnone =>
    have hstep : step? g limit ⟨.skip opened :: tasks, depth, s⟩ = some ⟨tasks, depth, s⟩ := by
      simp only [step?, Task.perform, hnone]
      rfl
    rw [if_pos hnone]
    apply costs_step hstep (Nat.le_refl _)
  | case2 opened s opened' hsome ih =>
    have hstep : step? g limit ⟨.skip opened :: tasks, depth, s⟩
        = some ⟨.skip opened' :: tasks, depth, s.take⟩ := by
      simp only [step?, Task.perform, hsome]
      rfl
    have hne : s.nextBalance? opened ≠ none := by
      rw [hsome]
      apply Option.some_ne_none
    rw [if_neg hne]
    apply ((costs_step_lt hstep (State.count_take_lt_of_nextBalance? hne)).trans ih).mono
    split
    · omega
    · omega

/-- At the limit of nesting a construct is skipped, and if there is anything to be skipped, then the
tokens pay for all of it. -/
theorem costs_skipLevel (hprice : 1 ≤ price) (hdepth : ¬ depth < limit) (symbol : σ)
    (tasks : List (Task σ)) (s : State) :
  Costs g limit price (if s.nextBalance? 0 = none then 1 else 4 - price)
    ⟨.read (.nested symbol) :: tasks, depth, s⟩
    ⟨tasks, depth, (s.report fun _ => .nestedTooDeep).skipLevel⟩
  := by
  obtain ⟨t, ht⟩ : ∃ t, t = s.report fun _ => .nestedTooDeep := ⟨_, rfl⟩
  have hnext : s.nextBalance? 0 = t.nextBalance? 0 := by rw [ht]; rfl
  have hcount : t.flush.count ≤ s.count := by
    rw [ht]
    apply State.count_flush_le s
  rw [hnext, ← ht]
  cases hbalance : t.nextBalance? 0 with
  | none =>
    have hstep : step? g limit ⟨.read (.nested symbol) :: tasks, depth, s⟩
        = some ⟨tasks, depth, t⟩ := by
      simp only [step?, Task.perform, if_neg hdepth, ← ht, hbalance]
      rfl
    rw [State.skipLevel, hbalance, if_pos rfl]
    apply costs_step hstep
    rw [ht]
    apply Nat.le_refl
  | some opened =>
    have hstep : step? g limit ⟨.read (.nested symbol) :: tasks, depth, s⟩
        = some ⟨.skip 0 :: .close .error t.flush.out :: tasks, depth, t.flush.withOut []⟩ := by
      simp only [step?, Task.perform, if_neg hdepth, ← ht, hbalance]
      rfl
    have hopened : (t.flush.withOut []).nextBalance? 0 ≠ none := by
      rw [State.nextBalance?, State.look_withOut, State.look_flush, ← State.nextBalance?, hbalance]
      apply Option.some_ne_none
    have hskip : Costs g limit price _
        ⟨.skip 0 :: .close .error t.flush.out :: tasks, depth, t.flush.withOut []⟩ _ :=
      costs_takeLevel hprice 0 _ (t.flush.withOut [])
    have hclose : Costs g limit price 1
        ⟨.close .error t.flush.out :: tasks, depth, (t.flush.withOut []).takeLevel 0⟩
        ⟨tasks, depth, t.within .error (State.takeLevel 0)⟩ := costs_step rfl (Nat.le_refl _)
    rw [if_neg hopened] at hskip
    rw [State.skipLevel, hbalance, if_neg (Option.some_ne_none opened)]
    apply (((costs_step hstep hcount).trans hskip).trans hclose).mono
    omega

end Reader

namespace Rule

variable {g : Grammar σ} {limit price levels : Nat} {free : σ → Nat} {k : Int} {symbol : σ}
variable {s : State}

/-- A construct that nests too deep is skipped. -/
theorem costs_nested_zero (hprice : 1 ≤ price) (s : State) :
  (nested symbol).Costs (g.setting limit price free 0)
    (if s.nextBalance? 0 = none then 1 else 4 - price) s
  := by
  intro tasks
  apply Reader.costs_skipLevel hprice
  exact Nat.lt_irrefl limit

/-- A construct that does not nest too deep is entered, read by its rule and left. -/
theorem costs_nested_succ (hlevels : levels < limit)
    (h : (g symbol).Costs (g.setting limit price free levels) k s) :
  (nested symbol).Costs (g.setting limit price free (levels + 1)) (k + 2) s
  := by
  intro tasks
  have hdepth : limit - (levels + 1) < limit := by omega
  have hinside : limit - (levels + 1) + 1 = limit - levels := by omega
  have hstep : Reader.step? g limit ⟨.read (.nested symbol) :: tasks, limit - (levels + 1), s⟩
      = some ⟨.read (g symbol) :: .leave :: tasks, limit - levels, s⟩ := by
    simp only [Reader.step?, Task.perform, if_pos hdepth, hinside]
    rfl
  have hleave : Reader.Costs g limit price 1
      ⟨.leave :: tasks, limit - levels, (g symbol).run (g.read levels) s⟩
      ⟨tasks, limit - (levels + 1), (g symbol).run (g.read levels) s⟩ := by
    rw [← hinside]
    exact Reader.costs_step rfl (Nat.le_refl _)
  apply (((Reader.costs_step hstep (Nat.le_refl _)).trans (h _)).trans hleave).mono
  omega

end Rule

/-- A reader that starts at the beginning of a list of tokens does what its rule means, with a
number of steps that is linear in the number of tokens and does not depend on the limit. -/
theorem Reader.after_start {g : Grammar σ} {limit price : Nat} {free : σ → Nat} {k : Nat}
    {r : Rule σ} {ts : List Token}
    (h : r.Costs (g.setting limit price free limit) k (.start ts)) {n : Nat}
    (hn : price * ts.length + k ≤ n) :
  (start r ts).after g limit n = ⟨[], 0, r.run (g.read limit) (.start ts)⟩
  := by
  have hcosts := h []
  have hdepth : (g.setting limit price free limit).depth = 0 := Nat.sub_self limit
  rw [hdepth] at hcosts
  apply hcosts.after_eq rfl
  have hsteps : k + price * ts.length ≤ n := by omega
  exact_mod_cast hsteps

end InlayHints

import InlayHints.Proofs.Grammar.Reading

/-!
# Runs without faults

For a productive rule, `Rule.Reads` is what a run does if it notes no fault.  A run that notes
none is described by the relation (`Rule.reads_of_run`), and what the relation describes is
what a run does, unless the nesting gets too deep for it (`Rule.run_of_reads`).  At level zero
there is always a fault (`Grammar.faults_read_zero`).
-/

namespace InlayHints

open Relation

namespace State

@[simp]
theorem faults_shift (s : State) :
  s.shift.faults = s.faults
  := by
  unfold shift
  split
  · rfl
  · rfl

theorem faults_take (s : State) :
  s.take.faults = s.faults
  := faults_shift s.flush

/-- All reading keeps the faults noted before. -/
theorem kept_faults :
  Kept fun s t => s.faults <:+ t.faults
  where
  refl _ := List.suffix_rfl
  trans := List.IsSuffix.trans
  flush _ := List.suffix_rfl
  shift s := ⟨[], (faults_shift s).symm⟩
  report _ _ := List.suffix_cons _ _
  within _ _ _ h := h
  apart _ _ h := h
  wrap _ _ _ h := h

/-- If no fault is noted from `s` over `t` to `u`, none is noted on the way. -/
theorem faults_eq_of_suffix {s t u : State} (h₁ : s.faults <:+ t.faults)
    (h₂ : t.faults <:+ u.faults) (h : u.faults = s.faults) :
  t.faults = s.faults ∧ u.faults = t.faults
  := by
  have hst : s.faults = t.faults := by
    apply h₁.eq_of_length_le
    rw [← h]
    apply h₂.length_le
  constructor
  · rw [hst]
  · rw [h, hst]

/-- The nesting got too deep. -/
def Deep (s : State) : Prop := ∃ f ∈ s.faults, f.cause = .nestedTooDeep

theorem Deep.mono {s t : State} (hs : s.Deep) (h : s.faults <:+ t.faults) :
  t.Deep
  := by
  obtain ⟨f, hf, hcause⟩ := hs
  use f, h.subset hf

/-- From the state before to the state `t` no fault was noted and the bare state became `c`,
unless `D` holds of the faults of `t`. -/
def ArrivesUnless (D : List Fault → Prop) (s t : State) (c : Bare) : Prop :=
  D t.faults ∨ t.bare = c ∧ t.faults = s.faults

/-- From the state before to the state `t` no fault was noted and the bare state became `c`,
unless the nesting got too deep. -/
def Arrives (s t : State) (c : Bare) : Prop := t.Deep ∨ t.bare = c ∧ t.faults = s.faults

/-- A token is ahead where a test holds that fails at the end. -/
theorem bare_ahead_ne_nil {s : State} {test : Lookahead → Bool} (htest : test s.look = true)
    (hend : test ⟨none, none⟩ = false) :
  s.bare.ahead ≠ []
  := by
  intro hnil
  have hsignificant : s.significant = [] := hnil
  rw [look_eq, hsignificant, Lookahead.ofTokens, hend] at htest
  contradiction

/-- Fewer significant tokens ahead means fewer tokens ahead. -/
theorem Takes.count_lt {s t : State} (h : s.Takes t)
    (hlt : t.bare.ahead.length < s.bare.ahead.length) :
  t.count < s.count
  := by
  apply lt_of_le_of_ne h.count_le
  intro heq
  simp [bare, significant, h.tokens_eq heq] at hlt

end State

namespace Rule

variable {σ : Type} {R : σ → Bare → Bare → Prop} {inner : σ → State → State}

/-- A rule that always notes a fault does note one. -/
theorem faults_ne (hfaults : ∀ symbol s, s.faults <:+ (inner symbol s).faults) {r : Rule σ}
    (hr : r.alwaysFaults = true) (s : State) :
  (r.run inner s).faults ≠ s.faults
  := by
  induction r generalizing s with
  | report cause => simp [run, State.report]
  | seq first second ih₁ ih₂ =>
    intro h
    obtain ⟨h₁, h₂⟩ := State.faults_eq_of_suffix (State.kept_faults.run hfaults first s)
      (State.kept_faults.run hfaults second _) h
    simp only [alwaysFaults, Bool.or_eq_true] at hr
    rcases hr with hr | hr
    · apply ih₁ hr _ h₁
    · apply ih₂ hr _ h₂
  | _ => simp [alwaysFaults] at hr

/-- A rule that keeps still without significant tokens takes one or leaves all tokens. -/
theorem count_eq_or_length_lt
    (hR : ∀ {symbol b c}, R symbol b c → c.ahead.length < b.ahead.length)
    {r : Rule σ} {ahead : Bool} (hr : r.keepsStill ahead = true) {s : State}
    (hs : ahead = true → s.bare.ahead ≠ []) (h : r.Reads R s.bare (r.run inner s).bare) :
  (r.run inner s).count = s.count
    ∨ (r.run inner s).bare.ahead.length < s.bare.ahead.length
  := by
  fun_induction keepsStill ahead r with
  | case1 ahead => apply Or.inl rfl
  | case2 ahead test yes no ih₁ ih₂ =>
    rw [Bool.and_eq_true] at hr
    simp only [Reads, run, State.look_bare] at h ⊢
    split at h
    · next htest =>
      simp only [htest, if_true] at h ⊢
      apply ih₁ hr.1 _ h
      apply Bare.ahead_ne_nil test hs
      simp [State.look_bare, htest]
    · next htest =>
      simp only [htest] at h ⊢
      apply ih₂ hr.2 _ h
      apply Bare.ahead_ne_nil test hs
      simp [State.look_bare, htest]
  | case3 => apply Or.inr (h.length_lt hR hr hs)

/-- A run of a productive rule that notes no fault is described by the relation. -/
theorem reads_of_run (hfaults : ∀ symbol s, s.faults <:+ (inner symbol s).faults)
    (htakes : ∀ symbol s, State.Takes s (inner symbol s))
    (hR : ∀ {symbol b c}, R symbol b c → c.ahead.length < b.ahead.length)
    (hinner : ∀ {symbol s}, (inner symbol s).faults = s.faults →
      R symbol s.bare (inner symbol s).bare)
    {r : Rule σ} (hr : r.productive = true) {s : State} (h : (r.run inner s).faults = s.faults) :
  r.Reads R s.bare (r.run inner s).bare
  := by
  induction r generalizing s with
  | pass => rfl
  | seq first second ih₁ ih₂ =>
    simp only [productive, Bool.and_eq_true] at hr
    obtain ⟨h₁, h₂⟩ := State.faults_eq_of_suffix (State.kept_faults.run hfaults first s)
      (State.kept_faults.run hfaults second _) h
    use (first.run inner s).bare, ih₁ hr.1 h₁, ih₂ hr.2 h₂
  | take => apply State.bare_take
  | report cause => simp [run, State.report] at h
  | node kind body ih =>
    use (body.run inner (s.flush.withOut [])).bare
    rw [← State.bare_opened]
    use ih hr h
    apply State.bare_within
  | apart body ih =>
    use (body.run inner (s.flush.withOut [])).bare
    rw [← State.bare_opened]
    use ih hr h
    apply State.bare_apart
  | wrap kind body ih =>
    use (body.run inner s).bare, ih hr h
    apply State.bare_wrap
  | branch test yes no ih₁ ih₂ =>
    simp only [productive, Bool.and_eq_true] at hr
    simp only [Reads, run, State.look_bare] at h ⊢
    split at h
    · next htest =>
      simp only [htest, if_true]
      apply ih₁ hr.1 h
    · next htest =>
      simp only [htest]
      apply ih₂ hr.2 h
  | loop test body ih =>
    simp only [productive, Bool.and_eq_true, Bool.not_eq_true'] at hr
    obtain ⟨⟨hend, hbody⟩, hr⟩ := hr
    simp only [Reads, run] at h ⊢
    fun_induction State.repeatWhile test (body.run inner) s with
    | case1 s htest next hlt ih' =>
      obtain ⟨h₁, h₂⟩ := State.faults_eq_of_suffix (State.kept_faults.run hfaults body s)
        (State.kept_faults.repeatWhile test (State.kept_faults.run hfaults body) next) h
      obtain ⟨hsteps, hstop⟩ := ih' h₂
      use ReflTransGen.head ⟨by rw [State.look_bare, htest], ih hr h₁⟩ hsteps
    | case2 s htest next hlt =>
      have := (ih hr h).length_lt hR hbody fun _ => State.bare_ahead_ne_nil htest hend
      have := (State.kept_takes.run htakes body s).count_lt this
      contradiction
    | case3 s htest =>
      use ReflTransGen.refl
      simpa [State.look_bare] using htest
  | unlessTaken body other ih₁ ih₂ =>
    simp only [productive, Bool.and_eq_true] at hr
    obtain ⟨⟨hstill, hr⟩, hother⟩ := hr
    simp only [Reads, run, State.unlessTaken] at h ⊢
    split at h
    · next heq =>
      obtain ⟨-, h₂⟩ := State.faults_eq_of_suffix (State.kept_faults.run hfaults body s)
        (State.kept_faults.run hfaults other _) h
      apply absurd h₂ (faults_ne hfaults hother _)
    · next hne =>
      rw [if_neg hne]
      use ih₁ hr h
      apply (count_eq_or_length_lt hR hstill (by simp) (ih₁ hr h)).resolve_left hne
  | nested symbol => apply hinner h

/-- A run of a productive rule does what the relation describes and notes no fault, unless `D`
holds of the faults after it, as it then does however many faults are added. -/
theorem run_of_reads_unless {D : List Fault → Prop} (hD : ∀ {fs gs}, D fs → fs <:+ gs → D gs)
    (hfaults : ∀ symbol s, s.faults <:+ (inner symbol s).faults)
    (htakes : ∀ symbol s, State.Takes s (inner symbol s))
    (hR : ∀ {symbol b c}, R symbol b c → c.ahead.length < b.ahead.length)
    (hinner : ∀ {symbol s c}, R symbol s.bare c → State.ArrivesUnless D s (inner symbol s) c)
    {r : Rule σ} (hr : r.productive = true) {s : State} {c : Bare} (h : r.Reads R s.bare c) :
  State.ArrivesUnless D s (r.run inner s) c
  := by
  induction r generalizing s c with
  | pass => apply Or.inr ⟨h.symm, rfl⟩
  | seq first second ih₁ ih₂ =>
    simp only [productive, Bool.and_eq_true] at hr
    obtain ⟨d, h₁, h₂⟩ := h
    rcases ih₁ hr.1 h₁ with hd | ⟨rfl, hfirst⟩
    · apply Or.inl (hD hd (State.kept_faults.run hfaults second _))
    · rcases ih₂ hr.2 h₂ with hd | ⟨hbare, hsecond⟩
      · apply Or.inl hd
      · apply Or.inr ⟨hbare, hsecond.trans hfirst⟩
  | take =>
    apply Or.inr
    constructor
    · rw [run, State.bare_take, h]
    · apply State.faults_take
  | report cause => apply h.elim
  | node kind body ih =>
    obtain ⟨d, h, rfl⟩ := h
    rw [← State.bare_opened] at h
    rcases ih hr h with hd | ⟨rfl, hbody⟩
    · apply Or.inl hd
    · apply Or.inr ⟨State.bare_within .., hbody⟩
  | apart body ih =>
    obtain ⟨d, h, rfl⟩ := h
    rw [← State.bare_opened] at h
    rcases ih hr h with hd | ⟨rfl, hbody⟩
    · apply Or.inl hd
    · apply Or.inr ⟨State.bare_apart .., hbody⟩
  | wrap kind body ih =>
    obtain ⟨d, h, rfl⟩ := h
    rcases ih hr h with hd | ⟨rfl, hbody⟩
    · apply Or.inl hd
    · apply Or.inr ⟨State.bare_wrap .., hbody⟩
  | branch test yes no ih₁ ih₂ =>
    simp only [productive, Bool.and_eq_true] at hr
    simp only [Reads, run, State.look_bare] at h ⊢
    split at h
    · next htest =>
      simp only [htest, if_true]
      apply ih₁ hr.1 h
    · next htest =>
      simp only [htest]
      apply ih₂ hr.2 h
  | loop test body ih =>
    simp only [productive, Bool.and_eq_true, Bool.not_eq_true'] at hr
    obtain ⟨⟨hend, hbody⟩, hr⟩ := hr
    obtain ⟨hsteps, hstop⟩ := h
    simp only [run]
    generalize hb : s.bare = b at hsteps
    induction hsteps using ReflTransGen.head_induction_on generalizing s with
    | refl =>
      rw [← hb, State.look_bare] at hstop
      rw [State.repeatWhile, hstop]
      apply Or.inr ⟨hb, rfl⟩
    | @head b d hstep _ ih' =>
      obtain ⟨htest, hread⟩ := hstep
      rw [← hb] at hread
      rw [← hb, State.look_bare] at htest
      rw [State.repeatWhile, if_pos htest]
      rcases ih hr hread with hd | ⟨rfl, hround⟩
      · apply Or.inl
        simp only
        split
        · apply hD hd
          apply State.kept_faults.repeatWhile test (State.kept_faults.run hfaults body)
        · apply hd
      · have hlt := (State.kept_takes.run htakes body s).count_lt
          (hread.length_lt hR hbody fun _ => State.bare_ahead_ne_nil htest hend)
        simp only [hlt, if_true]
        rcases ih' rfl with hd | ⟨hbare, hrest⟩
        · apply Or.inl hd
        · apply Or.inr ⟨hbare, hrest.trans hround⟩
  | unlessTaken body other ih₁ ih₂ =>
    simp only [productive, Bool.and_eq_true] at hr
    obtain ⟨⟨-, hr⟩, -⟩ := hr
    obtain ⟨h, hlt⟩ := h
    simp only [run, State.unlessTaken]
    rcases ih₁ hr h with hd | ⟨rfl, hbody⟩
    · apply Or.inl
      split
      · apply hD hd
        apply State.kept_faults.run hfaults other
      · apply hd
    · have := (State.kept_takes.run htakes body s).count_lt hlt
      rw [if_neg (by omega)]
      apply Or.inr ⟨rfl, hbody⟩
  | nested symbol => apply hinner h

/-- A run of a productive rule does what the relation describes and notes no fault, unless the
nesting gets too deep. -/
theorem run_of_reads (hfaults : ∀ symbol s, s.faults <:+ (inner symbol s).faults)
    (htakes : ∀ symbol s, State.Takes s (inner symbol s))
    (hR : ∀ {symbol b c}, R symbol b c → c.ahead.length < b.ahead.length)
    (hinner : ∀ {symbol s c}, R symbol s.bare c → State.Arrives s (inner symbol s) c)
    {r : Rule σ} (hr : r.productive = true) {s : State} {c : Bare} (h : r.Reads R s.bare c) :
  s.Arrives (r.run inner s) c
  := by
  apply run_of_reads_unless (D := fun fs => ∃ f ∈ fs, f.cause = .nestedTooDeep) _ hfaults htakes
    hR hinner hr h
  rintro fs gs ⟨f, hf, hcause⟩ h
  use f, h.subset hf

end Rule

/-- What nests too deep is not read without a fault. -/
theorem Grammar.faults_read_zero {σ : Type} (g : Grammar σ) (symbol : σ) (s : State) :
  (g.read 0 symbol s).faults ≠ s.faults
  := by
  have hle := (State.kept_faults.skipLevel (s.report fun _ => .nestedTooDeep)).length_le
  have hread : (g.read 0 symbol s).faults
      = (s.report fun _ => .nestedTooDeep).skipLevel.faults := rfl
  intro h
  rw [← hread, h, State.report, List.length_cons] at hle
  omega

end InlayHints

import InlayHints.Proofs.Grammar.Faultless
import InlayHints.Proofs.Grammar.Place
import InlayHints.Proofs.Grammar.Shape

/-!
# Where faults are noted

A report is a fault together with the state of reading in which it is noted.  `Rule.reports` and
`Grammar.reports` list the reports of a run, along the recursion of the run itself.  The faults
after a run are those of its reports (`Rule.notes_run`, `Grammar.notes_read`), and the reports
stand in the order in which the run passes their states: reading only goes forward.

Some kinds of nodes are built only in runs that note a fault.  `Rule.buildsUnlessFaults` tells so
from a rule, since the report comes first where such a node is built.
-/

namespace InlayHints

/-- The offset of the next token ahead other than trivia, or of the end of the text. -/
def State.nextStart (s : State) : Nat := s.offset + Token.totalWidth s.ahead.trivia

/-- A fault that is noted, with the state in which it is noted. -/
structure Report where
  state : State
  cause : Option TokenKind → Cause

/-- The fault of a report, at the next token ahead. -/
def Report.fault (r : Report) : Fault := ⟨r.cause r.state.look.first, r.state.nextStart⟩

namespace State

/-- The reports of a repetition. -/
def reportsWhile (test : Lookahead → Bool) (step : State → State) (reports : State → List Report)
    (s : State) : List Report :=
  if test s.look then
    let next := step s
    if next.count < s.count then reports s ++ next.reportsWhile test step reports else reports s
  else []
termination_by s.count

end State

section

variable {σ : Type}

/-- The reports of a rule, for given meanings and given reports of the symbols. -/
def Rule.reports (inner : σ → State → State) (reportsOf : σ → State → List Report) :
    Rule σ → State → List Report
  | .pass => fun _ => []
  | .seq first second => fun s =>
    first.reports inner reportsOf s ++ second.reports inner reportsOf (first.run inner s)
  | .take => fun _ => []
  | .report cause => fun s => [⟨s, cause⟩]
  | .node _ body => fun s => body.reports inner reportsOf (s.flush.withOut [])
  | .apart body => fun s => body.reports inner reportsOf (s.flush.withOut [])
  | .wrap _ body => body.reports inner reportsOf
  | .branch test yes no => fun s =>
    if test s.look then yes.reports inner reportsOf s else no.reports inner reportsOf s
  | .loop test body => State.reportsWhile test (body.run inner) (body.reports inner reportsOf)
  | .unlessTaken body other => fun s =>
    if (body.run inner s).count = s.count then
      body.reports inner reportsOf s ++ other.reports inner reportsOf (body.run inner s)
    else body.reports inner reportsOf s
  | .nested symbol => reportsOf symbol

/-- The reports of a construct that may nest `levels` deep. -/
def Grammar.reports (g : Grammar σ) : Nat → σ → State → List Report
  | 0, _ => fun s => [⟨s, fun _ => .nestedTooDeep⟩]
  | levels + 1, symbol => (g symbol).reports (g.read levels) (g.reports levels)

end

namespace State

variable {s t u : State} {qs rs : List Report}

/-! ### Going forward -/

/-- From one state to another some tokens were taken, and the offset went up by their width. -/
def Passes (s t : State) : Prop :=
  ∃ ts, s.ahead.tokens = ts ++ t.ahead.tokens ∧ t.offset = s.offset + Token.totalWidth ts

theorem Passes.trans (h : s.Passes t) (h' : t.Passes u) :
  s.Passes u
  := by
  obtain ⟨ts, hahead, hoffset⟩ := h
  obtain ⟨us, hahead', hoffset'⟩ := h'
  use ts ++ us
  constructor
  · rw [hahead, hahead', List.append_assoc]
  · rw [hoffset', hoffset, Token.totalWidth_append, Nat.add_assoc]

theorem passes_refl (s : State) :
  s.Passes s
  := ⟨[], rfl, rfl⟩

theorem passes_flush (s : State) :
  s.Passes s.flush
  := ⟨s.ahead.trivia, (trivia_append_flush s).symm, rfl⟩

theorem passes_shift (s : State) :
  s.Passes s.shift
  := by
  unfold shift
  split
  · apply passes_refl
  · next t ts heq =>
    use [t]
    constructor
    · simp [Input.tail, heq]
    · simp

/-- All reading goes forward. -/
theorem kept_passes :
  Kept Passes
  where
  refl := passes_refl
  trans := Passes.trans
  flush := passes_flush
  shift := passes_shift
  report _ s := passes_refl s
  within _ s _ h := (passes_flush s).trans h
  apart s _ h := (passes_flush s).trans h
  wrap _ _ _ h := h

/-- The trivia at the front of some tokens is no wider than what stands before a later place and
the trivia there. -/
theorem totalWidth_takeWhile_append (ts us : List Token) :
  Token.totalWidth ((ts ++ us).takeWhile Token.isTrivia)
    ≤ Token.totalWidth ts + Token.totalWidth (us.takeWhile Token.isTrivia)
  := by
  induction ts with
  | nil => simp
  | cons t ts ih =>
    cases htrivia : t.isTrivia with
    | true =>
      rw [List.cons_append, List.takeWhile_cons_of_pos htrivia, Token.totalWidth_cons,
        Token.totalWidth_cons]
      omega
    | false =>
      rw [List.cons_append, List.takeWhile_cons_of_neg (by rw [htrivia]; nofun),
        Token.totalWidth_nil]
      apply Nat.zero_le

/-- Reading on, the next token ahead does not come earlier. -/
theorem Passes.nextStart_le (h : s.Passes t) :
  s.nextStart ≤ t.nextStart
  := by
  obtain ⟨ts, hahead, hoffset⟩ := h
  have hwidth := totalWidth_takeWhile_append ts t.ahead.tokens
  rw [nextStart, nextStart, Input.trivia, Input.trivia, hahead, hoffset]
  omega

/-! ### Reports of a piece of reading -/

/-- From one state to another the faults of some reports were noted, in states that were passed one
after the other. -/
structure Notes (s : State) (rs : List Report) (t : State) : Prop where
  faults_eq : t.faults = (rs.map Report.fault).reverse ++ s.faults
  passes : s.Passes t
  within : ∀ r ∈ rs, s.Passes r.state ∧ r.state.Passes t
  ordered : rs.Pairwise fun q r => q.state.Passes r.state

/-- Nothing is noted on the way. -/
theorem Passes.notes (h : s.Passes t) (hfaults : t.faults = s.faults) :
  s.Notes [] t
  where
  faults_eq := hfaults
  passes := h
  within := List.forall_mem_nil _
  ordered := List.Pairwise.nil

theorem Notes.trans (h : s.Notes qs t) (h' : t.Notes rs u) :
  s.Notes (qs ++ rs) u
  where
  faults_eq := by
    rw [h'.faults_eq, h.faults_eq, List.map_append, List.reverse_append, List.append_assoc]
  passes := h.passes.trans h'.passes
  within := by
    intro r hr
    rcases List.mem_append.mp hr with hr | hr
    · exact ⟨(h.within r hr).1, (h.within r hr).2.trans h'.passes⟩
    · exact ⟨h.passes.trans (h'.within r hr).1, (h'.within r hr).2⟩
  ordered := by
    apply List.pairwise_append.mpr ⟨h.ordered, h'.ordered, _⟩
    intro q hq r hr
    apply (h.within q hq).2.trans (h'.within r hr).1

theorem notes_report (cause : Option TokenKind → Cause) (s : State) :
  s.Notes [⟨s, cause⟩] (s.report cause)
  where
  faults_eq := rfl
  passes := passes_refl s
  within := List.forall_mem_singleton.mpr ⟨passes_refl s, passes_refl s⟩
  ordered := List.pairwise_singleton _ _

/-- What is noted in a group is noted after the trivia before the group. -/
theorem Notes.group (h : (s.flush.withOut []).Notes rs t) (out : List Tree) :
  s.Notes rs (t.withOut out)
  where
  faults_eq := h.faults_eq
  passes := (passes_flush s).trans h.passes
  within r hr := ⟨(passes_flush s).trans (h.within r hr).1, (h.within r hr).2⟩
  ordered := h.ordered

/-- The trees of the group do not matter. -/
theorem Notes.withOut (h : s.Notes rs t) (out : List Tree) :
  s.Notes rs (t.withOut out)
  where
  faults_eq := h.faults_eq
  passes := h.passes
  within := h.within
  ordered := h.ordered

theorem notes_repeatWhile (test : Lookahead → Bool) {step : State → State}
    {reports : State → List Report} (hstep : ∀ s, Notes s (reports s) (step s)) (s : State) :
  s.Notes (s.reportsWhile test step reports) (s.repeatWhile test step)
  := by
  fun_induction State.repeatWhile test step s with
  | case1 s htest next hlt ih =>
    rw [reportsWhile, if_pos htest, if_pos hlt]
    apply (hstep s).trans ih
  | case2 s htest next hlt =>
    rw [reportsWhile, if_pos htest, if_neg hlt]
    apply hstep
  | case3 s htest =>
    rw [reportsWhile, if_neg htest]
    apply (passes_refl s).notes rfl

end State

variable {σ : Type}

/-- The faults that a rule notes are those of its reports, if this is so for the symbols. -/
theorem Rule.notes_run {inner : σ → State → State} {reportsOf : σ → State → List Report}
    (hinner : ∀ symbol s, State.Notes s (reportsOf symbol s) (inner symbol s)) (r : Rule σ)
    (s : State) :
  s.Notes (r.reports inner reportsOf s) (r.run inner s)
  := by
  induction r generalizing s with
  | pass => apply (State.passes_refl s).notes rfl
  | seq first second ih₁ ih₂ => apply (ih₁ s).trans (ih₂ _)
  | take => apply (State.kept_passes.take s).notes (State.faults_take s)
  | report cause => apply State.notes_report
  | node kind body ih => apply (ih _).group
  | apart body ih => apply (ih _).group
  | wrap kind body ih => apply (ih s).withOut
  | branch test yes no ih₁ ih₂ =>
    simp only [reports, run]
    split
    · apply ih₁
    · apply ih₂
  | loop test body ih => apply State.notes_repeatWhile test ih
  | unlessTaken body other ih₁ ih₂ =>
    simp only [reports, run, State.unlessTaken]
    split
    · apply (ih₁ s).trans (ih₂ _)
    · apply ih₁
  | nested symbol => apply hinner

/-- Skipping a level notes nothing. -/
theorem State.faults_skipLevel (s : State) :
  s.skipLevel.faults = s.faults
  := by
  have hlevel : ∀ opened (s : State), (s.takeLevel opened).faults = s.faults := by
    intro opened s
    fun_induction takeLevel opened s with
    | case1 opened s heq => rfl
    | case2 opened s opened' heq ih => rw [ih, faults_take]
  unfold skipLevel
  split
  · rfl
  · apply hlevel

/-- The faults that are noted in a construct are those of its reports. -/
theorem Grammar.notes_read (g : Grammar σ) (levels : Nat) (symbol : σ) (s : State) :
  s.Notes (g.reports levels symbol s) (g.read levels symbol s)
  := by
  induction levels generalizing symbol s with
  | zero =>
    apply (State.notes_report _ s).trans
    apply (State.kept_passes.skipLevel _).notes (State.faults_skipLevel _)
  | succ levels ih => apply Rule.notes_run ih

/-! ### Nodes that come with faults -/

namespace Rule

variable {kinds : NodeKind → Bool} {inner : σ → State → State}

/-- Whether a rule builds only nodes of the given kinds unless it notes a fault, symbols apart. -/
def buildsUnlessFaults (kinds : NodeKind → Bool) : Rule σ → Bool
  | .seq first second =>
    first.alwaysFaults || first.buildsUnlessFaults kinds && second.buildsUnlessFaults kinds
  | .node kind body => kinds kind && body.buildsUnlessFaults kinds
  | .apart body => body.buildsUnlessFaults kinds
  | .wrap kind body => kinds kind && body.buildsUnlessFaults kinds
  | .branch _ yes no => yes.buildsUnlessFaults kinds && no.buildsUnlessFaults kinds
  | .loop _ body => body.buildsUnlessFaults kinds
  | .unlessTaken body other => body.buildsUnlessFaults kinds && other.buildsUnlessFaults kinds
  | _ => true

/-- A run that notes no fault builds only nodes of the given kinds, if this is so for the
symbols. -/
theorem shaped_of_faults (hfaults : ∀ symbol s, s.faults <:+ (inner symbol s).faults)
    (hinner : ∀ symbol s, (inner symbol s).faults = s.faults →
      s.Shaped (fun kind _ => kinds kind = true) →
      (inner symbol s).Shaped fun kind _ => kinds kind = true)
    {r : Rule σ} (hr : r.buildsUnlessFaults kinds = true) {s : State}
    (h : (r.run inner s).faults = s.faults) (hs : s.Shaped fun kind _ => kinds kind = true) :
  (r.run inner s).Shaped fun kind _ => kinds kind = true
  := by
  induction r generalizing s with
  | pass => apply hs
  | seq first second ih₁ ih₂ =>
    obtain ⟨h₁, h₂⟩ := State.faults_eq_of_suffix (State.kept_faults.run hfaults first s)
      (State.kept_faults.run hfaults second _) h
    rw [buildsUnlessFaults, Bool.or_eq_true, Bool.and_eq_true] at hr
    rcases hr with hr | ⟨hr₁, hr₂⟩
    · apply absurd h₁ (faults_ne hfaults hr s)
    · apply ih₂ hr₂ h₂ (ih₁ hr₁ h₁ hs)
  | take => apply hs.take
  | report cause => apply hs
  | node kind body ih =>
    rw [buildsUnlessFaults, Bool.and_eq_true] at hr
    apply hs.within (ih hr.2 h (State.shaped_opened _)) hr.1
  | apart body ih => apply hs.apart (ih hr h (State.shaped_opened _))
  | wrap kind body ih =>
    rw [buildsUnlessFaults, Bool.and_eq_true] at hr
    apply State.Shaped.wrap (ih hr.2 h hs) hr.1
  | branch test yes no ih₁ ih₂ =>
    rw [buildsUnlessFaults, Bool.and_eq_true] at hr
    simp only [run] at h ⊢
    split at h
    · next htest =>
      rw [if_pos htest]
      apply ih₁ hr.1 h hs
    · next htest =>
      rw [if_neg htest]
      apply ih₂ hr.2 h hs
  | loop test body ih =>
    simp only [run] at h ⊢
    fun_induction State.repeatWhile test (body.run inner) s with
    | case1 s htest next hlt ih' =>
      obtain ⟨h₁, h₂⟩ := State.faults_eq_of_suffix (State.kept_faults.run hfaults body s)
        (State.kept_faults.repeatWhile test (State.kept_faults.run hfaults body) next) h
      apply ih' h₂ (ih hr h₁ hs)
    | case2 s htest next hlt => apply ih hr h hs
    | case3 s htest => apply hs
  | unlessTaken body other ih₁ ih₂ =>
    rw [buildsUnlessFaults, Bool.and_eq_true] at hr
    simp only [run, State.unlessTaken] at h ⊢
    split at h
    · next hcount =>
      obtain ⟨h₁, h₂⟩ := State.faults_eq_of_suffix (State.kept_faults.run hfaults body s)
        (State.kept_faults.run hfaults other _) h
      rw [if_pos hcount]
      apply ih₂ hr.2 h₂ (ih₁ hr.1 h₁ hs)
    · next hcount =>
      rw [if_neg hcount]
      apply ih₁ hr.1 h hs
  | nested symbol => apply hinner symbol s h hs

end Rule

/-- Constructs that are read without faults have only nodes of the given kinds, if their rules
build others only with a fault. -/
theorem Grammar.shaped_of_faults {kinds : NodeKind → Bool} {g : Grammar σ}
    (hg : ∀ symbol, (g symbol).buildsUnlessFaults kinds = true) (levels : Nat) (symbol : σ)
    (s : State) (h : (g.read levels symbol s).faults = s.faults)
    (hs : s.Shaped fun kind _ => kinds kind = true) :
  (g.read levels symbol s).Shaped fun kind _ => kinds kind = true
  := by
  induction levels generalizing symbol s with
  | zero => apply absurd h (faults_read_zero g symbol s)
  | succ levels ih =>
    apply Rule.shaped_of_faults (State.kept_faults.read g levels) ih (hg symbol) h hs

end InlayHints

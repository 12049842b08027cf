import InlayHints.Proofs.Grammar.Conservation

/-!
# Reading depends on the tokens ahead only

What was read before, the `Past`, does not influence reading.  A rule that is `Rule.framed`
leaves the trees alone that stand in its group already, and so reads a text in the same way
wherever the text stands: trees and faults come after those of the past, and offsets are
counted from where the past ends (`Rule.run_resume`).
-/

namespace InlayHints

/-- The fault in a text that has `n` bytes more before it. -/
def Fault.after (n : Nat) (f : Fault) : Fault := ⟨f.cause, n + f.offset⟩

/-- What was read before a place of a text. -/
structure Past where
  offset : Nat
  out : List Tree
  faults : List Fault

namespace Past

/-- The state of reading a text when the past was read before the text. -/
def resume (p : Past) (s : State) : State where
  ahead := s.ahead
  offset := p.offset + s.offset
  out := s.out ++ p.out
  faults := s.faults.map (Fault.after p.offset) ++ p.faults

/-- The past, for a group that is opened after it. -/
def opened (p : Past) : Past := { p with out := [] }

/-- The past does not influence a piece of reading. -/
def Frames (p : Past) (step : State → State) : Prop :=
  ∀ s, step (p.resume s) = p.resume (step s)

variable {p : Past} {step other : State → State}

theorem out_resume (p : Past) (s : State) :
  (p.resume s).out = s.out ++ p.out
  := rfl

theorem opened_resume (p : Past) (s : State) :
  (p.resume s).withOut [] = p.opened.resume (s.withOut [])
  := rfl

/-- After a group, the past is what it was before the group. -/
theorem withOut_opened_resume (p : Past) (s : State) (out : List Tree) :
  (p.opened.resume s).withOut (out ++ p.out) = p.resume (s.withOut out)
  := rfl

theorem out_opened_resume (p : Past) (s : State) :
  (p.opened.resume s).out = s.out
  := List.append_nil _

/-! ### Steps -/

theorem frames_flush :
  p.Frames State.flush
  := by
  intro s
  have hout : (p.resume s).flush.out = s.flush.out ++ p.out := by
    rw [State.out_flush, State.out_flush, List.append_assoc]
    rfl
  rw [resume, State.mk.injEq]
  refine ⟨rfl, ?_, hout, rfl⟩
  apply Nat.add_assoc

theorem frames_shift :
  p.Frames State.shift
  := by
  intro s
  have hahead : (p.resume s).ahead = s.ahead := rfl
  unfold State.shift
  rw [hahead]
  split
  · rfl
  · rw [resume, resume, State.mk.injEq]
    refine ⟨rfl, ?_, rfl, rfl⟩
    apply Nat.add_assoc

theorem frames_take :
  p.Frames State.take
  := by
  intro s
  rw [State.take, frames_flush, frames_shift]
  rfl

theorem frames_report (cause : Option TokenKind → Cause) :
  p.Frames (State.report cause)
  := by
  intro s
  rw [State.report, State.report, resume, resume, State.mk.injEq]
  refine ⟨rfl, rfl, rfl, ?_⟩
  rw [List.map_cons, List.cons_append, Fault.after, Nat.add_assoc]
  rfl

/-! ### Groups -/

theorem frames_within (kind : NodeKind) (h : p.opened.Frames step) :
  p.Frames (State.within kind step)
  := by
  intro s
  simp only [State.within]
  rw [frames_flush, opened_resume, h, out_opened_resume, out_resume, ← List.cons_append]
  apply withOut_opened_resume

theorem frames_apart (h : p.opened.Frames step) :
  p.Frames (State.apart step)
  := by
  intro s
  simp only [State.apart]
  rw [frames_flush, opened_resume, h, out_opened_resume, out_resume, ← List.append_assoc]
  apply withOut_opened_resume

/-- A node of a whole group does not reach into the past if the group starts after it. -/
theorem frames_wrap (kind : NodeKind) (h : p.Frames step) (hp : p.out = []) :
  p.Frames (State.wrap kind step)
  := by
  intro s
  simp only [State.wrap]
  rw [h, out_resume, hp, List.append_nil, resume, resume, hp]
  rfl

/-! ### Repetition -/

theorem frames_repeatWhile (test : Lookahead → Bool) (h : p.Frames step) :
  p.Frames (State.repeatWhile test step)
  := by
  intro s
  fun_induction State.repeatWhile test step s with
  | case1 s htest next hlt ih =>
    have hlt : (step (p.resume s)).count < (p.resume s).count := by rw [h]; apply hlt
    rw [State.repeatWhile_of_lt (s := p.resume s) htest hlt, h, ih]
  | case2 s htest next hlt =>
    have hlt : ¬ (step (p.resume s)).count < (p.resume s).count := by rw [h]; apply hlt
    rw [State.repeatWhile_of_not_lt (s := p.resume s) htest hlt, h]
  | case3 s htest => rw [State.repeatWhile_of_false (s := p.resume s) htest]

theorem frames_unlessTaken (h : p.Frames step) (hother : p.Frames other) :
  p.Frames (State.unlessTaken step other)
  := by
  intro s
  have hcount : (p.resume (step s)).count = (p.resume s).count ↔ (step s).count = s.count :=
    Iff.rfl
  simp only [State.unlessTaken, h s, hcount]
  split
  · apply hother
  · rfl

theorem frames_takeLevel (opened : Nat) :
  p.Frames (State.takeLevel opened)
  := by
  intro s
  fun_induction State.takeLevel opened s with
  | case1 opened s heq => rw [State.takeLevel_of_none (s := p.resume s) heq]
  | case2 opened s opened' heq ih =>
    rw [State.takeLevel_of_some (s := p.resume s) heq, frames_take, ih]

theorem frames_skipLevel :
  p.Frames State.skipLevel
  := by
  intro s
  have hnext : (p.resume s).nextBalance? 0 = s.nextBalance? 0 := rfl
  unfold State.skipLevel
  rw [hnext]
  split
  · rfl
  · apply frames_within .error (frames_takeLevel 0)

end Past

/-! ### Rules -/

namespace Rule

variable {σ : Type} {inner : σ → State → State}

/-- Whether a rule makes nodes only of what it read itself: it takes a whole group only if it
has opened the group. -/
def framed : Rule σ → Bool
  | .seq first second => first.framed && second.framed
  | .wrap _ _ => false
  | .branch _ yes no => yes.framed && no.framed
  | .loop _ body => body.framed
  | .unlessTaken body other => body.framed && other.framed
  | _ => true

/-- The past does not influence a rule that is framed, nor any rule in a group that was opened
after it. -/
theorem frames_run (hinner : ∀ p symbol, Past.Frames p (inner symbol)) {r : Rule σ} {p : Past}
    (h : r.framed = true ∨ p.out = []) :
  p.Frames (r.run inner)
  := by
  induction r generalizing p with
  | pass =>
    intro s
    rfl
  | seq first second ih₁ ih₂ =>
    simp only [framed, Bool.and_eq_true] at h
    intro s
    simp only [run]
    rw [ih₁ (h.imp_left And.left), ih₂ (h.imp_left And.right)]
  | take => apply Past.frames_take
  | report cause => apply Past.frames_report
  | node kind body ih => apply Past.frames_within kind (ih (Or.inr rfl))
  | apart body ih => apply Past.frames_apart (ih (Or.inr rfl))
  | wrap kind body ih =>
    have hp : p.out = [] := h.resolve_left Bool.false_ne_true
    apply Past.frames_wrap kind (ih (Or.inr hp)) hp
  | branch test yes no ih₁ ih₂ =>
    simp only [framed, Bool.and_eq_true] at h
    intro s
    have hlook : (p.resume s).look = s.look := rfl
    simp only [run]
    rw [hlook]
    split
    · apply ih₁ (h.imp_left And.left)
    · apply ih₂ (h.imp_left And.right)
  | loop test body ih => apply Past.frames_repeatWhile test (ih h)
  | unlessTaken body other ih₁ ih₂ =>
    simp only [framed, Bool.and_eq_true] at h
    apply Past.frames_unlessTaken (ih₁ (h.imp_left And.left)) (ih₂ (h.imp_left And.right))
  | nested symbol => apply hinner

end Rule

/-- The past does not influence the reading of a construct, if all rules are framed. -/
theorem Grammar.frames_read {σ : Type} {g : Grammar σ} (hg : ∀ symbol, (g symbol).framed = true)
    (levels : Nat) (p : Past) (symbol : σ) :
  p.Frames (g.read levels symbol)
  := by
  induction levels generalizing p symbol with
  | zero =>
    intro s
    simp only [read]
    rw [Past.frames_report, Past.frames_skipLevel]
  | succ levels ih => apply Rule.frames_run ih (Or.inl (hg symbol))

namespace State

/-- What was read before a state. -/
def past (s : State) : Past := ⟨s.offset, s.out, s.faults⟩

/-- A state is the start of what is ahead, after its past. -/
theorem resume_start (s : State) :
  s.past.resume (start s.ahead.tokens) = s
  := by
  obtain ⟨⟨tokens, count, rfl⟩, offset, out, faults⟩ := s
  rfl

/-- What a piece of reading without influence of the past builds comes after what was built. -/
theorem exists_out_eq {step : State → State} (h : ∀ p : Past, p.Frames step) (s : State) :
  ∃ out, (step s).out = out ++ s.out
  := by
  use (step (start s.ahead.tokens)).out
  calc (step s).out
    _ = (step (s.past.resume (start s.ahead.tokens))).out := by rw [resume_start]
    _ = (s.past.resume (step (start s.ahead.tokens))).out := by rw [h]
    _ = (step (start s.ahead.tokens)).out ++ s.out := rfl

end State

/-! ### The language -/

namespace Construct

theorem framed_grammar (symbol : Symbol) :
  (grammar symbol).framed = true
  := by
  cases symbol with
  | expression power => rfl
  | operand => rfl
  | block => rfl

theorem frames_read (levels : Nat) (p : Past) (symbol : Symbol) :
  p.Frames (grammar.read levels symbol)
  := Grammar.frames_read framed_grammar levels p symbol

end Construct

end InlayHints

import InlayHints.Syntax.Parse

/-!
# What reading keeps

A relation between the state before and the state after a piece of reading is kept by all
reading if the smallest steps keep it and grouping does.  `State.Kept` collects what has to
be known of the relation, and `State.Kept.finalState` draws the conclusion for a whole file:
by recursion on rules for `Rule.run`, and by recursion on the levels for `Grammar.read`.
-/

namespace InlayHints

namespace State

section

variable {test : Lookahead → Bool} {step : State → State} {s : State}

theorem repeatWhile_of_lt (htest : test s.look = true) (hlt : (step s).count < s.count) :
  s.repeatWhile test step = (step s).repeatWhile test step
  := by
  rw [repeatWhile, if_pos htest]
  apply if_pos hlt

theorem repeatWhile_of_not_lt (htest : test s.look = true) (hlt : ¬ (step s).count < s.count) :
  s.repeatWhile test step = step s
  := by
  rw [repeatWhile, if_pos htest]
  apply if_neg hlt

theorem repeatWhile_of_false (htest : ¬ test s.look = true) :
  s.repeatWhile test step = s
  := by
  rw [repeatWhile, if_neg htest]

/-- What a repetition keeps holds where it stops, and there its test fails, if every round takes
tokens. -/
theorem repeatWhile_induct {test : Lookahead → Bool} {I : State → Prop}
    (hstep : ∀ s, test s.look = true → I s → I (step s) ∧ (step s).count < s.count) (hs : I s) :
  I (s.repeatWhile test step) ∧ test (s.repeatWhile test step).look = false
  := by
  fun_induction State.repeatWhile test step s with
  | case1 s htest next hlt ih => apply ih (hstep s htest hs).1
  | case2 s htest next hlt => apply absurd (hstep s htest hs).2 hlt
  | case3 s htest => exact ⟨hs, Bool.eq_false_iff.mpr htest⟩

end

theorem takeLevel_of_none {opened : Nat} {s : State} (h : s.nextBalance? opened = none) :
  s.takeLevel opened = s
  := by
  rw [takeLevel]
  split
  · rfl
  · next hsome =>
    rw [h] at hsome
    contradiction

theorem takeLevel_of_some {opened opened' : Nat} {s : State}
    (h : s.nextBalance? opened = some opened') :
  s.takeLevel opened = s.take.takeLevel opened'
  := by
  rw [takeLevel]
  split
  · next hnone =>
    rw [h] at hnone
    contradiction
  · next hsome =>
    rw [h, Option.some_inj] at hsome
    rw [hsome]

/-- A relation between the states before and after a piece of reading that the steps keep
and that passes from what is read inside a group to the state with the group added. -/
structure Kept (P : State → State → Prop) : Prop where
  refl : ∀ s, P s s
  trans : ∀ {s t u}, P s t → P t u → P s u
  flush : ∀ s, P s s.flush
  shift : ∀ s, P s s.shift
  report : ∀ cause s, P s (s.report cause)
  within : ∀ kind (s t : State), P (s.flush.withOut []) t →
    P s (t.withOut (.node kind t.out.reverse :: s.flush.out))
  apart : ∀ s t : State, P (s.flush.withOut []) t → P s (t.withOut (t.out ++ s.flush.out))
  wrap : ∀ kind (s t : State), P s t → P s (t.withOut [.node kind t.out.reverse])

namespace Kept

variable {P : State → State → Prop} {σ : Type}

theorem take (h : Kept P) (s : State) :
  P s s.take
  := h.trans (h.flush s) (h.shift s.flush)

theorem takeLevel (h : Kept P) (opened : Nat) (s : State) :
  P s (s.takeLevel opened)
  := by
  fun_induction State.takeLevel opened s with
  | case1 opened s heq => apply h.refl
  | case2 opened s opened' heq ih => apply h.trans (h.take s) ih

theorem skipLevel (h : Kept P) (s : State) :
  P s s.skipLevel
  := by
  unfold State.skipLevel
  split
  · apply h.refl
  · apply h.within
    apply h.takeLevel

theorem repeatWhile (h : Kept P) (test : Lookahead → Bool) {step : State → State}
    (hstep : ∀ s, P s (step s)) (s : State) :
  P s (s.repeatWhile test step)
  := by
  fun_induction State.repeatWhile test step s with
  | case1 s htest next hlt ih => apply h.trans (hstep s) ih
  | case2 s htest next hlt => apply hstep
  | case3 s htest => apply h.refl

theorem unlessTaken (h : Kept P) {step other : State → State} (hstep : ∀ s, P s (step s))
    (hother : ∀ s, P s (other s)) (s : State) :
  P s (s.unlessTaken step other)
  := by
  simp only [State.unlessTaken]
  split
  · apply h.trans (hstep s) (hother _)
  · apply hstep

/-- What the meaning of the symbols keeps, the meaning of a rule keeps. -/
theorem run (h : Kept P) {inner : σ → State → State} (hinner : ∀ symbol s, P s (inner symbol s))
    (r : Rule σ) (s : State) :
  P s (r.run inner s)
  := by
  induction r generalizing s with
  | pass => apply h.refl
  | seq first second ih₁ ih₂ => apply h.trans (ih₁ s) (ih₂ _)
  | take => apply h.take
  | report cause => apply h.report
  | node kind body ih => apply h.within kind s _ (ih _)
  | apart body ih => apply h.apart s _ (ih _)
  | wrap kind body ih => apply h.wrap kind s _ (ih _)
  | branch test yes no ih₁ ih₂ =>
    simp only [Rule.run]
    split
    · apply ih₁
    · apply ih₂
  | loop test body ih => apply h.repeatWhile test ih
  | unlessTaken body other ih₁ ih₂ => apply h.unlessTaken ih₁ ih₂
  | nested symbol => apply hinner

/-- Reading a construct keeps the relation, however deep it may nest. -/
theorem read (h : Kept P) (g : Grammar σ) (levels : Nat) (symbol : σ) (s : State) :
  P s (g.read levels symbol s)
  := by
  induction levels generalizing symbol s with
  | zero => apply h.trans (h.report _ s) (h.skipLevel _)
  | succ levels ih => apply h.run ih

/-- Reading a whole file keeps the relation. -/
theorem finalState (h : Kept P) (ts : List Token) :
  P (.start ts) (Parse.finalState ts)
  := by
  apply h.trans (h.run (h.read _ _) _ _) (h.flush _)

end Kept

end State

end InlayHints

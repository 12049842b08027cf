import Mathlib.Tactic.Use
import InlayHints.Proofs.Grammar.Preservation

/-!
# No token is lost

Reading moves tokens from the tokens ahead into the trees of the innermost group, in order,
and does nothing else to them.  `State.Takes s t` says so of the states before and after a
piece of reading, and `kept_takes` says that all reading is of this kind, faults and skipped
levels included.
-/

namespace InlayHints

namespace State

/-- The tokens of the innermost group, from left to right. -/
def taken (s : State) : List Token := s.out.reverse.flatMap Tree.tokens

/-- Between two states some tokens went, in order, from the tokens ahead into the group. -/
def Takes (s t : State) : Prop :=
  ∃ ts, s.ahead.tokens = ts ++ t.ahead.tokens ∧ t.taken = s.taken ++ ts

@[simp]
theorem ahead_withOut (s : State) (out : List Tree) :
  (s.withOut out).ahead = s.ahead
  := rfl

@[simp]
theorem taken_withOut (s : State) (out : List Tree) :
  (s.withOut out).taken = out.reverse.flatMap Tree.tokens
  := rfl

theorem out_flush (s : State) :
  s.flush.out = (s.ahead.trivia.map Tree.token).reverse ++ s.out
  := by
  simp only [flush]
  induction s.ahead.trivia generalizing s with
  | nil => rfl
  | cons t ts ih =>
    rw [List.foldl_cons, ih { s with out := .token t :: s.out }]
    simp

theorem taken_flush (s : State) :
  s.flush.taken = s.taken ++ s.ahead.trivia
  := by
  simp [taken, out_flush, List.flatMap_map]

theorem trivia_append_flush (s : State) :
  s.ahead.trivia ++ s.flush.ahead.tokens = s.ahead.tokens
  := List.takeWhile_append_dropWhile

theorem takes_flush (s : State) :
  s.Takes s.flush
  := by
  use s.ahead.trivia
  constructor
  · rw [trivia_append_flush]
  · apply taken_flush

theorem takes_shift (s : State) :
  s.Takes s.shift
  := by
  unfold shift
  split
  · use []
    simp
  · next t ts heq =>
    use [t]
    constructor
    · simp [Input.tail, heq]
    · simp [taken]

/-- What was taken inside a group was taken after what stood before the group. -/
theorem takes_group {s t : State} (h : (s.flush.withOut []).Takes t) {out : List Tree}
    (hout : out.reverse.flatMap Tree.tokens = s.flush.taken ++ t.taken) :
  s.Takes (t.withOut out)
  := by
  obtain ⟨ts, hahead, htaken⟩ := h
  use s.ahead.trivia ++ ts
  constructor
  · rw [← trivia_append_flush s]
    simpa using hahead
  · rw [taken_withOut, hout, taken_flush, htaken]
    simp

/-- All reading takes tokens in order and loses none. -/
theorem kept_takes :
  Kept Takes
  where
  refl s := ⟨[], by simp⟩
  trans := by
    rintro s t u ⟨ts, hahead, htaken⟩ ⟨us, hahead', htaken'⟩
    use ts ++ us
    constructor
    · rw [hahead, hahead', List.append_assoc]
    · rw [htaken', htaken, List.append_assoc]
  flush := takes_flush
  shift := takes_shift
  report cause s := ⟨[], by simp [report, taken]⟩
  within kind s t h := by
    apply takes_group h
    simp [taken]
  apart s t h := by
    apply takes_group h
    simp [taken]
  wrap kind s t h := by
    obtain ⟨ts, hahead, htaken⟩ := h
    use ts
    constructor
    · apply hahead
    · rw [← htaken, taken_withOut, taken]
      simp

/-- Reading never makes the tokens ahead more. -/
theorem Takes.count_le {s t : State} (h : s.Takes t) :
  t.count ≤ s.count
  := by
  obtain ⟨ts, hahead, -⟩ := h
  simp [count, Input.count_eq, hahead]

/-- If the tokens ahead did not get fewer, they are the same. -/
theorem Takes.tokens_eq {s t : State} (h : s.Takes t) (hcount : t.count = s.count) :
  t.ahead.tokens = s.ahead.tokens
  := by
  obtain ⟨ts, hahead, -⟩ := h
  have hnil : ts = [] := by
    simpa [count, Input.count_eq, hahead] using hcount
  rw [hahead, hnil, List.nil_append]

end State

end InlayHints

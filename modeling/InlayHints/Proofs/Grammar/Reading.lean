import Mathlib.Logic.Relation
import InlayHints.Proofs.Grammar.Bare

/-!
# Reading without faults

`Rule.Reads` is the meaning of a rule on bare states, as long as no fault is found: a relation
between the bare states before and after, given such a relation for every symbol.  It says
nothing of trivia, which reading without faults does not depend on.

Whether a rule takes a token can often be told from its shape, `Rule.takes`.  A rule that is
`Rule.productive` takes a token in every round of its loops and gives up an item only with a
fault.  No rule can be read in two ways (`Rule.rightUnique_reads`).
-/

namespace InlayHints

open Relation

namespace Bare

/-- A token is ahead if this is known, or if a test tells what is ahead from the end. -/
theorem ahead_ne_nil {b : Bare} {ahead differs : Bool} (test : Lookahead → Bool)
    (hb : ahead = true → b.ahead ≠ [])
    (htest : differs = true → test b.look ≠ test ⟨none, none⟩) :
  (ahead || differs) = true → b.ahead ≠ []
  := by
  intro h hnil
  rw [Bool.or_eq_true] at h
  rcases h with h | h
  · apply hb h hnil
  · apply htest h
    simp [look, hnil, Lookahead.ofTokens]

end Bare

namespace Rule

variable {σ : Type}

/-- The meaning of a rule on bare states where no fault is found, for a given meaning of the
symbols. -/
def Reads (R : σ → Bare → Bare → Prop) : Rule σ → Bare → Bare → Prop
  | .pass => fun b c => c = b
  | .seq first second => fun b d => ∃ c, first.Reads R b c ∧ second.Reads R c d
  | .take => fun b c => c = b.take
  | .report _ => fun _ _ => False
  | .node kind body => fun b c =>
    ∃ d, body.Reads R b.opened d ∧ c = ⟨d.ahead, .node kind d.out.reverse :: b.out⟩
  | .apart body => fun b c => ∃ d, body.Reads R b.opened d ∧ c = ⟨d.ahead, d.out ++ b.out⟩
  | .wrap kind body => fun b c =>
    ∃ d, body.Reads R b d ∧ c = ⟨d.ahead, [.node kind d.out.reverse]⟩
  | .branch test yes no => fun b c => if test b.look then yes.Reads R b c else no.Reads R b c
  | .loop test body => fun b c =>
    ReflTransGen (fun b c => test b.look = true ∧ body.Reads R b c) b c ∧ test c.look = false
  | .unlessTaken body _ => fun b c => body.Reads R b c ∧ c.ahead.length < b.ahead.length
  | .nested symbol => R symbol

/-! ### Rules that take tokens -/

/-- Whether a rule takes a token whenever it finds no fault; `ahead` says that a token is
known to be ahead. -/
def takes (ahead : Bool) : Rule σ → Bool
  | .pass => false
  | .seq first second => first.takes ahead || second.takes ahead
  | .take => ahead
  | .report _ => true
  | .node _ body => body.takes ahead
  | .apart body => body.takes ahead
  | .wrap _ body => body.takes ahead
  | .branch test yes no =>
    yes.takes (ahead || !test ⟨none, none⟩) && no.takes (ahead || test ⟨none, none⟩)
  | .loop _ _ => false
  | .unlessTaken _ _ => true
  | .nested _ => true

/-- Whether a rule takes either a significant token or nothing, trivia included, whenever it
finds no fault. -/
def keepsStill (ahead : Bool) : Rule σ → Bool
  | .pass => true
  | .branch test yes no =>
    yes.keepsStill (ahead || !test ⟨none, none⟩) && no.keepsStill (ahead || test ⟨none, none⟩)
  | r => r.takes ahead

/-- Whether a rule notes a fault in any case. -/
def alwaysFaults : Rule σ → Bool
  | .report _ => true
  | .seq first second => first.alwaysFaults || second.alwaysFaults
  | _ => false

/-- Whether all loops of a rule take a token in every round, and items are given up only
with a fault. -/
def productive : Rule σ → Bool
  | .seq first second => first.productive && second.productive
  | .node _ body => body.productive
  | .apart body => body.productive
  | .wrap _ body => body.productive
  | .branch _ yes no => yes.productive && no.productive
  | .loop test body => !test ⟨none, none⟩ && body.takes true && body.productive
  | .unlessTaken body other => body.keepsStill false && body.productive && other.alwaysFaults
  | _ => true

variable {R : σ → Bare → Bare → Prop}

/-- Reading without faults never makes the tokens ahead more. -/
theorem Reads.length_le (hR : ∀ {symbol b c}, R symbol b c → c.ahead.length < b.ahead.length)
    {r : Rule σ} {b c : Bare} (h : r.Reads R b c) :
  c.ahead.length ≤ b.ahead.length
  := by
  induction r generalizing b c with
  | pass => rw [h]
  | seq first second ih₁ ih₂ =>
    obtain ⟨d, h₁, h₂⟩ := h
    apply le_trans (ih₂ h₂) (ih₁ h₁)
  | take =>
    rw [h, Bare.take]
    split <;> simp [*]
  | report cause => apply h.elim
  | node kind body ih =>
    obtain ⟨d, h, rfl⟩ := h
    apply ih h
  | apart body ih =>
    obtain ⟨d, h, rfl⟩ := h
    apply ih h
  | wrap kind body ih =>
    obtain ⟨d, h, rfl⟩ := h
    apply ih h
  | branch test yes no ih₁ ih₂ =>
    simp only [Reads] at h
    split at h
    · apply ih₁ h
    · apply ih₂ h
  | loop test body ih =>
    obtain ⟨h, -⟩ := h
    induction h with
    | refl => rfl
    | tail _ hstep ih' => apply le_trans (ih hstep.2) ih'
  | unlessTaken body other ih₁ ih₂ => apply le_of_lt h.2
  | nested symbol => apply le_of_lt (hR h)

/-- A rule that takes a token does take one. -/
theorem Reads.length_lt (hR : ∀ {symbol b c}, R symbol b c → c.ahead.length < b.ahead.length)
    {r : Rule σ} {ahead : Bool} (hr : r.takes ahead = true) {b c : Bare}
    (hb : ahead = true → b.ahead ≠ []) (h : r.Reads R b c) :
  c.ahead.length < b.ahead.length
  := by
  induction r generalizing ahead b c with
  | pass => simp [takes] at hr
  | seq first second ih₁ ih₂ =>
    obtain ⟨d, h₁, h₂⟩ := h
    have hle₁ := h₁.length_le hR
    have hle₂ := h₂.length_le hR
    simp only [takes, Bool.or_eq_true] at hr
    rcases hr with hr | hr
    · have := ih₁ hr hb h₁
      omega
    · by_cases heq : d.ahead.length = b.ahead.length
      · have hd : ahead = true → d.ahead ≠ [] := by
          intro hahead
          rw [← List.length_pos_iff, heq, List.length_pos_iff]
          apply hb hahead
        have := ih₂ hr hd h₂
        omega
      · omega
  | take =>
    have hne := hb hr
    rw [h, Bare.take]
    split
    · contradiction
    · simp [*]
  | report cause => apply h.elim
  | node kind body ih =>
    obtain ⟨d, h, rfl⟩ := h
    apply ih hr (b := b.opened) hb h
  | apart body ih =>
    obtain ⟨d, h, rfl⟩ := h
    apply ih hr (b := b.opened) hb h
  | wrap kind body ih =>
    obtain ⟨d, h, rfl⟩ := h
    apply ih hr hb h
  | branch test yes no ih₁ ih₂ =>
    simp only [takes, Bool.and_eq_true] at hr
    simp only [Reads] at h
    split at h
    · next htest =>
      apply ih₁ hr.1 _ h
      apply Bare.ahead_ne_nil test hb
      simp [htest]
    · next htest =>
      apply ih₂ hr.2 _ h
      apply Bare.ahead_ne_nil test hb
      simp [htest]
  | loop test body ih => simp [takes] at hr
  | unlessTaken body other ih₁ ih₂ => apply h.2
  | nested symbol => apply hR h

/-! ### Reading in one way -/

/-- Rounds that can be taken in one way only lead to where no more can be taken, from every place
that they pass. -/
theorem rounds_of_stuck {step : Bare → Bare → Prop} (hstep : Relator.RightUnique step)
    {b c d : Bare} (hd : ReflTransGen step b d) (hstuck : ∀ e, ¬ step d e)
    (hc : ReflTransGen step b c) :
  ReflTransGen step c d
  := by
  rcases ReflTransGen.total_of_right_unique hstep hd hc with h | h
  · rcases h.cases_head with rfl | ⟨e, he, -⟩
    · apply ReflTransGen.refl
    · apply absurd he (hstuck e)
  · apply h

/-- A rule can be read in one way only, if this is so for the symbols. -/
theorem rightUnique_reads (hR : ∀ symbol, Relator.RightUnique (R symbol)) (r : Rule σ) :
  Relator.RightUnique (r.Reads R)
  := by
  induction r with
  | pass => exact fun _ _ _ h h' => h.trans h'.symm
  | seq first second ih₁ ih₂ =>
    rintro b d d' ⟨c, h₁, h₂⟩ ⟨c', h₁', h₂'⟩
    obtain rfl := ih₁ h₁ h₁'
    apply ih₂ h₂ h₂'
  | take => exact fun _ _ _ h h' => h.trans h'.symm
  | report cause => exact fun _ _ _ h _ => h.elim
  | node kind body ih =>
    rintro b c c' ⟨d, h, rfl⟩ ⟨d', h', rfl⟩
    rw [ih h h']
  | apart body ih =>
    rintro b c c' ⟨d, h, rfl⟩ ⟨d', h', rfl⟩
    rw [ih h h']
  | wrap kind body ih =>
    rintro b c c' ⟨d, h, rfl⟩ ⟨d', h', rfl⟩
    rw [ih h h']
  | branch test yes no ih₁ ih₂ =>
    intro b c c' h h'
    simp only [Reads] at h h'
    split at h
    · next htest =>
      rw [if_pos htest] at h'
      apply ih₁ h h'
    · next htest =>
      rw [if_neg htest] at h'
      apply ih₂ h h'
  | loop test body ih =>
    rintro b c c' ⟨h, hstop⟩ ⟨h', hstop'⟩
    have hstep : Relator.RightUnique fun b c => test b.look = true ∧ body.Reads R b c :=
      fun _ _ _ h h' => ih h.2 h'.2
    have hrounds := rounds_of_stuck hstep h' (by simp [hstop']) h
    rcases hrounds.cases_head with rfl | ⟨e, ⟨htest, -⟩, -⟩
    · rfl
    · rw [hstop] at htest
      contradiction
  | unlessTaken body other ih _ => exact fun _ _ _ h h' => ih h.1 h'.1
  | nested symbol => apply hR

end Rule

end InlayHints

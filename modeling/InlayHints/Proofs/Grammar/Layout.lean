import Mathlib
import InlayHints.Syntax.Kind

/-!
# Layouts

A layout describes which parts a node may have, and in which order: it is a regular expression
over the kinds of parts, and `Layout.language` are the sequences that it allows.  What all of
these have in common can be computed from the layout: that all parts are of some kinds
(`Layout.only`), that a part of some kinds occurs at most once or at least once, and that parts of
some kinds come only after one of other kinds (`Layout.leads`).
-/

namespace InlayHints

open scoped Computability

theorem Kind.mem_all (k : Kind) :
  k ∈ all
  := by
  cases k with
  | token k => cases k <;> decide
  | endOfText => decide
  | node k => cases k <;> decide

/-- Whether a kind is that of a token. -/
def Kind.isToken : Kind → Bool
  | .token _ => true
  | _ => false

/-- A description of sequences of parts. -/
inductive Layout where
  /-- No part. -/
  | nothing
  /-- One part whose kind satisfies `p`. -/
  | one (p : Kind → Bool)
  /-- One thing after the other. -/
  | seq (first second : Layout)
  /-- One of two things. -/
  | either (left right : Layout)
  /-- Any number of things, one after the other. -/
  | many (each : Layout)

namespace Layout

instance : AndThen Layout := ⟨fun first second => .seq first (second ())⟩

/-- One part of one of the given kinds. -/
def oneOf (ks : List Kind) : Layout := one (· ∈ ks)

/-- One token of the given kind. -/
def token (k : TokenKind) : Layout := oneOf [.token k]

/-- One node of the given kind. -/
def node (k : NodeKind) : Layout := oneOf [.node k]

/-- Something that may be missing. -/
def maybe (l : Layout) : Layout := either l nothing

/-- Things with commas between them, where any of them may be missing but the first. -/
def commaList (item : Layout) : Layout := maybe (item >> many (token .comma >> maybe item))

/-- Tokens of any kinds, at least one. -/
def tokens : Layout := one Kind.isToken >> many (one Kind.isToken)

/-- The sequences of kinds that a layout allows. -/
def language : Layout → Language Kind
  | .nothing => 1
  | .one p => { ks | ∃ k, p k = true ∧ ks = [k] }
  | .seq first second => first.language * second.language
  | .either left right => left.language + right.language
  | .many each => each.language∗

variable {l : Layout} {ks : List Kind} {k : Kind} {p q : Kind → Bool}

/-! ### Sequences of a layout -/

@[simp]
theorem mem_nothing :
  ks ∈ nothing.language ↔ ks = []
  := Iff.rfl

@[simp]
theorem mem_one :
  ks ∈ (one p).language ↔ ∃ k, p k = true ∧ ks = [k]
  := Iff.rfl

@[simp]
theorem mem_oneOf {choice : List Kind} :
  ks ∈ (oneOf choice).language ↔ ∃ k ∈ choice, ks = [k]
  := by
  simp [oneOf]

@[simp]
theorem mem_token {k : TokenKind} :
  ks ∈ (token k).language ↔ ks = [.token k]
  := by
  simp [token]

@[simp]
theorem mem_node {k : NodeKind} :
  ks ∈ (node k).language ↔ ks = [.node k]
  := by
  simp [node]

@[simp]
theorem mem_andThen {m : Layout} :
  ks ∈ (l >> m).language ↔ ∃ xs ∈ l.language, ∃ ys ∈ m.language, xs ++ ys = ks
  := Language.mem_mul

@[simp]
theorem mem_maybe :
  ks ∈ (maybe l).language ↔ ks ∈ l.language ∨ ks = []
  := Iff.rfl

@[simp]
theorem mem_many :
  ks ∈ (many l).language ↔ ∃ xss : List (List Kind), ks = xss.flatten ∧ ∀ xs ∈ xss, xs ∈ l.language
  := Language.mem_kstar

/-- Tokens side by side are all there is, and they are some. -/
theorem mem_tokens :
  ks ∈ tokens.language ↔ ks ≠ [] ∧ ∀ k ∈ ks, k.isToken = true
  := by
  constructor
  · rintro h
    obtain ⟨xs, ⟨k, hk, rfl⟩, ys, hys, rfl⟩ := mem_andThen.mp h
    obtain ⟨yss, rfl, hyss⟩ := mem_many.mp hys
    use List.cons_ne_nil _ _
    rw [List.singleton_append, List.forall_mem_cons]
    use hk
    intro j hj
    obtain ⟨ys, hys, hj⟩ := List.mem_flatten.mp hj
    obtain ⟨i, hi, rfl⟩ := hyss ys hys
    rw [List.mem_singleton.mp hj]
    apply hi
  · rintro ⟨hne, hks⟩
    cases ks with
    | nil => contradiction
    | cons k ks =>
      rw [List.forall_mem_cons] at hks
      refine mem_andThen.mpr ⟨[k], ⟨k, hks.1, rfl⟩, ks, mem_many.mpr ?_, rfl⟩
      use ks.map fun k => [k]
      constructor
      · rw [← List.flatMap_def, List.flatMap_singleton']
      · intro xs hxs
        obtain ⟨j, hj, rfl⟩ := List.mem_map.mp hxs
        exact ⟨j, hks.2 j hj, rfl⟩

/-- What is allowed is allowed where it may be missing. -/
theorem language_le_maybe (l : Layout) :
  l.language ≤ (maybe l).language
  := by
  intro ks hks
  apply Or.inl hks

theorem language_nothing_le_maybe (l : Layout) :
  nothing.language ≤ (maybe l).language
  := by
  rintro ks rfl
  apply Or.inr rfl

/-- A part of some kinds is a part of more kinds. -/
theorem language_one_le (h : ∀ k, p k = true → q k = true) :
  (one p).language ≤ (one q).language
  := by
  rintro ks ⟨k, hk, rfl⟩
  exact ⟨k, h k hk, rfl⟩

theorem language_oneOf_le {choice : List Kind} (h : ∀ k ∈ choice, q k = true) :
  (oneOf choice).language ≤ (one q).language
  := by
  apply language_one_le
  intro k hk
  apply h k (of_decide_eq_true hk)

theorem maybe_mono {m : Layout} (h : l.language ≤ m.language) :
  (maybe l).language ≤ (maybe m).language
  := by
  rintro ks (hks | rfl)
  · apply Or.inl (h hks)
  · apply Or.inr rfl

/-! ### What sequences have in common -/

/-- Whether the kinds of all parts satisfy `p`. -/
def only (p : Kind → Bool) : Layout → Bool
  | .nothing => true
  | .one q => Kind.all.all fun k => !q k || p k
  | .seq first second => first.only p && second.only p
  | .either left right => left.only p && right.only p
  | .many each => each.only p

/-- Whether no part has a kind that satisfies `p`. -/
def avoids (p : Kind → Bool) (l : Layout) : Bool := l.only (!p ·)

/-- Whether at most one part has a kind that satisfies `p`. -/
def atMostOnce (p : Kind → Bool) : Layout → Bool
  | .nothing => true
  | .one _ => true
  | .seq first second =>
    first.avoids p && second.atMostOnce p || first.atMostOnce p && second.avoids p
  | .either left right => left.atMostOnce p && right.atMostOnce p
  | .many each => each.avoids p

/-- Whether at least one part has a kind that satisfies `p`. -/
def atLeastOnce (p : Kind → Bool) : Layout → Bool
  | .nothing => false
  | .one q => Kind.all.all fun k => !q k || p k
  | .seq first second => first.atLeastOnce p || second.atLeastOnce p
  | .either left right => left.atLeastOnce p && right.atLeastOnce p
  | .many _ => false

/-- Whether parts whose kinds satisfy `q` come only after one whose kind satisfies `p`. -/
def leads (p q : Kind → Bool) : Layout → Bool
  | .nothing => true
  | .one r => (one r).avoids q
  | .seq first second => first.leads p q && (first.atLeastOnce p || second.leads p q)
  | .either left right => left.leads p q && right.leads p q
  | .many each => each.avoids q

/-- Whether there is a first part, and its kind satisfies `p`. -/
def starts (p : Kind → Bool) : Layout → Bool
  | .nothing => false
  | .one q => Kind.all.all fun k => !q k || p k
  | .seq first second => first.starts p || first.only p && second.starts p
  | .either left right => left.starts p && right.starts p
  | .many _ => false

theorem forall_of_only (hl : l.only p = true) (hks : ks ∈ l.language) :
  ∀ k ∈ ks, p k = true
  := by
  induction l generalizing ks with
  | nothing =>
    rw [mem_nothing.mp hks]
    nofun
  | one q =>
    obtain ⟨k, hk, rfl⟩ := hks
    have hqp := List.all_eq_true.mp hl k k.mem_all
    rw [hk] at hqp
    intro k' hk'
    rw [List.mem_singleton.mp hk']
    apply hqp
  | seq first second ih₁ ih₂ =>
    rw [only, Bool.and_eq_true] at hl
    obtain ⟨xs, hxs, ys, hys, rfl⟩ := Language.mem_mul.mp hks
    apply List.forall_mem_append.mpr ⟨ih₁ hl.1 hxs, ih₂ hl.2 hys⟩
  | either left right ih₁ ih₂ =>
    rw [only, Bool.and_eq_true] at hl
    rcases hks with hks | hks
    · apply ih₁ hl.1 hks
    · apply ih₂ hl.2 hks
  | many each ih =>
    obtain ⟨xss, rfl, hxss⟩ := mem_many.mp hks
    intro k hk
    obtain ⟨xs, hxs, hk⟩ := List.mem_flatten.mp hk
    apply ih hl (hxss xs hxs) k hk

theorem countP_eq_zero (hl : l.avoids p = true) (hks : ks ∈ l.language) :
  ks.countP p = 0
  := by
  apply List.countP_eq_zero.mpr
  intro k hk
  have hnot := forall_of_only hl hks k hk
  simpa using hnot

theorem countP_le_one (hl : l.atMostOnce p = true) (hks : ks ∈ l.language) :
  ks.countP p ≤ 1
  := by
  induction l generalizing ks with
  | nothing =>
    rw [mem_nothing.mp hks]
    apply Nat.zero_le
  | one q =>
    obtain ⟨k, -, rfl⟩ := hks
    apply List.countP_le_length
  | seq first second ih₁ ih₂ =>
    obtain ⟨xs, hxs, ys, hys, rfl⟩ := Language.mem_mul.mp hks
    rw [atMostOnce, Bool.or_eq_true, Bool.and_eq_true, Bool.and_eq_true] at hl
    rw [List.countP_append]
    rcases hl with ⟨hnone, hmost⟩ | ⟨hmost, hnone⟩
    · rw [countP_eq_zero hnone hxs, Nat.zero_add]
      apply ih₂ hmost hys
    · rw [countP_eq_zero hnone hys, Nat.add_zero]
      apply ih₁ hmost hxs
  | either left right ih₁ ih₂ =>
    rw [atMostOnce, Bool.and_eq_true] at hl
    rcases hks with hks | hks
    · apply ih₁ hl.1 hks
    · apply ih₂ hl.2 hks
  | many each ih =>
    have hnone : (many each).avoids p = true := hl
    rw [countP_eq_zero hnone hks]
    apply Nat.zero_le

theorem exists_of_atLeastOnce (hl : l.atLeastOnce p = true) (hks : ks ∈ l.language) :
  ∃ k ∈ ks, p k = true
  := by
  induction l generalizing ks with
  | nothing => contradiction
  | one q =>
    have hall : (one q).only p = true := hl
    obtain ⟨k, -, rfl⟩ := id hks
    use k, List.mem_singleton_self k
    apply forall_of_only hall hks k (List.mem_singleton_self k)
  | seq first second ih₁ ih₂ =>
    obtain ⟨xs, hxs, ys, hys, rfl⟩ := Language.mem_mul.mp hks
    rw [atLeastOnce, Bool.or_eq_true] at hl
    rcases hl with hl | hl
    · obtain ⟨k, hk, hp⟩ := ih₁ hl hxs
      use k, List.mem_append_left ys hk
    · obtain ⟨k, hk, hp⟩ := ih₂ hl hys
      use k, List.mem_append_right xs hk
  | either left right ih₁ ih₂ =>
    rw [atLeastOnce, Bool.and_eq_true] at hl
    rcases hks with hks | hks
    · apply ih₁ hl.1 hks
    · apply ih₂ hl.2 hks
  | many each ih => contradiction

/-- A part that occurs at most once and at least once occurs exactly once. -/
theorem countP_eq_one (hmost : l.atMostOnce p = true) (hleast : l.atLeastOnce p = true)
    (hks : ks ∈ l.language) :
  ks.countP p = 1
  := by
  apply Nat.le_antisymm (countP_le_one hmost hks)
  apply List.countP_pos_iff.mpr (exists_of_atLeastOnce hleast hks)

/-- There is a first part, and it is as it has to be. -/
theorem exists_cons_of_starts (hl : l.starts p = true) (hks : ks ∈ l.language) :
  ∃ k rest, ks = k :: rest ∧ p k = true
  := by
  induction l generalizing ks with
  | nothing => contradiction
  | one q =>
    have hall : (one q).only p = true := hl
    obtain ⟨k, -, rfl⟩ := id hks
    use k, [], rfl
    apply forall_of_only hall hks k (List.mem_singleton_self k)
  | seq first second ih₁ ih₂ =>
    obtain ⟨xs, hxs, ys, hys, rfl⟩ := Language.mem_mul.mp hks
    rw [starts, Bool.or_eq_true, Bool.and_eq_true] at hl
    rcases hl with hl | ⟨hall, hl⟩
    · obtain ⟨k, rest, rfl, hk⟩ := ih₁ hl hxs
      use k, rest ++ ys, rfl, hk
    · cases xs with
      | nil => apply ih₂ hl hys
      | cons k rest =>
        use k, rest ++ ys, rfl
        apply forall_of_only hall hxs k List.mem_cons_self
  | either left right ih₁ ih₂ =>
    rw [starts, Bool.and_eq_true] at hl
    rcases hks with hks | hks
    · apply ih₁ hl.1 hks
    · apply ih₂ hl.2 hks
  | many each ih => contradiction

/-- A part of one of two sequences is in the second one, and all of the first stands before it, or
it is in the first one. -/
theorem split_append {xs ys before after : List Kind} (h : xs ++ ys = before ++ k :: after) :
  (∃ before', before = xs ++ before' ∧ ys = before' ++ k :: after)
    ∨ ∃ after', xs = before ++ k :: after'
  := by
  rcases List.append_eq_append_iff.mp h with ⟨before', hbefore, hys⟩ | ⟨after', hxs, hafter⟩
  · apply Or.inl ⟨before', hbefore, hys⟩
  · cases after' with
    | nil =>
      rw [List.append_nil] at hxs
      apply Or.inl ⟨[], by rw [hxs, List.append_nil], hafter.symm⟩
    | cons j after' =>
      obtain ⟨rfl, -⟩ := List.cons.inj hafter
      apply Or.inr ⟨after', hxs⟩

theorem notMem_of_avoids (hl : l.avoids p = true) (hks : ks ∈ l.language) (hk : p k = true) :
  k ∉ ks
  := by
  intro hmem
  have hnot := forall_of_only hl hks k hmem
  rw [hk] at hnot
  contradiction

/-- Where no part may be of some kinds, none that is of these kinds has to be led. -/
theorem ne_of_avoids (hl : l.avoids p = true) (hks : ks ∈ l.language)
    {before after : List Kind} (hk : p k = true) :
  ks ≠ before ++ k :: after
  := by
  rintro rfl
  apply notMem_of_avoids hl hks hk
  apply List.mem_append_right before List.mem_cons_self

/-- A part that others lead stands behind one of these. -/
theorem exists_before_of_leads (hl : l.leads p q = true) (hks : ks ∈ l.language)
    {before after : List Kind} (hsplit : ks = before ++ k :: after) (hk : q k = true) :
  ∃ j ∈ before, p j = true
  := by
  induction l generalizing ks before after with
  | nothing =>
    have hnone : nothing.avoids q = true := rfl
    apply absurd hsplit (ne_of_avoids hnone hks hk)
  | one r => apply absurd hsplit (ne_of_avoids hl hks hk)
  | seq first second ih₁ ih₂ =>
    obtain ⟨xs, hxs, ys, hys, rfl⟩ := Language.mem_mul.mp hks
    rw [leads, Bool.and_eq_true, Bool.or_eq_true] at hl
    rcases split_append hsplit with ⟨before', rfl, hys'⟩ | ⟨after', hxs'⟩
    · rcases hl.2 with hl | hl
      · obtain ⟨j, hj, hp⟩ := exists_of_atLeastOnce hl hxs
        use j, List.mem_append_left before' hj
      · obtain ⟨j, hj, hp⟩ := ih₂ hl hys hys'
        use j, List.mem_append_right xs hj
    · apply ih₁ hl.1 hxs hxs'
  | either left right ih₁ ih₂ =>
    rw [leads, Bool.and_eq_true] at hl
    rcases hks with hks | hks
    · apply ih₁ hl.1 hks hsplit
    · apply ih₂ hl.2 hks hsplit
  | many each ih =>
    have hnone : (many each).avoids q = true := hl
    apply absurd hsplit (ne_of_avoids hnone hks hk)

end Layout

end InlayHints

import InlayHints.Proofs.Grammar.Pattern

/-!
# Rules and patterns that agree

A rule decides by what is ahead, a pattern does not.  `Rule.Agrees` says that a rule reads
exactly the words of a pattern, where `P` holds of what is ahead before and `F` of what is
ahead after.  For every way of putting rules together there is one of putting patterns
together that keeps the agreement, as long as the tests of the rule tell the words apart; this
is mostly seen from the kinds of token that words start with, which are given by a table `T`.
-/

namespace InlayHints

open Relation Pattern

/-- Chains of steps become chains of other steps, if each step does when an invariant holds
after it, and the invariant then holds before it. -/
theorem steps_backward {α : Type} {step step' : α → α → Prop} {I : α → Prop}
    (h : ∀ b d, I d → step b d → step' b d ∧ I b) {b c : α} (hsteps : ReflTransGen step b c)
    (hc : I c) :
  ReflTransGen step' b c ∧ I b
  := by
  induction hsteps using ReflTransGen.head_induction_on with
  | refl => use ReflTransGen.refl
  | head hstep _ ih =>
    obtain ⟨hstep', hb⟩ := h _ _ ih.2 hstep
    use ReflTransGen.head hstep' ih.1

namespace Lookahead

theorem isAt_iff {a : Lookahead} {k : TokenKind} :
  a.isAt k = true ↔ a.first = some k
  := by
  simp [isAt]

/-- At most one kind of token is next. -/
theorem isAt_eq_false {a : Lookahead} {k k' : TokenKind} (h : a.isAt k = true) (hk : k ≠ k') :
  a.isAt k' = false
  := by
  rw [isAt_iff] at h
  simp [isAt, h, hk]

theorem isAt_eq_false_of_isAny {a : Lookahead} {test : TokenKind → Bool} {k : TokenKind}
    (h : a.isAny test = true) (hk : test k = false) :
  a.isAt k = false
  := by
  by_contra hat
  rw [Bool.not_eq_false, isAt_iff] at hat
  simp [isAny, hat, hk] at h

end Lookahead

namespace Bare

theorem look_first_eq_none {b : Bare} :
  b.look.first = none ↔ b.ahead = []
  := by
  rw [look]
  cases b.ahead with
  | nil => simp [Lookahead.ofTokens]
  | cons t ts => simp [Lookahead.ofTokens]

theorem look_first_eq_some {b : Bare} {k : TokenKind} :
  b.look.first = some k ↔ ∃ t ts, b.ahead = t :: ts ∧ t.kind = k
  := by
  rw [look]
  cases b.ahead with
  | nil => simp [Lookahead.ofTokens]
  | cons t ts => simp [Lookahead.ofTokens]

theorem take_eq {b : Bare} {t : Token} {ts : List Token} (h : b.ahead = t :: ts) :
  b.take = ⟨ts, .token t :: b.out⟩
  := by
  rw [take, h]

end Bare

namespace Pattern

variable {φ : Type} {G : φ → Pattern φ} {T : φ → List TokenKind} {p : Pattern φ} {b c : Bare}

theorem Spans.isAt_eq (hT : StartsTable G T) (h : p.Spans G b c) (hp : p.nullable = false)
    {k : TokenKind} {v : Bool} (hk : ∀ k' ∈ p.starts T, decide (k' = k) = v) :
  b.look.isAt k = v
  := by
  obtain ⟨k', hk', hlook⟩ := h.look_first hT hp
  rw [Lookahead.isAt, hlook, ← hk k' hk']
  simp

theorem Spans.isAtEither_eq (hT : StartsTable G T) (h : p.Spans G b c) (hp : p.nullable = false)
    {k k' : TokenKind} {v : Bool} (hk : ∀ l ∈ p.starts T, decide (l = k ∨ l = k') = v) :
  (b.look.isAt k || b.look.isAt k') = v
  := by
  obtain ⟨l, hl, hlook⟩ := h.look_first hT hp
  simp [Lookahead.isAt, hlook, ← hk l hl]

theorem Spans.isAny_eq (hT : StartsTable G T) (h : p.Spans G b c) (hp : p.nullable = false)
    {test : TokenKind → Bool} {v : Bool} (hk : ∀ k ∈ p.starts T, test k = v) :
  b.look.isAny test = v
  := by
  obtain ⟨k, hk', hlook⟩ := h.look_first hT hp
  rw [Lookahead.isAny, hlook, ← hk k hk']
  rfl

theorem Spans.isBefore (hT : StartsTable G T) (h : p.Spans G b c) (hp : p.nullable = false)
    {closing : TokenKind} (hk : closing ∉ p.starts T) :
  b.look.isBefore closing = true
  := by
  obtain ⟨k, hk', hlook⟩ := h.look_first hT hp
  have hne : k ≠ closing := by
    rintro rfl
    contradiction
  simp [Lookahead.isBefore, Lookahead.isAt, Lookahead.atEnd, hlook, hne]

end Pattern

namespace Rule

variable {σ φ : Type}

/-- Where `P` holds of what is ahead before and `F` of what is ahead after, the rule reads
exactly the words of the pattern. -/
def Agrees (R : σ → Bare → Bare → Prop) (G : φ → Pattern φ) (P : Lookahead → Prop) (r : Rule σ)
    (p : Pattern φ) (F : Lookahead → Prop) : Prop :=
  ∀ b c : Bare, P b.look → F c.look → (r.Reads R b c ↔ p.Spans G b c)

variable {R : σ → Bare → Bare → Prop} {G : φ → Pattern φ} {T : φ → List TokenKind}
variable {P F : Lookahead → Prop} {p q : Pattern φ} {r s : Rule σ}

theorem reads_branch_of_true {test : Lookahead → Bool} {b c : Bare} (h : test b.look = true) :
  (branch test r s).Reads R b c ↔ r.Reads R b c
  := by
  simp [Reads, h]

theorem reads_branch_of_false {test : Lookahead → Bool} {b c : Bare} (h : test b.look = false) :
  (branch test r s).Reads R b c ↔ s.Reads R b c
  := by
  simp [Reads, h]

namespace Agrees

theorem mono {P' F' : Lookahead → Prop} (h : Agrees R G P r p F) (hP : ∀ a, P' a → P a)
    (hF : ∀ a, F' a → F a) :
  Agrees R G P' r p F'
  := fun b c hb hc => h b c (hP _ hb) (hF _ hc)

theorem congr (h : Agrees R G P r p F) (hq : ∀ {b c}, q.Spans G b c ↔ p.Spans G b c) :
  Agrees R G P r q F
  := by
  intro b c hb hc
  rw [hq]
  apply h b c hb hc

theorem phrase {name : φ} (h : Agrees R G P r (G name) F) :
  Agrees R G P r (.phrase name) F
  := h.congr spans_phrase

theorem node {k : NodeKind} (h : Agrees R G P r p F) :
  Agrees R G P (.node k r) (.node k p) F
  := by
  intro b c hb hc
  rw [spans_node]
  constructor
  · rintro ⟨d, hd, rfl⟩
    use d, (h b.opened d hb hc).mp hd
  · rintro ⟨d, hd, rfl⟩
    use d, (h b.opened d hb hc).mpr hd

/-- One thing after the other: what is ahead between them is what the second starts with. -/
theorem seq {I : Lookahead → Prop} (hr : Agrees R G P r p I)
    (hs : Agrees R G (fun _ => True) s q F)
    (hq : ∀ {c d}, q.Spans G c d → F d.look → I c.look) :
  Agrees R G P (r >> s) (p >> q) F
  := by
  intro b d hb hd
  rw [spans_seq]
  constructor
  · rintro ⟨c, hc, hs'⟩
    have hspan := (hs c d trivial hd).mp hs'
    use c, (hr b c hb (hq hspan hd)).mp hc
  · rintro ⟨c, hc, hspan⟩
    use c, (hr b c hb (hq hspan hd)).mpr hc
    apply (hs c d trivial hd).mpr hspan

/-! ### Tokens -/

/-- Taking a token that is known to be of one of the given kinds. -/
theorem take {ks : List TokenKind} (hP : ∀ a, P a → ∃ k ∈ ks, a.first = some k) :
  Agrees R G P .take (oneOf ks) F
  := by
  intro b c hb _
  obtain ⟨k, hk, hlook⟩ := hP _ hb
  obtain ⟨t, ts, hahead, rfl⟩ := Bare.look_first_eq_some.mp hlook
  simp only [Reads, Bare.take_eq hahead, spans_oneOf]
  constructor
  · rintro rfl
    use t
  · rintro ⟨t', -, hahead', hout⟩
    rw [hahead, List.cons.injEq] at hahead'
    obtain ⟨rfl, rfl⟩ := hahead'
    apply Bare.ext
    · rfl
    · apply hout

/-- Taking a token that is known to satisfy a test. -/
theorem takeAny {test : TokenKind → Bool} {ks : List TokenKind}
    (hP : ∀ a, P a → a.isAny test = true) (hks : ∀ k, test k = true → k ∈ ks) :
  Agrees R G P .take (oneOf ks) F
  := by
  apply take
  intro a ha
  obtain ⟨k, hk, htest⟩ := (Option.any_eq_true _ _).mp (hP a ha)
  use k, hks k htest, hk

theorem takeAt {k : TokenKind} (hP : ∀ a, P a → a.isAt k = true) :
  Agrees R G P .take (token k) F
  := by
  apply take
  intro a ha
  use k, List.mem_singleton_self k
  simpa [Lookahead.isAt] using hP a ha

/-- Taking two tokens that are known to come. -/
theorem takeBoth {k k' : TokenKind} (hP : ∀ a, P a → a.isAt k = true ∧ a.second = some k') :
  Agrees R G P (.take >> .take) (token k >> token k') F
  := by
  intro b d hb _
  have hfirst : Agrees R G P .take (token k) fun _ => True := takeAt fun a ha => (hP a ha).1
  have hsecond : Agrees R G (fun a => a.isAt k' = true) .take (token k') fun _ => True :=
    takeAt fun _ ha => ha
  have hnext : ∀ c, (token k : Pattern φ).Spans G b c → c.look.isAt k' = true := by
    intro c hc
    rw [Lookahead.isAt_iff, hc.look_second, (hP _ hb).2]
  rw [spans_seq]
  constructor
  · rintro ⟨c, hc, hd⟩
    have hspan := (hfirst b c hb trivial).mp hc
    use c, hspan
    apply (hsecond c d (hnext c hspan) trivial).mp hd
  · rintro ⟨c, hc, hd⟩
    use c, (hfirst b c hb trivial).mpr hc
    apply (hsecond c d (hnext c hc) trivial).mpr hd

/-! ### Choices -/

/-- A choice that the test makes as the words require it. -/
theorem branch {test : Lookahead → Bool}
    (hr : Agrees R G (fun a => P a ∧ test a = true) r p F)
    (hs : Agrees R G (fun a => P a ∧ test a = false) s q F)
    (hp : ∀ {b c}, P b.look → p.Spans G b c → test b.look = true)
    (hq : ∀ {b c}, P b.look → q.Spans G b c → test b.look = false) :
  Agrees R G P (.branch test r s) (p <|> q) F
  := by
  intro b c hb hc
  rw [spans_either]
  cases htest : test b.look with
  | true =>
    rw [reads_branch_of_true htest, hr b c ⟨hb, htest⟩ hc]
    constructor
    · apply Or.inl
    · rintro (h | h)
      · apply h
      · simp [hq hb h] at htest
  | false =>
    rw [reads_branch_of_false htest, hs b c ⟨hb, htest⟩ hc]
    constructor
    · apply Or.inr
    · rintro (h | h)
      · simp [hp hb h] at htest
      · apply h

/-- A choice by the next token, between words that start with it and words that do not. -/
theorem branchAt (hT : StartsTable G T) {k : TokenKind} (hp : p.nullable = false)
    (hpk : ∀ k' ∈ p.starts T, decide (k' = k) = true) (hq : q.nullable = false)
    (hqk : ∀ k' ∈ q.starts T, decide (k' = k) = false)
    (hr : Agrees R G (fun a => P a ∧ a.isAt k = true) r p F)
    (hs : Agrees R G (fun a => P a ∧ a.isAt k = false) s q F) :
  Agrees R G P (.branch (·.isAt k) r s) (p <|> q) F
  := by
  apply branch hr hs
  · intro b c _ h
    apply h.isAt_eq hT hp hpk
  · intro b c _ h
    apply h.isAt_eq hT hq hqk

/-- A choice whose second side is never read without a fault. -/
theorem orFault {test : Lookahead → Bool}
    (hr : Agrees R G (fun a => P a ∧ test a = true) r p F) (hs : ∀ {b c}, ¬ s.Reads R b c)
    (hp : ∀ {b c}, P b.look → p.Spans G b c → test b.look = true) :
  Agrees R G P (.branch test r s) p F
  := by
  intro b c hb hc
  cases htest : test b.look with
  | true =>
    rw [reads_branch_of_true htest]
    apply hr b c ⟨hb, htest⟩ hc
  | false =>
    rw [reads_branch_of_false htest]
    constructor
    · intro h
      apply absurd h hs
    · intro h
      simp [hp hb h] at htest

/-- Something that is read if the test holds, which tells it from what comes after. -/
theorem when {test : Lookahead → Bool} (hr : Agrees R G (fun a => P a ∧ test a = true) r p F)
    (hp : ∀ {b c}, P b.look → p.Spans G b c → test b.look = true)
    (hF : ∀ a, F a → test a = false) :
  Agrees R G P (.when test r) (maybe p) F
  := by
  intro b c hb hc
  rw [spans_maybe, Rule.when]
  cases htest : test b.look with
  | true =>
    rw [reads_branch_of_true htest, hr b c ⟨hb, htest⟩ hc]
    constructor
    · apply Or.inr
    · rintro (rfl | h)
      · simp [hF _ hc] at htest
      · apply h
  | false =>
    rw [reads_branch_of_false htest]
    constructor
    · apply Or.inl
    · rintro (h | h)
      · apply h
      · simp [hp hb h] at htest

/-- Something that is read unless the test holds, which tells what comes after from it. -/
theorem whenNot {test : Lookahead → Bool}
    (hr : Agrees R G (fun a => P a ∧ test a = false) r p F)
    (hp : ∀ {b c}, P b.look → p.Spans G b c → test b.look = false)
    (hF : ∀ a, F a → test a = true) :
  Agrees R G P (.whenNot test r) (maybe p) F
  := by
  have hwhen : Agrees R G P (.when (!test ·) r) (maybe p) F := by
    apply when
    · apply hr.mono
      · intro a ha
        simpa using ha
      · intro a ha
        apply ha
    · intro b c hb h
      simp [hp hb h]
    · intro a ha
      simp [hF a ha]
  intro b c hb hc
  rw [← hwhen b c hb hc]
  simp only [Rule.when, Rule.whenNot, Reads]
  cases test b.look with
  | true => rfl
  | false => rfl

theorem accept {k : TokenKind} :
  Agrees R G P (.accept k) (maybe (token k)) (fun a => a.isAt k = false)
  := by
  apply when
  · apply takeAt
    intro a ha
    apply ha.2
  · intro b c _ h
    apply h.isAt_of_token
  · intro a ha
    apply ha

theorem expect {k : TokenKind} :
  Agrees R G P (.expect k) (token k) F
  := by
  apply orFault
  · apply takeAt
    intro a ha
    apply ha.2
  · intro b c h
    apply h
  · intro b c _ h
    apply h.isAt_of_token

/-- A token that has to come, and then something else. -/
theorem expect_seq {k : TokenKind} (hs : Agrees R G (fun _ => True) s q F) :
  Agrees R G P (.expect k >> s) (token k >> q) F
  := seq (expect (F := fun _ => True)) hs fun _ _ => trivial

/-- A token that is known to come, and then something else. -/
theorem takeAt_seq {k : TokenKind} (hP : ∀ a, P a → a.isAt k = true)
    (hs : Agrees R G (fun _ => True) s q F) :
  Agrees R G P (.take >> s) (token k >> q) F
  := seq (takeAt (F := fun _ => True) hP) hs fun _ _ => trivial

/-- A token that may come, and then something that does not start with it. -/
theorem accept_seq (hT : StartsTable G T) {k : TokenKind} (hq : q.nullable = false)
    (hk : ∀ k' ∈ q.starts T, decide (k' = k) = false)
    (hs : Agrees R G (fun _ => True) s q F) :
  Agrees R G P (.accept k >> s) (maybe (token k) >> q) F
  := seq accept hs fun h _ => h.isAt_eq hT hq hk

/-! ### Repetitions -/

/-- Something that is read as long as the test holds, which tells it from what comes after. -/
theorem loop {test : Lookahead → Bool} {I : Lookahead → Prop}
    (hr : Agrees R G (fun a => test a = true) r p I)
    (htest : ∀ {b c}, p.Spans G b c → test b.look = true)
    (hnext : ∀ {b c}, p.Spans G b c → I b.look)
    (hF : ∀ a, F a → test a = false ∧ I a) :
  Agrees R G P (.loop test r) (.many p) F
  := by
  intro b c _ hc
  obtain ⟨hstop, hlast⟩ := hF _ hc
  simp only [Reads, spans_many]
  constructor
  · rintro ⟨h, -⟩
    apply (steps_backward (I := (I ·.look)) _ h hlast).1
    intro b d hd hround
    have hspan := (hr b d hround.1 hd).mp hround.2
    use hspan, hnext hspan
  · intro h
    use ?_, hstop
    apply (steps_backward (I := (I ·.look)) _ h hlast).1
    intro b d hd hspan
    use ⟨htest hspan, (hr b d (htest hspan) hd).mpr hspan⟩, hnext hspan

/-- Items are never given up without a fault. -/
theorem orReject (hT : StartsTable G T) {cause : Cause} (hp : p.nullable = false)
    (hr : Agrees R G P r p F) :
  Agrees R G P (r.orReject cause) p F
  := by
  intro b c hb hc
  rw [← hr b c hb hc]
  constructor
  · rintro ⟨h, -⟩
    apply h
  · intro h
    use h
    apply ((hr b c hb hc).mp h).length_lt hT hp

/-- Giving up a choice gives up what is chosen. -/
theorem orReject_branch {test : Lookahead → Bool} {cause : Cause}
    (h : Agrees R G P (.branch test (r.orReject cause) (s.orReject cause)) p F) :
  Agrees R G P ((Rule.branch test r s).orReject cause) p F
  := by
  intro b c hb hc
  rw [← h b c hb hc]
  simp only [Rule.orReject, Reads]
  cases test b.look with
  | true => rfl
  | false => rfl

/-- What may follow an item, up to the token that closes the list. -/
theorem followingItems (hT : StartsTable G T) {closing : TokenKind} (hclosing : closing ≠ .comma)
    (hp : p.nullable = false) (hstarts : closing ∉ p.starts T)
    (hr : Agrees R G (fun _ => True) r p fun a => a.isAt .comma = true ∨ a.isAt closing = true) :
  Agrees R G (fun _ => True) (.loop (·.isAt .comma) (.take >> .when (·.isBefore closing) r))
    (moreItems p) fun a => a.isAt closing = true
  := by
  have htake : Agrees R G (fun a => a.isAt .comma = true) .take (token .comma) fun _ => True :=
    takeAt fun _ ha => ha
  intro b c _ hc
  have hstop : c.look.isAt .comma = false := Lookahead.isAt_eq_false hc hclosing
  have hafter : c.look.isBefore closing = false := by
    simp [Lookahead.isBefore, hc]
  constructor
  · rintro ⟨h, -⟩
    induction h using ReflTransGen.head_induction_on with
    | refl => apply moreItems_of_maybe (spans_maybe.mpr (Or.inl rfl))
    | @head b d hround _ ih =>
      obtain ⟨hcomma, e, he, hitem⟩ := hround
      have hcomma := (htake b e hcomma trivial).mp he
      cases hbefore : e.look.isBefore closing with
      | true =>
        rw [Rule.when, reads_branch_of_true hbefore] at hitem
        apply moreItems_head hcomma ((hr e d trivial _).mp hitem) ih
        rcases isAt_or_eq_of_moreItems ih with h | rfl
        · apply Or.inl h
        · apply Or.inr hc
      | false =>
        -- a comma with no item after it is the last thing in the list
        rw [Rule.when, reads_branch_of_false hbefore] at hitem
        obtain rfl : d = e := hitem
        rcases isAt_or_eq_of_moreItems ih with h | rfl
        · simp [Lookahead.isBefore, Lookahead.isAt_eq_false h hclosing.symm, Lookahead.atEnd,
            Lookahead.isAt_iff.mp h] at hbefore
        · apply moreItems_of_maybe (spans_maybe.mpr (Or.inr hcomma))
  · intro h
    use ?_, hstop
    obtain ⟨d, hmany, hmaybe⟩ := spans_seq.mp h
    have hd : d.look.isAt .comma = true ∨ d.look.isAt closing = true := by
      rcases isAt_or_eq_of_moreItems (p := p) (moreItems_of_maybe hmaybe) with h | rfl
      · apply Or.inl h
      · apply Or.inr hc
    apply ReflTransGen.trans (b := d)
    · apply (steps_backward
        (I := fun b => b.look.isAt .comma = true ∨ b.look.isAt closing = true) _
        (spans_many.mp hmany) hd).1
      intro b e he hitem
      obtain ⟨f, hcomma, hitem⟩ := spans_seq.mp hitem
      have hat := hcomma.isAt_of_token
      use ⟨hat, f, (htake b f hat trivial).mpr hcomma, ?_⟩, Or.inl hat
      apply (reads_branch_of_true (hitem.isBefore hT hp hstarts)).mpr
      apply (hr f e trivial he).mpr hitem
    · rcases spans_maybe.mp hmaybe with rfl | hcomma
      · apply ReflTransGen.refl
      · have hat := hcomma.isAt_of_token
        apply ReflTransGen.single
        use hat, c, (htake d c hat trivial).mpr hcomma
        rw [Rule.when, reads_branch_of_false hafter]
        rfl

/-- Items with commas between them, up to the token that closes the list. -/
theorem commaSeparated (hT : StartsTable G T) {closing : TokenKind} (hclosing : closing ≠ .comma)
    (hp : p.nullable = false) (hstarts : closing ∉ p.starts T)
    (hr : Agrees R G (fun _ => True) r p fun a => a.isAt .comma = true ∨ a.isAt closing = true) :
  Agrees R G P (.commaSeparated closing r) (commaList p) fun a => a.isAt closing = true
  := by
  apply when
  · apply seq (hr.mono _ fun a ha => ha) (followingItems hT hclosing hp hstarts hr)
    · intro c d h hd
      rcases isAt_or_eq_of_moreItems h with h | rfl
      · apply Or.inl h
      · apply Or.inr hd
    · intro a _
      trivial
  · intro b c _ h
    obtain ⟨d, hitem, -⟩ := spans_seq.mp h
    apply hitem.isBefore hT hp hstarts
  · intro a ha
    simp [Lookahead.isBefore, ha]

end Agrees

end Rule

end InlayHints

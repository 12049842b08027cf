import InlayHints.Proofs.Syntax.Agreement.Declaration

/-!
# Expressions agree with the grammar

A chain is read by a loop that makes everything read so far the first part of a larger node,
and so are binary operators.  These loops take the same steps by which left-recursive phrases
grow.  For binary operators there is more to it: one loop reads operators of both powers,
where the grammar lets a term grow first and then an expression made of it.  Since the right
operand of `+` and `-` takes all of `*` and `/` that follow it, the steps come in this order.

So the rule of every symbol reads what the symbol means (`Construct.reads_grammar`).
-/

namespace InlayHints

open Relation Rule Pattern Phrase

namespace Construct

variable {P : Lookahead → Prop} {b c d : Bare}

/-! ### Primary expressions -/

theorem agrees_primary :
  Agrees Meaning production P primary (phrase .primary) fun _ => True
  := by
  apply Agrees.phrase
  apply Agrees.branchAt startsTable rfl (by decide) rfl (by decide)
  · apply Agrees.node
    apply Agrees.takeAt
    intro a ha
    apply ha.2
  apply Agrees.branch
  · apply Agrees.node
    apply Agrees.take
    intro a ha
    obtain ⟨-, htest⟩ := ha
    rw [Bool.or_eq_true, Lookahead.isAt_iff, Lookahead.isAt_iff] at htest
    rcases htest with htest | htest
    · use .intNumber, by decide
    · use .stringLit, by decide
  · apply Agrees.branchAt startsTable rfl (by decide) rfl (by decide)
    · apply Agrees.node
      apply Agrees.takeAt_seq fun a ha => ha.2
      apply Agrees.orFault agrees_argumentList
      · intro b c h
        apply h
      · intro b c _ h
        apply h.isAt_eq startsTable rfl (by decide)
    apply Agrees.branchAt startsTable rfl (by decide) rfl (by decide)
    · apply Agrees.node
      apply Agrees.takeAt_seq fun a ha => ha.2
      apply agrees_expression_seq rfl (by decide) Agrees.expect
    apply Agrees.orFault agrees_container
    · rintro b c ⟨d, h, -⟩
      apply h
    · intro b c _ h
      apply h.isAt_eq startsTable rfl (by decide)
  · intro b c _ h
    apply h.isAtEither_eq startsTable rfl (by decide)
  · intro b c _ h
    apply h.isAtEither_eq startsTable rfl (by decide)

/-! ### Chains -/

/-- A call or a field access that is read makes a chain longer, and nothing else does. -/
theorem grows_chain :
  Grows production chainTails d c
    ↔ continues d.look = true
      ∧ (Rule.branch (·.isAt .lParen) (.wrap .callExpr argumentList)
          (.wrap .fieldExpr (.take >> .take))).Reads Meaning d c
  := by
  have hcall : Agrees Meaning production (fun _ => True) argumentList (phrase .argumentList)
      fun _ => True := agrees_argumentList
  have hfield : Agrees Meaning production
      (fun a => a.isAt .dot = true ∧ a.second = some .ident) (.take >> .take)
      (token .dot >> token .ident) fun _ => True := Agrees.takeBoth fun _ ha => ha
  constructor
  · rintro ⟨way, hway, e, he, rfl⟩
    simp only [chainTails, List.mem_cons, List.not_mem_nil, or_false] at hway
    rcases hway with rfl | rfl
    · have hat : d.look.isAt .lParen = true := he.isAt_eq startsTable rfl (by decide)
      constructor
      · simp [continues, hat]
      · apply (reads_branch_of_true hat).mpr
        use e, (hcall d e trivial trivial).mpr he
    · obtain ⟨hdot, hname⟩ := he.look_both
      constructor
      · simp [continues, hdot, hname]
      · apply (reads_branch_of_false (Lookahead.isAt_eq_false hdot (by decide))).mpr
        use e, (hfield d e ⟨hdot, hname⟩ trivial).mpr he
  · rintro ⟨htest, h⟩
    cases hat : d.look.isAt .lParen with
    | true =>
      obtain ⟨e, he, rfl⟩ := (reads_branch_of_true hat).mp h
      use (.callExpr, phrase .argumentList), by simp [chainTails], e,
        (hcall d e trivial trivial).mp he
    | false =>
      obtain ⟨e, he, rfl⟩ := (reads_branch_of_false hat).mp h
      have hnext : d.look.isAt .dot = true ∧ d.look.second = some .ident := by
        simpa [continues, hat] using htest
      use (.fieldExpr, token .dot >> token .ident), by simp [chainTails], e,
        (hfield d e hnext trivial).mp he

/-- What is read apart is a phrase if it is one in an empty group. -/
theorem reads_apart {r : Rule Symbol} {p : Pattern Phrase} {F : Lookahead → Prop}
    (h : ∀ {b c}, b.out = [] →
      (r.Reads Meaning b c ↔ p.Spans production b c ∧ F c.look)) :
  (Rule.apart r).Reads Meaning b c ↔ p.Spans production b c ∧ F c.look
  := by
  rw [spans_iff_opened]
  constructor
  · rintro ⟨d, hd, rfl⟩
    obtain ⟨hspans, hF⟩ := (h rfl).mp hd
    use ⟨d, hspans, rfl⟩, hF
  · rintro ⟨⟨d, hd, rfl⟩, hF⟩
    use d, (h rfl).mpr ⟨hd, hF⟩

theorem reads_chain :
  chain.Reads Meaning b c ↔ (phrase .chain).Spans production b c ∧ continues c.look = false
  := by
  apply reads_apart (F := (continues · = false))
  intro b c hb
  have hprimary : Agrees Meaning production (fun _ => True) primary (phrase .primary)
      fun _ => True := agrees_primary
  have hsteps : Grows production chainTails = _ := funext₂ fun _ _ => propext grows_chain
  rw [spans_chain hb, hsteps]
  constructor
  · intro h
    cases hend : endsExpression b.look.first with
    | true => apply ((reads_branch_of_true hend).mp h).elim
    | false =>
      obtain ⟨d, hd, hloop, hstop⟩ := (reads_branch_of_false hend).mp h
      use ⟨d, (hprimary b d trivial trivial).mp hd, hloop⟩, hstop
  · rintro ⟨⟨d, hd, hloop⟩, hstop⟩
    obtain ⟨k, hk, hlook⟩ := hd.look_first startsTable rfl
    have hstart : ∀ k ∈ primaryStarts, endsExpression (some k) = false := by decide
    apply (reads_branch_of_false (hlook ▸ hstart k hk)).mpr
    use d, (hprimary b d trivial trivial).mpr hd, hloop, hstop

/-! ### Operands -/

/-- An operand, unless more of it comes after it. -/
theorem agrees_operand :
  Agrees Meaning production P (.nested .operand) (phrase .operand) (continues · = false)
  := by
  intro b c _ hc
  constructor
  · intro h
    apply h.1
  · intro h
    use h, hc

theorem agrees_accept_operand :
  Agrees Meaning production P (accept .constKw >> .nested .operand)
    (maybe (token .constKw) >> phrase .operand) (continues · = false)
  := Agrees.accept_seq startsTable rfl (by decide) agrees_operand

theorem agrees_operand_body :
  Agrees Meaning production P operand (phrase .operand) (continues · = false)
  := by
  apply Agrees.phrase
  apply Agrees.branch
  · apply Agrees.node
    apply Agrees.seq (I := fun _ => True) _ agrees_accept_operand fun _ _ => trivial
    apply Agrees.takeAny
    · intro a ha
      apply ha.2
    · intro k hk
      cases k <;> first | decide | contradiction
  · apply Agrees.branchAt startsTable rfl (by decide) rfl (by decide)
    · apply Agrees.node
      apply Agrees.takeAt_seq fun a ha => ha.2
      apply Agrees.expect_seq agrees_accept_operand
    · intro b c _ hc
      rw [reads_chain]
      apply and_iff_left hc
  · intro b c _ h
    apply h.isAny_eq startsTable rfl (by decide)
  · intro b c _ h
    apply h.isAny_eq startsTable rfl (by decide)

/-- An operand is read to its end. -/
theorem continues_of_operand (h : operand.Reads Meaning b c) :
  continues c.look = false
  := by
  cases hprefix : b.look.isAny isPrefixOperator with
  | true =>
    obtain ⟨d, ⟨e, -, f, -, hd⟩, rfl⟩ := (reads_branch_of_true hprefix).mp h
    apply hd.2
  | false =>
    have h := (reads_branch_of_false hprefix).mp h
    cases hslice : b.look.isAt .lBracket with
    | true =>
      obtain ⟨d, ⟨e, -, f, -, g, -, hd⟩, rfl⟩ := (reads_branch_of_true hslice).mp h
      apply hd.2
    | false => apply (reads_chain.mp ((reads_branch_of_false hslice).mp h)).2

/-! ### Binary operators -/

/-- The operators that bind more tightly than `+` and `-`. -/
theorem bindsOver_one {a : Lookahead} :
  bindsOver 1 a = true ↔ ∃ k ∈ [TokenKind.star, .slash], a.first = some k
  := by
  obtain ⟨first, second⟩ := a
  cases first with
  | none => simp [bindsOver]
  | some k => cases k <;> simp [bindsOver, TokenKind.bindingPower?]

/-- The operators that bind less tightly than `*` and `/`. -/
theorem bindsOver_zero {a : Lookahead} :
  bindsOver 0 a = true ∧ bindsOver 1 a = false
    ↔ ∃ k ∈ [TokenKind.plus, .minus], a.first = some k
  := by
  obtain ⟨first, second⟩ := a
  cases first with
  | none => simp [bindsOver]
  | some k => cases k <;> simp [bindsOver, TokenKind.bindingPower?]

/-- No operator binds more tightly than `*` and `/`. -/
theorem bindsOver_two {power : Nat} (hpower : 2 ≤ power) (a : Lookahead) :
  bindsOver power a = false
  := by
  obtain ⟨first, second⟩ := a
  cases first with
  | none => rfl
  | some k => cases k <;> simp [bindsOver, TokenKind.bindingPower?] <;> omega

/-- An operator that binds more tightly than some power binds more tightly than none. -/
theorem bindsOver_zero_of_one {a : Lookahead} (h : bindsOver 1 a = true) :
  bindsOver 0 a = true
  := by
  obtain ⟨k, hk, hlook⟩ := bindsOver_one.mp h
  simp only [List.mem_cons, List.not_mem_nil, or_false] at hk
  rcases hk with rfl | rfl
  · rw [bindsOver, hlook]
    rfl
  · rw [bindsOver, hlook]
    rfl

/-- Where a binary operator comes next, the operand before it is at its end. -/
theorem continues_of_bindsOver {a : Lookahead} (h : bindsOver 0 a = true) :
  continues a = false
  := by
  obtain ⟨first, second⟩ := a
  cases first with
  | none => contradiction
  | some k => cases k <;> first | rfl | contradiction

/-- An operator that is read, and its right operand, make what is before it longer. -/
theorem reads_operation (power : Nat) {ks : List TokenKind}
    (hd : ∃ k ∈ ks, d.look.first = some k) :
  (operation power).Reads Meaning d c
    ↔ Grows production [(.binExpr, oneOf ks >> phrase (operandsOf power))] d c
      ∧ bindsOver power c.look = false ∧ continues c.look = false
  := by
  have htake : Agrees Meaning production (fun a => ∃ k ∈ ks, a.first = some k) .take (oneOf ks)
      fun _ => True := Agrees.take fun _ ha => ha
  constructor
  · rintro ⟨e, ⟨f, hf, hright, hstop⟩, rfl⟩
    use ⟨_, List.mem_singleton_self _, e, ?_, rfl⟩, hstop.1, hstop.2
    apply spans_seq.mpr ⟨f, (htake d f hd trivial).mp hf, hright⟩
  · rintro ⟨⟨way, hway, e, he, rfl⟩, hstop⟩
    obtain rfl := List.mem_singleton.mp hway
    obtain ⟨f, hf, hright⟩ := spans_seq.mp he
    use e, ⟨f, (htake d f hd trivial).mpr hf, hright, hstop.1, hstop.2⟩

/-- One round of reading operators that bind more tightly than `power`. -/
def Round (power : Nat) (d c : Bare) : Prop :=
  bindsOver power d.look = true
    ∧ (Rule.branch (bindsOver 1) (operation 2) (operation 1)).Reads Meaning d c

theorem bindsOver_of_grows_term (h : Grows production termTails d c) :
  bindsOver 1 d.look = true
  := by
  obtain ⟨way, hway, e, he, -⟩ := h
  obtain rfl := List.mem_singleton.mp hway
  obtain ⟨f, hf, -⟩ := spans_seq.mp he
  apply bindsOver_one.mpr (hf.look_first startsTable rfl)

theorem bindsOver_of_grows_expression (h : Grows production expressionTails d c) :
  bindsOver 0 d.look = true ∧ bindsOver 1 d.look = false
  := by
  obtain ⟨way, hway, e, he, -⟩ := h
  obtain rfl := List.mem_singleton.mp hway
  obtain ⟨f, hf, -⟩ := spans_seq.mp he
  apply bindsOver_zero.mpr (hf.look_first startsTable rfl)

theorem round_one :
  Round 1 d c ↔ Grows production termTails d c ∧ continues c.look = false
  := by
  constructor
  · rintro ⟨htest, h⟩
    obtain ⟨hgrows, -, hstop⟩ := (reads_operation 2 (bindsOver_one.mp htest)).mp
      ((reads_branch_of_true htest).mp h)
    use hgrows, hstop
  · rintro ⟨hgrows, hstop⟩
    have htest := bindsOver_of_grows_term hgrows
    use htest
    apply (reads_branch_of_true htest).mpr
    apply (reads_operation 2 (bindsOver_one.mp htest)).mpr
    use hgrows, bindsOver_two (le_refl 2) _, hstop

theorem round_zero :
  Round 0 d c
    ↔ Round 1 d c
      ∨ Grows production expressionTails d c
        ∧ bindsOver 1 c.look = false ∧ continues c.look = false
  := by
  constructor
  · rintro ⟨htest, h⟩
    cases htight : bindsOver 1 d.look with
    | true => apply Or.inl ⟨htight, h⟩
    | false =>
      apply Or.inr
      apply (reads_operation 1 (bindsOver_zero.mp ⟨htest, htight⟩)).mp
      apply (reads_branch_of_false htight).mp h
  · rintro (⟨htight, h⟩ | ⟨hgrows, hstop⟩)
    · use bindsOver_zero_of_one htight, h
    · obtain ⟨htest, hloose⟩ := bindsOver_of_grows_expression hgrows
      use htest
      apply (reads_branch_of_false hloose).mpr
      apply (reads_operation 1 (bindsOver_zero.mp ⟨htest, hloose⟩)).mpr ⟨hgrows, hstop⟩

/-- Rounds of reading `*` and `/` are the ways a term grows. -/
theorem rounds_one :
  continues d.look = false ∧ ReflTransGen (Round 1) d c
    ↔ ReflTransGen (Grows production termTails) d c ∧ continues c.look = false
  := by
  constructor
  · rintro ⟨hd, h⟩
    induction h with
    | refl => use ReflTransGen.refl
    | tail _ hround ih =>
      obtain ⟨hgrows, hstop⟩ := round_one.mp hround
      use ih.1.tail hgrows
  · rintro ⟨h, hc⟩
    apply And.symm
    apply steps_backward (I := (continues ·.look = false)) _ h hc
    intro d c hc hgrows
    use round_one.mpr ⟨hgrows, hc⟩
    apply continues_of_bindsOver (bindsOver_zero_of_one (bindsOver_of_grows_term hgrows))

/-- Rounds of reading all operators are the ways a term grows, and then those an expression
grows. -/
theorem rounds_zero (hc : bindsOver 0 c.look = false) :
  continues d.look = false ∧ ReflTransGen (Round 0) d c
    ↔ (∃ e, ReflTransGen (Grows production termTails) d e
        ∧ ReflTransGen (Grows production expressionTails) e c)
      ∧ continues c.look = false
  := by
  constructor
  · rintro ⟨hd, h⟩
    induction h using ReflTransGen.head_induction_on with
    | refl => use ⟨c, .refl, .refl⟩
    | @head d f hround _ ih =>
      rcases round_zero.mp hround with hround | ⟨hgrows, hloose, hstop⟩
      · obtain ⟨hgrows, hstop⟩ := round_one.mp hround
        obtain ⟨⟨e, hterm, hexpression⟩, hend⟩ := ih hstop
        use ⟨e, hterm.head hgrows, hexpression⟩
      · obtain ⟨⟨e, hterm, hexpression⟩, hend⟩ := ih hstop
        -- the right operand is a whole term, so it has not grown any more
        rcases ReflTransGen.cases_head hterm with rfl | ⟨g, hgrows', -⟩
        · use ⟨d, .refl, hexpression.head hgrows⟩
        · rw [bindsOver_of_grows_term hgrows'] at hloose
          contradiction
  · rintro ⟨⟨e, hterm, hexpression⟩, hend⟩
    have htight : bindsOver 1 c.look = false := by
      by_contra htight
      rw [Bool.not_eq_false] at htight
      rw [bindsOver_zero_of_one htight] at hc
      contradiction
    obtain ⟨hrounds, -, he⟩ : ReflTransGen (Round 0) e c
        ∧ bindsOver 1 e.look = false ∧ continues e.look = false := by
      apply steps_backward (I := fun d => bindsOver 1 d.look = false ∧ continues d.look = false)
        _ hexpression ⟨htight, hend⟩
      intro d c hc hgrows
      obtain ⟨htest, hloose⟩ := bindsOver_of_grows_expression hgrows
      use round_zero.mpr (Or.inr ⟨hgrows, hc⟩), hloose, continues_of_bindsOver htest
    obtain ⟨hd, hrounds'⟩ := rounds_one.mpr ⟨hterm, he⟩
    use hd
    apply ReflTransGen.trans _ hrounds
    apply ReflTransGen.mono _ d e hrounds'
    intro d c hround
    apply round_zero.mpr (Or.inl hround)

/-- Operands and operators are read as they are grouped. -/
theorem reads_operations (power : Nat) :
  (operations power).Reads Meaning b c ↔ Meaning (.expression power) b c
  := by
  apply reads_apart (F := fun a => bindsOver power a = false ∧ continues a = false)
  intro b c hb
  have hreads : (Rule.nested .operand
        >> .loop (bindsOver power) (.branch (bindsOver 1) (operation 2) (operation 1))).Reads
        Meaning b c
      ↔ ∃ d, (phrase .operand).Spans production b d
        ∧ (continues d.look = false ∧ ReflTransGen (Round power) d c)
        ∧ bindsOver power c.look = false := by
    constructor
    · rintro ⟨d, ⟨hoperand, hd⟩, hrounds, hstop⟩
      use d, hoperand, ⟨hd, hrounds⟩
    · rintro ⟨d, hoperand, ⟨hd, hrounds⟩, hstop⟩
      use d, ⟨hoperand, hd⟩, hrounds
  rw [hreads]
  match power with
  | 0 =>
    constructor
    · rintro ⟨d, hd, hrounds, hstop⟩
      obtain ⟨⟨e, hterm, hexpression⟩, hend⟩ := (rounds_zero hstop).mp hrounds
      have he := (spans_term hb).mpr ⟨d, hd, hterm⟩
      use (spans_expression hb).mpr ⟨e, he, hexpression⟩, hstop
    · rintro ⟨h, hstop, hend⟩
      obtain ⟨e, he, hexpression⟩ := (spans_expression hb).mp h
      obtain ⟨d, hd, hterm⟩ := (spans_term hb).mp he
      use d, hd, (rounds_zero hstop).mpr ⟨⟨e, hterm, hexpression⟩, hend⟩
  | 1 =>
    constructor
    · rintro ⟨d, hd, hrounds, hstop⟩
      obtain ⟨hterm, hend⟩ := rounds_one.mp hrounds
      use (spans_term hb).mpr ⟨d, hd, hterm⟩, hstop
    · rintro ⟨h, hstop, hend⟩
      obtain ⟨d, hd, hterm⟩ := (spans_term hb).mp h
      use d, hd, rounds_one.mpr ⟨hterm, hend⟩
  | n + 2 =>
    constructor
    · rintro ⟨d, hd, ⟨hend, hrounds⟩, hstop⟩
      rcases ReflTransGen.cases_head hrounds with rfl | ⟨e, ⟨htest, -⟩, -⟩
      · use hd, hstop
      · rw [bindsOver_two (by omega)] at htest
        contradiction
    · rintro ⟨h, hstop, hend⟩
      use c, h, ⟨hend, .refl⟩

/-- The rule of a symbol reads what the symbol means. -/
theorem reads_grammar {symbol : Symbol} :
  (grammar symbol).Reads Meaning b c ↔ Meaning symbol b c
  := by
  cases symbol with
  | expression power => apply reads_operations
  | operand =>
    constructor
    · intro h
      have hend := continues_of_operand h
      use (agrees_operand_body (P := fun _ => True) b c trivial hend).mp h
    · rintro ⟨h, hend⟩
      apply (agrees_operand_body (P := fun _ => True) b c trivial hend).mpr h
  | block => apply agrees_block_body (P := fun _ => True) b c trivial trivial

end Construct

end InlayHints

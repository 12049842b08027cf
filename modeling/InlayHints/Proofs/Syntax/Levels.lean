import InlayHints.Proofs.Grammar.Outcome
import InlayHints.Proofs.Syntax.Acceptance
import InlayHints.Proofs.Syntax.Progress
import InlayHints.Proofs.Syntax.Site.Counting

/-!
# Constructs that nest

How many levels a construct takes, `Construct.Nests`: where there are as many, it is read without
faults, and where there are fewer, the nesting gets too deep once and one error node is left, but
the same tokens are taken, whatever comes after them that ends an expression.  Since what follows
is read in the same way in both cases, it is enough to know what one more level does:
`Nests.parenthesized`, `Nests.expression`, `Nests.starred` and `Nests.braced`.
-/

namespace InlayHints

/-! ### Pieces that are skipped -/

namespace Token

/-- A piece in brackets leaves as many brackets open as there were before it, if what is in the
brackets does. -/
theorem balance?_bracketed {ts : List Token} (h : ∀ opened, balance? opened ts = some opened)
    {left right : Token} (hleft : left.kind.isOpening = true) (hright : right.kind.isClosing = true)
    (hright' : right.kind.isOpening = false) (opened : Nat) :
  balance? opened (left :: (ts ++ [right])) = some opened
  := by
  have hopens : State.balance? opened left.kind = some (opened + 1) := by
    rw [State.balance?, if_pos hleft]
  have hcloses : State.balance? (opened + 1) right.kind = some opened := by
    rw [State.balance?, hright, hright']
    rfl
  calc balance? opened (left :: (ts ++ [right]))
    _ = (State.balance? opened left.kind).bind fun opened => balance? opened (ts ++ [right]) := rfl
    _ = balance? (opened + 1) (ts ++ [right]) := by rw [hopens, Option.bind_some]
    _ = balance? (opened + 1) [right] := by rw [balance?_append, h, Option.bind_some]
    _ = (State.balance? (opened + 1) right.kind).bind some := rfl
    _ = some opened := by rw [hcloses, Option.bind_some]

end Token

namespace Construct

open Rule

/-! ### Tokens -/

/-- The number `1`. -/
def one : Token := ⟨.intNumber, "1"⟩

def star : Token := ⟨.star, "*"⟩

def leftParen : Token := ⟨.lParen, "("⟩

def rightParen : Token := ⟨.rParen, ")"⟩

def leftBrace : Token := ⟨.lBrace, "\x7b"⟩

def rightBrace : Token := ⟨.rBrace, "\x7d"⟩

/-! ### One construct -/

/-- The causes of the faults of what nests no deeper than it may if `fits`, and too deep
otherwise. -/
def overflow (fits : Prop) [Decidable fits] : List Cause := if fits then [] else [.nestedTooDeep]

theorem overflow_congr {fits fits' : Prop} [Decidable fits] [Decidable fits']
    (h : fits ↔ fits') :
  overflow fits = overflow fits'
  := if_congr h rfl rfl

/-- What stands at the front of some tokens ends an expression. -/
def EndsExpression (rest : List Token) : Prop :=
  endsExpression (rest.head?.map Token.kind) = true

namespace EndsExpression

variable {rest : List Token}

theorem look (h : EndsExpression rest) (out : List Tree) :
  endsExpression (Bare.mk rest out).look.first = true
  := by
  cases rest with
  | nil => rfl
  | cons t ts => exact h

/-- What ends an expression ends a level of nesting. -/
theorem balance (h : EndsExpression rest) :
  (rest.head?.map Token.kind).bind (State.balance? 0) = none
  := by
  cases rest with
  | nil => rfl
  | cons t ts =>
    obtain ⟨k, text⟩ := t
    cases k with
    | rParen | rBrace | rBracket | comma | semicolon => rfl
    | _ => contradiction

/-- What ends an expression is no call and no field access. -/
theorem continues (h : EndsExpression rest) (out : List Tree) :
  Construct.continues (Bare.mk rest out).look = false
  := by
  cases rest with
  | nil => rfl
  | cons t ts =>
    obtain ⟨k, text⟩ := t
    cases k with
    | rParen | rBrace | rBracket | comma | semicolon => rfl
    | _ => contradiction

end EndsExpression

/-- The tokens `ts` are read as one tree, in front of anything that ends an expression.  If `fits`
then no fault is noted and the tree has no error node in it; otherwise the nesting gets too deep
once, and the tree has one error node in it. -/
def NestsIf (levels : Nat) (symbol : Symbol) (ts : List Token) (fits : Prop) [Decidable fits] :
    Prop :=
  ∃ t : Tree, t.countNodes .error = (overflow fits).length
    ∧ ∀ rest out, EndsExpression rest →
      (nested symbol).Results (grammar.read levels) ⟨ts ++ rest, out⟩ (overflow fits)
        ⟨rest, t :: out⟩

section

variable {levels : Nat} {symbol : Symbol} {ts rest : List Token} {fits fits' : Prop}
variable [Decidable fits] [Decidable fits']

theorem NestsIf.congr (h : NestsIf levels symbol ts fits) (hfits : fits ↔ fits') :
  NestsIf levels symbol ts fits'
  := by
  rwa [NestsIf, ← overflow_congr hfits]

theorem nestsIf_of_fits {t : Tree} (hfits : fits) (ht : t.countNodes .error = 0)
    (h : ∀ rest out, EndsExpression rest →
      (nested symbol).Results (grammar.read levels) ⟨ts ++ rest, out⟩ [] ⟨rest, t :: out⟩) :
  NestsIf levels symbol ts fits
  := by
  have hcauses : overflow fits = [] := if_pos hfits
  rw [NestsIf, hcauses]
  use t, ht

/-- At the last level everything nests too deep. -/
theorem nestsIf_zero (hne : ts ≠ []) (hts : Token.balance? 0 ts = some 0) (hfits : ¬ fits) :
  NestsIf 0 symbol ts fits
  := by
  have hcauses : overflow fits = [.nestedTooDeep] := if_neg hfits
  rw [NestsIf, hcauses]
  refine ⟨.node .error (ts.map Tree.token), ?_, fun rest out hrest => ?_⟩
  · rw [Tree.countNodes_node, List.map_map]
    simp [Function.comp_def]
  · apply Grammar.results_read_zero hne hts hrest.balance

/-! ### Expressions -/

section

variable {causes : List Cause} {t : Tree}

/-- An operand that no binary operator follows is an expression. -/
theorem results_expression (hstop : bindsOver 0 (Bare.mk rest [t]).look = false)
    (h : (nested Symbol.operand).Results (grammar.read levels) ⟨ts, []⟩ causes ⟨rest, [t]⟩)
    (out : List Tree) :
  expression.Results (grammar.read (levels + 1)) ⟨ts, out⟩ causes ⟨rest, t :: out⟩
  := by
  have hgroup : (nested Symbol.operand >> loop (bindsOver 0)
      (branch (bindsOver 1) (operation 2) (operation 1))).Results (grammar.read levels)
      ⟨ts, []⟩ causes ⟨rest, [t]⟩ :=
    h.before (Results.loop_stop hstop)
  apply Grammar.results_read_succ
  exact hgroup.apart out

/-- What starts no prefix operator and no slice is read as a primary expression. -/
theorem results_operand {u : Token} (hoperator : isPrefixOperator u.kind = false)
    (hslice : u.kind ≠ .lBracket) (hstarts : endsExpression (some u.kind) = false)
    (hstop : continues (Bare.mk rest [t]).look = false)
    (h : primary.Results (grammar.read levels) ⟨u :: ts, []⟩ causes ⟨rest, [t]⟩) (out : List Tree) :
  (nested Symbol.operand).Results (grammar.read (levels + 1)) ⟨u :: ts, out⟩ causes
    ⟨rest, t :: out⟩
  := by
  have hgroup : (branch (fun a => endsExpression a.first) (report .missingExpression)
      (primary >> loop continues (branch (·.isAt .lParen) (wrap .callExpr argumentList)
        (wrap .fieldExpr (take >> take))))).Results (grammar.read levels) ⟨u :: ts, []⟩ causes
      ⟨rest, [t]⟩ :=
    Results.branch_false hstarts (h.before (Results.loop_stop hstop))
  apply Grammar.results_read_succ
  apply Results.branch_false hoperator
  apply Results.branch_false (decide_eq_false fun heq => hslice (Option.some_inj.mp heq))
  exact hgroup.apart out

end

/-- An expression without binary operators nests one level deeper than its operand. -/
theorem NestsIf.expression (h : NestsIf levels .operand ts fits) :
  NestsIf (levels + 1) (.expression 0) ts fits
  := by
  obtain ⟨t, ht, hreads⟩ := h
  refine ⟨t, ht, fun rest out hrest => ?_⟩
  have hstop := bindsOver_of_endsExpression (hrest.look [t]) 0
  exact results_expression hstop (hreads rest [] hrest) out

theorem nestsIf_one (hfits : fits) :
  NestsIf (levels + 1) .operand [one] fits
  := by
  apply nestsIf_of_fits (t := .node .literal [.token one]) hfits (by simp)
  intro rest out hrest
  apply results_operand rfl (by decide) rfl (hrest.continues _)
  apply Results.branch_false rfl
  apply Results.branch_true rfl
  exact (results_take one rest []).node .literal []

/-- An expression in parentheses. -/
theorem NestsIf.parenthesized (h : NestsIf levels (.expression 0) ts fits) :
  NestsIf (levels + 1) .operand (leftParen :: (ts ++ [rightParen])) fits
  := by
  obtain ⟨t, ht, hreads⟩ := h
  refine ⟨.node .parenExpr [.token leftParen, t, .token rightParen], by simpa using ht,
    fun rest out hrest => ?_⟩
  rw [List.cons_append, List.append_assoc]
  apply results_operand rfl (by decide) rfl (hrest.continues _)
  apply Results.branch_false rfl
  apply Results.branch_false rfl
  apply Results.branch_false rfl
  apply Results.branch_true rfl
  have hbody := (hreads (rightParen :: rest) [.token leftParen] rfl).before
    (Results.expect_take rfl rest _)
  exact (hbody.after (results_take _ _ _)).node .parenExpr []

/-- A prefix operator in front of an operand. -/
theorem NestsIf.starred (h : NestsIf levels .operand ts fits)
    (hfirst : ts.head?.map Token.kind ≠ some .constKw) (hne : ts ≠ []) :
  NestsIf (levels + 1) .operand (star :: ts) fits
  := by
  obtain ⟨t, ht, hreads⟩ := h
  refine ⟨.node .prefixExpr [t, .token star].reverse, ?_, fun rest out hrest => ?_⟩
  · simpa using ht
  · apply Grammar.results_read_succ
    apply Results.branch_true rfl
    have hconst : (Bare.mk (ts ++ rest) [.token star]).look.isAt .constKw = false := by
      obtain ⟨u, us, rfl⟩ := List.exists_cons_of_ne_nil hne
      exact decide_eq_false hfirst
    apply Results.node
    refine Results.after ?_ (results_take _ _ _)
    exact Results.after (hreads rest [.token star] hrest) (Results.when_false hconst)

/-! ### Blocks -/

/-- Statements in braces. -/
theorem results_block {causes : List Cause} {inside : List Tree}
    (h : (many .rBrace (statement.orReject .strayInBlock)).Results (grammar.read levels)
      ⟨ts ++ rightBrace :: rest, [.token leftBrace]⟩ causes ⟨rightBrace :: rest, inside⟩)
    (out : List Tree) :
  (nested Symbol.block).Results (grammar.read (levels + 1))
    ⟨leftBrace :: (ts ++ rightBrace :: rest), out⟩ causes
    ⟨rest, .node .block (.token rightBrace :: inside).reverse :: out⟩
  := by
  have hbody := h.before (Results.expect_take rfl rest inside)
  apply Grammar.results_read_succ
  exact (hbody.after (Results.expect_take rfl _ [])).node .block out

theorem nestsIf_block (hfits : fits) :
  NestsIf (levels + 1) .block [leftBrace, rightBrace] fits
  := by
  apply nestsIf_of_fits (t := .node .block [.token leftBrace, .token rightBrace]) hfits (by simp)
  intro rest out _
  have hnone : (many .rBrace (statement.orReject .strayInBlock)).Results (grammar.read levels)
      ⟨[] ++ rightBrace :: rest, [.token leftBrace]⟩ []
      ⟨rightBrace :: rest, [.token leftBrace]⟩ :=
    Results.loop_stop rfl
  exact results_block hnone out

/-- A block as the only statement of a block. -/
theorem NestsIf.braced (h : NestsIf levels .block (leftBrace :: ts) fits) :
  NestsIf (levels + 1) .block (leftBrace :: (leftBrace :: ts ++ [rightBrace])) fits
  := by
  obtain ⟨t, ht, hreads⟩ := h
  refine ⟨.node .block [.token leftBrace, t, .token rightBrace], by simpa using ht,
    fun rest out _ => ?_⟩
  have hstatement : statement.Results (grammar.read levels)
      ⟨leftBrace :: ts ++ rightBrace :: rest, [.token leftBrace]⟩ (overflow fits)
      ⟨rightBrace :: rest, [t, .token leftBrace]⟩ := by
    apply Results.branch_false rfl
    apply Results.branch_true rfl
    apply hreads (rightBrace :: rest) [.token leftBrace] rfl
  have hlt : (rightBrace :: rest).length < (leftBrace :: ts ++ rightBrace :: rest).length := by
    simp only [List.length_append, List.length_cons]
    omega
  have htakes := State.kept_takes.read grammar levels
  have hitems : (many .rBrace (statement.orReject .strayInBlock)).Results (grammar.read levels)
      ⟨leftBrace :: ts ++ rightBrace :: rest, [.token leftBrace]⟩ (overflow fits)
      ⟨rightBrace :: rest, [t, .token leftBrace]⟩ :=
    (hstatement.orReject htakes hlt _).loop_once htakes rfl hlt rfl
  rw [List.cons_append, List.append_assoc]
  exact results_block hitems out

end

/-! ### Nesting of any depth -/

/-- The tokens `ts` are a construct that takes `depth` levels, and that nests too deep where there
are fewer. -/
structure Nests (symbol : Symbol) (ts : List Token) (depth : Nat) : Prop where
  ne_nil : ts ≠ []
  balanced : ∀ opened, Token.balance? opened ts = some opened
  reads : ∀ levels, NestsIf levels symbol ts (depth ≤ levels)

namespace Nests

variable {symbol : Symbol} {ts : List Token} {depth : Nat}

/-- One level is for the construct itself. -/
theorem of_succ (hne : ts ≠ []) (hbalanced : ∀ opened, Token.balance? opened ts = some opened)
    (h : ∀ levels, NestsIf (levels + 1) symbol ts (depth ≤ levels)) :
  Nests symbol ts (depth + 1)
  where
  ne_nil := hne
  balanced := hbalanced
  reads levels := by
    cases levels with
    | zero => apply nestsIf_zero hne (hbalanced 0) (Nat.not_succ_le_zero depth)
    | succ levels => apply (h levels).congr Nat.succ_le_succ_iff.symm

theorem expression (h : Nests .operand ts depth) :
  Nests (.expression 0) ts (depth + 1)
  := of_succ h.ne_nil h.balanced fun levels => (h.reads levels).expression

theorem parenthesized (h : Nests (.expression 0) ts depth) :
  Nests .operand (leftParen :: (ts ++ [rightParen])) (depth + 1)
  := of_succ (List.cons_ne_nil _ _) (Token.balance?_bracketed h.balanced rfl rfl rfl)
    fun levels => (h.reads levels).parenthesized

theorem starred (h : Nests .operand ts depth) (hfirst : ts.head?.map Token.kind ≠ some .constKw) :
  Nests .operand (star :: ts) (depth + 1)
  := of_succ (List.cons_ne_nil _ _) h.balanced fun levels => (h.reads levels).starred hfirst h.ne_nil

theorem braced (h : Nests .block (leftBrace :: ts) depth) :
  Nests .block (leftBrace :: (leftBrace :: ts ++ [rightBrace])) (depth + 1)
  := of_succ (List.cons_ne_nil _ _) (Token.balance?_bracketed h.balanced rfl rfl rfl)
    fun levels => (h.reads levels).braced

end Nests

theorem nests_one :
  Nests .operand [one] 1
  := .of_succ (List.cons_ne_nil _ _) (fun _ => rfl) fun _ => nestsIf_one (Nat.zero_le _)

theorem nests_block :
  Nests .block [leftBrace, rightBrace] 1
  := .of_succ (List.cons_ne_nil _ _) (fun _ => rfl) fun _ => nestsIf_block (Nat.zero_le _)

/-- The number `1` in `n` pairs of parentheses. -/
def parens : Nat → List Token
  | 0 => [one]
  | n + 1 => leftParen :: (parens n ++ [rightParen])

/-- The number `1` behind `n` stars. -/
def stars : Nat → List Token
  | 0 => [one]
  | n + 1 => star :: stars n

/-- An empty block in `n` others. -/
def blocks : Nat → List Token
  | 0 => [leftBrace, rightBrace]
  | n + 1 => leftBrace :: (blocks n ++ [rightBrace])

/-- A pair of parentheses takes two levels, one for the expression in it and one for its
operand. -/
theorem nests_parens (n : Nat) :
  Nests (.expression 0) (parens n) (2 * n + 2)
  := by
  induction n with
  | zero => apply nests_one.expression
  | succ n ih => apply ih.parenthesized.expression

/-- A star takes one level. -/
theorem nests_stars (n : Nat) :
  Nests .operand (stars n) (n + 1)
  := by
  induction n with
  | zero => apply nests_one
  | succ n ih =>
    apply ih.starred
    cases n with
    | zero => decide
    | succ n =>
      have hstar : (stars (n + 1)).head?.map Token.kind = some .star := rfl
      rw [hstar]
      nofun

/-- A block takes one level. -/
theorem nests_blocks (n : Nat) :
  Nests .block (blocks n) (n + 1)
  := by
  induction n with
  | zero => apply nests_block
  | succ n ih =>
    cases n with
    | zero => apply ih.braced
    | succ n => apply ih.braced

end Construct

end InlayHints

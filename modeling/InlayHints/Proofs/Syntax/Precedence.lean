import InlayHints.Proofs.Syntax.Schema

/-!
# How tightly operators bind

Whatever faults a text has, each binary expression in its tree has one operator, one operand before
it and at most one after it; an operand before it that is a binary expression itself binds at least
as tightly, and one after it binds more tightly (`SourceFile.grouped_of_mem`).

The trees that may be an operand where operators bind with power `n` or more are those of
`Tree.IsOperand n`.  What reading an expression of power `p` yields is such a tree or nothing, and
no operator is left behind it that binds over `p` (`Construct.Yields`).  The step is the loop that
takes operators: the group it makes a node of is one operand for every operator that may come next
(`Construct.Climbs`), since the operators after it never bind over the power at which the right
operand was read.
-/

namespace InlayHints

/-! ### Operators -/

theorem TokenKind.bindingPower?_of_isTrivia {k : TokenKind} (h : k.isTrivia = true) :
  k.bindingPower? = none
  := by
  cases k with
  | whitespace | comment => rfl
  | _ => contradiction

namespace Tree

variable {n m : Nat} {t : Tree}

/-- The binary operators among the children. -/
def operators (t : Tree) : List Token :=
  (t.children.filterMap token?).filter (·.kind.bindingPower?.isSome)

/-- An expression that is not a binary one, or one whose only operator has power `n` at least. -/
structure IsOperand (n : Nat) (t : Tree) : Prop where
  isExpr : t.kind.isExpr = true
  bindsFrom : t.kind = .node .binExpr →
    ∃ operator m, t.operators = [operator] ∧ operator.kind.bindingPower? = some m ∧ n ≤ m

theorem IsOperand.mono (h : t.IsOperand m) (hle : n ≤ m) :
  t.IsOperand n
  where
  isExpr := h.isExpr
  bindsFrom := by
    intro hkind
    obtain ⟨operator, k, hoperators, hpower, hk⟩ := h.bindsFrom hkind
    use operator, k, hoperators, hpower, Nat.le_trans hle hk

/-- The children of a binary expression: its operands are grouped as its operator asks for. -/
def Grouped (kind : NodeKind) (cs : List Tree) : Prop :=
  kind = .binExpr → ∃ (left : Tree) (operator : Token) (right? : Option Tree) (n : Nat),
    parts cs = left :: .token operator :: right?.toList
      ∧ operator.kind.bindingPower? = some n ∧ left.IsOperand n
      ∧ ∀ right ∈ right?, right.IsOperand (n + 1)

theorem token?_of_isExpr (h : t.kind.isExpr = true) :
  t.token? = none
  := by
  cases t with
  | token t => contradiction
  | node k cs => rfl

/-- Trivia is no operator. -/
theorem operators_node (kind : NodeKind) (cs : List Tree) :
  (node kind cs).operators
    = ((parts cs).filterMap token?).filter (·.kind.bindingPower?.isSome)
  := by
  rw [operators, children, parts, List.filterMap_filter, List.filter_filterMap,
    List.filter_filterMap]
  apply List.filterMap_congr
  intro c _
  cases c with
  | node k cs => rfl
  | token t =>
    cases htrivia : t.isTrivia with
    | false => simp [isTrivia, htrivia]
    | true => simp [isTrivia, htrivia, token?, TokenKind.bindingPower?_of_isTrivia htrivia]

/-- The operator of a binary expression is the only one. -/
theorem operators_of_parts {cs : List Tree} {left : Tree} {operator : Token} {right? : Option Tree}
    (hparts : parts cs = left :: .token operator :: right?.toList)
    (hleft : left.kind.isExpr = true) (hright : ∀ right ∈ right?, right.kind.isExpr = true)
    (hpower : operator.kind.bindingPower? = some n) (kind : NodeKind) :
  (node kind cs).operators = [operator]
  := by
  have hrest : right?.toList.filterMap token? = [] := by
    apply List.filterMap_eq_nil_iff.mpr
    intro right hmem
    apply token?_of_isExpr (hright right (Option.mem_toList.mp hmem))
  have htoken : (token operator).token? = some operator := rfl
  rw [operators_node, hparts, List.filterMap_cons_none (token?_of_isExpr hleft),
    List.filterMap_cons_some htoken, hrest, List.filter_singleton, hpower]
  rfl

end Tree

namespace Construct

open Rule

variable {s : State} {p n : Nat}

/-! ### Operands -/

/-- Reading an expression or an operand adds one expression, or nothing where no expression
starts. -/
theorem exists_part_read (levels : Nat) {symbol : Symbol} (hsymbol : symbol ≠ .block) (s : State) :
  ∃ x? : Option Tree, (grammar.read levels symbol s).parts = s.parts ++ x?.toList
    ∧ (∀ x ∈ x?, x.kind.isExpr = true)
    ∧ (x? = none → endsExpression (grammar.read levels symbol s).look.first = true)
  := by
  have hframes := fun past => frames_read levels past symbol
  rw [State.parts_of_frames hframes s, State.look_of_frames hframes s]
  set u := State.start s.ahead.tokens
  set t := grammar.read levels symbol u
  have hlaid : u.LaidOut NodeKind.layout := List.forall_mem_nil _
  obtain ⟨ks, hks, hkinds⟩ := (adds_read levels symbol u trivial hlaid).1.parts
  have hkinds : t.parts.map Tree.kind = ks := hkinds
  have hks : ks ∈ (Layout.maybe Layout.expression).language := by
    cases symbol with
    | block => contradiction
    | _ => exact hks
  rcases Layout.mem_maybe.mp hks with hexpr | rfl
  · obtain ⟨k, hk, rfl⟩ := Layout.mem_one.mp hexpr
    obtain ⟨x, hx, rfl⟩ := List.map_eq_singleton_iff.mp hkinds
    use some x
    rw [hx]
    simpa using hk
  · have hparts := List.map_eq_nil_iff.mp hkinds
    use none, by rw [hparts]; rfl, nofun
    intro _
    have htakes : u.Takes t := State.kept_takes.read grammar levels symbol u
    have hsame := htakes.significant_eq_of_parts rfl hparts
    -- an expression that starts here would take a token
    cases hends : endsExpression u.look.first with
    | true => rwa [State.look_eq, hsame, ← State.look_eq]
    | false =>
      have hadvances : u.Advances t := advances_read levels hsymbol hends
      rw [State.Advances, hsame] at hadvances
      omega

theorem not_binExpr_operand (levels : Nat) (hs : s.out = []) :
  (grammar.read levels .operand s).Tops (· ≠ .binExpr)
  := by
  have hstart : s.Tops (· ≠ .binExpr) := by
    rw [State.Tops, hs]
    apply List.forall_mem_nil
  cases levels with
  | zero =>
    have hreport : (s.report fun _ => .nestedTooDeep).Tops (· ≠ .binExpr) := hstart
    apply hreport.skipLevel rfl
  | succ levels =>
    have htops : operand.tops (· ≠ .binExpr) = true := by decide
    apply tops_run htops hstart

/-! ### Operators of a group -/

/-- The group is one operand for operators that bind over `p` and for any operator that comes next,
or it is empty where no expression starts. -/
def Climbs (p : Nat) (s : State) : Prop :=
  s.parts = [] ∧ endsExpression s.look.first = true
    ∨ ∃ x, s.parts = [x] ∧ x.IsOperand (p + 1)
      ∧ ∀ n ∈ s.look.first.bind TokenKind.bindingPower?, x.IsOperand n

/-- Between two states at most one operand for operators that bind over `p` was added, and then no
such operator is left ahead. -/
def Yields (p : Nat) (s t : State) : Prop :=
  ∃ x? : Option Tree, t.parts = s.parts ++ x?.toList ∧ (∀ x ∈ x?, x.IsOperand (p + 1))
    ∧ bindsOver p t.look = false

theorem bindsOver_iff {a : Lookahead} :
  bindsOver p a = true ↔ ∃ n ∈ a.first.bind TokenKind.bindingPower?, p < n
  := by
  rw [bindsOver, Option.any_eq_true]
  simp only [Option.mem_def, decide_eq_true_eq]

theorem climbs_operand (levels p : Nat) (hs : s.out = []) :
  Climbs p (grammar.read levels .operand s)
  := by
  have hsymbol : Symbol.operand ≠ .block := nofun
  obtain ⟨x?, hparts, hexpr, hends⟩ := exists_part_read levels hsymbol s
  have hnil : s.parts = [] := by rw [State.parts, hs]; rfl
  rw [hnil, List.nil_append] at hparts
  cases x? with
  | none => exact Or.inl ⟨hparts, hends rfl⟩
  | some x =>
    have hmem : x ∈ (grammar.read levels .operand s).out := by
      have hx : x ∈ (grammar.read levels .operand s).parts := by rw [hparts]; simp
      apply List.mem_reverse.mp (List.mem_of_mem_filter hx)
    have hoperand : ∀ n, x.IsOperand n := by
      intro n
      use hexpr x rfl
      intro hkind
      have hne := not_binExpr_operand levels hs x hmem _ hkind
      contradiction
    exact Or.inr ⟨x, hparts, hoperand _, fun n _ => hoperand n⟩

section

variable {inner : Symbol → State → State}
variable (hyields : ∀ p s, Yields p s (inner (.expression p) s))

include hyields

/-- The operator that comes next and the operand behind it are added to the operand before it. -/
theorem exists_parts_operation {x : Tree} (hparts : s.parts = [x])
    (hn : n ∈ s.look.first.bind TokenKind.bindingPower?) :
  ∃ (operator : Token) (right? : Option Tree),
    (inner (.expression n) s.take).parts = x :: .token operator :: right?.toList
      ∧ operator.kind.bindingPower? = some n ∧ ∀ right ∈ right?, right.IsOperand (n + 1)
  := by
  obtain ⟨k, hk, hpower⟩ := Option.bind_eq_some_iff.mp hn
  obtain ⟨operator, rfl, htake⟩ := State.exists_parts_take hk
  obtain ⟨right?, hright, hoperand, -⟩ := hyields n s.take
  use operator, right?
  rw [htake, hparts] at hright
  exact ⟨hright, hpower, hoperand⟩

/-- A binary expression is one operand for the operators that may come next, since its right
operand took all that bind more tightly. -/
theorem climbs_operation {x : Tree} (hparts : s.parts = [x])
    (hn : n ∈ s.look.first.bind TokenKind.bindingPower?) (hx : x.IsOperand n) (hp : p < n) :
  Climbs p ((operation n).run inner s)
  := by
  obtain ⟨operator, right?, hchildren, hpower, hright⟩ := exists_parts_operation hyields hparts hn
  have hstop : bindsOver n (inner (.expression n) s.take).look = false := by
    obtain ⟨-, -, -, hstop⟩ := hyields n s.take
    exact hstop
  set t := inner (.expression n) s.take
  have hrun : (operation n).run inner s = t.withOut [.node .binExpr t.out.reverse] := rfl
  have hoperators : (Tree.node .binExpr t.out.reverse).operators = [operator] :=
    Tree.operators_of_parts hchildren hx.isExpr (fun right h => (hright right h).isExpr) hpower _
  have hoperand : ∀ m ≤ n, (Tree.node .binExpr t.out.reverse).IsOperand m := by
    intro m hm
    use rfl
    intro _
    use operator, n, hoperators, hpower, hm
  rw [hrun]
  apply Or.inr
  use .node .binExpr t.out.reverse, rfl, hoperand _ hp
  intro m hm
  apply hoperand m
  by_contra hlt
  have hbinds : bindsOver n t.look = true := bindsOver_iff.mpr ⟨m, hm, by omega⟩
  rw [hstop] at hbinds
  contradiction

/-- The node that an operator and its operands make is grouped. -/
theorem shaped_operation {x : Tree}
    (hshaped : ∀ symbol s, s.Shaped Tree.Grouped → (inner symbol s).Shaped Tree.Grouped)
    (hs : s.Shaped Tree.Grouped) (hparts : s.parts = [x])
    (hn : n ∈ s.look.first.bind TokenKind.bindingPower?) (hx : x.IsOperand n) :
  ((operation n).run inner s).Shaped Tree.Grouped
  := by
  obtain ⟨operator, right?, hchildren, hpower, hright⟩ := exists_parts_operation hyields hparts hn
  apply State.Shaped.wrap
  · apply hshaped (.expression n) s.take hs.take
  · intro _
    exact ⟨x, operator, right?, n, hchildren, hpower, hx, hright⟩

end

/-! ### All expressions -/

/-- Where an operator binds over `p`, the group is one operand for it. -/
theorem Climbs.exists_operand (h : Climbs p s) (htest : bindsOver p s.look = true) :
  ∃ x n, s.parts = [x] ∧ n ∈ s.look.first.bind TokenKind.bindingPower? ∧ x.IsOperand n ∧ p < n
  := by
  rcases h with ⟨-, hends⟩ | ⟨x, hparts, -, hx⟩
  · rw [bindsOver_of_endsExpression hends] at htest
    contradiction
  · obtain ⟨n, hn, hlt⟩ := bindsOver_iff.mp htest
    exact ⟨x, n, hparts, hn, hx n hn, hlt⟩

/-- Takes one operator and what is behind it. -/
def round : Rule Symbol := branch (bindsOver 1) (operation 2) (operation 1)

/-- What an expression does in its group. -/
def climb (p : Nat) : Rule Symbol := nested .operand >> loop (bindsOver p) round

theorem operations_eq (p : Nat) :
  operations p = apart (climb p)
  := rfl

/-- The right operand of an operator is read at the power of the operator. -/
theorem run_round {inner : Symbol → State → State}
    (hn : n ∈ s.look.first.bind TokenKind.bindingPower?) :
  round.run inner s = (operation n).run inner s
  := by
  obtain ⟨k, hk, hpower⟩ := Option.bind_eq_some_iff.mp hn
  have htest : bindsOver 1 s.look = decide (1 < n) := by
    rw [bindsOver, show s.look.first.bind TokenKind.bindingPower? = some n from hn]
    rfl
  cases k with
  | plus | minus =>
    obtain rfl := Option.some_inj.mp hpower
    apply run_branch_false htest
  | star | slash =>
    obtain rfl := Option.some_inj.mp hpower
    apply run_branch_true htest
  | _ => contradiction

theorem endsExpression_of_nextBalance {opened : Nat} (h : s.nextBalance? opened = none) :
  endsExpression s.look.first = true
  := by
  rw [State.nextBalance?, Option.bind_eq_none_iff] at h
  cases hk : s.look.first with
  | none => rfl
  | some k =>
    have hbalance := h k hk
    cases hends : endsExpression (some k) with
    | true => rfl
    | false =>
      rw [endsExpression, Bool.or_eq_false_iff] at hends
      rw [State.balance?, hends.1, hends.2] at hbalance
      cases hopening : k.isOpening with
      | true => simp [hopening] at hbalance
      | false => simp [hopening] at hbalance

/-- Skipping stops where no expression starts. -/
theorem endsExpression_takeLevel (opened : Nat) (s : State) :
  endsExpression (s.takeLevel opened).look.first = true
  := by
  fun_induction State.takeLevel opened s with
  | case1 opened s heq => apply endsExpression_of_nextBalance heq
  | case2 opened s opened' heq ih => apply ih

theorem yields_skipLevel (p : Nat) (s : State) :
  Yields p s s.skipLevel
  := by
  unfold State.skipLevel
  split
  · next hnone =>
    use none, (List.append_nil _).symm, nofun
    apply bindsOver_of_endsExpression (endsExpression_of_nextBalance hnone)
  · refine ⟨some (.node .error _), State.parts_within _ _ s, ?_, ?_⟩
    · rintro _ ⟨⟩
      use rfl, nofun
    · apply bindsOver_of_endsExpression
      apply endsExpression_takeLevel

section

variable {levels : Nat}
variable (hyields : ∀ p s, Yields p s (grammar.read levels (.expression p) s))
variable (hshaped : ∀ symbol s,
  s.Shaped Tree.Grouped → (grammar.read levels symbol s).Shaped Tree.Grouped)

include hshaped

/-- The rules of operands and blocks build no binary expression themselves. -/
theorem shaped_of_builds {r : Rule Symbol} (hr : r.builds (· ≠ .binExpr) = true)
    (hs : s.Shaped Tree.Grouped) :
  (r.run (grammar.read levels) s).Shaped Tree.Grouped
  := by
  have hfits : ∀ kind, decide (kind ≠ NodeKind.binExpr) = true → ∀ cs, Tree.Grouped kind cs :=
    fun kind hkind cs hbinary => absurd hbinary (of_decide_eq_true hkind)
  apply shaped_run hshaped (shapes_of_builds hfits hr fun _ => True) trivial hs

include hyields

/-- In a group of its own, an expression climbs over its operators, and all of them are grouped. -/
theorem climbs_climb (p : Nat) (hs : s.out = []) :
  (Climbs p ((climb p).run (grammar.read levels) s)
      ∧ ((climb p).run (grammar.read levels) s).Shaped Tree.Grouped)
    ∧ bindsOver p ((climb p).run (grammar.read levels) s).look = false
  := by
  have hstart : s.Shaped Tree.Grouped := by
    rw [State.Shaped, hs]
    apply List.forall_mem_nil
  apply State.repeatWhile_induct (I := fun t => Climbs p t ∧ t.Shaped Tree.Grouped)
  · rintro t htest ⟨hclimbs, ht⟩
    obtain ⟨x, n, hparts, hn, hx, hlt⟩ := hclimbs.exists_operand htest
    rw [run_round hn]
    use ⟨climbs_operation hyields hparts hn hx hlt,
      shaped_operation hyields hshaped ht hparts hn hx⟩
    have htakes := State.kept_takes.read grammar levels
    apply (State.kept_takes.run htakes (operation n) t).count_lt
    apply advances_wrap
    apply advances_andThen htakes
    apply State.advances_take
    intro hnone
    rw [hnone] at hn
    contradiction
  · use climbs_operand levels p hs
    apply hshaped .operand s hstart

theorem yields_operations (p : Nat) (s : State) :
  Yields p s ((operations p).run (grammar.read levels) s)
  := by
  obtain ⟨⟨hclimbs, -⟩, hstop⟩ := climbs_climb hyields hshaped p (s := s.flush.withOut []) rfl
  rw [operations_eq, run, Yields, State.parts_apart]
  rcases hclimbs with ⟨hnil, -⟩ | ⟨x, hx, hoperand, -⟩
  · use none, by rw [hnil]; rfl, fun x hx => absurd hx (Option.not_mem_none x)
    exact hstop
  · use some x, by rw [hx]; rfl
    use by simpa using hoperand
    exact hstop

theorem shaped_grammar (symbol : Symbol) (hs : s.Shaped Tree.Grouped) :
  ((grammar symbol).run (grammar.read levels) s).Shaped Tree.Grouped
  := by
  cases symbol with
  | expression p =>
    apply hs.apart
    apply (climbs_climb hyields hshaped p rfl).1.2
  | operand => apply shaped_of_builds hshaped (by decide) hs
  | block => apply shaped_of_builds hshaped (by decide) hs

end

/-- Every construct is read into grouped trees, and an expression yields one operand at most. -/
theorem grouped_read (levels : Nat) :
  (∀ p s, Yields p s (grammar.read levels (.expression p) s))
    ∧ ∀ symbol s, s.Shaped Tree.Grouped → (grammar.read levels symbol s).Shaped Tree.Grouped
  := by
  induction levels with
  | zero =>
    constructor
    · intro p s
      apply yields_skipLevel
    · intro symbol s hs
      have hreport : (s.report fun _ => .nestedTooDeep).Shaped Tree.Grouped := hs
      apply hreport.skipLevel
      intro cs hbinary
      contradiction
  | succ levels ih =>
    obtain ⟨hyields, hshaped⟩ := ih
    exact ⟨yields_operations hyields hshaped, fun _ _ => shaped_grammar hyields hshaped _⟩

end Construct

open Construct in
/-- In the tree of any text, the operands of every operator are grouped as it asks for. -/
theorem Parse.grouped_ofTokens (ts : List Token) :
  (ofTokens ts).tree.Shaped Tree.Grouped
  := by
  have hstart : (State.start ts).Shaped Tree.Grouped := List.forall_mem_nil _
  have hread := grouped_read nestingLimit
  have hfile : (file.run (grammar.read nestingLimit) (.start ts)).Shaped Tree.Grouped :=
    shaped_of_builds hread.2 (by decide) hstart
  apply State.Shaped.node hfile.flush
  intro hbinary
  contradiction

/-! ### Files -/

/-- A binary expression. -/
abbrev BinaryExpr : Type := NodeSite (NodeKind.is .binExpr)

namespace BinaryExpr

variable {b : BinaryExpr} {n : Nat}

/-- The tokens of the expression that are binary operators. -/
def operators (b : BinaryExpr) : List Leaf :=
  b.site.ownTokens.filter (·.kind.bindingPower?.isSome)

/-- The expression has one operator, and this has power `n`. -/
def HasPower (b : BinaryExpr) (n : Nat) : Prop :=
  ∃ operator, b.operators = [operator] ∧ operator.kind.bindingPower? = some n

/-- The expression is made of an operand, its only operator and maybe another operand.  The first
operand has an operator that binds at least as tightly, if it is a binary expression, and the second
one has an operator that binds more tightly. -/
def Grouped (b : BinaryExpr) : Prop :=
  ∃ (left : Expr) (operator : Leaf) (right? : Option Expr) (n : Nat),
    b.site.parts = left.site :: operator.site :: (right?.map (·.site)).toList
      ∧ b.operators = [operator] ∧ operator.kind.bindingPower? = some n
      ∧ (∀ c : BinaryExpr, c.site = left.site → ∃ m, c.HasPower m ∧ n ≤ m)
      ∧ ∀ right ∈ right?, ∀ c : BinaryExpr, c.site = right.site → ∃ m, c.HasPower m ∧ n < m

theorem map_token_operators (b : BinaryExpr) :
  b.operators.map Leaf.token = b.site.tree.operators
  := by
  rw [Tree.operators, ← Site.map_token_ownTokens, List.filter_map]
  rfl

/-- The operator of a tree is that of the expression there. -/
theorem exists_operators {operator : Token} (h : b.site.tree.operators = [operator]) :
  ∃ l : Leaf, b.operators = [l] ∧ l.token = operator
  := by
  rw [← map_token_operators] at h
  apply List.map_eq_singleton_iff.mp h

theorem exists_power (h : b.site.tree.IsOperand n) :
  ∃ m, b.HasPower m ∧ n ≤ m
  := by
  obtain ⟨operator, m, hoperators, hpower, hle⟩ := h.bindsFrom b.kind_site
  obtain ⟨l, hl, rfl⟩ := exists_operators hoperators
  exact ⟨m, ⟨l, hl, hpower⟩, hle⟩

/-- An operator among the parts is the only one. -/
theorem operators_eq_singleton {operator : Leaf} {token : Token}
    (h : b.site.tree.operators = [token]) (hmem : operator.site ∈ b.site.parts)
    (hpower : operator.kind.bindingPower? = some n) :
  b.operators = [operator]
  := by
  obtain ⟨l, hl, -⟩ := exists_operators h
  have hfound : operator ∈ b.operators := by
    apply List.mem_filter.mpr ⟨Site.mem_ownTokens (Site.mem_parts.mp hmem).1, _⟩
    rw [hpower]
    rfl
  rw [hl, List.mem_singleton] at hfound
  rw [hl, hfound]

theorem grouped_of_fits (h : Tree.Grouped .binExpr b.site.tree.children) :
  b.Grouped
  := by
  obtain ⟨_, token, right?, n, hparts, hpower, hleft, hright⟩ := h rfl
  have hoperators : b.site.tree.operators = [token] := by
    have hkind : b.site.tree.kind = .node .binExpr := b.kind_site
    cases htree : b.site.tree with
    | token t =>
      rw [htree] at hkind
      contradiction
    | node k cs =>
      rw [htree] at hparts
      apply Tree.operators_of_parts hparts hleft.isExpr
        (fun right h => (hright right h).isExpr) hpower
  have hsites : b.site.parts.map Site.tree = _ := (Site.map_tree_parts b.site).trans hparts
  obtain ⟨e₁, _, hsplit, rfl, hothers⟩ := List.map_eq_cons_iff.mp hsites
  obtain ⟨e₂, es, rfl, htoken, hrest⟩ := List.map_eq_cons_iff.mp hothers
  obtain ⟨left, rfl⟩ := Site.exists_expr hleft.isExpr
  obtain ⟨operator, rfl, rfl⟩ := Site.exists_leaf_of_tree htoken
  have hsingle : b.operators = [operator] := by
    apply operators_eq_singleton hoperators _ hpower
    rw [hsplit]
    apply List.mem_cons_of_mem _ List.mem_cons_self
  have hfirst : ∀ c : BinaryExpr, c.site = left.site → ∃ m, c.HasPower m ∧ n ≤ m := by
    intro c hc
    rw [← hc] at hleft
    apply exists_power hleft
  cases right? with
  | none =>
    rw [Option.toList_none, List.map_eq_nil_iff] at hrest
    rw [hrest] at hsplit
    exact ⟨left, operator, none, n, hsplit, hsingle, hpower, hfirst, nofun⟩
  | some x =>
    obtain ⟨e₃, rfl, rfl⟩ := List.map_eq_singleton_iff.mp hrest
    have hlast := hright _ rfl
    obtain ⟨right, rfl⟩ := Site.exists_expr hlast.isExpr
    refine ⟨left, operator, some right, n, hsplit, hsingle, hpower, hfirst, ?_⟩
    rintro _ ⟨⟩ c hc
    rw [← hc] at hlast
    apply exists_power hlast

end BinaryExpr

namespace SourceFile

variable {text : String} {b : BinaryExpr}

/-- In the file of any text, every binary expression is grouped by the power of its operator. -/
theorem grouped_of_mem (hb : b.site ∈ (ofText text).root.descendants) :
  b.Grouped
  := by
  have hshaped := Site.shaped_descendants
    (Parse.shaped_ofText Parse.grouped_ofTokens text) b.site hb
  apply BinaryExpr.grouped_of_fits
  apply Site.fits_of_shaped hshaped b.kind_site

/-- Where the last operand is missing, the operators before it are grouped all the same. -/
theorem grouped_of_mem_missing :
  ∃ b : BinaryExpr, b.site ∈ (ofText "1 - 2 * 3 - ;").root.descendants
    ∧ b.site.partKinds = [.node .binExpr, .token .minus] ∧ b.Grouped
  := by
  have hfound : ((ofText "1 - 2 * 3 - ;").root.descendants.any fun s =>
      decide (s.kind = .node .binExpr ∧ s.partKinds = [.node .binExpr, .token .minus])) = true := by
    cbv
  obtain ⟨s, hs, hkinds⟩ := List.any_eq_true.mp hfound
  obtain ⟨hkind, hparts⟩ := of_decide_eq_true hkinds
  obtain ⟨b, rfl⟩ : ∃ b : BinaryExpr, b.site = s := by
    apply Site.exists_node
    rw [hkind]
    rfl
  exact ⟨b, hs, hparts, grouped_of_mem hs⟩

end SourceFile

end InlayHints

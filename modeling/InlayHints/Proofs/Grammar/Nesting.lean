import InlayHints.Proofs.Grammar.Framing

/-!
# How deep trees nest

A tree that is read nests only as deep as the levels of nesting allow, if it does not count that
the whole group so far becomes the first child of a node.  `Tree.NestsWithin` counts in this way.
`State.Leads` is what reading keeps of an open group: its first tree may nest one deeper than the
others, since it may have been wrapped any number of times.  What a rule adds by itself is
`Rule.height`, and each level of nesting adds the height of its rule (`Grammar.leads_read`).
-/

namespace InlayHints

/-- The kinds of nodes whose first child is what stands before them: calls, field accesses and
binary operators. -/
def NodeKind.isLink : NodeKind → Bool
  | .callExpr | .fieldExpr | .binExpr => true
  | _ => false

namespace Tree

/-- A tree nests at most `n` deep, where the first child of a link is not deeper than the link. -/
inductive NestsWithin : Nat → Tree → Prop where
  | token (n : Nat) (t : Token) : NestsWithin n (.token t)
  | node {n : Nat} {kind : NodeKind} {cs : List Tree} (children : ∀ c ∈ cs, NestsWithin n c) :
    NestsWithin (n + 1) (.node kind cs)
  | link {n : Nat} {kind : NodeKind} {first : Tree} {others : List Tree}
    (isLink : kind.isLink = true) (first_within : NestsWithin (n + 1) first)
    (others_within : ∀ c ∈ others, NestsWithin n c) :
    NestsWithin (n + 1) (.node kind (first :: others))

theorem NestsWithin.mono {n m : Nat} {t : Tree} (h : t.NestsWithin n) (hle : n ≤ m) :
  t.NestsWithin m
  := by
  induction h generalizing m with
  | token n t => apply token
  | node children ih =>
    obtain ⟨m, rfl⟩ := Nat.exists_eq_add_one_of_ne_zero (Nat.ne_zero_of_lt hle)
    apply node
    intro c hc
    apply ih c hc (Nat.le_of_succ_le_succ hle)
  | link isLink _ _ ih_first ih_others =>
    obtain ⟨m, rfl⟩ := Nat.exists_eq_add_one_of_ne_zero (Nat.ne_zero_of_lt hle)
    apply link isLink (ih_first hle)
    intro c hc
    apply ih_others c hc (Nat.le_of_succ_le_succ hle)

end Tree

/-! ### Groups -/

namespace State

variable {lead n m : Nat} {s t : State}

/-- In the innermost group the first tree nests at most `lead` deep, and the others at most `n`
deep. -/
def Leads (lead n : Nat) (s : State) : Prop :=
  ∃ (others : List Tree) (first : Option Tree), s.out = others ++ first.toList
    ∧ (∀ c ∈ others, c.NestsWithin n) ∧ ∀ c ∈ first, c.NestsWithin lead

theorem leads_opened (s : State) :
  (s.withOut []).Leads lead n
  := ⟨[], none, rfl, List.forall_mem_nil _, nofun⟩

/-- What is added to a group counts among the others. -/
theorem Leads.append (h : s.Leads lead n) (out : List Tree) (hout : t.out = out ++ s.out)
    (hwithin : ∀ c ∈ out, c.NestsWithin n) :
  t.Leads lead n
  := by
  obtain ⟨others, first, hs, hothers, hfirst⟩ := h
  refine ⟨out ++ others, first, ?_, ?_, hfirst⟩
  · rw [hout, hs, List.append_assoc]
  · intro c hc
    rcases List.mem_append.mp hc with hc | hc
    · apply hwithin c hc
    · apply hothers c hc

theorem Leads.cons (h : s.Leads lead n) (c : Tree) (hout : t.out = c :: s.out)
    (hwithin : c.NestsWithin n) :
  t.Leads lead n
  := by
  apply h.append [c] hout
  intro c' hc'
  rw [List.mem_singleton.mp hc']
  apply hwithin

/-- No tree of the group nests deeper than the first one may. -/
theorem Leads.forall_within (h : s.Leads lead n) (hle : n ≤ lead) :
  ∀ c ∈ s.out, c.NestsWithin lead
  := by
  obtain ⟨others, first, hs, hothers, hfirst⟩ := h
  intro c hc
  rw [hs, List.mem_append, Option.mem_toList] at hc
  rcases hc with hc | hc
  · apply (hothers c hc).mono hle
  · apply hfirst c hc

theorem Leads.flush (h : s.Leads lead n) :
  s.flush.Leads lead n
  := by
  apply h.append _ (out_flush s)
  intro c hc
  rw [List.mem_reverse, List.mem_map] at hc
  obtain ⟨t, -, rfl⟩ := hc
  apply Tree.NestsWithin.token

theorem Leads.take (h : s.Leads lead n) :
  s.take.Leads lead n
  := by
  rw [State.take, shift]
  split
  · apply h.flush
  · next t ts _ => apply h.flush.cons (.token t) rfl (.token n t)

/-- A node of trees that nest at most `m` deep is one deeper. -/
theorem Leads.within (h : s.Leads lead n) {kind : NodeKind} {step : State → State} (hm : m < n)
    (hstep : (step (s.flush.withOut [])).Leads m m) :
  (s.within kind step).Leads lead n
  := by
  apply h.flush.cons (.node kind (step (s.flush.withOut [])).out.reverse) rfl
  apply Tree.NestsWithin.mono _ hm
  apply Tree.NestsWithin.node
  intro c hc
  apply hstep.forall_within (Nat.le_refl m) c (List.mem_reverse.mp hc)

/-- The first tree of a group that is added is one of the others, so it counts with its depth. -/
theorem Leads.apart (h : s.Leads lead n) {step : State → State} (hm : m < n)
    (hstep : (step (s.flush.withOut [])).Leads (m + 1) m) :
  (s.apart step).Leads lead n
  := by
  apply h.flush.append (step (s.flush.withOut [])).out rfl
  intro c hc
  apply (hstep.forall_within (Nat.le_add_right m 1) c hc).mono hm

/-- A link with the whole group in it may stand in the place of the first tree. -/
theorem Leads.wrap {kind : NodeKind} {step : State → State} (hkind : kind.isLink = true)
    (hstep : (step s).Leads (n + 1) n) :
  (s.wrap kind step).Leads (n + 1) n
  := by
  have hnode : Tree.NestsWithin (n + 1) (.node kind (step s).out.reverse) := by
    obtain ⟨others, first, hout, hothers, hfirst⟩ := hstep
    rw [hout, List.reverse_append]
    have hothers : ∀ c ∈ others.reverse, c.NestsWithin n :=
      fun c hc => hothers c (List.mem_reverse.mp hc)
    cases first with
    | none => apply Tree.NestsWithin.node hothers
    | some c => apply Tree.NestsWithin.link hkind (hfirst c rfl) hothers
  refine ⟨[], some (.node kind (step s).out.reverse), rfl, List.forall_mem_nil _, ?_⟩
  intro c hc
  obtain rfl := Option.some_inj.mp hc
  apply hnode

theorem Leads.repeatWhile {test : Lookahead → Bool} {step : State → State}
    (hstep : ∀ s : State, s.Leads lead n → (step s).Leads lead n) (h : s.Leads lead n) :
  (s.repeatWhile test step).Leads lead n
  := by
  fun_induction State.repeatWhile test step s with
  | case1 s htest next hlt ih => apply ih (hstep s h)
  | case2 s htest next hlt => apply hstep s h
  | case3 s htest => apply h

theorem Leads.takeLevel (h : s.Leads lead n) (opened : Nat) :
  (s.takeLevel opened).Leads lead n
  := by
  fun_induction State.takeLevel opened s with
  | case1 opened s heq => apply h
  | case2 opened s opened' heq ih => apply ih h.take

/-- What is skipped becomes a node of tokens. -/
theorem Leads.skipLevel (h : s.Leads lead n) (hn : 0 < n) :
  s.skipLevel.Leads lead n
  := by
  unfold State.skipLevel
  split
  · apply h
  · apply h.within hn ((leads_opened _).takeLevel 0)

end State

/-! ### Rules -/

namespace Rule

variable {σ : Type} {inner : σ → State → State} {lead n m : Nat}

/-- How much deeper the trees of a rule nest than those of the symbols in it. -/
def height : Rule σ → Nat
  | .seq first second => max first.height second.height
  | .node _ body => body.height + 1
  | .apart body => body.height + 1
  | .wrap _ body => body.height
  | .branch _ yes no => max yes.height no.height
  | .loop _ body => body.height
  | .unlessTaken body other => max body.height other.height
  | _ => 0

/-- Whether a rule takes a whole group only into links, and only groups that it opened apart. -/
def linked : Rule σ → Bool
  | .seq first second => first.linked && second.linked
  | .node _ body => body.framed && body.linked
  | .apart body => body.linked
  | .wrap kind body => kind.isLink && body.linked
  | .branch _ yes no => yes.linked && no.linked
  | .loop _ body => body.linked
  | .unlessTaken body other => body.linked && other.linked
  | _ => true

/-- A framed rule leaves the first tree of a group alone, and any rule leaves it at most one
deeper than the others. -/
theorem leads_run
    (hinner : ∀ symbol {lead n} {s : State}, m ≤ n → s.Leads lead n →
      (inner symbol s).Leads lead n)
    {r : Rule σ} (hr : r.linked = true) (hn : m + r.height ≤ n)
    (hlead : r.framed = true ∨ lead = n + 1) {s : State} (h : s.Leads lead n) :
  (r.run inner s).Leads lead n
  := by
  induction r generalizing lead n s with
  | pass => apply h
  | seq first second ih₁ ih₂ =>
    simp only [linked, framed, height, Bool.and_eq_true] at hr hlead hn
    apply ih₂ hr.2 (by omega) (hlead.imp_left And.right)
    apply ih₁ hr.1 (by omega) (hlead.imp_left And.left) h
  | take => apply h.take
  | report cause => apply h
  | node kind body ih =>
    simp only [linked, height, Bool.and_eq_true] at hr hn
    apply h.within hn
    apply ih hr.2 (Nat.le_refl _) (Or.inl hr.1) (State.leads_opened _)
  | apart body ih =>
    simp only [linked, height] at hr hn
    apply h.apart hn
    apply ih hr (Nat.le_refl _) (Or.inr rfl) (State.leads_opened _)
  | wrap kind body ih =>
    simp only [linked, height, Bool.and_eq_true] at hr hn
    obtain rfl : lead = n + 1 := hlead.resolve_left Bool.false_ne_true
    apply State.Leads.wrap hr.1 (ih hr.2 hn (Or.inr rfl) h)
  | branch test yes no ih₁ ih₂ =>
    simp only [linked, framed, height, Bool.and_eq_true] at hr hlead hn
    simp only [run]
    split
    · apply ih₁ hr.1 (by omega) (hlead.imp_left And.left) h
    · apply ih₂ hr.2 (by omega) (hlead.imp_left And.right) h
  | loop test body ih =>
    apply State.Leads.repeatWhile _ h
    intro s h
    apply ih hr hn hlead h
  | unlessTaken body other ih₁ ih₂ =>
    simp only [linked, framed, height, Bool.and_eq_true] at hr hlead hn
    have hbody := ih₁ hr.1 (by omega) (hlead.imp_left And.left) h
    simp only [run, State.unlessTaken]
    split
    · apply ih₂ hr.2 (by omega) (hlead.imp_left And.right) hbody
    · apply hbody
  | nested symbol => apply hinner symbol (by simpa [height] using hn) h

end Rule

/-- Every level of nesting makes trees deeper by the heights of the rules at most. -/
theorem Grammar.leads_read {σ : Type} {g : Grammar σ} {height : Nat}
    (hg : ∀ symbol, (g symbol).linked = true ∧ (g symbol).framed = true
      ∧ (g symbol).height ≤ height)
    (levels : Nat) (symbol : σ) {lead n : Nat} {s : State} (hn : height * levels + 1 ≤ n)
    (h : s.Leads lead n) :
  (g.read levels symbol s).Leads lead n
  := by
  induction levels generalizing symbol lead n s with
  | zero =>
    have hreport : (s.report fun _ => .nestedTooDeep).Leads lead n := h
    apply hreport.skipLevel (by omega)
  | succ levels ih =>
    obtain ⟨hlinked, hframed, hheight⟩ := hg symbol
    rw [Nat.mul_succ] at hn
    apply Rule.leads_run (fun symbol _ _ _ => ih symbol) hlinked (by omega) (Or.inl hframed) h

end InlayHints

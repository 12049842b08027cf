import InlayHints.Proofs.Grammar.Framing
import InlayHints.Proofs.Grammar.Significant

/-!
# The shapes of nodes

What is known of every node that a rule builds, when it is known what is ahead where the rule
starts.  `Rule.Shapes` collects what has to hold of the nodes of a rule, one condition for each
place where the rule builds one, with what the tests on the way there tell of the tokens ahead;
`Rule.shaped_run` and `Grammar.shaped_read` carry it to all trees that are read.
-/

namespace InlayHints

/-- Every node in a tree has a kind and children that fit together. -/
inductive Tree.Shaped (Fits : NodeKind → List Tree → Prop) : Tree → Prop where
  | token (t : Token) : Shaped Fits (.token t)
  | node {kind : NodeKind} {cs : List Tree} (fits : Fits kind cs)
    (children : ∀ c ∈ cs, Shaped Fits c) : Shaped Fits (.node kind cs)

namespace State

variable {Fits : NodeKind → List Tree → Prop} {s : State}

/-- All trees of the innermost group are shaped. -/
def Shaped (Fits : NodeKind → List Tree → Prop) (s : State) : Prop := ∀ t ∈ s.out, t.Shaped Fits

theorem Shaped.flush (h : s.Shaped Fits) :
  s.flush.Shaped Fits
  := by
  intro t ht
  rw [out_flush, List.mem_append, List.mem_reverse, List.mem_map] at ht
  rcases ht with ⟨token, -, rfl⟩ | ht
  · apply Tree.Shaped.token
  · apply h t ht

theorem Shaped.shift (h : s.Shaped Fits) :
  s.shift.Shaped Fits
  := by
  unfold State.shift
  split
  · apply h
  · apply List.forall_mem_cons.mpr ⟨.token _, h⟩

theorem Shaped.take (h : s.Shaped Fits) :
  s.take.Shaped Fits
  := h.flush.shift

theorem shaped_opened (s : State) :
  (s.withOut []).Shaped Fits
  := List.forall_mem_nil _

/-- A node of shaped trees is shaped if it fits them. -/
theorem Shaped.node (h : s.Shaped Fits) {kind : NodeKind} (hfits : Fits kind s.out.reverse) :
  Tree.Shaped Fits (.node kind s.out.reverse)
  := by
  apply Tree.Shaped.node hfits
  intro c hc
  apply h c (List.mem_reverse.mp hc)

theorem Shaped.within (h : s.Shaped Fits) {kind : NodeKind} {step : State → State}
    (hstep : (step (s.flush.withOut [])).Shaped Fits)
    (hfits : Fits kind (step (s.flush.withOut [])).out.reverse) :
  (s.within kind step).Shaped Fits
  := List.forall_mem_cons.mpr ⟨hstep.node hfits, h.flush⟩

theorem Shaped.apart (h : s.Shaped Fits) {step : State → State}
    (hstep : (step (s.flush.withOut [])).Shaped Fits) :
  (s.apart step).Shaped Fits
  := List.forall_mem_append.mpr ⟨hstep, h.flush⟩

theorem Shaped.wrap {kind : NodeKind} {step : State → State} (hstep : (step s).Shaped Fits)
    (hfits : Fits kind (step s).out.reverse) :
  (s.wrap kind step).Shaped Fits
  := List.forall_mem_singleton.mpr (hstep.node hfits)

theorem Shaped.repeatWhile {test : Lookahead → Bool} {step : State → State} (h : s.Shaped Fits)
    (hstep : ∀ s, test s.look = true → s.Shaped Fits → (step s).Shaped Fits) :
  (s.repeatWhile test step).Shaped Fits
  := by
  fun_induction State.repeatWhile test step s with
  | case1 s htest next hlt ih => apply ih (hstep s htest h)
  | case2 s htest next hlt => apply hstep s htest h
  | case3 s htest => apply h

theorem Shaped.takeLevel (h : s.Shaped Fits) (opened : Nat) :
  (s.takeLevel opened).Shaped Fits
  := by
  fun_induction State.takeLevel opened s with
  | case1 opened s heq => apply h
  | case2 opened s opened' heq ih => apply ih h.take

theorem Shaped.skipLevel (herror : ∀ cs, Fits .error cs) (h : s.Shaped Fits) :
  s.skipLevel.Shaped Fits
  := by
  unfold State.skipLevel
  split
  · apply h
  · apply h.within ((shaped_opened _).takeLevel 0) (herror _)

end State

namespace Rule

variable {σ : Type} {Fits : NodeKind → List Tree → Prop} {inner : σ → State → State}

/-- The nodes that a rule builds itself fit their children, where `Ahead` is known of what is
ahead. -/
def Shapes (Fits : NodeKind → List Tree → Prop) (inner : σ → State → State)
    (Ahead : Lookahead → Prop) : Rule σ → Prop
  | .seq first second => first.Shapes Fits inner Ahead ∧ second.Shapes Fits inner fun _ => True
  | .node kind body =>
    (∀ s : State, Ahead s.look → s.out = [] → Fits kind (body.run inner s).out.reverse)
      ∧ body.Shapes Fits inner Ahead
  | .apart body => body.Shapes Fits inner Ahead
  | .wrap kind body =>
    (∀ s : State, Fits kind (body.run inner s).out.reverse) ∧ body.Shapes Fits inner Ahead
  | .branch test yes no =>
    (yes.Shapes Fits inner fun a => Ahead a ∧ test a = true)
      ∧ no.Shapes Fits inner fun a => Ahead a ∧ test a = false
  | .loop test body => body.Shapes Fits inner (test · = true)
  | .unlessTaken body other =>
    body.Shapes Fits inner Ahead ∧ other.Shapes Fits inner fun _ => True
  | _ => True

/-- Whether a rule builds only nodes of the given kinds, symbols apart. -/
def builds (kinds : NodeKind → Bool) : Rule σ → Bool
  | .seq first second => first.builds kinds && second.builds kinds
  | .node kind body => kinds kind && body.builds kinds
  | .apart body => body.builds kinds
  | .wrap kind body => kinds kind && body.builds kinds
  | .branch _ yes no => yes.builds kinds && no.builds kinds
  | .loop _ body => body.builds kinds
  | .unlessTaken body other => body.builds kinds && other.builds kinds
  | _ => true

/-- Nothing has to be known of a rule that builds only nodes which fit any children. -/
theorem shapes_of_builds {kinds : NodeKind → Bool}
    (hkinds : ∀ kind, kinds kind = true → ∀ cs, Fits kind cs) {r : Rule σ}
    (hr : r.builds kinds = true) (Ahead : Lookahead → Prop) :
  r.Shapes Fits inner Ahead
  := by
  induction r generalizing Ahead with
  | pass => trivial
  | seq first second ih₁ ih₂ =>
    rw [builds, Bool.and_eq_true] at hr
    exact ⟨ih₁ hr.1 _, ih₂ hr.2 _⟩
  | take => trivial
  | report cause => trivial
  | node kind body ih =>
    rw [builds, Bool.and_eq_true] at hr
    exact ⟨fun _ _ _ => hkinds kind hr.1 _, ih hr.2 _⟩
  | apart body ih => apply ih hr
  | wrap kind body ih =>
    rw [builds, Bool.and_eq_true] at hr
    exact ⟨fun _ => hkinds kind hr.1 _, ih hr.2 _⟩
  | branch test yes no ih₁ ih₂ =>
    rw [builds, Bool.and_eq_true] at hr
    exact ⟨ih₁ hr.1 _, ih₂ hr.2 _⟩
  | loop test body ih => apply ih hr
  | unlessTaken body other ih₁ ih₂ =>
    rw [builds, Bool.and_eq_true] at hr
    exact ⟨ih₁ hr.1 _, ih₂ hr.2 _⟩
  | nested symbol => trivial

/-- A rule whose nodes fit reads shaped trees, if the symbols do. -/
theorem shaped_run (hinner : ∀ symbol s, s.Shaped Fits → (inner symbol s).Shaped Fits)
    {r : Rule σ} {Ahead : Lookahead → Prop} (hr : r.Shapes Fits inner Ahead) {s : State}
    (hahead : Ahead s.look) (h : s.Shaped Fits) :
  (r.run inner s).Shaped Fits
  := by
  induction r generalizing s Ahead with
  | pass => apply h
  | seq first second ih₁ ih₂ => apply ih₂ hr.2 trivial (ih₁ hr.1 hahead h)
  | take => apply h.take
  | report cause => apply h
  | node kind body ih =>
    rw [← State.look_flush, ← State.look_withOut s.flush []] at hahead
    apply h.within
    · apply ih hr.2 hahead (State.shaped_opened _)
    · apply hr.1 _ hahead rfl
  | apart body ih =>
    rw [← State.look_flush, ← State.look_withOut s.flush []] at hahead
    apply h.apart (ih hr hahead (State.shaped_opened _))
  | wrap kind body ih =>
    apply State.Shaped.wrap (ih hr.2 hahead h) (hr.1 s)
  | branch test yes no ih₁ ih₂ =>
    simp only [run]
    split
    · next htest => apply ih₁ hr.1 ⟨hahead, htest⟩ h
    · next htest => apply ih₂ hr.2 ⟨hahead, Bool.eq_false_iff.mpr htest⟩ h
  | loop test body ih =>
    apply h.repeatWhile
    intro s htest h
    apply ih hr htest h
  | unlessTaken body other ih₁ ih₂ =>
    simp only [run, State.unlessTaken]
    split
    · apply ih₂ hr.2 trivial (ih₁ hr.1 hahead h)
    · apply ih₁ hr.1 hahead h
  | nested symbol => apply hinner symbol s h

end Rule

/-- Constructs are read into shaped trees if the nodes of all rules fit. -/
theorem Grammar.shaped_read {σ : Type} {Fits : NodeKind → List Tree → Prop} {g : Grammar σ}
    (herror : ∀ cs, Fits .error cs)
    (hg : ∀ levels symbol, (g symbol).Shapes Fits (g.read levels) fun _ => True)
    (levels : Nat) (symbol : σ) (s : State) (h : s.Shaped Fits) :
  (g.read levels symbol s).Shaped Fits
  := by
  induction levels generalizing symbol s with
  | zero =>
    have hreport : (s.report fun _ => .nestedTooDeep).Shaped Fits := h
    apply hreport.skipLevel herror
  | succ levels ih => apply Rule.shaped_run ih (hg levels symbol) trivial h

/-! ### The nodes of a group -/

namespace State

variable {kinds : NodeKind → Bool} {s t : State}

/-- The nodes in the innermost group are of the given kinds, whatever is inside of them. -/
def Tops (kinds : NodeKind → Bool) (s : State) : Prop :=
  ∀ t ∈ s.out, ∀ kind, t.kind = .node kind → kinds kind = true

theorem tops_opened (s : State) :
  (s.withOut []).Tops kinds
  := List.forall_mem_nil _

theorem Tops.flush (h : s.Tops kinds) :
  s.flush.Tops kinds
  := by
  intro t ht kind hkind
  rw [out_flush, List.mem_append, List.mem_reverse, List.mem_map] at ht
  rcases ht with ⟨token, -, rfl⟩ | ht
  · contradiction
  · apply h t ht kind hkind

theorem Tops.take (h : s.Tops kinds) :
  s.take.Tops kinds
  := by
  rw [State.take, shift]
  split
  · apply h.flush
  · apply List.forall_mem_cons.mpr ⟨_, h.flush⟩
    intro kind hkind
    contradiction

theorem Tops.within (h : s.Tops kinds) {kind : NodeKind} (hkind : kinds kind = true)
    (step : State → State) :
  (s.within kind step).Tops kinds
  := by
  apply List.forall_mem_cons.mpr ⟨_, h.flush⟩
  rintro _ ⟨⟩
  apply hkind

theorem Tops.repeatWhile {test : Lookahead → Bool} {step : State → State}
    (hstep : ∀ s, s.Tops kinds → (step s).Tops kinds) (h : s.Tops kinds) :
  (s.repeatWhile test step).Tops kinds
  := by
  fun_induction State.repeatWhile test step s with
  | case1 s htest next hlt ih => apply ih (hstep s h)
  | case2 s htest next hlt => apply hstep s h
  | case3 s htest => apply h

theorem Tops.skipLevel (h : s.Tops kinds) (herror : kinds .error = true) :
  s.skipLevel.Tops kinds
  := by
  unfold State.skipLevel
  split
  · apply h
  · apply h.within herror

end State

namespace Rule

variable {σ : Type} {kinds : NodeKind → Bool} {inner : σ → State → State}

/-- Whether the nodes that a rule leaves in its group are of the given kinds; a symbol may leave
any node. -/
def tops (kinds : NodeKind → Bool) : Rule σ → Bool
  | .seq first second => first.tops kinds && second.tops kinds
  | .node kind _ => kinds kind
  | .apart body => body.tops kinds
  | .wrap kind _ => kinds kind
  | .branch _ yes no => yes.tops kinds && no.tops kinds
  | .loop _ body => body.tops kinds
  | .unlessTaken body other => body.tops kinds && other.tops kinds
  | .nested _ => false
  | _ => true

theorem tops_run {r : Rule σ} (hr : r.tops kinds = true) {s : State} (h : s.Tops kinds) :
  (r.run inner s).Tops kinds
  := by
  induction r generalizing s with
  | pass => apply h
  | seq first second ih₁ ih₂ =>
    rw [tops, Bool.and_eq_true] at hr
    apply ih₂ hr.2 (ih₁ hr.1 h)
  | take => apply h.take
  | report cause => apply h
  | node kind body ih => apply h.within hr
  | apart body ih =>
    apply List.forall_mem_append.mpr ⟨_, h.flush⟩
    apply ih hr (State.tops_opened _)
  | wrap kind body ih =>
    intro t ht k hk
    obtain rfl := List.mem_singleton.mp ht
    obtain rfl := Kind.node.inj hk
    apply hr
  | branch test yes no ih₁ ih₂ =>
    rw [tops, Bool.and_eq_true] at hr
    simp only [run]
    split
    · apply ih₁ hr.1 h
    · apply ih₂ hr.2 h
  | loop test body ih =>
    apply State.Tops.repeatWhile _ h
    intro s h
    apply ih hr h
  | unlessTaken body other ih₁ ih₂ =>
    rw [tops, Bool.and_eq_true] at hr
    simp only [run, State.unlessTaken]
    split
    · apply ih₂ hr.2 (ih₁ hr.1 h)
    · apply ih₁ hr.1 h
  | nested symbol => contradiction

end Rule

end InlayHints

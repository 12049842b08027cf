import InlayHints.Proofs.Hint.Anchor

/-!
# Answers that depend on the question alone

Answering a question may change a state, but if no answer depends on the state, then neither do
the hints of a site, and the hints of a request are those of the visited sites one after the
other, whatever was asked before (`Semantics.IsPure.inlayHints_eq`).
-/

namespace InlayHints

variable {σ Receiver α β : Type}

/-- The answer does not depend on the state. -/
def Steady (m : StateM σ α) : Prop := ∀ st st', (m.run st).1 = (m.run st').1

theorem steady_pure (a : α) :
  Steady (pure a : StateM σ α)
  := by
  intro st st'
  rfl

/-- One question after another has a steady answer if both have. -/
theorem Steady.bind {m : StateM σ α} {f : α → StateM σ β} (hm : Steady m)
    (hf : ∀ a, Steady (f a)) :
  Steady (m >>= f)
  := by
  intro st st'
  rw [run_bind_eq, run_bind_eq, hm st st']
  apply hf

/-- If all answers are steady, a walk over a list asks the same at each member as from the
start. -/
theorem run_mapM_eq {f : α → StateM σ β} (hf : ∀ a, Steady (f a)) (xs : List α) (st : σ) :
  ((xs.mapM f).run st).1 = xs.map fun x => ((f x).run st).1
  := by
  induction xs generalizing st with
  | nil => rfl
  | cons x xs ih =>
    have hrest := ih ((f x).run st).2
    simp only [hf _ ((f x).run st).2 st] at hrest
    rw [List.mapM_cons, List.map_cons, ← hrest]
    rfl

namespace Semantics

/-- Every answer is a function of the question: it does not depend on the state. -/
structure IsPure (sem : Semantics σ Receiver) : Prop where
  globalSymbol : ∀ name origin, Steady (sem.globalSymbol? name origin)
  aliased : ∀ d, Steady (sem.aliased? d)
  receiverType : ∀ e origin, Steady (sem.receiverType? e origin)
  member : ∀ type name, Steady (sem.member? type name)
  instanceCall : ∀ c d, Steady (sem.isInstanceCall c d)
  declaredType : ∀ d, Steady (sem.declaredType? d)

/-- With no state at all, every answer is a function of the question. -/
theorem isPure_of_subsingleton [Subsingleton σ] (sem : Semantics σ Receiver) :
  sem.IsPure
  := by
  have hsteady : ∀ {α : Type} (m : StateM σ α), Steady m := by
    intro α m st st'
    rw [Subsingleton.elim st st']
  constructor <;> intros <;> apply hsteady

namespace IsPure

variable {sem : Semantics σ Receiver}

theorem lookupCallee (h : sem.IsPure) (callee : Expr) (origin : Nat) :
  Steady (lookupCallee sem callee origin)
  := by
  unfold InlayHints.lookupCallee
  split
  · split
    · apply h.globalSymbol
    · apply steady_pure
  · split
    · apply (h.receiverType _ _).bind
      intro type
      cases type with
      | none => apply steady_pure
      | some type => apply h.member
    · apply steady_pure
  · apply steady_pure

theorem resolveCall (h : sem.IsPure) (c : Call) :
  Steady (resolveCall sem c)
  := by
  unfold InlayHints.resolveCall
  split
  · apply steady_pure
  · apply (h.lookupCallee _ _).bind
    intro d
    cases d with
    | none => apply steady_pure
    | some d =>
      apply Steady.bind
      · apply (h.aliased d).bind
        intro target
        apply steady_pure
      · intro target
        apply steady_pure

theorem visibleParameters (h : sem.IsPure) (c : Call) (d : Declaration) (s : Signature) :
  Steady (visibleParameters sem c d s)
  := by
  unfold InlayHints.visibleParameters
  split
  · apply (h.instanceCall c d).bind
    intro isInstance
    cases isInstance with
    | false => apply steady_pure
    | true => apply steady_pure
  · apply steady_pure

theorem callHints (h : sem.IsPure) (options : Options) (c : Call) :
  Steady (callHints sem options c)
  := by
  apply (h.resolveCall c).bind
  intro d
  cases d with
  | none => apply steady_pure
  | some d =>
    cases hsignature : d.signature? with
    | none =>
      simp only [hsignature]
      apply steady_pure
    | some signature =>
      simp only [hsignature]
      apply (h.visibleParameters c d signature).bind
      intro parameters
      apply steady_pure

theorem declarationHints (h : sem.IsPure) (d : VarDecl) :
  Steady (declarationHints sem d)
  := by
  unfold InlayHints.declarationHints
  split
  · apply steady_pure
  · apply (h.declaredType d).bind
    intro type
    cases type with
    | none => apply steady_pure
    | some type => apply steady_pure

/-- The hints of a site do not depend on what was asked before. -/
theorem hintsAt (h : sem.IsPure) (options : Options) (s : Site) :
  Steady (hintsAt sem options s)
  := by
  unfold InlayHints.hintsAt
  split
  · apply steady_pure
  · next source _ =>
    split
    · cases source with
      | call c => apply h.callHints
      | builtinCall c => apply steady_pure
      | declaration d => apply h.declarationHints
    · apply steady_pure

/-- The hints of a request are those of the visited sites, one after the other. -/
theorem rawHints_eq (h : sem.IsPure) (file : SourceFile) (range : TextRange) (options : Options)
    (st : σ) :
  ((rawHints sem file range options).run st).1
    = (visitedSites file range).flatMap fun s => ((InlayHints.hintsAt sem options s).run st).1
  := by
  rw [rawHints, run_bind_eq, run_mapM_eq (h.hintsAt options), List.flatMap_def]
  rfl

/-- The answer to a request places the hints of the visited sites. -/
theorem inlayHints_eq (h : sem.IsPure) (file : SourceFile) (range : TextRange)
    (options : Options) (st : σ) :
  ((inlayHints sem file range options).run st).1
    = RawHint.place options.encoding file.text
        ((visitedSites file range).flatMap fun s =>
          ((InlayHints.hintsAt sem options s).run st).1)
  := by
  rw [← h.rawHints_eq]
  rfl

end IsPure

end Semantics

end InlayHints

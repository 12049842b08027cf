import InlayHints.Proofs.Hint.Placing
import InlayHints.Proofs.Hint.Purity

/-!
# Switches leave out hints and do nothing else

Switches that show less leave out some hints and keep the others, in the same order
(`inlayHints_filtered`).  They decide whether a source of hints is admitted and whether the label
of an argument is redundant, so they leave out hints of single sites; the answers to questions do
not depend on them.  A source gives hints of one kind only, so the switch for declarations has to
do with types only, and the other switches only with parameters.
-/

namespace InlayHints

namespace Config

/-- The switches `c'` show no more than `c`: some that show hints may be off, and some that hide
hints may be on. -/
structure Narrows (c' c : Config) : Prop where
  showParameterNames : c'.showParameterNames = true → c.showParameterNames = true
  showVariableTypes : c'.showVariableTypes = true → c.showVariableTypes = true
  showBuiltins : c'.showBuiltins = true → c.showBuiltins = true
  excludeSingleArguments : c.excludeSingleArguments = true → c'.excludeSingleArguments = true
  hideRedundantNames : c.hideRedundantNames = true → c'.hideRedundantNames = true
  hideRedundantLastTokens : c.hideRedundantLastTokens = true → c'.hideRedundantLastTokens = true

end Config

variable {c c' : Config} {options : Options}

/-! ### Fewer hints -/

/-- A redundant label stays redundant. -/
theorem isRedundant_of_narrows (h : c'.Narrows c) {name : String} {a : Expr}
    (hredundant : isRedundant c name a = true) :
  isRedundant c' name a = true
  := by
  unfold isRedundant at hredundant ⊢
  cases hlast : a.lastToken? with
  | none =>
    rw [hlast] at hredundant
    contradiction
  | some last =>
    simp only [hlast, Bool.and_eq_true] at hredundant ⊢
    use hredundant.1
    cases hsingle : a.isSingleToken with
    | true =>
      rw [hsingle] at hredundant
      apply h.hideRedundantNames hredundant.2
    | false =>
      rw [hsingle] at hredundant
      apply h.hideRedundantLastTokens hredundant.2

/-- The hint of an argument is left out or stays as it is. -/
theorem parameterHint_sublist (h : c'.Narrows c) (parameter : Parameter) (a : Expr) :
  (parameterHint? { options with config := c' } parameter a).toList.Sublist
    (parameterHint? { options with config := c } parameter a).toList
  := by
  unfold parameterHint?
  cases parameter.name with
  | none => apply List.Sublist.refl
  | some name =>
    simp only [Option.bind_some]
    split
    · apply List.nil_sublist
    · next hshown =>
      have hshown : ¬ isRedundant c name a = true := mt (isRedundant_of_narrows h) hshown
      rw [if_neg hshown]

theorem labelArguments_sublist (h : c'.Narrows c) (parameters : List Parameter)
    (arguments : List Expr) :
  (labelArguments { options with config := c' } parameters arguments).Sublist
    (labelArguments { options with config := c } parameters arguments)
  := by
  rw [labelArguments, labelArguments, List.filterMap_eq_flatMap_toList,
    List.filterMap_eq_flatMap_toList]
  apply List.Sublist.flatMap_right
  intro pair _
  apply parameterHint_sublist h

/-- A source that is admitted stays so if more is shown. -/
theorem HintSource.isAdmitted_of_narrows (h : c'.Narrows c) {source : HintSource}
    (hadmitted : source.isAdmitted c' = true) :
  source.isAdmitted c = true
  := by
  cases source with
  | call call =>
    simp only [isAdmitted, Bool.and_eq_true, Bool.not_eq_true', Bool.and_eq_false_iff]
      at hadmitted ⊢
    use h.showParameterNames hadmitted.1
    apply hadmitted.2.imp_left
    intro hexclude
    apply Bool.eq_false_iff.mpr
    intro htrue
    rw [h.excludeSingleArguments htrue] at hexclude
    contradiction
  | builtinCall call =>
    simp only [isAdmitted, Bool.and_eq_true] at hadmitted ⊢
    exact ⟨h.showParameterNames hadmitted.1, h.showBuiltins hadmitted.2⟩
  | declaration d => apply h.showVariableTypes hadmitted

section

variable {σ Receiver : Type} (sem : Semantics σ Receiver)

theorem HintSource.hints_sublist (h : c'.Narrows c) (source : HintSource) (st : σ) :
  ((source.hints sem { options with config := c' }).run st).1.Sublist
    ((source.hints sem { options with config := c }).run st).1
  := by
  cases source with
  | call call =>
    obtain ⟨parameters, heq⟩ := callHints_eq_labelArguments sem call st
    simp only [hints, heq]
    apply labelArguments_sublist h
  | builtinCall call => apply List.Sublist.refl
  | declaration d => apply List.Sublist.refl

/-- Switches that show less leave out hints of a site. -/
theorem hintsAt_sublist (h : c'.Narrows c) (s : Site) (st : σ) :
  ((hintsAt sem { options with config := c' } s).run st).1.Sublist
    ((hintsAt sem { options with config := c } s).run st).1
  := by
  unfold hintsAt
  split
  · apply List.Sublist.refl
  · next source _ =>
    split
    · next hadmitted =>
      rw [if_pos (HintSource.isAdmitted_of_narrows h hadmitted)]
      apply source.hints_sublist sem h
    · apply List.nil_sublist

/-! ### Hints of one kind -/

/-- The kind of the hints that a source gives. -/
def HintSource.hintKind : HintSource → HintKind
  | .call _ | .builtinCall _ => .parameter
  | .declaration _ => .type

theorem kind_labelHint? {markup : Markup} {a : Expr} {label type : String}
    {isNoalias isComptime : Bool} {h : RawHint}
    (hh : labelHint? markup a label isNoalias isComptime type = some h) :
  h.kind = .parameter
  := by
  obtain ⟨first, -, rfl⟩ := Option.map_eq_some_iff.mp hh
  rfl

theorem kind_builtinHints (call : BuiltinCall) :
  ∀ h ∈ builtinHints options call, h.kind = .parameter
  := by
  unfold builtinHints
  split
  · nofun
  split
  · nofun
  split
  · nofun
  intro h hh
  obtain ⟨⟨a, descriptor⟩, -, hh⟩ := List.mem_filterMap.mp hh
  simp only [descriptorHint?] at hh
  split at hh
  · contradiction
  · apply kind_labelHint? hh

theorem kind_labelArguments (parameters : List Parameter) (arguments : List Expr) :
  ∀ h ∈ labelArguments options parameters arguments, h.kind = .parameter
  := by
  intro h hh
  obtain ⟨⟨parameter, a⟩, -, hh⟩ := List.mem_filterMap.mp hh
  obtain ⟨name, -, hh⟩ := Option.bind_eq_some_iff.mp hh
  split at hh
  · contradiction
  · apply kind_labelHint? hh

/-- All hints of a source are of its kind. -/
theorem HintSource.kind_hints (source : HintSource) (st : σ) :
  ∀ h ∈ ((source.hints sem options).run st).1, h.kind = source.hintKind
  := by
  cases source with
  | call call =>
    obtain ⟨parameters, heq⟩ := callHints_eq_labelArguments sem call st
    simp only [hints, heq]
    apply kind_labelArguments
  | builtinCall call => apply kind_builtinHints
  | declaration d =>
    obtain ⟨type, heq⟩ := declarationHints_eq_toList sem d st
    simp only [hints, heq, Option.mem_toList]
    intro h hh
    obtain ⟨type, -, hh⟩ := Option.bind_eq_some_iff.mp hh
    unfold typeHint? at hh
    split at hh
    · contradiction
    · obtain ⟨name, -, rfl⟩ := Option.map_eq_some_iff.mp hh
      rfl

/-- If some options make no difference to sources of a kind, they make none to the hints of that
kind at a site. -/
theorem filter_hintsAt_congr (options options' : Options) {k : HintKind}
    (h : ∀ source : HintSource, source.hintKind = k →
      source.isAdmitted options'.config = source.isAdmitted options.config
        ∧ source.hints sem options' = source.hints sem options) (s : Site) (st : σ) :
  ((hintsAt sem options' s).run st).1.filter (·.kind = k)
    = ((hintsAt sem options s).run st).1.filter (·.kind = k)
  := by
  unfold hintsAt
  split
  · rfl
  · next source _ =>
    by_cases hkind : source.hintKind = k
    · obtain ⟨hadmitted, hhints⟩ := h source hkind
      rw [hadmitted, hhints]
    · have hnone : ∀ options : Options,
          ((if source.isAdmitted options.config then source.hints sem options
            else pure []).run st).1.filter (·.kind = k) = [] := by
        intro options
        apply List.filter_eq_nil_iff.mpr
        intro h hh
        rw [decide_eq_true_eq]
        split at hh
        · rw [source.kind_hints sem st h hh]
          apply hkind
        · contradiction
      rw [hnone options, hnone options']

end

/-! ### Requests -/

variable {σ Receiver : Type}

/-- The hints of a request with some switches, when the first question is asked in the state
`st`. -/
def hintsUnder (sem : Semantics σ Receiver) (file : SourceFile) (range : TextRange)
    (options : Options) (c : Config) (st : σ) : List Hint :=
  ((inlayHints sem file range { options with config := c }).run st).1

/-- If some switches make no difference to sources of a kind, they make none to the hints of that
kind. -/
theorem filter_hintsUnder_congr {sem : Semantics σ Receiver} (hpure : sem.IsPure)
    (file : SourceFile) (range : TextRange) {k : HintKind}
    (h : ∀ source : HintSource, source.hintKind = k →
      source.isAdmitted c' = source.isAdmitted c
        ∧ source.hints sem { options with config := c' }
          = source.hints sem { options with config := c }) (st st' : σ) :
  (hintsUnder sem file range options c' st').filter (·.kind = k)
    = (hintsUnder sem file range options c st).filter (·.kind = k)
  := by
  have hsites := filter_hintsAt_congr sem { options with config := c }
    { options with config := c' } h
  rw [hintsUnder, hintsUnder, hpure.inlayHints_eq, hpure.inlayHints_eq, RawHint.filter_place,
    RawHint.filter_place, List.filter_flatMap, List.filter_flatMap]
  simp only [hsites, hpure.hintsAt _ _ st' st]

/-- Switches only leave out hints: if some of them show less, the hints that are left are the
same, in the same order.  Moreover the hints that show types depend on the switch for
declarations alone, and the hints that show parameters do not depend on it. -/
theorem inlayHints_filtered (sem : Semantics σ Receiver) (hpure : sem.IsPure) (file : SourceFile)
    (range : TextRange) (options : Options) :
  (∀ c c' : Config, c'.Narrows c → ∀ st st' : σ,
      (hintsUnder sem file range options c' st').Sublist
        (hintsUnder sem file range options c st))
    ∧ (∀ c c' : Config, c'.showVariableTypes = c.showVariableTypes → ∀ st st' : σ,
      (hintsUnder sem file range options c' st').filter (·.kind = .type)
        = (hintsUnder sem file range options c st).filter (·.kind = .type))
    ∧ ∀ (c : Config) (b : Bool) (st st' : σ),
      (hintsUnder sem file range options { c with showVariableTypes := b } st').filter
          (·.kind = .parameter)
        = (hintsUnder sem file range options c st).filter (·.kind = .parameter)
  := by
  refine ⟨?_, ?_, ?_⟩
  · intro c c' hnarrows st st'
    rw [hintsUnder, hintsUnder, hpure.inlayHints_eq, hpure.inlayHints_eq]
    apply RawHint.place_sublist
    apply List.Sublist.flatMap_right
    intro s _
    rw [hpure.hintsAt _ _ st' st]
    apply hintsAt_sublist sem hnarrows
  · intro c c' hshow st st'
    apply filter_hintsUnder_congr hpure
    intro source hkind
    cases source with
    | call call => contradiction
    | builtinCall call => contradiction
    | declaration d => exact ⟨hshow, rfl⟩
  · intro c b st st'
    apply filter_hintsUnder_congr hpure
    intro source hkind
    cases source with
    | call call => exact ⟨rfl, rfl⟩
    | builtinCall call => exact ⟨rfl, rfl⟩
    | declaration d => contradiction

/-- Every name refers to a function of two parameters, and every declared value is a number. -/
def Semantics.twoParametersAndNumbers : Semantics Unit Unit :=
  { twoParameters with declaredType? := fun _ => pure (some ⟨"u8", []⟩) }

/-- A redundant label is left out, and the other hints stay: the type, which depends on its own
switch only, and the other label, whether the type is shown or not. -/
theorem inlayHints_filtered_redundant :
  let hints := fun c => hintsUnder .twoParametersAndNumbers (.ofText "const x = foo(a, 2);")
    (.ofWidth 0 20) {} c ()
  Semantics.twoParametersAndNumbers.IsPure
    ∧ Config.Narrows { hideRedundantNames := true } {}
    ∧ (hints {}).map Hint.label = [": u8", "a:", "b:"]
    ∧ (hints { hideRedundantNames := true }).map Hint.label = [": u8", "b:"]
    ∧ (hints { hideRedundantNames := true }).Sublist (hints {})
    ∧ (hints { hideRedundantNames := true }).filter (·.kind = .type)
      = (hints {}).filter (·.kind = .type)
    ∧ (hints { showVariableTypes := false }).filter (·.kind = .parameter)
      = (hints {}).filter (·.kind = .parameter)
  := by
  have hpure := Semantics.isPure_of_subsingleton Semantics.twoParametersAndNumbers
  have hnarrows : Config.Narrows { hideRedundantNames := true } {} := by
    constructor <;> decide
  obtain ⟨hsublist, htypes, hparameters⟩ := inlayHints_filtered .twoParametersAndNumbers hpure
    (.ofText "const x = foo(a, 2);") (.ofWidth 0 20) {}
  refine ⟨hpure, hnarrows, ?_, ?_, hsublist _ _ hnarrows () (),
    htypes {} { hideRedundantNames := true } rfl () (), hparameters {} false () ()⟩
  · cbv
  · cbv

end InlayHints

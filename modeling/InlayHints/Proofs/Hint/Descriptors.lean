import InlayHints.Proofs.Hint.Arguments
import InlayHints.Proofs.Hint.Order
import InlayHints.Proofs.Hint.Visits

/-!
# Labels of builtins

The hints of the call of a builtin, said through the table of builtins: the last entry of its name
counts (`BuiltinTable.LastEntry`), and an argument gets a label if its place has a descriptor that
is not empty, and no descriptor up to there stops the labels (`BuiltinCall.IsDescribed`).  An empty
descriptor passes over one argument and shifts no other.  `inlayHints_described` says that a
request gives these hints for every call of a builtin that it visits.
-/

namespace InlayHints

/-! ### Entries of a table -/

namespace BuiltinTable

variable {t : BuiltinTable} {name : String} {b : Builtin}

/-- An entry of the given name after which there is no other one of this name. -/
def LastEntry (t : BuiltinTable) (name : String) (b : Builtin) : Prop :=
  ∃ before after, t.entries = before ++ b :: after ∧ b.name = name ∧ ∀ e ∈ after, e.name ≠ name

theorem find?_eq_some_iff :
  t.find? name = some b ↔ t.LastEntry name b
  := by
  rw [find?, List.find?_eq_some_iff_append]
  constructor
  · rintro ⟨hname, after, before, hentries, hafter⟩
    use before.reverse, after.reverse
    constructor
    · rw [← List.reverse_inj, hentries]
      simp
    · use of_decide_eq_true hname
      intro e he
      simpa using hafter e (List.mem_reverse.mp he)
  · rintro ⟨before, after, hentries, hname, hafter⟩
    use decide_eq_true hname, after.reverse, before.reverse
    constructor
    · rw [hentries]
      simp
    · intro e he
      simpa using hafter e (List.mem_reverse.mp he)

theorem find?_eq_none_iff :
  t.find? name = none ↔ ∀ e ∈ t.entries, e.name ≠ name
  := by
  simp [find?]

end BuiltinTable

theorem Builtin.isExcluded_iff {name : String} :
  isExcluded name = true ↔ name ∈ excluded
  := List.contains_iff_mem

/-! ### Arguments and descriptors -/

/-- A descriptor that is not empty stops the labels if it gives no label, or says that any number
of arguments may follow. -/
def Stops (descriptor : String) : Prop :=
  descriptor ≠ ""
    ∧ ((BuiltinArgument.parse descriptor).label = ""
      ∨ (BuiltinArgument.parse descriptor).label = "...")

/-- The hint that stands before an argument and shows what its descriptor says. -/
def BuiltinArgument.hint (markup : Markup) (d : BuiltinArgument) (a : Expr) : RawHint where
  offset := a.start
  label := d.label ++ ":"
  kind := .parameter
  tooltip := some (.ofParameter markup d.isNoalias d.isComptime d.type)

/-- The hint `h` labels the argument `i` of a call as the descriptor at its place says. -/
def BuiltinCall.IsDescribed (options : Options) (descriptors : List String) (c : BuiltinCall)
    (i : Nat) (h : RawHint) : Prop :=
  ∃ a d, c.arguments[i]? = some a ∧ descriptors[i]? = some d ∧ d ≠ ""
    ∧ (∀ j ≤ i, ∀ e, descriptors[j]? = some e → ¬ Stops e)
    ∧ h = (BuiltinArgument.parse d).hint options.markup a

section

variable {text : String} {options : Options}

theorem endsDescriptors_iff {d : String} :
  endsDescriptors d = true ↔ Stops d
  := by
  simp [endsDescriptors, BuiltinArgument.endsArguments, Stops]

/-- A descriptor that is not empty gives its argument a label. -/
theorem descriptorHint?_eq_some_iff {a : Expr} {d : String} {h : RawHint}
    (ha : a.site ∈ (SourceFile.ofText text).root.descendants) :
  descriptorHint? options a d = some h
    ↔ d ≠ "" ∧ h = (BuiltinArgument.parse d).hint options.markup a
  := by
  obtain ⟨first, hfirst, hstart, -⟩ := SourceFile.exists_firstToken_expr ha
  rw [descriptorHint?]
  by_cases hd : d = ""
  · rw [if_pos hd]
    constructor
    · intro hh
      contradiction
    · rintro ⟨hne, -⟩
      contradiction
  · rw [if_neg hd, labelHint?, hfirst, BuiltinArgument.hint, ← hstart]
    simp [hd, eq_comm]

/-- What pairs at equal places give, by their places, up to the first place where `stop` holds. -/
theorem filterMap_takeWhile_zip_eq {α β γ : Type} (f : α → β → Option γ) (stop : β → Bool)
    (xs : List α) (ys : List β) :
  (((xs.zip ys).takeWhile fun (_, y) => !stop y).filterMap fun (x, y) => f x y)
    = (List.range (min xs.length ys.length)).filterMap fun i =>
        if (ys.take (i + 1)).any stop then none
        else xs[i]?.bind fun x => ys[i]?.bind fun y => f x y
  := by
  induction xs generalizing ys with
  | nil => simp
  | cons x xs ih =>
    cases ys with
    | nil => simp
    | cons y ys =>
      rw [List.zip_cons_cons, List.length_cons, List.length_cons, Nat.succ_min_succ,
        List.range_succ_eq_map, List.filterMap_cons, List.filterMap_map]
      cases hstop : stop y with
      | true => simp [hstop]
      | false =>
        rw [List.takeWhile_cons_of_pos (by simp [hstop]), List.filterMap_cons, ih]
        simp [hstop]

theorem any_take_eq_false_iff {α : Type} {p : α → Bool} {xs : List α} {n : Nat} :
  (xs.take (n + 1)).any p = false ↔ ∀ j ≤ n, ∀ x, xs[j]? = some x → ¬ p x = true
  := by
  rw [List.any_eq_false]
  constructor
  · intro h j hj x hx
    apply h x
    apply List.mem_of_getElem? (i := j)
    rw [List.getElem?_take_of_lt (by omega), hx]
  · intro h x hx
    obtain ⟨j, hj⟩ := List.getElem?_of_mem hx
    rw [List.getElem?_take] at hj
    split at hj
    · apply h j (by omega) x hj
    · contradiction

/-- The arguments of a call are labelled with the descriptors, up to the first one that stops. -/
theorem exists_descriptions (options : Options) {c : BuiltinCall}
    (hc : ∀ a ∈ c.arguments, a.site ∈ (SourceFile.ofText text).root.descendants)
    (descriptors : List String) :
  ∃ label : Nat → Option RawHint,
    (∀ i h, label i = some h ↔ c.IsDescribed options descriptors i h)
      ∧ describeArguments options c.arguments descriptors
        = (List.range (min c.arguments.length descriptors.length)).filterMap label
  := by
  refine ⟨_, ?_, filterMap_takeWhile_zip_eq (descriptorHint? options) endsDescriptors _ _⟩
  intro i h
  have hstops : (descriptors.take (i + 1)).any endsDescriptors = false
      ↔ ∀ j ≤ i, ∀ e, descriptors[j]? = some e → ¬ Stops e := by
    rw [any_take_eq_false_iff]
    simp only [endsDescriptors_iff]
  split
  · next hstop =>
    constructor
    · nofun
    · rintro ⟨a, d, -, -, -, hbefore, -⟩
      rw [hstops.mpr hbefore] at hstop
      contradiction
  · next hstop =>
    have hbefore := hstops.mp (Bool.eq_false_iff.mpr hstop)
    simp only [Option.bind_eq_some_iff]
    constructor
    · rintro ⟨a, ha, d, hd, hh⟩
      obtain ⟨hne, hh⟩ :=
        (descriptorHint?_eq_some_iff (hc a (List.mem_of_getElem? ha))).mp hh
      exact ⟨a, d, ha, hd, hne, hbefore, hh⟩
    · rintro ⟨a, d, ha, hd, hne, -, hh⟩
      exact ⟨a, ha, d, hd,
        (descriptorHint?_eq_some_iff (hc a (List.mem_of_getElem? ha))).mpr ⟨hne, hh⟩⟩

end

/-! ### Calls -/

/-- The hints of the call of a builtin, by what the table says of its name.  There are none if the
builtin is excluded or unknown. -/
inductive BuiltinCall.Described (options : Options) (c : BuiltinCall) : List RawHint → Prop where
  | excluded {name : Leaf} (named : c.name? = some name)
    (excluded : name.text ∈ Builtin.excluded) : Described options c []
  | unknown {name : Leaf} (named : c.name? = some name)
    (unknown : ∀ e ∈ options.builtins.entries, e.name ≠ name.text) : Described options c []
  | known {name : Leaf} {b : Builtin} {label : Nat → Option RawHint}
    (named : c.name? = some name) (admitted : name.text ∉ Builtin.excluded)
    (entry : options.builtins.LastEntry name.text b)
    (labels : ∀ i h, label i = some h ↔ c.IsDescribed options b.arguments i h) :
    Described options c
      ((List.range (min c.arguments.length b.arguments.length)).filterMap label)

section

variable {text : String} (options : Options)

/-- The hints of the call of a builtin label its arguments as the table says. -/
theorem BuiltinCall.described {c : BuiltinCall}
    (hc : c.site ∈ (SourceFile.ofText text).root.descendants) :
  c.Described options (builtinHints options c)
  := by
  obtain ⟨name, -, hname, -⟩ := (SourceFile.wellFormed_ofText text).builtins c hc
  have harguments : ∀ a ∈ c.arguments, a.site ∈ (SourceFile.ofText text).root.descendants := by
    intro a ha
    apply SourceFile.mem_descendants_of_hasArgument hc
    apply Site.hasArgument_of_mem
    rw [Site.arguments, HintSource.ofSite?_builtinCall]
    apply ha
  rw [builtinHints, hname]
  dsimp only
  by_cases hexcluded : name.text ∈ Builtin.excluded
  · rw [if_pos (Builtin.isExcluded_iff.mpr hexcluded)]
    apply Described.excluded hname hexcluded
  · rw [if_neg (mt Builtin.isExcluded_iff.mp hexcluded)]
    cases hentry : options.builtins.find? name.text with
    | none => apply Described.unknown hname (BuiltinTable.find?_eq_none_iff.mp hentry)
    | some b =>
      obtain ⟨label, hlabel, hlabels⟩ := exists_descriptions options harguments b.arguments
      simp only [hlabels]
      apply Described.known hname hexcluded (BuiltinTable.find?_eq_some_iff.mp hentry) hlabel

variable {σ Receiver : Type} (sem : Semantics σ Receiver)

/-- What a visited call of a builtin contributes to the answer to a request, if the switches admit
it, are labels of its arguments as the table says. -/
theorem inlayHints_described (text : String) (range : TextRange) (st : σ) :
  ∃ given, Contribution sem (.ofText text) range options st given
    ∧ ∀ c : BuiltinCall, c.site ∈ visitedSites (.ofText text) range →
      (HintSource.builtinCall c).isAdmitted options.config = true →
      c.Described options (given c.site)
  := by
  obtain ⟨given, hgiven⟩ := exists_contribution sem (.ofText text) range options st
  use given, hgiven
  intro c hvisited hadmitted
  obtain ⟨st', heq⟩ := hgiven.site c.site hvisited
  have hhints : hintsAt sem options c.site = return builtinHints options c := by
    rw [hintsAt, HintSource.ofSite?_builtinCall]
    apply if_pos hadmitted
  rw [heq, hhints]
  apply BuiltinCall.described options ((visitedSites_sublist _ range).subset hvisited)

/-- Of two entries the last one counts; its first descriptor is empty, and its third one stops the
labels, so only the second argument has one. -/
theorem inlayHints_described_stopped :
  let options : Options :=
    { builtins := ⟨[⟨"@b", ["z"]⟩, ⟨"@b", ["", "noalias x: u8", " : T", "y"]⟩]⟩ }
  ∃ c : BuiltinCall, c.site ∈ visitedSites (.ofText "@b(1, 2, 3, 4);") (.ofWidth 0 15)
    ∧ (HintSource.builtinCall c).isAdmitted options.config = true
    ∧ c.Described options [⟨6, "x:", .parameter, some ⟨.plaintext, "noalias u8"⟩⟩]
  := by
  intro options
  have hfound : (((visitedSites (.ofText "@b(1, 2, 3, 4);") (.ofWidth 0 15)).filterMap
      (NodeSite.ofSite? (NodeKind.is .builtinCall))).any fun c : BuiltinCall =>
        c.name?.any (·.text = "@b")
          && describeArguments options c.arguments ["", "noalias x: u8", " : T", "y"]
            = [⟨6, "x:", .parameter, some ⟨.plaintext, "noalias u8"⟩⟩]) = true := by cbv
  obtain ⟨c, hvisited, hcall⟩ := exists_nodeSite hfound
  obtain ⟨hname, hhints⟩ := Bool.and_eq_true_iff.mp hcall
  obtain ⟨name, hname, htext⟩ := (Option.any_eq_true _ _).mp hname
  have hcontributed : ((hintsAt .twoParameters options c.site).run ()).1
      = [⟨6, "x:", .parameter, some ⟨.plaintext, "noalias u8"⟩⟩] := by
    rw [← of_decide_eq_true hhints, hintsAt, HintSource.ofSite?_builtinCall]
    change builtinHints options c = _
    rw [builtinHints, hname]
    simp only [of_decide_eq_true htext]
    rfl
  obtain ⟨given, hgiven, hdescribed⟩ := inlayHints_described options .twoParameters
    "@b(1, 2, 3, 4);" (.ofWidth 0 15) ()
  refine ⟨c, hvisited, rfl, ?_⟩
  obtain ⟨⟨⟩, hsite⟩ := hgiven.site c.site hvisited
  rw [← hcontributed, ← hsite]
  apply hdescribed c hvisited rfl

end

end InlayHints

import Mathlib.Tactic.Use
import InlayHints.Proofs.Grammar.Preservation

/-!
# Reading in single steps

A reader does what a rule says one step at a time.  It keeps a list of tasks, those that a rule has
still to do before those of the rules around it, and it counts how deep the constructs nest: it
enters a construct only below the limit and leaves it with a task of its own.  Its repetitions go
on as long as their tests hold, and nothing else makes them stop.

`Task.perform` says what a single task does, and that is the same whatever tasks are left below it.
`Reader.Balanced` is kept by every step: the count is the number of constructs that are still to
be left, so there is always one to leave, and it never exceeds the limit.
-/

namespace InlayHints

/-- Something that a reader has still to do. -/
inductive Task (σ : Type) where
  /-- Reads by a rule. -/
  | read (r : Rule σ)
  /-- Makes a node of the group and adds it to the group around it. -/
  | close (kind : NodeKind) (outer : List Tree)
  /-- Adds the group to the group around it. -/
  | join (outer : List Tree)
  /-- Makes one node of the whole group. -/
  | wrap (kind : NodeKind)
  /-- Reads by a rule if there are still `count` tokens ahead. -/
  | retry (count : Nat) (r : Rule σ)
  /-- Skips what is left of a level on which `opened` brackets are open. -/
  | skip (opened : Nat)
  /-- Leaves a construct. -/
  | leave

/-- A reader at work: what it has still to do, how deep the constructs nest in which it is, and
how far it has come. -/
structure Reader (σ : Type) where
  tasks : List (Task σ)
  depth : Nat
  state : State

variable {σ : Type}

/-- What the next step does with a task, and which tasks stand in its place then; `none` for a
construct that is left although none was entered. -/
def Task.perform (g : Grammar σ) (limit depth : Nat) (s : State) : Task σ → Option (Reader σ)
  | .read .pass => some ⟨[], depth, s⟩
  | .read (.seq first second) => some ⟨[.read first, .read second], depth, s⟩
  | .read .take => some ⟨[], depth, s.take⟩
  | .read (.report cause) => some ⟨[], depth, s.report cause⟩
  | .read (.node kind body) =>
    some ⟨[.read body, .close kind s.flush.out], depth, s.flush.withOut []⟩
  | .read (.apart body) => some ⟨[.read body, .join s.flush.out], depth, s.flush.withOut []⟩
  | .read (.wrap kind body) => some ⟨[.read body, .wrap kind], depth, s⟩
  | .read (.branch test yes no) => some ⟨[.read (if test s.look then yes else no)], depth, s⟩
  | .read (.loop test body) =>
    some ⟨if test s.look then [.read body, .read (.loop test body)] else [], depth, s⟩
  | .read (.unlessTaken body other) => some ⟨[.read body, .retry s.count other], depth, s⟩
  | .read (.nested symbol) =>
    if depth < limit then some ⟨[.read (g symbol), .leave], depth + 1, s⟩
    else
      let s := s.report fun _ => .nestedTooDeep
      match s.nextBalance? 0 with
      | none => some ⟨[], depth, s⟩
      | some _ => some ⟨[.skip 0, .close .error s.flush.out], depth, s.flush.withOut []⟩
  | .close kind outer => some ⟨[], depth, s.withOut (.node kind s.out.reverse :: outer)⟩
  | .join outer => some ⟨[], depth, s.withOut (s.out ++ outer)⟩
  | .wrap kind => some ⟨[], depth, s.withOut [.node kind s.out.reverse]⟩
  | .retry count r => some ⟨if s.count = count then [.read r] else [], depth, s⟩
  | .skip opened =>
    match s.nextBalance? opened with
    | none => some ⟨[], depth, s⟩
    | some opened => some ⟨[.skip opened], depth, s.take⟩
  | .leave =>
    match depth with
    | 0 => none
    | depth + 1 => some ⟨[], depth, s⟩

/-- Whether a task leaves a construct. -/
def Task.isLeave : Task σ → Bool
  | .leave => true
  | _ => false

namespace Reader

variable {g : Grammar σ} {limit : Nat} {c d e : Reader σ} {m n : Nat}

/-- A reader that starts to read a list of tokens by a rule. -/
def start (r : Rule σ) (ts : List Token) : Reader σ := ⟨[.read r], 0, .start ts⟩

/-- One step of a reader; `none` if there is nothing to do, or no construct to leave. -/
def step? (g : Grammar σ) (limit : Nat) (c : Reader σ) : Option (Reader σ) :=
  match c.tasks with
  | [] => none
  | task :: tasks =>
    (task.perform g limit c.depth c.state).map fun d => { d with tasks := d.tasks ++ tasks }

/-- What a reader comes to in `n` steps, or before if there is no next step. -/
def after (g : Grammar σ) (limit : Nat) : Nat → Reader σ → Reader σ
  | 0, c => c
  | n + 1, c =>
    match c.step? g limit with
    | none => c
    | some d => d.after g limit n

/-- One reader comes to another in a number of steps. -/
def Reaches (g : Grammar σ) (limit : Nat) (c d : Reader σ) : Prop := ∃ n, c.after g limit n = d

theorem after_of_step? (h : c.step? g limit = some d) (n : Nat) :
  c.after g limit (n + 1) = d.after g limit n
  := by
  rw [after, h]

theorem after_of_none (h : c.step? g limit = none) (n : Nat) :
  c.after g limit n = c
  := by
  cases n with
  | zero => rfl
  | succ n => rw [after, h]

theorem after_add (c : Reader σ) (m n : Nat) :
  c.after g limit (m + n) = (c.after g limit m).after g limit n
  := by
  induction m generalizing c with
  | zero => rw [Nat.zero_add, after]
  | succ m ih =>
    rw [Nat.succ_add_eq_add_succ, Nat.add_succ]
    cases h : c.step? g limit with
    | none => rw [after_of_none h, after_of_none h, after_of_none h]
    | some d => rw [after_of_step? h, after_of_step? h, ih]

/-- What holds at first, and is kept by every step, holds at any time. -/
theorem Reaches.induct {I : Reader σ → Prop} (h : Reaches g limit c d) (hc : I c)
    (hstep : ∀ c d, c.step? g limit = some d → I c → I d) :
  I d
  := by
  obtain ⟨n, rfl⟩ := h
  induction n generalizing c with
  | zero => apply hc
  | succ n ih =>
    cases h : c.step? g limit with
    | none => rwa [after_of_none h]
    | some d =>
      rw [after_of_step? h]
      apply ih (hstep c d h hc)

/-! ### Balance -/

/-- The count of constructs that are entered is the number of those still to be left, and it is
within the limit. -/
structure Balanced (limit : Nat) (c : Reader σ) : Prop where
  depth_eq : c.depth = c.tasks.countP Task.isLeave
  depth_le : c.depth ≤ limit

/-- The count goes up by one for a construct that is entered, and one that is to be left is added
with it. -/
theorem balanced_perform {task : Task σ} {depth : Nat} {s : State}
    (h : task.perform g limit depth s = some d) :
  d.depth + [task].countP Task.isLeave = depth + d.tasks.countP Task.isLeave
    ∧ (depth ≤ limit → d.depth ≤ limit)
  := by
  cases task with
  | read r =>
    cases r with
    | nested symbol =>
      simp only [Task.perform] at h
      split at h
      · next hlt =>
        obtain rfl := Option.some_inj.mp h
        exact ⟨rfl, fun _ => hlt⟩
      · split at h
        · obtain rfl := Option.some_inj.mp h
          exact ⟨rfl, id⟩
        · obtain rfl := Option.some_inj.mp h
          exact ⟨rfl, id⟩
    | loop test body =>
      obtain rfl := Option.some_inj.mp h
      refine ⟨?_, id⟩
      dsimp only
      split
      · rfl
      · rfl
    | _ =>
      obtain rfl := Option.some_inj.mp h
      exact ⟨rfl, id⟩
  | retry count r =>
    obtain rfl := Option.some_inj.mp h
    refine ⟨?_, id⟩
    dsimp only
    split
    · rfl
    · rfl
  | skip opened =>
    simp only [Task.perform] at h
    split at h
    · obtain rfl := Option.some_inj.mp h
      exact ⟨rfl, id⟩
    · obtain rfl := Option.some_inj.mp h
      exact ⟨rfl, id⟩
  | leave =>
    simp only [Task.perform] at h
    split at h
    · contradiction
    · obtain rfl := Option.some_inj.mp h
      exact ⟨rfl, Nat.le_of_succ_le⟩
  | _ =>
    obtain rfl := Option.some_inj.mp h
    exact ⟨rfl, id⟩

/-- Only a construct that was not entered cannot be left. -/
theorem eq_leave_of_perform {task : Task σ} {depth : Nat} {s : State}
    (h : task.perform g limit depth s = none) :
  task = .leave ∧ depth = 0
  := by
  cases task with
  | read r =>
    cases r with
    | nested symbol =>
      simp only [Task.perform] at h
      split at h
      · contradiction
      split at h
      · contradiction
      · contradiction
    | _ => contradiction
  | skip opened =>
    simp only [Task.perform] at h
    split at h
    · contradiction
    · contradiction
  | leave =>
    cases depth with
    | zero => exact ⟨rfl, rfl⟩
    | succ depth => contradiction
  | _ => contradiction

/-- A step keeps the balance. -/
theorem Balanced.step (hc : c.Balanced limit) (h : c.step? g limit = some d) :
  d.Balanced limit
  := by
  unfold step? at h
  split at h
  · contradiction
  · next task tasks htasks =>
    obtain ⟨e, he, rfl⟩ := Option.map_eq_some_iff.mp h
    obtain ⟨hdepth, hlimit⟩ := balanced_perform he
    have heq := hc.depth_eq
    rw [htasks, ← List.singleton_append, List.countP_append] at heq
    constructor
    · simp only [List.countP_append]
      omega
    · apply hlimit hc.depth_le

/-- There is always a construct to be left where a reader leaves one. -/
theorem Balanced.depth_pos (hc : c.Balanced limit) {tasks : List (Task σ)}
    (htasks : c.tasks = .leave :: tasks) :
  0 < c.depth
  := by
  rw [hc.depth_eq, htasks, List.countP_cons_of_pos rfl]
  apply Nat.succ_pos

/-- A reader stops only when nothing is left to do. -/
theorem Balanced.tasks_eq_nil (hc : c.Balanced limit) (h : c.step? g limit = none) :
  c.tasks = []
  := by
  cases htasks : c.tasks with
  | nil => rfl
  | cons task tasks =>
    rw [step?, htasks, Option.map_eq_none_iff] at h
    obtain ⟨rfl, hdepth⟩ := eq_leave_of_perform h
    have := hc.depth_pos htasks
    omega

end Reader

end InlayHints

import Mathlib.Data.List.Induction
import Mathlib.Logic.Relation
import InlayHints.Proofs.Grammar.Outcome
import InlayHints.Proofs.Grammar.Reports

/-!
# What skipping takes

What nests too deep is skipped up to the token that ends the level.  The tokens skipped are the
longest run that stays on the level: brackets are closed only after they were opened, and a divider
stands only between brackets that are open (`Token.OneLevel`).  Skipping goes in rounds, which keep
a count of the brackets that are open.  `State.skipped_rounds` says what any number of rounds takes,
and that the count is exact, so that it never has to go below zero; `State.skips_skipLevel` draws
the conclusions for the whole level.
-/

namespace InlayHints

open Relation

/-- A token changes the count of open brackets by itself, a closing bracket as one that was open
before; a divider needs one that is open. -/
theorem State.balance?_eq_some_iff {opened n : Nat} {k : TokenKind} :
  balance? opened k = some n
    ↔ n + (if k.isClosing then 1 else 0) = opened + (if k.isOpening then 1 else 0)
      ∧ (k.isDivider = true → opened ≠ 0)
  := by
  cases k with
  | lParen | lBracket | lBrace =>
    simp [balance?, TokenKind.isOpening, TokenKind.isClosing, TokenKind.isDivider, eq_comm]
  | rParen | rBracket | rBrace =>
    simp [balance?, TokenKind.isOpening, TokenKind.isClosing, TokenKind.isDivider]
    omega
  | comma | semicolon =>
    simp [balance?, TokenKind.isOpening, TokenKind.isClosing, TokenKind.isDivider]
    omega
  | _ => simp [balance?, TokenKind.isOpening, TokenKind.isClosing, TokenKind.isDivider, eq_comm]

namespace Token

/-- How many of the tokens are opening brackets. -/
def openings (ts : List Token) : Nat := ts.countP (·.kind.isOpening)

/-- How many of the tokens are closing brackets. -/
def closings (ts : List Token) : Nat := ts.countP (·.kind.isClosing)

/-- Tokens that stay on one level of nesting: nowhere are more brackets closed than were opened,
and no divider stands where all brackets before it are closed again. -/
structure OneLevel (ts : List Token) : Prop where
  closed : ∀ us, us <+: ts → closings us ≤ openings us
  undivided : ∀ us t, us ++ [t] <+: ts → t.kind.isDivider = true → openings us ≠ closings us

variable {ts us : List Token} {t : Token} {n : Nat}

theorem openings_concat (ts : List Token) (t : Token) :
  openings (ts ++ [t]) = openings ts + if t.kind.isOpening then 1 else 0
  := by
  rw [openings, List.countP_append, List.countP_singleton]
  rfl

theorem closings_concat (ts : List Token) (t : Token) :
  closings (ts ++ [t]) = closings ts + if t.kind.isClosing then 1 else 0
  := by
  rw [closings, List.countP_append, List.countP_singleton]
  rfl

theorem oneLevel_nil :
  OneLevel []
  where
  closed us h := by
    rw [List.prefix_nil.mp h]
    apply Nat.le_refl
  undivided us t h := by
    have := List.prefix_nil.mp h
    simp at this

/-- One more token stays on the level if it neither closes nor divides it. -/
theorem oneLevel_concat :
  OneLevel (ts ++ [t])
    ↔ OneLevel ts ∧ closings (ts ++ [t]) ≤ openings (ts ++ [t])
      ∧ (t.kind.isDivider = true → openings ts ≠ closings ts)
  := by
  constructor
  · intro h
    refine ⟨⟨?_, ?_⟩, h.closed _ List.prefix_rfl, h.undivided ts t List.prefix_rfl⟩
    · intro us hus
      apply h.closed us (hus.trans (List.prefix_append ts [t]))
    · intro us u hus
      apply h.undivided us u (hus.trans (List.prefix_append ts [t]))
  · rintro ⟨h, hclosed, hdivider⟩
    constructor
    · intro us hus
      rcases List.prefix_concat_iff.mp hus with rfl | hus
      · apply hclosed
      · apply h.closed us hus
    · intro us u hus
      rcases List.prefix_concat_iff.mp hus with heq | hus
      · obtain ⟨rfl, rfl⟩ := List.append_singleton_inj.mp heq
        apply hdivider
      · apply h.undivided us u hus

theorem balance?_concat (opened : Nat) (ts : List Token) (t : Token) :
  balance? opened (ts ++ [t]) = (balance? opened ts).bind fun n => State.balance? n t.kind
  := by
  rw [balance?_append]
  simp [balance?]

/-- The count of open brackets exists just for tokens on one level, and then it is exact. -/
theorem balance?_eq_some_iff :
  balance? 0 ts = some n ↔ OneLevel ts ∧ openings ts = n + closings ts
  := by
  induction ts using List.reverseRecOn generalizing n with
  | nil =>
    constructor
    · intro h
      obtain rfl := Option.some_inj.mp h
      exact ⟨oneLevel_nil, rfl⟩
    · rintro ⟨-, h⟩
      obtain rfl : 0 = n := h
      rfl
  | append_singleton ts t ih =>
    rw [balance?_concat, Option.bind_eq_some_iff, oneLevel_concat, openings_concat,
      closings_concat]
    simp only [ih, State.balance?_eq_some_iff]
    constructor
    · rintro ⟨m, ⟨hlevel, hm⟩, hn, hdivider⟩
      refine ⟨⟨hlevel, by omega, ?_⟩, by omega⟩
      intro ht
      have := hdivider ht
      omega
    · rintro ⟨⟨hlevel, hclosed, hdivider⟩, hn⟩
      have := hlevel.closed ts List.prefix_rfl
      refine ⟨openings ts - closings ts, ⟨hlevel, by omega⟩, by omega, ?_⟩
      intro ht
      have := hdivider ht
      omega

theorem OneLevel.exists_balance? (h : OneLevel ts) :
  ∃ n, balance? 0 ts = some n
  := by
  have := h.closed ts List.prefix_rfl
  use openings ts - closings ts
  apply balance?_eq_some_iff.mpr ⟨h, by omega⟩

/-- Tokens on one level do not go on beyond a token that ends it. -/
theorem OneLevel.prefix_of_balance? {run rest : List Token} (hlevel : OneLevel us)
    (hus : us <+: run ++ rest) (hrun : balance? 0 run = some n)
    (hrest : ∀ t ∈ rest.head?, State.balance? n t.kind = none) :
  us <+: run
  := by
  rcases List.prefix_or_prefix_of_prefix hus (List.prefix_append run rest) with h | ⟨vs, rfl⟩
  · apply h
  · cases vs with
    | nil =>
      simp only [List.append_nil, List.prefix_rfl]
    | cons v vs =>
      obtain ⟨rest, rfl⟩ := (List.prefix_append_right_inj run).mp hus
      obtain ⟨m, hm⟩ := hlevel.exists_balance?
      rw [balance?_append, hrun, Option.bind_some, balance?, List.foldlM_cons,
        hrest v rfl] at hm
      contradiction

end Token

namespace State

variable {s t u : State} {opened opened' : Nat}

/-! ### Rounds -/

/-- One round of skipping: the count of open brackets takes account of the next token, and the
token is taken. -/
inductive Round : Nat × State → Nat × State → Prop where
  | take {opened opened' : Nat} {s : State} (h : s.nextBalance? opened = some opened') :
    Round (opened, s) (opened', s.take)

/-- What skipping takes of a level is taken in rounds, and the token after the last one ends the
level. -/
theorem exists_rounds (opened : Nat) (s : State) :
  ∃ opened', ReflTransGen Round (opened, s) (opened', s.takeLevel opened)
    ∧ (s.takeLevel opened).nextBalance? opened' = none
  := by
  fun_induction takeLevel opened s with
  | case1 opened s h => exact ⟨opened, .refl, h⟩
  | case2 opened s opened' h ih =>
    obtain ⟨last, hrounds, hend⟩ := ih
    exact ⟨last, .head (.take h) hrounds, hend⟩

/-- From `s` to `u` a group of tokens was taken, and the count of open brackets was kept over
those that are significant. -/
structure Skipped (ts : List Token) (opened opened' : Nat) (s u : State) : Prop where
  ahead : s.ahead.tokens = ts ++ u.ahead.tokens
  out : u.out = (ts.map Tree.token).reverse ++ s.out
  faults : u.faults = s.faults
  balance : Token.balance? opened (Token.significant ts) = some opened'

theorem Skipped.refl (opened : Nat) (s : State) :
  Skipped [] opened opened s s
  := ⟨rfl, rfl, rfl, rfl⟩

theorem Skipped.trans {ts us : List Token} {opened'' : Nat} (h : Skipped ts opened opened' s t)
    (h' : Skipped us opened' opened'' t u) :
  Skipped (ts ++ us) opened opened'' s u
  where
  ahead := by rw [h.ahead, h'.ahead, List.append_assoc]
  out := by rw [h'.out, h.out, List.map_append, List.reverse_append, List.append_assoc]
  faults := h'.faults.trans h.faults
  balance := by
    rw [Token.significant_append, Token.balance?_append, h.balance]
    apply h'.balance

/-- A round takes the next token and the trivia before it. -/
theorem skipped_take (h : s.nextBalance? opened = some opened') :
  ∃ ts, Skipped ts opened opened' s s.take
  := by
  obtain ⟨k, hk, hbalance⟩ := Option.bind_eq_some_iff.mp h
  cases htokens : s.flush.ahead.tokens with
  | nil =>
    rw [← look_flush, look_first_eq_none.mpr (by rw [significant, htokens]; rfl)] at hk
    contradiction
  | cons t us =>
    have hdrop : s.ahead.tokens.dropWhile Token.isTrivia = t :: us := htokens
    have htake : s.take
        = { s.flush with
            ahead := s.flush.ahead.tail
            offset := s.flush.offset + t.width
            out := .token t :: s.flush.out } := by
      rw [take, shift, htokens]
    use s.ahead.trivia ++ [t]
    constructor
    · rw [← trivia_append_flush, htake, htokens]
      simp [Input.tail, htokens]
    · rw [htake, out_flush]
      simp
    · apply faults_take
    · rw [look_eq, significant, Token.significant_of_dropWhile hdrop] at hk
      obtain rfl := Option.some_inj.mp hk
      have hfront : Token.significant s.ahead.trivia = [] :=
        Token.significant_eq_nil.mpr fun u hu => List.mem_takeWhile_imp hu
      have hlast : Token.significant [t] = [t] := by
        simp [Token.significant, Token.isTrivia_of_dropWhile hdrop]
      rw [Token.significant_append, hfront, hlast, Token.balance?_concat]
      apply hbalance

/-- What any number of rounds have taken. -/
theorem skipped_rounds (h : ReflTransGen Round (opened, s) (opened', u)) :
  ∃ ts, Skipped ts opened opened' s u
  := by
  generalize hend : (opened', u) = c at h
  induction h generalizing opened' u with
  | refl =>
    obtain ⟨rfl, rfl⟩ := Prod.mk.inj hend
    exact ⟨[], .refl _ _⟩
  | tail hrounds hround ih =>
    cases hround with
    | take hnext =>
      obtain ⟨rfl, rfl⟩ := Prod.mk.inj hend
      obtain ⟨ts, hts⟩ := ih rfl
      obtain ⟨us, hus⟩ := skipped_take hnext
      exact ⟨ts ++ us, hts.trans hus⟩

theorem Skipped.significant {ts : List Token} (h : Skipped ts opened opened' s u) :
  s.significant = Token.significant ts ++ u.significant
  := by
  rw [State.significant, h.ahead, Token.significant_append]
  rfl

/-! ### The whole level -/

/-- After the tokens `run` the count of open brackets is exact, and if a closing bracket is taken
next, then there is one for it to close. -/
structure Counted (opened : Nat) (run : List Token) (u : State) : Prop where
  exact : Token.openings run = opened + Token.closings run
  positive : ∀ opened', u.nextBalance? opened = some opened' →
    u.look.first.any TokenKind.isClosing = true → opened = opened' + 1

/-- From `s` to `t`, skipping takes the longest run of significant tokens that stays on one level.
It goes in rounds that count the open brackets, and puts the run and the trivia in it into one
error node, if the run is not empty. -/
structure Skips (run : List Token) (s t : State) : Prop where
  split : s.significant = run ++ t.significant
  level : Token.OneLevel run
  longest : ∀ us, us <+: s.significant → Token.OneLevel us → us <+: run
  stops : ∀ u ∈ t.significant.head?, Token.openings run = Token.closings run
    ∧ (u.kind.isClosing = true ∨ u.kind.isDivider = true)
  counted : ∀ opened u, ReflTransGen Round (0, s.flush.withOut []) (opened, u) →
    ∃ us, s.significant = us ++ u.significant ∧ us <+: run ∧ Counted opened us u
  nothing : run = [] → t = s
  node : run ≠ [] → ∃ ts opened u, ReflTransGen Round (0, s.flush.withOut []) (opened, u)
    ∧ t = u.withOut (.node .error (ts.map .token) :: s.flush.out)
    ∧ s.flush.ahead.tokens = ts ++ t.ahead.tokens ∧ Token.significant ts = run
  faults : t.faults = s.faults

theorem Skipped.counted {ts : List Token} (h : Skipped ts 0 opened s u) :
  Counted opened (Token.significant ts) u
  where
  exact := (Token.balance?_eq_some_iff.mp h.balance).2
  positive opened' hnext hclosing := by
    obtain ⟨k, hk, hbalance⟩ := Option.bind_eq_some_iff.mp hnext
    rw [hk, Option.any_some] at hclosing
    have := (balance?_eq_some_iff.mp hbalance).1
    rw [hclosing] at this
    cases hopening : k.isOpening with
    | true => cases k <;> contradiction
    | false => simpa [hopening, eq_comm] using this

/-- Only a closing bracket or a divider ends the level, and only where no bracket is open. -/
theorem eq_zero_of_balance?_eq_none {k : TokenKind} (h : balance? opened k = none) :
  opened = 0 ∧ (k.isClosing = true ∨ k.isDivider = true)
  := by
  unfold balance? at h
  split at h
  · contradiction
  split at h
  · next hclosing =>
    split at h
    · next hzero => exact ⟨hzero, .inl hclosing⟩
    · contradiction
  split at h
  · next hdivider =>
    simp only [Bool.and_eq_true, decide_eq_true_eq] at hdivider
    exact ⟨hdivider.2, .inr hdivider.1⟩
  · contradiction

theorem head?_of_nextBalance?_eq_none (h : s.nextBalance? opened = none) :
  ∀ t ∈ s.significant.head?, balance? opened t.kind = none
  := by
  intro t ht
  obtain ⟨ts, hts⟩ := List.head?_eq_some_iff.mp ht
  rw [nextBalance?, look_eq, hts] at h
  apply h

/-- A token that does not end the level is a run on the level. -/
theorem oneLevel_of_nextBalance? (h : s.nextBalance? 0 = some opened) :
  ∃ t, [t] <+: s.significant ∧ Token.OneLevel [t]
  := by
  obtain ⟨k, hk, hbalance⟩ := Option.bind_eq_some_iff.mp h
  rw [look_eq] at hk
  cases hs : s.significant with
  | nil =>
    rw [hs] at hk
    contradiction
  | cons t ts =>
    rw [hs] at hk
    obtain rfl := Option.some_inj.mp hk
    refine ⟨t, ⟨ts, rfl⟩, (Token.balance?_eq_some_iff (n := opened)).mp ?_ |>.1⟩
    rw [← List.nil_append [t], Token.balance?_concat]
    apply hbalance

/-- What was skipped is the longest run on one level, if no round can follow. -/
theorem Skipped.longest {ts us : List Token} (h : Skipped ts 0 opened s u)
    (hend : u.nextBalance? opened = none) (hus : us <+: s.significant)
    (hlevel : Token.OneLevel us) :
  us <+: Token.significant ts
  := by
  rw [h.significant] at hus
  apply hlevel.prefix_of_balance? hus h.balance (head?_of_nextBalance?_eq_none hend)

/-- All brackets are closed again where no round can follow, unless the tokens are at their end. -/
theorem Skipped.stops {ts : List Token} (h : Skipped ts 0 opened s u)
    (hend : u.nextBalance? opened = none) :
  ∀ t ∈ u.significant.head?,
    Token.openings (Token.significant ts) = Token.closings (Token.significant ts)
      ∧ (t.kind.isClosing = true ∨ t.kind.isDivider = true)
  := by
  intro t ht
  obtain ⟨rfl, ht⟩ := eq_zero_of_balance?_eq_none (head?_of_nextBalance?_eq_none hend t ht)
  rw [(Token.balance?_eq_some_iff.mp h.balance).2, Nat.zero_add]
  exact ⟨rfl, ht⟩

/-- Skipping leaves what the rounds leave, also where no round is made. -/
theorem significant_skipLevel (s : State) :
  s.skipLevel.significant = (takeLevel 0 (s.flush.withOut [])).significant
  := by
  unfold skipLevel
  split
  · next hnone =>
    have hopened : (s.flush.withOut []).nextBalance? 0 = none := by
      rw [nextBalance?, look_withOut, look_flush]
      apply hnone
    rw [takeLevel_of_none hopened, significant_withOut, significant_flush]
  · rfl

/-- Skipping does nothing where no run starts. -/
theorem skipLevel_eq_self (h : ∀ us, us <+: s.significant → Token.OneLevel us → us = []) :
  s.skipLevel = s
  := by
  cases hnext : s.nextBalance? 0 with
  | none => rw [skipLevel, hnext]
  | some opened =>
    obtain ⟨t, ht, hlevel⟩ := oneLevel_of_nextBalance? hnext
    have := h _ ht hlevel
    contradiction

/-- If any token is skipped, then a single error node is made of all that the rounds take. -/
theorem skipLevel_of_skipped {ts : List Token} (h : s.skipLevel.significant ≠ s.significant)
    (hts : Skipped ts 0 opened (s.flush.withOut []) (takeLevel 0 (s.flush.withOut []))) :
  s.skipLevel = (takeLevel 0 (s.flush.withOut [])).withOut
    (.node .error (ts.map .token) :: s.flush.out)
  := by
  have hout : (takeLevel 0 (s.flush.withOut [])).out.reverse = ts.map Tree.token := by
    rw [hts.out]
    simp [withOut]
  cases hnext : s.nextBalance? 0 with
  | none =>
    rw [skipLevel, hnext] at h
    contradiction
  | some opened =>
    rw [skipLevel, hnext, ← hout]
    rfl

/-- Whatever the state, skipping takes the longest run of tokens on one level. -/
theorem skips_skipLevel (s : State) :
  ∃ run, Skips run s s.skipLevel
  := by
  have hstart : (s.flush.withOut []).significant = s.significant := by
    rw [significant_withOut, significant_flush]
  obtain ⟨opened, hrounds, hend⟩ := exists_rounds 0 (s.flush.withOut [])
  obtain ⟨ts, hts⟩ := skipped_rounds hrounds
  have hsplit : s.significant = Token.significant ts ++ s.skipLevel.significant := by
    rw [significant_skipLevel, ← hts.significant, hstart]
  have hlongest : ∀ us, us <+: s.significant → Token.OneLevel us → us <+: Token.significant ts := by
    rw [← hstart]
    intro us
    apply hts.longest hend
  use Token.significant ts
  constructor
  · apply hsplit
  · apply (Token.balance?_eq_some_iff.mp hts.balance).1
  · apply hlongest
  · rw [significant_skipLevel]
    apply hts.stops hend
  · intro opened u hrounds
    obtain ⟨us, hus⟩ := skipped_rounds hrounds
    have hsplit : s.significant = Token.significant us ++ u.significant := by
      rw [← hus.significant, hstart]
    refine ⟨_, hsplit, ?_, hus.counted⟩
    apply hlongest _ ⟨_, hsplit.symm⟩ (Token.balance?_eq_some_iff.mp hus.balance).1
  · intro hnil
    apply skipLevel_eq_self
    intro us hus hlevel
    have := hlongest us hus hlevel
    rwa [hnil, List.prefix_nil] at this
  · intro hne
    have htaken : s.skipLevel.significant ≠ s.significant := by
      intro heq
      rw [heq] at hsplit
      apply hne (List.self_eq_append_left.mp hsplit)
    have hgroup := skipLevel_of_skipped htaken hts
    refine ⟨ts, opened, _, hrounds, hgroup, ?_, rfl⟩
    rw [hgroup]
    apply hts.ahead
  · apply faults_skipLevel

end State

end InlayHints

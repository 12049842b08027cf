import InlayHints.Proofs.Grammar.Bare
import InlayHints.Proofs.Grammar.Layout
import InlayHints.Proofs.Grammar.Shape

/-!
# The parts that rules read

The parts of a node are its children other than trivia.  When every kind of node has a layout,
`Rule.Adds` says which parts a rule adds to a group, from what is ahead where it starts, and that
all nodes it builds are laid out; it also says what is ahead where the rule ends, since decisions
look two tokens ahead.  In a group that is read apart, a rule may take all parts so far into one
node, and `Rule.Grows` says which parts there are after it.  There is one lemma for each way to
build rules, so that the parts of a construct are read off its rule; from one level of nesting to
the next they are carried by `Grammar.adds_read`.
-/

namespace InlayHints

/-- The trees in a list, without trivia. -/
def Tree.parts (cs : List Tree) : List Tree := cs.filter (!·.isTrivia)

/-- The kinds of the trees in a list, without trivia. -/
def Tree.partKinds (cs : List Tree) : List Kind := (cs.filter (!·.isTrivia)).map kind

/-- The parts of a node are as the layout of its kind describes. -/
def Layout.Fits (T : NodeKind → Layout) (kind : NodeKind) (cs : List Tree) : Prop :=
  Tree.partKinds cs ∈ (T kind).language

theorem Tree.partKinds_eq (cs : List Tree) :
  partKinds cs = (parts cs).map kind
  := rfl

theorem Tree.parts_append (cs ds : List Tree) :
  parts (cs ++ ds) = parts cs ++ parts ds
  := List.filter_append cs ds

namespace State

variable {T : NodeKind → Layout} {l m : Layout} {s t u : State}

/-- The parts in the innermost group. -/
def parts (s : State) : List Tree := Tree.parts s.out.reverse

/-- The kinds of the parts in the innermost group. -/
def partKinds (s : State) : List Kind := Tree.partKinds s.out.reverse

/-- All nodes in the innermost group are laid out. -/
def LaidOut (T : NodeKind → Layout) (s : State) : Prop := s.Shaped (Layout.Fits T)

theorem partKinds_eq (s : State) :
  s.partKinds = s.parts.map Tree.kind
  := rfl

/-! ### Steps -/

theorem parts_flush (s : State) :
  s.flush.parts = s.parts
  := by
  have htrivia : Tree.parts (s.ahead.trivia.map Tree.token) = [] := by
    rw [Tree.parts, List.filter_eq_nil_iff]
    intro t ht
    obtain ⟨token, htoken, rfl⟩ := List.mem_map.mp ht
    have htoken : token.isTrivia = true := List.mem_takeWhile_imp htoken
    rw [Tree.isTrivia, htoken]
    decide
  rw [parts, out_flush, List.reverse_append, List.reverse_reverse, Tree.parts_append,
    htrivia, List.append_nil]
  rfl

theorem partKinds_flush (s : State) :
  s.flush.partKinds = s.partKinds
  := congrArg (List.map Tree.kind) s.parts_flush

/-- Taking the next token adds it as a part. -/
theorem exists_parts_take {k : TokenKind} (h : s.look.first = some k) :
  ∃ t : Token, t.kind = k ∧ s.take.parts = s.parts ++ [.token t]
  := by
  rw [← parts_flush s, take, shift]
  split
  · next heq =>
    rw [look, Input.look, show s.ahead.afterTrivia.tokens = [] from heq] at h
    contradiction
  · next t ts heq =>
    have hdrop : s.ahead.tokens.dropWhile Token.isTrivia = t :: ts := heq
    use t
    constructor
    · rw [look_eq, significant, Token.significant_of_dropWhile hdrop] at h
      apply Option.some_inj.mp h
    · rw [parts, List.reverse_cons, Tree.parts_append]
      simp [parts, Tree.parts, Tree.isTrivia, Token.isTrivia_of_dropWhile hdrop]

/-- Taking the next token adds a part of its kind. -/
theorem partKinds_take {k : TokenKind} (h : s.look.first = some k) :
  s.take.partKinds = s.partKinds ++ [.token k]
  := by
  obtain ⟨t, rfl, hparts⟩ := exists_parts_take h
  rw [partKinds_eq, hparts, List.map_append]
  rfl

/-- After the next token was taken, the one behind it comes next. -/
theorem look_first_take (s : State) :
  s.take.look.first = s.look.second
  := by
  rw [look_eq, look_eq, significant_take]
  cases s.significant with
  | nil => rfl
  | cons t ts =>
    cases ts with
    | nil => rfl
    | cons u us => rfl

theorem partKinds_opened (s : State) :
  (s.withOut []).partKinds = []
  := rfl

/-- A node is one part. -/
theorem parts_within (kind : NodeKind) (step : State → State) (s : State) :
  (s.within kind step).parts
    = s.parts ++ [.node kind (step (s.flush.withOut [])).out.reverse]
  := by
  rw [← parts_flush s, parts, within, withOut, List.reverse_cons, Tree.parts_append]
  rfl

theorem partKinds_within (kind : NodeKind) (step : State → State) (s : State) :
  (s.within kind step).partKinds = s.partKinds ++ [.node kind]
  := by
  rw [partKinds_eq, parts_within, List.map_append]
  rfl

theorem parts_apart (step : State → State) (s : State) :
  (s.apart step).parts = s.parts ++ (step (s.flush.withOut [])).parts
  := by
  rw [← parts_flush s, parts, apart, withOut, List.reverse_append, Tree.parts_append]
  rfl

theorem partKinds_apart (step : State → State) (s : State) :
  (s.apart step).partKinds = s.partKinds ++ (step (s.flush.withOut [])).partKinds
  := by
  rw [partKinds_eq, parts_apart, List.map_append]
  rfl

/-! ### Parts and the past -/

section

variable {step : State → State}

/-- What the past does not influence adds parts to any group as it does to an empty one. -/
theorem parts_of_frames (h : ∀ p : Past, p.Frames step) (s : State) :
  (step s).parts = s.parts ++ (step (start s.ahead.tokens)).parts
  := by
  have hresume : step s = s.past.resume (step (start s.ahead.tokens)) := by
    rw [← h, resume_start]
  rw [hresume, parts, Past.out_resume, List.reverse_append, Tree.parts_append]
  rfl

theorem look_of_frames (h : ∀ p : Past, p.Frames step) (s : State) :
  (step s).look = (step (start s.ahead.tokens)).look
  := by
  have hresume : step s = s.past.resume (step (start s.ahead.tokens)) := by
    rw [← h, resume_start]
  rw [hresume]
  rfl

/-- Without parts, nothing but trivia was taken. -/
theorem Takes.significant_eq_of_parts (h : s.Takes t) (hs : s.out = []) (ht : t.parts = []) :
  t.significant = s.significant
  := by
  obtain ⟨ts, hahead, htaken⟩ := h
  have hnil : s.taken = [] := by rw [taken, hs]; rfl
  have htrivia : ∀ u ∈ ts, u.isTrivia = true := by
    intro u hu
    rw [hnil, List.nil_append] at htaken
    rw [← htaken] at hu
    obtain ⟨c, hc, hu⟩ := List.mem_flatMap.mp hu
    have hc := List.filter_eq_nil_iff.mp ht c hc
    cases c with
    | node k cs => exact absurd rfl hc
    | token v =>
      rw [Tree.tokens_token, List.mem_singleton] at hu
      rw [hu]
      simpa [Tree.isTrivia] using hc
  rw [significant, significant, hahead, Token.significant_append,
    Token.significant_eq_nil.mpr htrivia, List.nil_append]

end

/-! ### Parts that are added -/

/-- From one state to another, parts were added that the layout `l` describes, and all nodes are
laid out. -/
structure Added (T : NodeKind → Layout) (l : Layout) (s t : State) : Prop where
  laidOut : t.LaidOut T
  parts : ∃ ks ∈ l.language, t.partKinds = s.partKinds ++ ks

theorem LaidOut.added (h : s.LaidOut T) :
  s.Added T .nothing s
  where
  laidOut := h
  parts := ⟨[], rfl, (List.append_nil _).symm⟩

theorem Added.andThen (h : s.Added T l t) (h' : t.Added T m u) :
  s.Added T (l >> m) u
  where
  laidOut := h'.laidOut
  parts := by
    obtain ⟨ks, hks, ht⟩ := h.parts
    obtain ⟨ks', hks', hu⟩ := h'.parts
    use ks ++ ks', Language.append_mem_mul hks hks'
    rw [hu, ht, List.append_assoc]

theorem Added.mono (h : s.Added T l t) (hl : l.language ≤ m.language) :
  s.Added T m t
  where
  laidOut := h.laidOut
  parts := by
    obtain ⟨ks, hks, ht⟩ := h.parts
    use ks, hl hks

/-- From an empty group on, the parts that were added are all there are. -/
theorem Added.partKinds_mem (h : (s.withOut []).Added T l t) :
  t.partKinds ∈ l.language
  := by
  obtain ⟨ks, hks, ht⟩ := h.parts
  rw [ht, partKinds_opened, List.nil_append]
  apply hks

/-- A node of parts that its layout describes is added as one part. -/
theorem LaidOut.within (h : s.LaidOut T) {kind : NodeKind} {step : State → State}
    (hstep : (step (s.flush.withOut [])).LaidOut T)
    (hparts : (step (s.flush.withOut [])).partKinds ∈ (T kind).language) :
  s.Added T (.node kind) (s.within kind step)
  where
  laidOut := Shaped.within h hstep hparts
  parts := ⟨_, Layout.mem_node.mpr rfl, partKinds_within kind step s⟩

/-- Skipping adds tokens only. -/
theorem exists_partKinds_takeLevel (opened : Nat) (s : State) :
  ∃ ks, (∀ k ∈ ks, k.isToken = true) ∧ (s.takeLevel opened).partKinds = s.partKinds ++ ks
  := by
  fun_induction State.takeLevel opened s with
  | case1 opened s heq => exact ⟨[], List.forall_mem_nil _, (List.append_nil _).symm⟩
  | case2 opened s opened' heq ih =>
    obtain ⟨k, hk, -⟩ := Option.bind_eq_some_iff.mp heq
    obtain ⟨ks, hks, hkinds⟩ := ih
    use .token k :: ks, List.forall_mem_cons.mpr ⟨rfl, hks⟩
    rw [hkinds, partKinds_take hk, List.append_assoc]
    rfl

/-- Where the next token does not end the level, skipping takes some tokens. -/
theorem partKinds_takeLevel_mem {opened opened' : Nat} (h : s.nextBalance? opened = some opened') :
  ((s.withOut []).takeLevel opened).partKinds ∈ Layout.tokens.language
  := by
  have hnext : (s.withOut []).nextBalance? opened = some opened' := h
  obtain ⟨k, hk, -⟩ := Option.bind_eq_some_iff.mp hnext
  obtain ⟨ks, hks, hkinds⟩ := exists_partKinds_takeLevel opened' (s.withOut []).take
  rw [takeLevel_of_some hnext, hkinds, partKinds_take hk, partKinds_opened]
  apply Layout.mem_tokens.mpr ⟨List.cons_ne_nil _ _, List.forall_mem_cons.mpr ⟨rfl, hks⟩⟩

/-- What is skipped is one error node, if it is anything. -/
theorem LaidOut.skipLevel (h : s.LaidOut T)
    (herror : Layout.tokens.language ≤ (T .error).language) :
  s.Added T (.maybe (.node .error)) s.skipLevel
  := by
  unfold State.skipLevel
  split
  · apply h.added.mono (Layout.language_nothing_le_maybe _)
  · next opened hsome =>
    have hflush : s.flush.nextBalance? 0 = some opened := by
      rw [nextBalance?, look_flush, ← nextBalance?, hsome]
    apply (h.within _ (herror (partKinds_takeLevel_mem hflush))).mono
      (Layout.language_le_maybe _)
    apply (shaped_opened _).takeLevel

end State

namespace Rule

variable {σ : Type} {T : NodeKind → Layout} {inner : σ → State → State}
variable {B B' M A A' : Lookahead → Prop} {l l' m : Layout} {r r' : Rule σ}
variable {test : Lookahead → Bool}

/-- Where `B` holds of what is ahead, a rule adds parts that the layout `l` describes, and then
`A` holds of what is ahead. -/
def Adds (T : NodeKind → Layout) (inner : σ → State → State) (B : Lookahead → Prop) (r : Rule σ)
    (l : Layout) (A : Lookahead → Prop) : Prop :=
  ∀ s : State, B s.look → s.LaidOut T → s.Added T l (r.run inner s) ∧ A (r.run inner s).look

/-- Where `B` holds of what is ahead, a rule makes a group with the parts of the layout `l` one
with the parts of the layout `m`. -/
def Grows (T : NodeKind → Layout) (inner : σ → State → State) (B : Lookahead → Prop) (r : Rule σ)
    (l m : Layout) : Prop :=
  ∀ s : State, B s.look → s.LaidOut T → s.partKinds ∈ l.language →
    (r.run inner s).LaidOut T ∧ (r.run inner s).partKinds ∈ m.language

/-! ### Adding parts -/

namespace Adds

theorem before (h : Adds T inner B r l A) (hB : ∀ a, B' a → B a) :
  Adds T inner B' r l A
  := fun s hs => h s (hB s.look hs)

theorem after (h : Adds T inner B r l A) (hA : ∀ a, A a → A' a) :
  Adds T inner B r l A'
  := by
  intro s hs hlaid
  obtain ⟨hadded, hlook⟩ := h s hs hlaid
  use hadded, hA _ hlook

theorem forget (h : Adds T inner B r l A) :
  Adds T inner B r l fun _ => True
  := h.after fun _ _ => trivial

theorem mono (h : Adds T inner B r l A) (hl : l.language ≤ m.language) :
  Adds T inner B r m A
  := by
  intro s hs hlaid
  obtain ⟨hadded, hlook⟩ := h s hs hlaid
  use hadded.mono hl, hlook

theorem maybe (h : Adds T inner B r l A) :
  Adds T inner B r l.maybe A
  := h.mono (Layout.language_le_maybe l)

/-- A part of one kind is one of the kinds that a layout leaves open. -/
theorem as {p : Kind → Bool} (k : Kind) (hk : p k = true) (h : Adds T inner B r (.oneOf [k]) A) :
  Adds T inner B r (.one p) fun _ => True
  := (h.mono (Layout.language_oneOf_le (List.forall_mem_singleton.mpr hk))).forget

/-- Where nothing can be ahead, there is nothing to show. -/
theorem absurd (h : ∀ a, ¬ B a) :
  Adds T inner B r l A
  := fun s hs => (h s.look hs).elim

theorem pass :
  Adds T inner B .pass .nothing B
  := fun _ hs hlaid => ⟨hlaid.added, hs⟩

theorem pass_maybe (l : Layout) :
  Adds T inner B .pass l.maybe B
  := Adds.pass.mono (Layout.language_nothing_le_maybe l)

theorem andThen (h : Adds T inner B r l M) (h' : Adds T inner M r' l' A) :
  Adds T inner B (r >> r') (l >> l') A
  := by
  intro s hs hlaid
  obtain ⟨hadded, hlook⟩ := h s hs hlaid
  obtain ⟨hadded', hlook'⟩ := h' _ hlook hadded.laidOut
  use hadded.andThen hadded', hlook'

/-- A token that is known to come next is taken. -/
theorem take (choice : List Kind) (h : ∀ a, B a → ∃ k, a.first = some k ∧ .token k ∈ choice) :
  Adds T inner B .take (.oneOf choice) fun a' => ∃ a, B a ∧ a'.first = a.second
  := by
  intro s hs hlaid
  obtain ⟨k, hk, hmem⟩ := h s.look hs
  constructor
  · exact ⟨State.Shaped.take hlaid, _, Layout.mem_oneOf.mpr ⟨_, hmem, rfl⟩, State.partKinds_take hk⟩
  · use s.look, hs, State.look_first_take s

/-- A token of some kinds that comes next is taken. -/
theorem takeAny {p : TokenKind → Bool} {choice : List Kind} (h : ∀ a, B a → a.isAny p = true)
    (hp : ∀ k, p k = true → .token k ∈ choice) :
  Adds T inner B .take (.oneOf choice) fun a' => ∃ a, B a ∧ a'.first = a.second
  := by
  apply Adds.take
  intro a ha
  obtain ⟨k, hk, hpk⟩ := (Option.any_eq_true _ _).mp (h a ha)
  use k, hk, hp k hpk

theorem takeAt {k : TokenKind} (h : ∀ a, B a → a.isAt k = true) :
  Adds T inner B .take (.token k) fun a' => ∃ a, B a ∧ a'.first = a.second
  := by
  apply Adds.take
  intro a ha
  have hfirst := h a ha
  rw [Lookahead.isAt, decide_eq_true_eq] at hfirst
  use k, hfirst, List.mem_singleton_self _

theorem report {cause : Option TokenKind → Cause} :
  Adds T inner B (.report cause) .nothing B
  := fun _ hs (hlaid : State.LaidOut T _) =>
    ⟨⟨hlaid, [], rfl, (List.append_nil _).symm⟩, hs⟩

theorem report_maybe {cause : Option TokenKind → Cause} (l : Layout) :
  Adds T inner B (.report cause) l.maybe B
  := Adds.report.mono (Layout.language_nothing_le_maybe l)

/-- A fault that is noted adds nothing. -/
theorem reported {cause : Option TokenKind → Cause} (h : Adds T inner B r l A) :
  Adds T inner B (.report cause >> r) l A
  := (Adds.report.andThen h).mono (le_of_eq (one_mul _))

theorem branch (hyes : Adds T inner (fun a => B a ∧ test a = true) r l A)
    (hno : Adds T inner (fun a => B a ∧ test a = false) r' l A) :
  Adds T inner B (.branch test r r') l A
  := by
  intro s hs hlaid
  cases htest : test s.look with
  | true =>
    rw [run_branch_true htest]
    apply hyes s ⟨hs, htest⟩ hlaid
  | false =>
    rw [run_branch_false htest]
    apply hno s ⟨hs, htest⟩ hlaid

theorem when (h : Adds T inner (fun a => B a ∧ test a = true) r l A) :
  Adds T inner B (.when test r) l.maybe fun _ => True
  := .branch h.maybe.forget (.forget (.pass_maybe l))

theorem whenNot (h : Adds T inner (fun a => B a ∧ test a = false) r l.maybe A) :
  Adds T inner B (.whenNot test r) l.maybe fun _ => True
  := .branch (.forget (.pass_maybe l)) h.forget

theorem accept {k : TokenKind} :
  Adds T inner B (.accept k) (.maybe (.token k)) fun _ => True
  := .when (.takeAt fun _ ha => ha.2)

theorem expect {k : TokenKind} :
  Adds T inner B (.expect k) (.maybe (.token k)) fun _ => True
  := .branch (Adds.takeAt fun _ ha => ha.2).maybe.forget (.forget (.report_maybe _))

/-- A token that is expected and comes next is taken. -/
theorem expectAt {k : TokenKind} (h : ∀ a, B a → a.isAt k = true) :
  Adds T inner B (.expect k) (.token k) fun _ => True
  := by
  apply Adds.branch
  · apply (Adds.takeAt fun _ ha => ha.2).forget
  · apply Adds.absurd
    rintro a ⟨ha, hk⟩
    rw [h a ha] at hk
    contradiction

/-- A node adds one part, if the parts that it is made of are as its layout describes. -/
theorem node {kind : NodeKind} (h : Adds T inner B r (T kind) A) :
  Adds T inner B (.node kind r) (.node kind) A
  := by
  intro s hs hlaid
  have hopened : B (s.flush.withOut []).look := by rwa [State.look_withOut, State.look_flush]
  obtain ⟨hadded, hlook⟩ := h _ hopened (State.shaped_opened _)
  use hlaid.within hadded.laidOut hadded.partKinds_mem, hlook

theorem loop (h : Adds T inner (test · = true) r l A) :
  Adds T inner B (.loop test r) (.many l) fun _ => True
  := by
  intro s hs hlaid
  clear hs
  refine ⟨?_, trivial⟩
  rw [run]
  fun_induction State.repeatWhile test (r.run inner) s with
  | case1 s htest next hlt ih =>
    have hadded := (h s htest hlaid).1
    apply (hadded.andThen (ih hadded.laidOut)).mono
    apply mul_kstar_le_kstar (a := l.language)
  | case2 s htest next hlt =>
    apply (h s htest hlaid).1.mono
    apply le_kstar (a := l.language)
  | case3 s htest =>
    apply hlaid.added.mono
    apply one_le_kstar (a := l.language)

theorem unlessTaken (h : Adds T inner B r l A)
    (h' : Adds T inner (fun _ => True) r' l'.maybe A') :
  Adds T inner B (.unlessTaken r r') (l >> l'.maybe) fun _ => True
  := by
  intro s hs hlaid
  refine ⟨?_, trivial⟩
  have hadded := (h s hs hlaid).1
  simp only [run, State.unlessTaken]
  split
  · apply hadded.andThen (h' _ trivial hadded.laidOut).1
  · apply hadded.andThen (hadded.laidOut.added.mono (Layout.language_nothing_le_maybe l'))

/-! ### Lists -/

section

variable (herror : Layout.tokens.language ≤ (T .error).language)

include herror

/-- The next token, whatever it is, makes an error node. -/
theorem errorNode (h : ∀ a, B a → a.first ≠ none) :
  Adds T inner B (.node .error .take) (.node .error) fun _ => True
  := by
  apply Adds.node
  intro s hs hlaid
  obtain ⟨k, hk⟩ := Option.ne_none_iff_exists'.mp (h s.look hs)
  have hmem : [Kind.token k] ∈ Layout.tokens.language :=
    Layout.mem_tokens.mpr ⟨List.cons_ne_nil _ _, List.forall_mem_singleton.mpr rfl⟩
  exact ⟨⟨State.Shaped.take hlaid, _, herror hmem, State.partKinds_take hk⟩, trivial⟩

theorem reject {cause : Cause} :
  Adds T inner B (.reject cause) (.maybe (.node .error)) fun _ => True
  := .reported (.whenNot (Adds.errorNode herror fun _ ha => of_decide_eq_false ha.2).maybe)

/-- Where a token is ahead, a rejection puts it into an error node. -/
theorem rejectAt {cause : Cause} (h : ∀ a, B a → a.first ≠ none) :
  Adds T inner B (.reject cause) (.node .error) fun _ => True
  := by
  apply Adds.reported
  apply Adds.branch _ (Adds.errorNode herror fun a ha => h a ha.1)
  apply Adds.absurd
  rintro a ⟨ha, hend⟩
  apply h a ha (of_decide_eq_true hend)

theorem orReject {cause : Cause} (h : Adds T inner B r l A) :
  Adds T inner B (r.orReject cause) (l >> .maybe (.node .error)) fun _ => True
  := h.unlessTaken (Adds.reject herror)

end

theorem many {closing : TokenKind} (h : Adds T inner (fun _ => True) r l A) :
  Adds T inner B (.many closing r) (.many l) fun _ => True
  := (h.before fun _ _ => trivial).loop

theorem commaSeparated {closing : TokenKind} (h : Adds T inner (fun _ => True) r l A) :
  Adds T inner B (.commaSeparated closing r) (.commaList l) fun _ => True
  := by
  have hmore : Adds T inner (fun _ => True)
      (.loop (·.isAt .comma) (.take >> .when (·.isBefore closing) r))
      (.many (.token .comma >> .maybe l)) fun _ => True :=
    .loop ((Adds.takeAt fun _ ha => ha).forget.andThen (.when (h.before fun _ _ => trivial)))
  apply Adds.when ((h.before fun _ _ => trivial).forget.andThen hmore)

end Adds

/-! ### Groups that grow -/

/-- What is added to an empty group is all of it. -/
theorem Adds.grows (h : Adds T inner B r l A) :
  Grows T inner B r .nothing l
  := by
  intro s hs hlaid hparts
  obtain ⟨ks, hks, heq⟩ := (h s hs hlaid).1.parts
  use (h s hs hlaid).1.laidOut
  rw [heq, Layout.mem_nothing.mp hparts, List.nil_append]
  apply hks

namespace Grows

theorem mono (h : Grows T inner B r l m) (hm : m.language ≤ l'.language) :
  Grows T inner B r l l'
  := by
  intro s hs hlaid hparts
  obtain ⟨hlaid', hparts'⟩ := h s hs hlaid hparts
  use hlaid', hm hparts'

theorem as {p : Kind → Bool} (k : Kind) (hk : p k = true) (h : Grows T inner B r l (.oneOf [k])) :
  Grows T inner B r l (.one p)
  := h.mono (Layout.language_oneOf_le (List.forall_mem_singleton.mpr hk))

theorem maybe (h : Grows T inner B r l m) :
  Grows T inner B r l m.maybe
  := h.mono (Layout.language_le_maybe m)

theorem andThen (h : Grows T inner B r l m) (h' : Grows T inner (fun _ => True) r' m l') :
  Grows T inner B (r >> r') l l'
  := by
  intro s hs hlaid hparts
  obtain ⟨hlaid', hparts'⟩ := h s hs hlaid hparts
  apply h' _ trivial hlaid' hparts'

theorem branch (hyes : Grows T inner (fun a => B a ∧ test a = true) r l m)
    (hno : Grows T inner (fun a => B a ∧ test a = false) r' l m) :
  Grows T inner B (.branch test r r') l m
  := by
  intro s hs hlaid hparts
  cases htest : test s.look with
  | true =>
    rw [run_branch_true htest]
    apply hyes s ⟨hs, htest⟩ hlaid hparts
  | false =>
    rw [run_branch_false htest]
    apply hno s ⟨hs, htest⟩ hlaid hparts

theorem loop (h : Grows T inner (test · = true) r l l) :
  Grows T inner B (.loop test r) l l
  := by
  intro s hs hlaid hparts
  clear hs
  rw [run]
  fun_induction State.repeatWhile test (r.run inner) s with
  | case1 s htest next hlt ih =>
    obtain ⟨hlaid', hparts'⟩ := h s htest hlaid hparts
    apply ih hlaid' hparts'
  | case2 s htest next hlt => apply h s htest hlaid hparts
  | case3 s htest => use hlaid, hparts

/-- A node takes up all parts of the group, and then it is the only one. -/
theorem wrap {kind : NodeKind} (h : Adds T inner B r m A) (hT : T kind = (l >> m)) :
  Grows T inner B (.wrap kind r) l (.node kind)
  := by
  intro s hs hlaid hparts
  have hadded := (h s hs hlaid).1
  obtain ⟨ks, hks, heq⟩ := hadded.parts
  constructor
  · apply State.Shaped.wrap hadded.laidOut
    have hmem := Language.append_mem_mul hparts hks
    rw [← heq] at hmem
    rw [Layout.Fits, hT]
    apply hmem
  · apply Layout.mem_node.mpr rfl

end Grows

/-- A group that is read apart adds the parts that it grows to. -/
theorem Adds.apart (h : Grows T inner B r .nothing l) :
  Adds T inner B (.apart r) l fun _ => True
  := by
  intro s hs hlaid
  have hopened : B (s.flush.withOut []).look := by rwa [State.look_withOut, State.look_flush]
  obtain ⟨hlaid', hparts⟩ := h _ hopened (State.shaped_opened _) rfl
  refine ⟨⟨State.Shaped.apart hlaid hlaid', _, hparts, ?_⟩, trivial⟩
  apply State.partKinds_apart

end Rule

/-- If rules add the parts of their symbols when the symbols in them do, then so do the symbols,
however deep they may nest. -/
theorem Grammar.adds_read {σ : Type} {T : NodeKind → Layout} {g : Grammar σ} {L : σ → Layout}
    (herror : Layout.tokens.language ≤ (T .error).language)
    (hskip : ∀ symbol, (Layout.maybe (.node .error)).language ≤ (L symbol).language)
    (hg : ∀ {inner : σ → State → State},
      (∀ symbol, Rule.Adds T inner (fun _ => True) (.nested symbol) (L symbol) fun _ => True) →
      ∀ symbol, Rule.Adds T inner (fun _ => True) (g symbol) (L symbol) fun _ => True)
    (levels : Nat) (symbol : σ) :
  Rule.Adds T (g.read levels) (fun _ => True) (.nested symbol) (L symbol) fun _ => True
  := by
  induction levels generalizing symbol with
  | zero =>
    intro s _ hlaid
    have hreport : (s.report fun _ => .nestedTooDeep).LaidOut T := hlaid
    have hadded := (hreport.skipLevel herror).mono (hskip symbol)
    exact ⟨⟨hadded.laidOut, hadded.parts⟩, trivial⟩
  | succ levels ih => apply hg ih symbol

end InlayHints

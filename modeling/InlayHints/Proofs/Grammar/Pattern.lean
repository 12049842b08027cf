import InlayHints.Proofs.Grammar.Reading

/-!
# Patterns and derivations

A pattern is the right side of a production: it describes words of tokens by sequence, choice,
option and repetition, and the trees of the words by `Pattern.node`, which groups the trees
of what is inside.  `Pattern.Derives` says which words a pattern derives, and which trees,
when every phrase stands for the pattern that `G` gives it.

`Pattern.Spans` is the same for two bare states: the tokens taken from one to the other are a
word of the pattern, and the trees added are its trees.  Spans of a compound pattern are
chains of spans of its parts.  `Pattern.starts` computes the kinds of token a word can start
with from a table for the phrases, which `Pattern.Derives.starts` justifies, and `Pattern.ends`
those it can end with (`Pattern.Derives.ends`).
-/

namespace InlayHints

open Relation

/-- Descriptions of sequences of tokens, where `φ` are the names of phrases. -/
inductive Pattern (φ : Type) where
  /-- The empty word. -/
  | nothing
  /-- One token of one of the given kinds. -/
  | oneOf (kinds : List TokenKind)
  /-- What the name of a phrase stands for. -/
  | phrase (name : φ)
  /-- One thing after the other. -/
  | seq (first second : Pattern φ)
  /-- One of two things. -/
  | either (left right : Pattern φ)
  /-- Something that may be missing. -/
  | maybe (body : Pattern φ)
  /-- Any number of things, one after the other. -/
  | many (body : Pattern φ)
  /-- A node over the trees of the body. -/
  | node (kind : NodeKind) (body : Pattern φ)

namespace Pattern

variable {φ : Type}

instance : AndThen (Pattern φ) := ⟨fun first second => .seq first (second ())⟩

instance : OrElse (Pattern φ) := ⟨fun left right => .either left (right ())⟩

/-- One token of the given kind. -/
def token (kind : TokenKind) : Pattern φ := oneOf [kind]

/-- What may follow a thing in a list: more things, each with a comma before it, and maybe a
comma at the end. -/
def moreItems (item : Pattern φ) : Pattern φ :=
  many (token .comma >> item) >> maybe (token .comma)

/-- Things with commas between them, and maybe one after the last. -/
def commaList (item : Pattern φ) : Pattern φ := maybe (item >> moreItems item)

/-- The words a pattern derives and the trees of them, when a phrase stands for the pattern
that `G` gives it. -/
inductive Derives (G : φ → Pattern φ) : Pattern φ → List Token → List Tree → Prop where
  | nothing : Derives G .nothing [] []
  | oneOf {t : Token} {ks} : t.kind ∈ ks → Derives G (.oneOf ks) [t] [.token t]
  | phrase {name w ts} : Derives G (G name) w ts → Derives G (.phrase name) w ts
  | seq {p q w x ts us} :
    Derives G p w ts → Derives G q x us → Derives G (.seq p q) (w ++ x) (ts ++ us)
  | left {p q w ts} : Derives G p w ts → Derives G (.either p q) w ts
  | right {p q w ts} : Derives G q w ts → Derives G (.either p q) w ts
  | missing {p} : Derives G (.maybe p) [] []
  | present {p w ts} : Derives G p w ts → Derives G (.maybe p) w ts
  | none {p} : Derives G (.many p) [] []
  | more {p w x ts us} :
    Derives G p w ts → Derives G (.many p) x us → Derives G (.many p) (w ++ x) (ts ++ us)
  | node {k p w ts} : Derives G p w ts → Derives G (.node k p) w [.node k ts]

/-- From `b` to `c` a word of a pattern was taken and its trees were added. -/
def Spans (G : φ → Pattern φ) (p : Pattern φ) (b c : Bare) : Prop :=
  ∃ w ts, p.Derives G w ts ∧ b.ahead = w ++ c.ahead ∧ c.out = ts.reverse ++ b.out

variable {G : φ → Pattern φ} {b c : Bare}

theorem spans_nothing :
  nothing.Spans G b c ↔ c = b
  := by
  constructor
  · rintro ⟨w, ts, ⟨⟩, hahead, hout⟩
    apply Bare.ext hahead.symm hout
  · rintro rfl
    use [], [], .nothing
    simp

theorem spans_oneOf {ks : List TokenKind} :
  (oneOf ks).Spans G b c
    ↔ ∃ t, t.kind ∈ ks ∧ b.ahead = t :: c.ahead ∧ c.out = .token t :: b.out
  := by
  constructor
  · rintro ⟨w, ts, h, hahead, hout⟩
    cases h with
    | @oneOf t _ ht => use t, ht, hahead, hout
  · rintro ⟨t, ht, hahead, hout⟩
    use [t], [.token t], .oneOf ht, hahead, hout

theorem spans_phrase {name : φ} :
  (phrase name).Spans G b c ↔ (G name).Spans G b c
  := by
  constructor
  · rintro ⟨w, ts, ⟨h⟩, hahead, hout⟩
    use w, ts, by assumption, hahead, hout
  · rintro ⟨w, ts, h, hahead, hout⟩
    use w, ts, .phrase h, hahead, hout

theorem spans_seq {p q : Pattern φ} :
  (p >> q).Spans G b c ↔ ∃ d, p.Spans G b d ∧ q.Spans G d c
  := by
  constructor
  · rintro ⟨w, ts, h, hahead, hout⟩
    cases h with
    | @seq _ _ w x ts us hp hq =>
      use ⟨x ++ c.ahead, ts.reverse ++ b.out⟩
      constructor
      · use w, ts, hp
        simpa using hahead
      · use x, us, hq, rfl
        simpa using hout
  · rintro ⟨d, ⟨w, ts, hp, hahead, hout⟩, ⟨x, us, hq, hahead', hout'⟩⟩
    use w ++ x, ts ++ us, .seq hp hq
    constructor
    · rw [hahead, hahead', List.append_assoc]
    · rw [hout', hout]
      simp

theorem spans_either {p q : Pattern φ} :
  (p <|> q).Spans G b c ↔ p.Spans G b c ∨ q.Spans G b c
  := by
  constructor
  · rintro ⟨w, ts, h, hahead, hout⟩
    cases h with
    | left h => apply Or.inl ⟨w, ts, h, hahead, hout⟩
    | right h => apply Or.inr ⟨w, ts, h, hahead, hout⟩
  · rintro (⟨w, ts, h, hahead, hout⟩ | ⟨w, ts, h, hahead, hout⟩)
    · use w, ts, .left h, hahead, hout
    · use w, ts, .right h, hahead, hout

theorem spans_maybe {p : Pattern φ} :
  (maybe p).Spans G b c ↔ c = b ∨ p.Spans G b c
  := by
  constructor
  · rintro ⟨w, ts, h, hahead, hout⟩
    cases h with
    | missing => apply Or.inl (Bare.ext hahead.symm hout)
    | present h => apply Or.inr ⟨w, ts, h, hahead, hout⟩
  · rintro (rfl | ⟨w, ts, h, hahead, hout⟩)
    · use [], [], .missing
      simp
    · use w, ts, .present h, hahead, hout

theorem spans_node {k : NodeKind} {p : Pattern φ} :
  (node k p).Spans G b c
    ↔ ∃ d, p.Spans G b.opened d ∧ c = ⟨d.ahead, .node k d.out.reverse :: b.out⟩
  := by
  constructor
  · rintro ⟨w, ts, h, hahead, hout⟩
    cases h with
    | @node _ _ _ ts h =>
      use ⟨c.ahead, ts.reverse⟩
      constructor
      · use w, ts, h, hahead
        simp [Bare.opened]
      · apply Bare.ext
        · rfl
        · simpa using hout
  · rintro ⟨d, ⟨w, ts, h, hahead, hout⟩, rfl⟩
    use w, [.node k ts], .node h, hahead
    simp [hout, Bare.opened]

theorem spans_many {p : Pattern φ} :
  (many p).Spans G b c ↔ ReflTransGen (p.Spans G) b c
  := by
  constructor
  · rintro ⟨w, ts, h, hahead, hout⟩
    generalize hq : many p = q at h
    induction h generalizing b with
    | none =>
      obtain rfl : c = b := Bare.ext hahead.symm hout
      apply ReflTransGen.refl
    | @more p' w x ts us h _ _ ih =>
      obtain rfl : p = p' := by simpa using hq
      apply ReflTransGen.head (b := ⟨x ++ c.ahead, ts.reverse ++ b.out⟩)
      · use w, ts, h
        simpa using hahead
      · apply ih rfl _ rfl
        simpa using hout
    | _ => contradiction
  · intro h
    induction h using ReflTransGen.head_induction_on with
    | refl =>
      use [], [], .none
      simp
    | @head b d h _ ih =>
      obtain ⟨w, ts, h, hahead, hout⟩ := h
      obtain ⟨x, us, hmany, hahead', hout'⟩ := ih
      use w ++ x, ts ++ us, .more h hmany
      constructor
      · rw [hahead, hahead', List.append_assoc]
      · rw [hout', hout]
        simp

theorem spans_seq_assoc {p q r : Pattern φ} :
  ((p >> q) >> r).Spans G b c ↔ (p >> q >> r).Spans G b c
  := by
  simp only [spans_seq]
  constructor
  · rintro ⟨e, ⟨d, hp, hq⟩, hr⟩
    use d, hp, e
  · rintro ⟨d, hp, e, hq, hr⟩
    use e, ⟨d, hp, hq⟩

/-- One of two kinds of token. -/
theorem spans_oneOf_pair {k k' : TokenKind} :
  (oneOf [k, k']).Spans G b c ↔ (token k <|> token k').Spans G b c
  := by
  rw [spans_either, token, token]
  simp only [spans_oneOf, List.mem_cons, List.not_mem_nil, or_false]
  constructor
  · rintro ⟨t, ht | ht, h⟩
    · apply Or.inl ⟨t, ht, h⟩
    · apply Or.inr ⟨t, ht, h⟩
  · rintro (⟨t, ht, h⟩ | ⟨t, ht, h⟩)
    · use t, Or.inl ht
    · use t, Or.inr ht

/-- What is in the group already has no part in a span. -/
theorem spans_iff_opened {p : Pattern φ} :
  p.Spans G b c ↔ ∃ d, p.Spans G b.opened d ∧ c = ⟨d.ahead, d.out ++ b.out⟩
  := by
  constructor
  · rintro ⟨w, ts, h, hahead, hout⟩
    use ⟨c.ahead, ts.reverse⟩
    constructor
    · use w, ts, h, hahead
      simp [Bare.opened]
    · apply Bare.ext
      · rfl
      · apply hout
  · rintro ⟨d, ⟨w, ts, h, hahead, hout⟩, rfl⟩
    use w, ts, h, hahead
    simp [hout, Bare.opened]

/-- Where a token of kind `k` was taken, it is ahead. -/
theorem Spans.isAt_of_token {k : TokenKind} (h : (token k).Spans G b c) :
  b.look.isAt k = true
  := by
  obtain ⟨t, ht, hahead, -⟩ := spans_oneOf.mp h
  rw [List.mem_singleton] at ht
  simp [Lookahead.isAt, Bare.look, hahead, Lookahead.ofTokens, ht]

/-- Where one token was taken, the second token ahead comes next. -/
theorem Spans.look_second {ks : List TokenKind} (h : (oneOf ks).Spans G b c) :
  c.look.first = b.look.second
  := by
  obtain ⟨t, -, hahead, -⟩ := spans_oneOf.mp h
  rw [Bare.look, Bare.look, hahead]
  cases c.ahead with
  | nil => rfl
  | cons u us => rfl

/-- Where two tokens were taken, they are ahead. -/
theorem Spans.look_both {k k' : TokenKind} (h : (token k >> token k').Spans G b c) :
  b.look.isAt k = true ∧ b.look.second = some k'
  := by
  obtain ⟨d, hd, hc⟩ := spans_seq.mp h
  use hd.isAt_of_token
  rw [← hd.look_second]
  simpa [Lookahead.isAt] using hc.isAt_of_token

theorem moreItems_of_maybe {p : Pattern φ} (h : (maybe (token .comma)).Spans G b c) :
  (moreItems p).Spans G b c
  := spans_seq.mpr ⟨b, spans_many.mpr .refl, h⟩

theorem moreItems_head {p : Pattern φ} {d e : Bare} (hcomma : (token .comma).Spans G b c)
    (hitem : p.Spans G c d) (h : (moreItems p).Spans G d e) :
  (moreItems p).Spans G b e
  := by
  obtain ⟨f, hmany, hmaybe⟩ := spans_seq.mp h
  apply spans_seq.mpr ⟨f, _, hmaybe⟩
  apply spans_many.mpr
  apply ReflTransGen.head (spans_seq.mpr ⟨c, hcomma, hitem⟩) (spans_many.mp hmany)

/-- After an item a comma comes, or what comes after the list. -/
theorem isAt_or_eq_of_moreItems {p : Pattern φ} (h : (moreItems p).Spans G b c) :
  b.look.isAt .comma = true ∨ b = c
  := by
  obtain ⟨d, hmany, hmaybe⟩ := spans_seq.mp h
  rcases ReflTransGen.cases_head (spans_many.mp hmany) with rfl | ⟨e, hitem, -⟩
  · rcases spans_maybe.mp hmaybe with rfl | hcomma
    · apply Or.inr rfl
    · apply Or.inl hcomma.isAt_of_token
  · obtain ⟨f, hcomma, -⟩ := spans_seq.mp hitem
    apply Or.inl hcomma.isAt_of_token

/-! ### First tokens -/

/-- Whether a pattern may derive the empty word, when no phrase does. -/
def nullable : Pattern φ → Bool
  | .nothing => true
  | .oneOf _ => false
  | .phrase _ => false
  | .seq p q => p.nullable && q.nullable
  | .either p q => p.nullable || q.nullable
  | .maybe _ => true
  | .many _ => true
  | .node _ p => p.nullable

/-- The kinds of token that the words of a pattern may start with, when the words of a phrase
start with the kinds that `F` gives it. -/
def starts (F : φ → List TokenKind) : Pattern φ → List TokenKind
  | .nothing => []
  | .oneOf ks => ks
  | .phrase name => F name
  | .seq p q => p.starts F ++ if p.nullable then q.starts F else []
  | .either p q => p.starts F ++ q.starts F
  | .maybe p => p.starts F
  | .many p => p.starts F
  | .node _ p => p.starts F

/-- The table `F` is right about the phrases if it is about the patterns they stand for. -/
def StartsTable (G : φ → Pattern φ) (F : φ → List TokenKind) : Prop :=
  ∀ name, (G name).nullable = false ∧ ∀ k ∈ (G name).starts F, k ∈ F name

/-- A word that is not empty starts with one of the computed kinds. -/
theorem Derives.starts {F : φ → List TokenKind} (hF : StartsTable G F) {p : Pattern φ}
    {w : List Token} {ts : List Tree} (h : p.Derives G w ts) :
  w = [] ∧ p.nullable = true ∨ ∃ t x, w = t :: x ∧ t.kind ∈ p.starts F
  := by
  induction h with
  | nothing => simp [nullable]
  | oneOf ht => simpa [Pattern.starts] using ht
  | @phrase name w ts h ih =>
    obtain ⟨hnullable, hstarts⟩ := hF name
    rcases ih with ⟨-, hnull⟩ | ⟨t, x, rfl, ht⟩
    · rw [hnullable] at hnull
      contradiction
    · apply Or.inr ⟨t, x, rfl, hstarts _ ht⟩
  | seq hp hq ihp ihq =>
    rcases ihp with ⟨rfl, hnull⟩ | ⟨t, x, rfl, ht⟩
    · rcases ihq with ⟨rfl, hnull'⟩ | ⟨t, x, rfl, ht⟩
      · apply Or.inl
        simp [nullable, hnull, hnull']
      · simp [Pattern.starts, hnull, ht]
    · simp [Pattern.starts, ht]
  | left h ih =>
    rcases ih with ⟨rfl, hnull⟩ | ⟨t, x, rfl, ht⟩
    · simp [nullable, hnull]
    · simp [Pattern.starts, ht]
  | right h ih =>
    rcases ih with ⟨rfl, hnull⟩ | ⟨t, x, rfl, ht⟩
    · simp [nullable, hnull]
    · simp [Pattern.starts, ht]
  | missing => simp [nullable]
  | present h ih =>
    rcases ih with ⟨rfl, hnull⟩ | ⟨t, x, rfl, ht⟩
    · simp [nullable]
    · simp [Pattern.starts, ht]
  | none => simp [nullable]
  | more hp hmany ihp ihmany =>
    rcases ihp with ⟨rfl, hnull⟩ | ⟨t, x, rfl, ht⟩
    · apply ihmany
    · simp [Pattern.starts, ht]
  | node h ih => apply ih

/-- Where a span starts, one of the computed kinds is ahead. -/
theorem Spans.look_first {F : φ → List TokenKind} (hF : StartsTable G F) {p : Pattern φ}
    (hp : p.nullable = false) (h : p.Spans G b c) :
  ∃ k ∈ p.starts F, b.look.first = some k
  := by
  obtain ⟨w, ts, h, hahead, -⟩ := h
  rcases h.starts hF with ⟨-, hnull⟩ | ⟨t, x, rfl, ht⟩
  · rw [hp] at hnull
    contradiction
  · use t.kind, ht
    simp [Bare.look, hahead, Lookahead.ofTokens]

/-- A span of a pattern that does not derive the empty word takes a token. -/
theorem Spans.length_lt {F : φ → List TokenKind} (hF : StartsTable G F) {p : Pattern φ}
    (hp : p.nullable = false) (h : p.Spans G b c) :
  c.ahead.length < b.ahead.length
  := by
  obtain ⟨w, ts, h, hahead, -⟩ := h
  rcases h.starts hF with ⟨-, hnull⟩ | ⟨t, x, rfl, ht⟩
  · rw [hp] at hnull
    contradiction
  · rw [hahead, List.length_append, List.length_cons]
    omega

/-! ### Last tokens -/

/-- The kinds of token that the words of a pattern may end with, when the words of a phrase end
with the kinds that `E` gives it. -/
def ends (E : φ → List TokenKind) : Pattern φ → List TokenKind
  | .nothing => []
  | .oneOf ks => ks
  | .phrase name => E name
  | .seq p q => q.ends E ++ if q.nullable then p.ends E else []
  | .either p q => p.ends E ++ q.ends E
  | .maybe p => p.ends E
  | .many p => p.ends E
  | .node _ p => p.ends E

/-- The table `E` is right about the phrases if it is about the patterns they stand for. -/
def EndsTable (G : φ → Pattern φ) (E : φ → List TokenKind) : Prop :=
  ∀ name, ∀ k ∈ (G name).ends E, k ∈ E name

/-- A word that is not empty ends with one of the computed kinds. -/
theorem Derives.ends {F E : φ → List TokenKind} (hF : StartsTable G F) (hE : EndsTable G E)
    {p : Pattern φ} {w : List Token} {ts : List Tree} (h : p.Derives G w ts) :
  ∀ t ∈ w.getLast?, t.kind ∈ p.ends E
  := by
  induction h with
  | nothing => nofun
  | oneOf ht =>
    rintro t ⟨⟩
    apply ht
  | phrase h ih =>
    intro t ht
    apply hE _ _ (ih t ht)
  | seq hp hq ihp ihq =>
    intro t ht
    rcases hq.starts hF with ⟨rfl, hnull⟩ | ⟨u, x, rfl, -⟩
    · rw [List.append_nil] at ht
      simp [Pattern.ends, hnull, ihp t ht]
    · rw [List.getLast?_append, List.getLast?_cons, Option.some_or, ← List.getLast?_cons] at ht
      apply List.mem_append_left _ (ihq t ht)
  | left h ih =>
    intro t ht
    apply List.mem_append_left _ (ih t ht)
  | right h ih =>
    intro t ht
    apply List.mem_append_right _ (ih t ht)
  | missing => nofun
  | present h ih => apply ih
  | none => nofun
  | more hp hmany ihp ihmany =>
    intro t ht
    rw [List.getLast?_append, Option.mem_def, Option.or_eq_some_iff] at ht
    rcases ht with ht | ⟨-, ht⟩
    · apply ihmany t ht
    · apply ihp t ht
  | node h ih => apply ih

/-! ### Left recursion -/

/-- From `d` to `c` the whole group became a node together with what follows it, in one of the
given ways. -/
def Grows (G : φ → Pattern φ) (ways : List (NodeKind × Pattern φ)) (d c : Bare) : Prop :=
  ∃ way ∈ ways, ∃ e, way.2.Spans G d e ∧ c = ⟨e.ahead, [.node way.1 e.out.reverse]⟩

/-- A phrase that is either `base` or a node of itself and one of some tails is `base` that
grows by these tails. -/
theorem spans_leftRecursive {F : φ → List TokenKind} (hF : StartsTable G F) {name : φ}
    {base : Pattern φ} {ways : List (NodeKind × Pattern φ)}
    (hways : ∀ way ∈ ways, way.2.nullable = false)
    (hname : ∀ {b c}, (phrase name).Spans G b c ↔ base.Spans G b c
      ∨ ∃ way ∈ ways, (node way.1 (phrase name >> way.2)).Spans G b c)
    (hb : b.out = []) :
  (phrase name).Spans G b c ↔ ∃ d, base.Spans G b d ∧ ReflTransGen (Grows G ways) d c
  := by
  have hopened : b.opened = b := Bare.ext rfl hb.symm
  constructor
  · intro h
    -- by induction on the number of tokens: the phrase inside a node ends before a tail
    induction hn : b.ahead.length - c.ahead.length using Nat.strong_induction_on
      generalizing c with
    | _ n ih =>
      rcases hname.mp h with hbase | ⟨way, hway, hnode⟩
      · use c, hbase
      · obtain ⟨e, he, rfl⟩ := spans_node.mp hnode
        obtain ⟨d, hd, htail⟩ := spans_seq.mp he
        rw [hopened] at hd
        have hde := htail.length_lt hF (hways way hway)
        have hbd := hd.length_lt hF rfl
        have hn : b.ahead.length - e.ahead.length = n := hn
        obtain ⟨d₀, hbase, hgrows⟩ := ih _ (by omega) hd rfl
        use d₀, hbase
        apply hgrows.tail
        use way, hway, e, htail
        rw [hb]
  · rintro ⟨d, hbase, hgrows⟩
    induction hgrows with
    | refl => apply hname.mpr (Or.inl hbase)
    | tail _ hstep ih =>
      obtain ⟨way, hway, e, htail, rfl⟩ := hstep
      apply hname.mpr
      apply Or.inr
      use way, hway
      rw [spans_node, hopened, hb]
      use e
      constructor
      · apply spans_seq.mpr ⟨_, ih, htail⟩
      · rfl

end Pattern

end InlayHints

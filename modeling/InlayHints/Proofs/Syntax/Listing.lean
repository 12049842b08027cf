import InlayHints.Proofs.Syntax.Composition
import InlayHints.Proofs.Syntax.Reconstruction
import InlayHints.Proofs.Syntax.Token.Spacing

/-!
# Lists in parentheses

`Tree.listed` is a list in parentheses with a separator between each two of its items.  Its text is
made of the texts of the items, its tokens keep apart if those of the items do (`spaced_listed`),
without trivia it is a list of the items without trivia (`sift_listed`), and a rule for lists reads
it if the rule for items reads each of them (`reads_listed`), and only then (`readBy_of_listed`).
-/

namespace InlayHints

open Relation Rule Construct

open Token (Spaced)

def Token.comma : Token := ⟨.comma, ","⟩

namespace Tree

/-- Trees that each have a separator before them. -/
def followers (sep : List Token) (ts : List Tree) : List Tree :=
  ts.flatMap fun t => sep.map .token ++ [t]

/-- Trees with a separator between each two of them. -/
def separated (sep : List Token) : List Tree → List Tree
  | [] => []
  | t :: ts => t :: followers sep ts

/-- A list in parentheses. -/
def listed (sep : List Token) (kind : NodeKind) (ts : List Tree) : Tree :=
  .node kind (.token ⟨.lParen, "("⟩ :: (separated sep ts ++ [.token ⟨.rParen, ")"⟩]))

variable {sep : List Token} {ts : List Tree}

theorem followers_cons (sep : List Token) (t : Tree) (ts : List Tree) :
  followers sep (t :: ts) = sep.map .token ++ t :: followers sep ts
  := by
  rw [followers, List.flatMap_cons, List.append_assoc]
  rfl

theorem tokens_followers (sep : List Token) (t : Tree) (ts : List Tree) (rest : List Token) :
  (followers sep (t :: ts)).flatMap tokens ++ rest
    = sep ++ (t.tokens ++ ((followers sep ts).flatMap tokens ++ rest))
  := by
  simp [followers_cons, List.flatMap_map]

theorem tokens_listed (sep : List Token) (kind : NodeKind) (ts : List Tree) (rest : List Token) :
  (listed sep kind ts).tokens ++ rest
    = ⟨.lParen, "("⟩ :: ((separated sep ts).flatMap tokens ++ ⟨.rParen, ")"⟩ :: rest)
  := by
  simp [listed]

/-! ### Items -/

theorem mem_separated {c : Tree} (h : c ∈ separated sep ts) :
  c ∈ ts ∨ ∃ t, c = .token t
  := by
  cases ts with
  | nil => contradiction
  | cons t ts =>
    rcases List.mem_cons.mp h with rfl | h
    · exact Or.inl List.mem_cons_self
    · obtain ⟨u, hu, h⟩ := List.mem_flatMap.mp h
      rcases List.mem_append.mp h with h | h
      · obtain ⟨v, -, rfl⟩ := List.mem_map.mp h
        exact Or.inr ⟨v, rfl⟩
      · rw [List.mem_singleton.mp h]
        exact Or.inl (List.mem_cons_of_mem _ hu)

/-- The children of a list in parentheses are its items and tokens. -/
theorem forall_listed {P : Tree → Prop} (htoken : ∀ t, P (.token t)) (hts : ∀ t ∈ ts, P t)
    (sep : List Token) (kind : NodeKind) :
  ∀ c ∈ (listed sep kind ts).children, P c
  := by
  intro c hc
  simp only [listed, children, List.mem_cons, List.mem_append, List.not_mem_nil, or_false] at hc
  rcases hc with rfl | hc | rfl
  · apply htoken
  · rcases mem_separated hc with hc | ⟨t, rfl⟩
    · apply hts c hc
    · apply htoken
  · apply htoken

/-- The items of a list are picked from its children by a test that no token passes. -/
theorem filter_listed {q : Tree → Bool} (htoken : ∀ t, q (.token t) = false)
    (hts : ∀ t ∈ ts, q t = true) (sep : List Token) (kind : NodeKind) :
  (listed sep kind ts).children.filter q = ts
  := by
  have hsep : (sep.map Tree.token).filter q = [] := by simp [htoken]
  have hfollowers {us : List Tree} (hus : ∀ u ∈ us, q u = true) :
      (followers sep us).filter q = us := by
    induction us with
    | nil => rfl
    | cons u us ih =>
      rw [List.forall_mem_cons] at hus
      rw [followers_cons, List.filter_append, hsep, List.nil_append,
        List.filter_cons_of_pos hus.1, ih hus.2]
  have hseparated : (separated sep ts).filter q = ts := by
    cases ts with
    | nil => rfl
    | cons t ts =>
      rw [List.forall_mem_cons] at hts
      rw [separated, List.filter_cons_of_pos hts.1, hfollowers hts.2]
  rw [listed, children, List.filter_cons_of_neg (by simp [htoken]), List.filter_append, hseparated,
    List.filter_cons_of_neg (by simp [htoken]), List.filter_nil, List.append_nil]

/-! ### Texts -/

theorem text_token (t : Token) :
  (token t).text = t.text
  := by
  rw [← String.toList_inj, toList_text, tokens_token, List.flatMap_singleton]

/-- The text of a node is made of the texts of its children. -/
theorem toList_text_node (kind : NodeKind) (cs : List Tree) :
  (node kind cs).text.toList = cs.flatMap (·.text.toList)
  := by
  simp only [toList_text, tokens_node, List.flatMap_assoc]

theorem toList_separated (ts : List Tree) :
  (separated [.comma, .blank] ts).flatMap (·.text.toList)
    = (", ".intercalate (ts.map text)).toList
  := by
  rw [String.toList_intercalate, List.map_map]
  cases ts with
  | nil => rfl
  | cons t ts =>
    rw [separated, List.flatMap_cons]
    induction ts generalizing t with
    | nil => simp [followers]
    | cons u ts ih =>
      have hsep : ([.comma, .blank].map Tree.token).flatMap (·.text.toList) = ", ".toList := by
        rw [List.flatMap_map]
        simp only [text_token]
        rfl
      rw [followers_cons, List.flatMap_append, hsep, List.flatMap_cons, ih u, List.map_cons,
        List.map_cons, List.map_cons, List.intercalate_cons_cons, List.append_assoc]
      rfl

/-- The text of a list with commas. -/
theorem toList_listed (kind : NodeKind) (ts : List Tree) :
  (listed [.comma, .blank] kind ts).text.toList
    = ("(" ++ ", ".intercalate (ts.map text) ++ ")").toList
  := by
  rw [listed, toList_text_node, List.flatMap_cons, List.flatMap_append, toList_separated]
  simp [text_token]

/-! ### Tokens next to each other -/

/-- A tree does not start with trivia, and its tokens keep apart, also from what follows them if
this does not start with a name or keyword. -/
structure KeepsApart (t : Tree) : Prop where
  first : ∃ u us, t.tokens = u :: us ∧ u.isTrivia = false
  spaced : ∀ {rest}, Spaced rest → (∀ u ∈ rest.head?, u.kind.isWord = false) →
    Spaced (t.tokens ++ rest)

section

variable {rest : List Token}

/-- A comma with a blank behind it keeps the items before and behind it apart. -/
theorem spaced_followers {t : Tree} (ht : t.KeepsApart) (hts : ∀ t ∈ ts, t.KeepsApart)
    (hrest : Spaced rest) (hnext : ∀ u ∈ rest.head?, u.kind.isWord = false) :
  Spaced (t.tokens ++ ((followers [.comma, .blank] ts).flatMap tokens ++ rest))
  := by
  induction ts generalizing t with
  | nil => apply ht.spaced hrest hnext
  | cons u us ih =>
    rw [List.forall_mem_cons] at hts
    obtain ⟨v, vs, htokens, hv⟩ := hts.1.first
    have hblank : Spaced (.blank :: (u.tokens
        ++ ((followers [.comma, .blank] us).flatMap tokens ++ rest))) := by
      apply Spaced.blank _ (ih hts.1 hts.2)
      rw [htokens]
      rintro _ ⟨⟩
      apply hv
    rw [tokens_followers]
    apply ht.spaced (Spaced.mark (by decide) hblank)
    rintro _ ⟨⟩
    rfl

theorem spaced_listed (hts : ∀ t ∈ ts, t.KeepsApart) (hrest : Spaced rest) (kind : NodeKind) :
  Spaced ((listed [.comma, .blank] kind ts).tokens ++ rest)
  := by
  have hclose : Spaced (⟨.rParen, ")"⟩ :: rest) := Spaced.mark (by decide) hrest
  rw [tokens_listed]
  apply Spaced.mark (by decide)
  cases ts with
  | nil => apply hclose
  | cons t ts =>
    rw [List.forall_mem_cons] at hts
    rw [separated, List.flatMap_cons, List.append_assoc]
    apply spaced_followers hts.1 hts.2 hclose
    rintro _ ⟨⟩
    rfl

end

/-! ### Without trivia -/

theorem siftAll_separated (sep : List Token) (h : ∀ t ∈ ts, t.isTrivia = false) :
  siftAll (separated sep ts) = separated (Token.significant sep) (ts.map sift)
  := by
  cases ts with
  | nil => rfl
  | cons t ts =>
    rw [List.forall_mem_cons] at h
    rw [separated, siftAll_cons_of_isTrivia h.1, List.map_cons, separated, List.cons.injEq]
    use rfl
    have hts := h.2
    clear h
    induction ts with
    | nil => rfl
    | cons u ts ih =>
      rw [List.forall_mem_cons] at hts
      rw [followers_cons, siftAll_append, siftAll_map, siftAll_cons_of_isTrivia hts.1, ih hts.2,
        List.map_cons, followers_cons]

theorem sift_listed (sep : List Token) (kind : NodeKind) (h : ∀ t ∈ ts, t.isTrivia = false) :
  (listed sep kind ts).sift = listed (Token.significant sep) kind (ts.map sift)
  := by
  rw [listed, sift_node, siftAll_cons_token rfl, siftAll_append, siftAll_separated sep h,
    siftAll_cons_token rfl, siftAll_nil]
  rfl

end Tree

/-! ### Reading -/

/-- What comes next ends an item of a list or the type of a function. -/
def EndsItem (rest : List Token) : Prop :=
  ∃ t ts, rest = t :: ts ∧ (t.kind = .comma ∨ t.kind = .rParen ∨ t.kind = .lBrace)

/-- A tree is read by a rule from its tokens, and these do not start with a closing parenthesis. -/
structure Tree.ReadBy (R : Symbol → Bare → Bare → Prop) (r : Rule Symbol) (t : Tree) : Prop where
  first : ∃ u us, t.tokens = u :: us ∧ u.kind ≠ .rParen
  reads : ∀ rest out, EndsItem rest → r.Reads R ⟨t.tokens ++ rest, out⟩ ⟨rest, t :: out⟩

section

variable {R : Symbol → Bare → Bare → Prop} {item : Rule Symbol} {t : Tree} {ts : List Tree}

theorem Tree.ReadBy.orReject (h : t.ReadBy R item) (cause : Cause) :
  t.ReadBy R (item.orReject cause)
  where
  first := h.first
  reads rest out hrest := by
    use h.reads rest out hrest
    obtain ⟨u, us, htokens, -⟩ := h.first
    simp only [htokens, List.length_append, List.length_cons]
    omega

theorem Tree.isBefore_of_tokens (h : ∃ u us, t.tokens = u :: us ∧ u.kind ≠ .rParen)
    (rest : List Token) (out : List Tree) :
  (Bare.mk (t.tokens ++ rest) out).look.isBefore .rParen = true
  := by
  obtain ⟨u, us, htokens, hu⟩ := h
  simp [Bare.look, htokens, Lookahead.ofTokens, Lookahead.isBefore, Lookahead.isAt,
    Lookahead.atEnd, hu]

theorem endsItem_close (rest : List Token) :
  EndsItem (⟨.rParen, ")"⟩ :: rest)
  := ⟨_, _, rfl, Or.inr (Or.inl rfl)⟩

theorem endsItem_followers (ts : List Tree) (rest : List Token) :
  EndsItem ((Tree.followers [.comma] ts).flatMap Tree.tokens ++ ⟨.rParen, ")"⟩ :: rest)
  := by
  cases ts with
  | nil => apply endsItem_close
  | cons t ts => exact ⟨_, _, Tree.tokens_followers _ t ts _, Or.inl rfl⟩

/-- The items behind the first one are read round by round, each with the comma before it. -/
theorem reads_followers (hts : ∀ t ∈ ts, t.ReadBy R item) (rest : List Token)
    (out : List Tree) :
  ReflTransGen (fun b c => b.look.isAt .comma = true
      ∧ (take >> when (·.isBefore .rParen) item).Reads R b c)
    ⟨(Tree.followers [.comma] ts).flatMap Tree.tokens ++ ⟨.rParen, ")"⟩ :: rest, out⟩
    ⟨⟨.rParen, ")"⟩ :: rest, (Tree.followers [.comma] ts).reverse ++ out⟩
  := by
  induction ts generalizing out with
  | nil => apply ReflTransGen.refl
  | cons t ts ih =>
    rw [List.forall_mem_cons] at hts
    have hout : (Tree.followers [.comma] (t :: ts)).reverse ++ out
        = (Tree.followers [.comma] ts).reverse ++ t :: .token .comma :: out := by
      simp [Tree.followers_cons]
    rw [Tree.tokens_followers, hout]
    apply ReflTransGen.head ⟨rfl, _, rfl, _⟩ (ih hts.2 (t :: .token .comma :: out))
    apply (reads_branch_of_true (Tree.isBefore_of_tokens hts.1.first _ _)).mpr
    apply hts.1.reads _ _ (endsItem_followers ts rest)

/-- Items with commas between them are read up to the closing parenthesis. -/
theorem reads_separated (hts : ∀ t ∈ ts, t.ReadBy R item) (rest : List Token) (out : List Tree) :
  (commaSeparated .rParen item).Reads R
    ⟨(Tree.separated [.comma] ts).flatMap Tree.tokens ++ ⟨.rParen, ")"⟩ :: rest, out⟩
    ⟨⟨.rParen, ")"⟩ :: rest, (Tree.separated [.comma] ts).reverse ++ out⟩
  := by
  cases ts with
  | nil =>
    apply (reads_branch_of_false rfl).mpr
    rfl
  | cons t ts =>
    rw [List.forall_mem_cons] at hts
    rw [Tree.separated, List.flatMap_cons, List.append_assoc, List.reverse_cons,
      List.append_assoc]
    apply (reads_branch_of_true (Tree.isBefore_of_tokens hts.1.first _ _)).mpr
    exact ⟨_, hts.1.reads _ _ (endsItem_followers ts rest), reads_followers hts.2 rest (t :: out),
      rfl⟩

/-- A list in parentheses is read if its items are. -/
theorem reads_listed (hts : ∀ t ∈ ts, t.ReadBy R item) (kind : NodeKind) (rest : List Token)
    (out : List Tree) :
  (node kind (expect .lParen >> commaSeparated .rParen item >> expect .rParen)).Reads R
    ⟨(Tree.listed [.comma] kind ts).tokens ++ rest, out⟩
    ⟨rest, Tree.listed [.comma] kind ts :: out⟩
  := by
  rw [Tree.tokens_listed]
  use ⟨rest, .token ⟨.rParen, ")"⟩
    :: ((Tree.separated [.comma] ts).reverse ++ [.token ⟨.lParen, "("⟩])⟩
  constructor
  · refine ⟨_, (reads_branch_of_true rfl).mpr rfl, _, reads_separated hts rest _, ?_⟩
    apply (reads_branch_of_true rfl).mpr
    rfl
  · simp [Tree.listed]

/-! ### Items that a list needs -/

/-- A tree is read by a rule if anything is read from its tokens. -/
structure Tree.OnlyReadBy (R : Symbol → Bare → Bare → Prop) (r : Rule Symbol) (t : Tree) :
    Prop where
  first : ∃ u us, t.tokens = u :: us ∧ u.kind ≠ .rParen
  readBy : ∀ {rest out c}, EndsItem rest → r.Reads R ⟨t.tokens ++ rest, out⟩ c → t.ReadBy R r

theorem Tree.OnlyReadBy.orReject (h : t.OnlyReadBy R item) (cause : Cause) :
  t.OnlyReadBy R (item.orReject cause)
  where
  first := h.first
  readBy hrest hreads := (h.readBy hrest hreads.1).orReject cause

variable {rest : List Token} {out : List Tree} {c : Bare}
variable (hR : ∀ symbol, Relator.RightUnique (R symbol)) (hts : ∀ t ∈ ts, t.OnlyReadBy R item)

include hR hts

theorem readBy_of_followers
    (h : (loop (·.isAt .comma) (take >> when (·.isBefore .rParen) item)).Reads R
      ⟨(Tree.followers [.comma] ts).flatMap Tree.tokens ++ ⟨.rParen, ")"⟩ :: rest, out⟩ c) :
  ∀ t ∈ ts, t.ReadBy R item
  := by
  obtain ⟨hrounds, hstop⟩ := h
  induction ts generalizing out with
  | nil => apply List.forall_mem_nil
  | cons t ts ih =>
    rw [List.forall_mem_cons] at hts ⊢
    rw [Tree.tokens_followers] at hrounds
    rcases hrounds.cases_head with rfl | ⟨d, ⟨-, e, he, hround⟩, hrounds⟩
    · contradiction
    obtain rfl : e = ⟨t.tokens ++ _, .token .comma :: out⟩ := he
    replace hround := (reads_branch_of_true (Tree.isBefore_of_tokens hts.1.first _ _)).mp hround
    have hend := endsItem_followers ts rest
    have ht := hts.1.readBy hend hround
    obtain rfl := rightUnique_reads hR item hround (ht.reads _ _ hend)
    exact ⟨ht, ih hts.2 hrounds⟩

/-- If a list is read, all its items are. -/
theorem readBy_of_listed {kind : NodeKind}
    (h : (node kind (expect .lParen >> commaSeparated .rParen item >> expect .rParen)).Reads R
      ⟨(Tree.listed [.comma] kind ts).tokens ++ rest, out⟩ c) :
  ∀ t ∈ ts, t.ReadBy R item
  := by
  rw [Tree.tokens_listed] at h
  obtain ⟨_, ⟨d, hopen, e, hitems, -⟩, -⟩ := h
  obtain rfl : d = _ := (reads_branch_of_true rfl).mp hopen
  cases ts with
  | nil => apply List.forall_mem_nil
  | cons t ts =>
    rw [List.forall_mem_cons] at hts ⊢
    have hend := endsItem_followers ts rest
    have hstart (rest : List Token) (out : List Tree) := Tree.isBefore_of_tokens hts.1.first rest out
    rw [Tree.separated, List.flatMap_cons, List.append_assoc] at hitems
    obtain ⟨d, hitem, hfollowers⟩ := (reads_branch_of_true (hstart _ _)).mp hitems
    have ht := hts.1.readBy hend hitem
    obtain rfl := rightUnique_reads hR item hitem (ht.reads _ _ hend)
    exact ⟨ht, readBy_of_followers hR hts.2 hfollowers⟩

end

end InlayHints

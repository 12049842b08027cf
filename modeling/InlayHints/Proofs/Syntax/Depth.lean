import Mathlib
import InlayHints.Syntax.SourceFile
import InlayHints.Proofs.Grammar.Nesting
import InlayHints.Proofs.Syntax.Composition
import InlayHints.Proofs.Syntax.Site.Placement
import InlayHints.Proofs.Syntax.Token.Spacing

/-!
# How deep sites lie

In the tree of any text, the nodes around a site are bounded in number by the limit of nesting,
apart from links that took up as a whole what the site is in (`SourceFile.depth_le_add_links`).
Of these there may be any number, since calls, field accesses and binary operators are read by
loops: a name with more and more field accesses gives trees that are deeper and deeper, as far as
texts are read (`SourceFile.depth_unbounded`).
-/

namespace InlayHints

/-! ### Depth but for links -/

/-- Whether the way to the root goes from the first child of a link to the link. -/
def Frame.isLink (f : Frame) : Bool := f.kind.isLink && f.before.isEmpty

namespace Site

variable {s e : Site} {limit n : Nat}

/-- How many of the nodes around a site are links that took up as a whole what it is in. -/
def links (s : Site) : Nat := s.path.countP Frame.isLink

/-- A site and all sites below it lie at most `limit` deep, but for links. -/
def LiesWithin (limit : Nat) (s : Site) : Prop :=
  ∃ n, s.tree.NestsWithin n ∧ s.depth + n ≤ limit + s.links

/-- One step down leads to a tree that nests less deep or to the first child of a link. -/
theorem LiesWithin.element (h : s.LiesWithin limit) (he : e ∈ s.elements) :
  e.LiesWithin limit
  := by
  obtain ⟨n, hnests, hle⟩ := h
  obtain ⟨kind, before, after, htree, -, hpath⟩ := exists_of_mem_elements he
  have hdepth : e.depth = s.depth + 1 := by rw [depth, depth, hpath, List.length_cons]
  have hlinks : e.links = s.links + if Frame.isLink ⟨kind, before, after⟩ then 1 else 0 := by
    rw [links, links, hpath, List.countP_cons]
  rw [htree] at hnests
  generalize hcs : before.reverse ++ e.tree :: after = cs at hnests
  cases hnests with
  | @node n _ _ children =>
    use n
    constructor
    · apply children
      rw [← hcs]
      apply List.mem_append_right _ List.mem_cons_self
    · omega
  | @link n _ first others hlink hfirst hothers =>
    rcases List.append_eq_cons_iff.mp hcs with ⟨hbefore, hcons⟩ | ⟨before', hbefore, hothers_eq⟩
    · obtain ⟨rfl, -⟩ := List.cons.inj hcons
      have hlink : Frame.isLink ⟨kind, before, after⟩ = true := by
        rw [Frame.isLink, hlink, List.reverse_eq_nil_iff.mp hbefore]
        rfl
      rw [if_pos hlink] at hlinks
      use n + 1, hfirst
      omega
    · use n
      constructor
      · apply hothers
        rw [hothers_eq]
        apply List.mem_append_right _ List.mem_cons_self
      · omega

end Site

namespace Construct

/-- How much deeper a level of nesting makes trees: a container has functions in it, these have
lists of parameters, and a list has parameters in it; and the container may lead a chain. -/
def heightLimit : Nat := 5

theorem leads_read (levels : Nat) (symbol : Symbol) {lead n : Nat} {s : State}
    (hn : heightLimit * levels + 1 ≤ n) (h : s.Leads lead n) :
  (grammar.read levels symbol s).Leads lead n
  := by
  apply Grammar.leads_read _ levels symbol hn h
  intro symbol
  cases symbol with
  | expression power => exact ⟨rfl, rfl, of_decide_eq_true rfl⟩
  | operand => exact ⟨rfl, rfl, of_decide_eq_true rfl⟩
  | block => exact ⟨rfl, rfl, of_decide_eq_true rfl⟩

end Construct

open Construct

/-- How deep the tree of any text nests at most, but for links. -/
def depthLimit : Nat := heightLimit * nestingLimit + 5

theorem Parse.nestsWithin_ofTokens (ts : List Token) :
  (ofTokens ts).tree.NestsWithin depthLimit
  := by
  have hstart : (State.start ts).Leads (depthLimit - 1) (depthLimit - 1) :=
    ⟨[], none, rfl, List.forall_mem_nil _, nofun⟩
  have hfile := (Rule.leads_run (fun symbol _ _ _ => leads_read nestingLimit symbol)
    (r := file) rfl (by decide) (Or.inl rfl) hstart).flush
  apply Tree.NestsWithin.node
  intro c hc
  apply hfile.forall_within (Nat.le_refl _) c (List.mem_reverse.mp hc)

theorem Parse.nestsWithin_ofText (text : String) :
  (ofText text).tree.NestsWithin depthLimit
  := by
  obtain ⟨ts, htree⟩ := exists_tokens text
  rw [htree]
  apply nestsWithin_ofTokens

/-- In the tree of any text, a site is not deeper than a fixed limit, but for the links that took
up as a whole what it is in. -/
theorem SourceFile.depth_le_add_links (text : String) :
  ∀ s ∈ (ofText text).root.descendants, s.depth ≤ depthLimit + s.links
  := by
  intro s hs
  have hroot : (ofText text).root.LiesWithin depthLimit := by
    use depthLimit, Parse.nestsWithin_ofText text
    rw [Site.depth, root, Site.root, List.length_nil]
    omega
  obtain ⟨n, -, hle⟩ := Site.forall_descendants Site.LiesWithin.element hroot s hs
  omega

/-- The name that a field is accessed of is deep inside a link. -/
theorem SourceFile.depth_le_add_links_access :
  ∃ s ∈ (ofText "a.a;").root.descendants,
    s.depth = 4 ∧ s.links = 1 ∧ s.depth ≤ depthLimit + s.links
  := by
  have hfound : ((ofText "a.a;").root.descendants.any fun s =>
      s.depth = 4 && s.links = 1) = true := by
    cbv
  obtain ⟨s, hs, hfound⟩ := List.any_eq_true.mp hfound
  rw [Bool.and_eq_true, decide_eq_true_eq, decide_eq_true_eq] at hfound
  use s, hs, hfound.1, hfound.2
  apply depth_le_add_links "a.a;" s hs

/-! ### Any depth -/

namespace Tree

/-- From a tree one can go down to children `n` times. -/
inductive Reaches : Nat → Tree → Prop where
  | zero (t : Tree) : Reaches 0 t
  | succ {n : Nat} {kind : NodeKind} {c : Tree} {cs : List Tree} (hc : c ∈ cs)
    (h : Reaches n c) : Reaches (n + 1) (.node kind cs)

/-- A tree is as deep as it is without trivia. -/
theorem reaches_of_sift {n : Nat} {t : Tree} (h : t.sift.Reaches n) :
  t.Reaches n
  := by
  induction t using induct generalizing n with
  | token t => rwa [sift_token] at h
  | node k cs ih =>
    rw [sift_node] at h
    cases h with
    | zero => apply Reaches.zero
    | succ hc h =>
      rw [siftAll, List.mem_filter, List.mem_map] at hc
      obtain ⟨⟨c, hc, rfl⟩, -⟩ := hc
      apply Reaches.succ hc (ih c hc h)

end Tree

theorem Site.exists_depth_eq {s : Site} {n : Nat} (h : s.tree.Reaches n) :
  ∃ d ∈ s.descendants, d.depth = s.depth + n
  := by
  induction n generalizing s with
  | zero =>
    use s
    rw [descendants_eq]
    use List.mem_cons_self
    rfl
  | succ n ih =>
    generalize htree : s.tree = t at h
    cases h with
    | @succ _ kind c cs hc h =>
      have hmem : c ∈ s.elements.map tree := by
        rw [map_tree_elements, htree]
        apply hc
      obtain ⟨e, he, rfl⟩ := List.mem_map.mp hmem
      obtain ⟨d, hd, hdepth⟩ := ih h
      obtain ⟨_, _, _, -, -, hpath⟩ := exists_of_mem_elements he
      use d
      rw [descendants_eq]
      use List.mem_cons_of_mem s (List.mem_flatMap.mpr ⟨e, he, hd⟩)
      rw [hdepth, depth, depth, hpath, List.length_cons]
      omega

namespace Access

open Relation Rule Token

/-- A name. -/
def name : Token := ⟨.ident, "a"⟩

def dot : Token := ⟨.dot, "."⟩

def semicolon : Token := ⟨.semicolon, ";"⟩

/-- Field accesses one after the other, `n` of them, and the end of the statement. -/
def tail : Nat → List Token
  | 0 => [semicolon]
  | n + 1 => dot :: name :: tail n

/-- The text of `n` field accesses and the end of the statement. -/
def tailText : Nat → String
  | 0 => ";"
  | n + 1 => ".a" ++ tailText n

/-- The text of a name with `n` field accesses. -/
def text (n : Nat) : String := "a" ++ tailText n

/-- The tree of a name with `n` field accesses. -/
def tree : Nat → Tree
  | 0 => .node .nameRef [.token name]
  | n + 1 => .node .fieldExpr [tree n, .token dot, .token name]

theorem toList_text (n : Nat) :
  (text n).toList = (name :: tail n).flatMap (·.text.toList)
  := by
  have htail : (tailText n).toList = (tail n).flatMap (·.text.toList) := by
    induction n with
    | zero => rfl
    | succ n ih =>
      rw [tailText, String.toList_append, ih]
      rfl
  rw [text, String.toList_append, htail]
  rfl

theorem utf8ByteSize_text (n : Nat) :
  (text n).utf8ByteSize = 2 * n + 2
  := by
  have htail : (tailText n).utf8ByteSize = 2 * n + 1 := by
    induction n with
    | zero => rfl
    | succ n ih =>
      have htwo : ".a".utf8ByteSize = 2 := rfl
      rw [tailText, String.utf8ByteSize_append, ih, htwo]
      omega
  have hone : "a".utf8ByteSize = 1 := rfl
  rw [text, String.utf8ByteSize_append, htail, hone]
  omega

theorem spaced_name {ts : List Token} (h : Spaced ts)
    (hnext : ∀ u ∈ ts.head?, u.kind.isWord = false) :
  Spaced (name :: ts)
  := by
  apply Spaced.word _ rfl hnext h
  apply Lexer.mem_ident_of_all rfl

theorem isWord_tail (n : Nat) :
  ∀ u ∈ (tail n).head?, u.kind.isWord = false
  := by
  cases n with
  | zero =>
    rintro _ ⟨⟩
    rfl
  | succ n =>
    rintro _ ⟨⟩
    rfl

theorem spaced_tail (n : Nat) :
  Spaced (tail n)
  := by
  induction n with
  | zero => apply Spaced.mark rfl Spaced.nil
  | succ n ih => apply Spaced.mark rfl (spaced_name ih (isWord_tail n))

theorem significant_tail (n : Nat) :
  significant (tail n) = tail n
  := by
  induction n with
  | zero => rfl
  | succ n ih =>
    have hcons : significant (tail (n + 1)) = dot :: name :: significant (tail n) := rfl
    rw [hcons, ih, tail]

theorem significant_text {n : Nat} (h : (text n).utf8ByteSize ≤ countLimit) :
  significant (lex (text n)) = name :: tail n
  := by
  have hspaced : Spaced (name :: tail n) := spaced_name (spaced_tail n) (isWord_tail n)
  have hcons : significant (name :: tail n) = name :: significant (tail n) := rfl
  rw [lex_eq_pieces h, hspaced.pieces_eq (toList_text n), hcons, significant_tail]

theorem reaches_tree (n : Nat) :
  (tree n).Reaches (n + 1)
  := by
  induction n with
  | zero => apply Tree.Reaches.succ List.mem_cons_self (Tree.Reaches.zero _)
  | succ n ih => apply Tree.Reaches.succ List.mem_cons_self ih

variable {R : Symbol → Bare → Bare → Prop}

/-- Every field access makes one node of all that was read of the chain. -/
theorem rounds_tail (n m : Nat) :
  ReflTransGen (fun b c => continues b.look = true
      ∧ (branch (·.isAt .lParen) (wrap .callExpr argumentList)
          (wrap .fieldExpr (take >> take))).Reads R b c)
    ⟨tail n, [tree m]⟩ ⟨[semicolon], [tree (m + n)]⟩
  := by
  induction n generalizing m with
  | zero => apply ReflTransGen.refl
  | succ n ih =>
    have hrest := ih (m + 1)
    rw [Nat.add_right_comm] at hrest
    apply ReflTransGen.head _ hrest
    constructor
    · rfl
    · apply (reads_branch_of_false rfl).mpr
      exact ⟨_, ⟨_, rfl, rfl⟩, rfl⟩

theorem reads_chain (n : Nat) (out : List Tree) :
  chain.Reads R ⟨name :: tail n, out⟩ ⟨[semicolon], tree n :: out⟩
  := by
  have hprimary : primary.Reads R ⟨name :: tail n, []⟩ ⟨tail n, [tree 0]⟩ := by
    apply (reads_branch_of_true rfl).mpr
    exact ⟨_, rfl, rfl⟩
  have hrounds := rounds_tail (R := R) n 0
  rw [Nat.zero_add] at hrounds
  refine ⟨⟨[semicolon], [tree n]⟩, ?_, rfl⟩
  apply (reads_branch_of_false rfl).mpr
  exact ⟨_, hprimary, hrounds, rfl⟩

theorem reads_expression (levels n : Nat) (out : List Tree) :
  grammar.Reads (levels + 2) (.expression 0) ⟨name :: tail n, out⟩ ⟨[semicolon], tree n :: out⟩
  := by
  have hoperand : grammar.Reads (levels + 1) .operand ⟨name :: tail n, []⟩
      ⟨[semicolon], [tree n]⟩ := by
    apply (reads_branch_of_false rfl).mpr
    apply (reads_branch_of_false rfl).mpr
    apply reads_chain
  exact ⟨⟨[semicolon], [tree n]⟩, ⟨_, hoperand, ReflTransGen.refl, rfl⟩, rfl⟩

theorem reads_file (levels n : Nat) :
  file.Reads (grammar.Reads (levels + 2)) ⟨name :: tail n, []⟩
    ⟨[], [.node .exprStmt [tree n, .token semicolon]]⟩
  := by
  have hstatement : item.Reads (grammar.Reads (levels + 2)) ⟨name :: tail n, []⟩
      ⟨[], [.node .exprStmt [tree n, .token semicolon]]⟩ := by
    apply (reads_branch_of_false rfl).mpr
    apply (reads_branch_of_false rfl).mpr
    apply (reads_branch_of_true rfl).mpr
    refine ⟨⟨[], [.token semicolon, tree n]⟩, ⟨_, reads_expression levels n [], ?_⟩, rfl⟩
    apply (reads_branch_of_true rfl).mpr
    rfl
  refine ⟨ReflTransGen.single ⟨rfl, hstatement, ?_⟩, rfl⟩
  apply Nat.succ_pos

/-- A name with `n` field accesses is read as a statement, without faults. -/
theorem ofText_text {n : Nat} (h : (text n).utf8ByteSize ≤ countLimit) :
  (Parse.ofText (text n)).faults = []
    ∧ (Parse.ofText (text n)).tree.sift
      = .node .sourceFile [.node .exprStmt [tree n, .token semicolon]]
  := by
  have hstart : (State.start (lex (text n))).bare = ⟨name :: tail n, []⟩ :=
    congrArg (Bare.mk · []) (significant_text h)
  have hreads := reads_file (nestingLimit - 2) n
  rw [← hstart] at hreads
  obtain ⟨hbare, hfaults⟩ := delimited_grammar.run_of_reads delimited_grammar.read_of_reads
    productive_file hreads
  have hlimit : nestingLimit = nestingLimit - 2 + 2 := rfl
  rw [Parse.ofText_of_le h]
  constructor
  · apply List.reverse_eq_nil_iff.mpr hfaults
  · rw [Parse.sift_ofTokens, Parse.bare_finalState, hlimit, hbare]
    rfl

end Access

/-- A name with `n` field accesses, in a text that is not too long, has no faults and a token at
depth `n + 3`. -/
theorem SourceFile.exists_depth_access {n : Nat} (h : (Access.text n).utf8ByteSize ≤ countLimit) :
  (ofText (Access.text n)).parse.faults = []
    ∧ ∃ s ∈ (ofText (Access.text n)).root.descendants, s.depth = n + 3
  := by
  obtain ⟨hfaults, hsift⟩ := Access.ofText_text h
  use hfaults
  have hreaches : (ofText (Access.text n)).root.tree.Reaches (n + 1 + 1 + 1) := by
    apply Tree.reaches_of_sift
    rw [root, Site.root, ofText, hsift]
    apply Tree.Reaches.succ List.mem_cons_self
    apply Tree.Reaches.succ List.mem_cons_self (Access.reaches_tree n)
  obtain ⟨s, hs, hdepth⟩ := Site.exists_depth_eq hreaches
  use s, hs
  rw [hdepth, Site.depth, root, Site.root, List.length_nil, Nat.zero_add]

/-- The limit of nesting does not limit depth: 3000 field accesses go deeper than all that is
nested, and however many there are in a text that is not too long, each makes the tree deeper. -/
theorem SourceFile.depth_unbounded :
  ((Access.text 3000).utf8ByteSize = 6002
      ∧ (ofText (Access.text 3000)).parse.faults = []
      ∧ ∃ s ∈ (ofText (Access.text 3000)).root.descendants, s.depth = 3003)
    ∧ ∀ n, (Access.text n).utf8ByteSize ≤ countLimit →
      (ofText (Access.text n)).parse.faults = []
        ∧ ∃ s ∈ (ofText (Access.text n)).root.descendants, s.depth = n + 3
  := by
  have hsize : (Access.text 3000).utf8ByteSize = 6002 := Access.utf8ByteSize_text 3000
  refine ⟨⟨hsize, ?_⟩, fun n => exists_depth_access⟩
  apply exists_depth_access (n := 3000)
  rw [hsize]
  decide

end InlayHints

import InlayHints.Proofs.Grammar.Bare
import InlayHints.Proofs.Syntax.Acceptance
import InlayHints.Proofs.Syntax.Boundary

/-!
# Trees from their significant parts

Where trivia goes in a tree is not open: if all nodes start and end with significant tokens, then
a tree is known from its tokens and from what is left of it without trivia
(`Tree.eq_of_siftAll`).  So the tree of tokens that are read without faults is the tree that has
these tokens and this significant part (`Parse.ofTokens_eq`).
-/

namespace InlayHints

namespace Token

/-- Of two pieces that start at one place, and end with significant tokens, the longer one has more
significant tokens. -/
theorem eq_nil_of_significant {ts us : List Token} (h : EndsSignificant (ts ++ us))
    (hsignificant : significant (ts ++ us) = significant ts) :
  us = []
  := by
  rw [significant_append, List.append_right_eq_self, significant_eq_nil] at hsignificant
  obtain ⟨t, ht, htrivia⟩ := h
  by_contra hne
  rw [Option.mem_def, List.getLast?_append_of_ne_nil _ hne] at ht
  rw [hsignificant t (List.mem_of_getLast? ht)] at htrivia
  contradiction

/-- A piece that ends with a significant token is known from where it starts and from its
significant tokens. -/
theorem eq_of_append_eq {ts us ts' us' : List Token} (h : ts ++ ts' = us ++ us')
    (hsignificant : significant ts = significant us) (hts : EndsSignificant ts)
    (hus : EndsSignificant us) :
  ts = us
  := by
  rcases List.append_eq_append_iff.mp h with ⟨vs, rfl, -⟩ | ⟨vs, rfl, -⟩
  · rw [eq_nil_of_significant hus hsignificant.symm, List.append_nil]
  · rw [eq_nil_of_significant hts hsignificant, List.append_nil]

end Token

namespace Tree

/-- The significant tokens of trees are the tokens that are left without trivia, if this is so for
each tree that is no trivia itself. -/
theorem flatMap_tokens_siftAll {cs : List Tree}
    (h : ∀ c ∈ cs, c.isTrivia = false → c.sift.tokens = Token.significant c.tokens) :
  (siftAll cs).flatMap tokens = Token.significant (cs.flatMap tokens)
  := by
  induction cs with
  | nil => rfl
  | cons c cs ih =>
    rw [List.forall_mem_cons] at h
    rw [List.flatMap_cons, Token.significant_append, ← ih h.2]
    cases c with
    | token t =>
      cases htrivia : t.isTrivia with
      | true => simp [siftAll, isTrivia, Token.significant, htrivia]
      | false => simp [siftAll_cons_token htrivia, Token.significant, htrivia]
    | node kind ds =>
      have hnode := h.1 rfl
      rw [sift_node] at hnode
      rw [siftAll_cons_node, List.flatMap_cons, hnode]

theorem tokens_sift {t : Tree} (h : t.isTrivia = false) :
  t.sift.tokens = Token.significant t.tokens
  := by
  induction t using induct with
  | token t =>
    have htrivia : t.isTrivia = false := h
    simp [Token.significant, htrivia]
  | node kind cs ih => rw [sift_node, tokens_node, tokens_node, flatMap_tokens_siftAll ih]

/-- If one node is left without trivia, and neither the first nor the last token is trivia, then
there was nothing but the node. -/
theorem eq_singleton_of_siftAll {ds : List Tree} {kind : NodeKind} {cs : List Tree}
    (hsift : siftAll ds = [node kind cs])
    (hfirst : ∀ t ∈ (ds.flatMap tokens).head?, t.isTrivia = false)
    (hlast : Token.EndsSignificant (ds.flatMap tokens)) :
  ∃ es, ds = [node kind es]
  := by
  match ds with
  | [] => contradiction
  | .token t :: ds =>
    have htrivia : t.isTrivia = false := by
      apply hfirst t
      rw [List.flatMap_cons, tokens_token]
      rfl
    rw [siftAll_cons_token htrivia] at hsift
    nomatch (List.cons.inj hsift).1
  | .node k es :: ds =>
    rw [siftAll_cons_node] at hsift
    obtain ⟨hnode, hnil⟩ := List.cons.inj hsift
    obtain rfl := (Tree.node.inj hnode).1
    rw [List.flatMap_cons] at hlast
    have hsignificant : Token.significant (ds.flatMap tokens) = [] := by
      rw [← flatMap_tokens_siftAll fun _ _ => tokens_sift, hnil]
      rfl
    have htokens : ds.flatMap tokens = [] := by
      apply Token.eq_nil_of_significant hlast
      rw [Token.significant_append, hsignificant, List.append_nil]
    match ds with
    | [] => exact ⟨es, rfl⟩
    | .token t :: ds => simp at htokens
    | .node k' es' :: ds => simp at hnil

/-- All nodes in a tree start and end with significant tokens. -/
def Solid (t : Tree) : Prop :=
  t.Shaped fun kind cs => StartsSignificant kind cs ∧ EndsSignificant kind cs

theorem solid_token (t : Token) :
  (token t).Solid
  := .token t

theorem solid_of_shaped {t : Tree} (hstarts : t.Shaped StartsSignificant)
    (hends : t.Shaped EndsSignificant) :
  t.Solid
  := by
  induction t using induct with
  | token t => apply solid_token
  | node kind cs ih =>
    cases hstarts with
    | node hfirst hcs =>
      cases hends with
      | node hlast hcs' =>
        apply Shaped.node ⟨hfirst, hlast⟩
        intro c hc
        apply ih c hc (hcs c hc) (hcs' c hc)

namespace Solid

variable {kind : NodeKind} {cs : List Tree}

theorem children (h : (Tree.node kind cs).Solid) :
  ∀ c ∈ cs, c.Solid
  := by
  cases h with
  | node _ hcs => apply hcs

/-- A solid tree other than trivia has a first token, and it is significant. -/
theorem exists_first {t : Tree} (h : t.Solid) (htrivia : t.isTrivia = false) :
  ∃ u us, t.tokens = u :: us ∧ u.isTrivia = false
  := by
  cases h with
  | token u =>
    rw [tokens_token]
    exact ⟨u, [], rfl, htrivia⟩
  | @node kind cs fits _ =>
    obtain ⟨hfirst, t, ht, -⟩ := fits
    rw [tokens_node]
    cases htokens : cs.flatMap tokens with
    | nil =>
      rw [htokens] at ht
      contradiction
    | cons u us =>
      refine ⟨u, us, rfl, hfirst u ?_⟩
      rw [htokens]
      rfl

theorem endsSignificant {t : Tree} (h : t.Solid) (htrivia : t.isTrivia = false) :
  Token.EndsSignificant t.tokens
  := by
  cases h with
  | token u =>
    rw [tokens_token]
    exact ⟨u, rfl, htrivia⟩
  | node fits _ =>
    rw [tokens_node]
    apply fits.2

end Solid

/-- A node is solid if its children are, and neither the first nor the last of them is trivia. -/
theorem solid_node {kind : NodeKind} {cs : List Tree} (hcs : ∀ c ∈ cs, c.Solid)
    (hfirst : ∃ c ∈ cs.head?, c.isTrivia = false) (hlast : ∃ c ∈ cs.getLast?, c.isTrivia = false) :
  (node kind cs).Solid
  := by
  apply Shaped.node ⟨_, _⟩ hcs
  · obtain ⟨c, hc, htrivia⟩ := hfirst
    obtain ⟨ds, rfl⟩ := List.head?_eq_some_iff.mp hc
    obtain ⟨t, ts, htokens, ht⟩ := (hcs c List.mem_cons_self).exists_first htrivia
    rw [StartsSignificant, List.flatMap_cons, htokens]
    rintro _ ⟨⟩
    apply ht
  · obtain ⟨c, hc, htrivia⟩ := hlast
    obtain ⟨ds, rfl⟩ := List.getLast?_eq_some_iff.mp hc
    rw [EndsSignificant, List.flatMap_append, List.flatMap_singleton]
    apply Token.EndsSignificant.append_left
    apply (hcs c (List.mem_append_right _ List.mem_cons_self)).endsSignificant htrivia

theorem siftAll_cons (c : Tree) (cs : List Tree) :
  siftAll (c :: cs) = siftAll [c] ++ siftAll cs
  := siftAll_append [c] cs

theorem siftAll_cons_of_isTrivia {c : Tree} (h : c.isTrivia = false) (cs : List Tree) :
  siftAll (c :: cs) = c.sift :: siftAll cs
  := by
  cases c with
  | token t =>
    rw [sift_token]
    apply siftAll_cons_token h
  | node kind ds =>
    rw [sift_node]
    apply siftAll_cons_node

theorem siftAll_cons_trivia {t : Token} (h : t.isTrivia = true) (cs : List Tree) :
  siftAll (.token t :: cs) = siftAll cs
  := by
  have htoken : siftAll [.token t] = [] := siftAll_map_token (List.forall_mem_singleton.mpr h)
  rw [siftAll_cons, htoken, List.nil_append]

/-- Of tokens the significant ones are left. -/
theorem siftAll_map (ts : List Token) :
  siftAll (ts.map token) = (Token.significant ts).map token
  := by
  induction ts with
  | nil => rfl
  | cons t ts ih =>
    rw [List.map_cons, Token.significant, List.filter_cons]
    cases htrivia : t.isTrivia with
    | true =>
      rw [siftAll_cons_trivia htrivia, ih]
      rfl
    | false =>
      rw [siftAll_cons_token htrivia, ih]
      rfl

/-- A token does not stand where a solid node stands: if it is trivia, the node would start with
it, and if not, it would be left without trivia. -/
theorem Solid.ne_token {kind : NodeKind} {es cs ds : List Tree} {t : Token}
    (h : (Tree.node kind es).Solid)
    (hsift : siftAll (.token t :: cs) = siftAll (.node kind es :: ds))
    (htokens : (Tree.token t :: cs).flatMap tokens = (Tree.node kind es :: ds).flatMap tokens) :
  False
  := by
  obtain ⟨u, us, hfirst, hu⟩ := h.exists_first rfl
  rw [List.flatMap_cons, List.flatMap_cons, tokens_token, hfirst] at htokens
  obtain rfl : t = u := (List.cons.inj htokens).1
  rw [siftAll_cons_token hu, siftAll_cons_node] at hsift
  nomatch (List.cons.inj hsift).1

/-- Solid trees side by side are known from their tokens and from what is left of them without
trivia. -/
theorem eq_of_siftAll {cs ds : List Tree} (hcs : ∀ c ∈ cs, c.Solid) (hds : ∀ d ∈ ds, d.Solid)
    (hsift : siftAll cs = siftAll ds) (htokens : cs.flatMap tokens = ds.flatMap tokens) :
  cs = ds
  := by
  match cs, ds with
  | [], [] => rfl
  | [], .token t :: ds => simp at htokens
  | .token t :: cs, [] => simp at htokens
  | [], .node kind es :: ds => simp at hsift
  | .node kind es :: cs, [] => simp at hsift
  | .token t :: cs, .node kind es :: ds =>
    apply ((hds _ List.mem_cons_self).ne_token hsift htokens).elim
  | .node kind es :: cs, .token t :: ds =>
    apply ((hcs _ List.mem_cons_self).ne_token hsift.symm htokens.symm).elim
  | .token t :: cs, .token u :: ds =>
    rw [List.forall_mem_cons] at hcs hds
    simp only [List.flatMap_cons, tokens_token, List.singleton_append, List.cons.injEq] at htokens
    obtain ⟨rfl, htokens⟩ := htokens
    rw [siftAll_cons, siftAll_cons _ ds, List.append_cancel_left_eq] at hsift
    rw [eq_of_siftAll hcs.2 hds.2 hsift htokens]
  | .node k es :: cs, .node l fs :: ds =>
    rw [List.forall_mem_cons] at hcs hds
    simp only [siftAll_cons_node, List.cons.injEq, Tree.node.injEq] at hsift
    simp only [List.flatMap_cons, tokens_node] at htokens
    obtain ⟨⟨rfl, hinner⟩, hsift⟩ := hsift
    have hsignificant : Token.significant (es.flatMap tokens)
        = Token.significant (fs.flatMap tokens) := by
      rw [← flatMap_tokens_siftAll fun _ _ => tokens_sift, hinner,
        flatMap_tokens_siftAll fun _ _ => tokens_sift]
    have hes := hcs.1.endsSignificant rfl
    have hfs := hds.1.endsSignificant rfl
    rw [tokens_node] at hes hfs
    have hfront := Token.eq_of_append_eq htokens hsignificant hes hfs
    rw [hfront, List.append_cancel_left_eq] at htokens
    rw [eq_of_siftAll hcs.1.children hds.1.children hinner hfront,
      eq_of_siftAll hcs.2 hds.2 hsift htokens]
termination_by sizeOf cs

end Tree

namespace Parse

/-- Tokens that are read without faults are read as the solid trees that have these tokens and the
significant part that was read. -/
theorem ofTokens_eq {ts : List Token} {cs : List Tree} (hfaults : (ofTokens ts).faults = [])
    (hcs : ∀ c ∈ cs, c.Solid) (htokens : cs.flatMap Tree.tokens = ts)
    (hsift : (ofTokens ts).tree.sift = .node .sourceFile (Tree.siftAll cs)) :
  ofTokens ts = ⟨.node .sourceFile cs, []⟩
  := by
  have hstarts := startsSignificant_ofTokens ts
  have hends := endsSignificant_ofTokens hfaults
  have hlossless := tokens_ofTokens ts
  obtain ⟨ds, hds⟩ : ∃ ds, (ofTokens ts).tree = .node .sourceFile ds := ⟨_, rfl⟩
  rw [hds] at hstarts hends hlossless hsift
  rw [Tree.sift_node, Tree.node.injEq] at hsift
  rw [Tree.tokens_node] at hlossless
  obtain rfl : ds = cs := by
    apply Tree.eq_of_siftAll _ hcs hsift.2 (hlossless.trans htokens.symm)
    intro d hd
    apply Tree.solid_of_shaped (hstarts d hd) (hends d hd)
  rw [← hds, ← hfaults]

end Parse

end InlayHints

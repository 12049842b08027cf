import Mathlib.Data.List.TakeWhile
import InlayHints.Proofs.Grammar.Significant
import InlayHints.Proofs.Grammar.Conservation

/-!
# Bare states

What is left of a state without trivia, offsets and faults: the significant tokens ahead and
the trees of the innermost group, sifted, that is, without trivia at any depth.  Taking
trivia leaves the bare state as it is (`State.bare_flush`), and the other steps have their
counterparts on bare states.
-/

namespace InlayHints

namespace Tree

/-- Whether a tree is a token of trivia. -/
def isTrivia : Tree → Bool
  | .token t => t.isTrivia
  | .node _ _ => false

/-- A tree without the trivia in it. -/
def sift : Tree → Tree
  | .token t => .token t
  | .node k cs => .node k ((cs.map sift).filter (!·.isTrivia))

/-- A list of trees without the trivia among them and in them. -/
def siftAll (cs : List Tree) : List Tree := (cs.map sift).filter (!·.isTrivia)

@[simp]
theorem sift_token (t : Token) :
  (token t).sift = token t
  := by
  rw [sift]

@[simp]
theorem sift_node (k : NodeKind) (cs : List Tree) :
  (node k cs).sift = node k (siftAll cs)
  := by
  rw [sift, siftAll]

@[simp]
theorem siftAll_nil :
  siftAll [] = []
  := rfl

@[simp]
theorem siftAll_append (cs ds : List Tree) :
  siftAll (cs ++ ds) = siftAll cs ++ siftAll ds
  := by
  simp [siftAll]

@[simp]
theorem siftAll_reverse (cs : List Tree) :
  siftAll cs.reverse = (siftAll cs).reverse
  := by
  simp [siftAll, List.filter_reverse]

@[simp]
theorem siftAll_cons_node (k : NodeKind) (cs ds : List Tree) :
  siftAll (node k cs :: ds) = node k (siftAll cs) :: siftAll ds
  := by
  simp [siftAll, isTrivia]

theorem siftAll_cons_token {t : Token} (h : t.isTrivia = false) (cs : List Tree) :
  siftAll (token t :: cs) = token t :: siftAll cs
  := by
  simp [siftAll, isTrivia, h]

/-- Nothing is left of tokens of trivia. -/
theorem siftAll_map_token {ts : List Token} (h : ∀ t ∈ ts, t.isTrivia = true) :
  siftAll (ts.map token) = []
  := by
  simpa [siftAll, isTrivia] using h

end Tree

/-- The significant tokens ahead and the sifted trees of the innermost group, the last one
first. -/
@[ext]
structure Bare where
  ahead : List Token
  out : List Tree

namespace Bare

/-- The next two tokens. -/
def look (b : Bare) : Lookahead := .ofTokens b.ahead

/-- The bare state with an empty group. -/
def opened (b : Bare) : Bare := ⟨b.ahead, []⟩

/-- Takes the next token if there is one. -/
def take (b : Bare) : Bare :=
  match b.ahead with
  | [] => b
  | t :: ts => ⟨ts, .token t :: b.out⟩

end Bare

namespace State

/-- What is left of a state without trivia, offsets and faults. -/
def bare (s : State) : Bare := ⟨s.significant, Tree.siftAll s.out⟩

theorem look_bare (s : State) :
  s.bare.look = s.look
  := by
  rw [look_eq, bare, Bare.look]

@[simp]
theorem bare_withOut (s : State) (out : List Tree) :
  (s.withOut out).bare = ⟨s.bare.ahead, Tree.siftAll out⟩
  := rfl

/-- Taking trivia leaves the bare state as it is. -/
@[simp]
theorem bare_flush (s : State) :
  s.flush.bare = s.bare
  := by
  have htrivia : Tree.siftAll (s.ahead.trivia.map Tree.token) = [] := by
    apply Tree.siftAll_map_token
    intro t ht
    apply List.mem_takeWhile_imp ht
  simp [bare, out_flush, htrivia]

/-- Opening a group opens one in the bare state. -/
theorem bare_opened (s : State) :
  (s.flush.withOut []).bare = s.bare.opened
  := by
  simp [Bare.opened]

/-- Taking a token takes one in the bare state. -/
@[simp]
theorem bare_take (s : State) :
  s.take.bare = s.bare.take
  := by
  rw [← bare_flush s, take, shift]
  split
  · next heq =>
    have hahead : s.flush.bare.ahead = [] := by
      simp [bare, significant, heq, Token.significant]
    simp only [Bare.take, hahead]
  · next t ts heq =>
    have hdrop : s.ahead.tokens.dropWhile Token.isTrivia = t :: ts := heq
    have hahead : s.flush.significant = t :: Token.significant ts := by
      rw [significant_flush]
      apply Token.significant_of_dropWhile hdrop
    have hout := Tree.siftAll_cons_token (Token.isTrivia_of_dropWhile hdrop) s.flush.out
    simp only [bare, Bare.take, hahead, hout]
    simp [significant, Input.tail, heq]

theorem siftAll_out_flush (s : State) :
  Tree.siftAll s.flush.out = s.bare.out
  := congrArg Bare.out (bare_flush s)

/-- A node of what `step` builds is a node of what it builds in the bare state. -/
theorem bare_within (kind : NodeKind) (step : State → State) (s : State) :
  (s.within kind step).bare
    = ⟨(step (s.flush.withOut [])).bare.ahead,
        .node kind (step (s.flush.withOut [])).bare.out.reverse :: s.bare.out⟩
  := by
  simp only [within, bare_withOut, Tree.siftAll_cons_node, Tree.siftAll_reverse,
    siftAll_out_flush]
  rfl

/-- A group that `step` builds apart is added in the bare state. -/
theorem bare_apart (step : State → State) (s : State) :
  (s.apart step).bare
    = ⟨(step (s.flush.withOut [])).bare.ahead,
        (step (s.flush.withOut [])).bare.out ++ s.bare.out⟩
  := by
  simp only [apart, bare_withOut, Tree.siftAll_append, siftAll_out_flush]
  rfl

/-- A node of the whole group is a node of the whole group in the bare state. -/
theorem bare_wrap (kind : NodeKind) (step : State → State) (s : State) :
  (s.wrap kind step).bare
    = ⟨(step s).bare.ahead, [.node kind (step s).bare.out.reverse]⟩
  := by
  simp only [wrap, bare_withOut, Tree.siftAll_cons_node, Tree.siftAll_reverse,
    Tree.siftAll_nil]
  rfl

end State

end InlayHints

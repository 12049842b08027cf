import InlayHints.Proofs.Grammar.Shape
import InlayHints.Proofs.Syntax.Progress

/-!
# Nodes with tokens of their own

The declaration of a constant or variable is read only where its keyword comes next, and the
call of a builtin only where its name does, so whatever the text, their nodes have tokens of
their own (`Construct.shaped_finalState`).  Calls of functions, on the other hand, consist of a
callee and arguments only.
-/

namespace InlayHints

/-- Some tree in a list is a token other than trivia. -/
def Tree.HasToken (cs : List Tree) : Prop := ∃ t : Token, t.isTrivia = false ∧ .token t ∈ cs

namespace NodeKind

/-- The kinds of nodes that have tokens of their own in any text: declarations of constants and
variables, and calls of builtins. -/
def isMarked : NodeKind → Bool
  | .varDecl | .builtinCall => true
  | _ => false

/-- A node has tokens of its own if it is of a kind that has them in any text. -/
def Fits (kind : NodeKind) (cs : List Tree) : Prop := kind.isMarked = true → Tree.HasToken cs

end NodeKind

namespace State

variable {s : State}

/-- Taking the next token, if there is one, puts it into the group. -/
theorem hasToken_take (h : s.look.first ≠ none) :
  Tree.HasToken s.take.out
  := by
  rw [take, shift]
  split
  · next heq =>
    apply absurd _ h
    rw [look, Input.look, show s.ahead.afterTrivia.tokens = [] from heq]
  · next t ts heq => exact ⟨t, Token.isTrivia_of_dropWhile heq, List.mem_cons_self⟩

/-- A token stays in the group while reading goes on without influence of the past. -/
theorem hasToken_of_frames {step : State → State} (hstep : ∀ p : Past, p.Frames step)
    (h : Tree.HasToken s.out) :
  Tree.HasToken (step s).out
  := by
  obtain ⟨t, htrivia, ht⟩ := h
  obtain ⟨out, hout⟩ := exists_out_eq hstep s
  use t, htrivia
  rw [hout]
  apply List.mem_append_right _ ht

end State

namespace Construct

open Rule

variable {levels : Nat} {s : State} {Ahead : Lookahead → Prop}

/-- Rules without declarations and calls of builtins need no attention. -/
theorem shapes_of_unmarked {r : Rule Symbol} (hr : r.builds (!·.isMarked) = true) :
  r.Shapes NodeKind.Fits (grammar.read levels) Ahead
  := by
  apply shapes_of_builds _ hr
  intro kind hkind cs hmarked
  rw [hmarked] at hkind
  contradiction

/-- A group that is opened by taking a token has that token. -/
theorem hasToken_of_opens {body : Rule Symbol} (h : body.Opens (grammar.read levels) s)
    (hfirst : s.look.first ≠ none) :
  Tree.HasToken (body.run (grammar.read levels) s).out.reverse
  := by
  obtain ⟨rest, hrest, heq⟩ := h
  have hframes : ∀ p : Past, p.Frames (rest.run (grammar.read levels)) := by
    intro p
    apply frames_run (frames_read levels) (Or.inl hrest)
  obtain ⟨t, htrivia, ht⟩ := State.hasToken_of_frames hframes (State.hasToken_take hfirst)
  use t, htrivia
  rw [heq]
  apply List.mem_reverse.mpr ht

/-- A node fits if its body starts by taking a token. -/
theorem fits_of_opens {kind : NodeKind} {body : Rule Symbol}
    (h : body.Opens (grammar.read levels) s) (hfirst : s.look.first ≠ none) :
  kind.Fits (body.run (grammar.read levels) s).out.reverse
  := by
  intro _
  apply hasToken_of_opens h hfirst

/-- A declaration is read where its keyword, or `pub` before it, is the next token. -/
theorem shapes_variableDeclaration
    (hahead : ∀ a, Ahead a → a.keyword.any isMutability = true) :
  variableDeclaration.Shapes NodeKind.Fits (grammar.read levels) Ahead
  := by
  apply And.intro _ (shapes_of_unmarked rfl)
  intro s hs _
  have hkeyword := hahead _ hs
  apply fits_of_opens (opens_variableDeclaration rfl hkeyword)
  apply Lookahead.first_ne_none_of_keyword
  intro hnone
  rw [hnone] at hkeyword
  contradiction

theorem shapes_declarationOr {other : Rule Symbol} (hother : other.builds (!·.isMarked) = true) :
  (declarationOr other).Shapes NodeKind.Fits (grammar.read levels) Ahead
  := by
  refine ⟨shapes_of_unmarked rfl, ?_, shapes_of_unmarked hother⟩
  apply shapes_variableDeclaration
  intro a ha
  apply ha.2

theorem shapes_container :
  container.Shapes NodeKind.Fits (grammar.read levels) Ahead
  := by
  refine ⟨nofun, shapes_of_unmarked rfl, shapes_of_unmarked rfl, ?_, shapes_of_unmarked rfl⟩
  exact ⟨shapes_declarationOr rfl, shapes_of_unmarked rfl⟩

/-- The call of a builtin is read where its name is the next token. -/
theorem shapes_primary :
  primary.Shapes NodeKind.Fits (grammar.read levels) Ahead
  := by
  refine ⟨shapes_of_unmarked rfl, shapes_of_unmarked rfl, ⟨?_, shapes_of_unmarked rfl⟩,
    shapes_of_unmarked rfl, shapes_container, shapes_of_unmarked rfl⟩
  intro s hs _
  apply fits_of_opens ((opens_take _ _).andThen rfl) (Lookahead.first_ne_none_of_isAt hs.2)

theorem shapes_block :
  block.Shapes NodeKind.Fits (grammar.read levels) Ahead
  := by
  refine ⟨nofun, shapes_of_unmarked rfl, ?_, shapes_of_unmarked rfl⟩
  refine ⟨⟨?_, shapes_of_unmarked rfl⟩, shapes_of_unmarked rfl⟩
  apply shapes_variableDeclaration
  intro a ha
  apply keyword_of_isMutability ha.2

theorem shapes_grammar (levels : Nat) (symbol : Symbol) :
  (grammar symbol).Shapes NodeKind.Fits (grammar.read levels) fun _ => True
  := by
  cases symbol with
  | expression power => apply shapes_of_unmarked rfl
  | operand =>
    refine ⟨shapes_of_unmarked rfl, shapes_of_unmarked rfl, shapes_of_unmarked rfl, ?_⟩
    exact ⟨shapes_primary, shapes_of_unmarked rfl⟩
  | block => apply shapes_block

/-- In the tree of any text, declarations of constants and variables and calls of builtins have
tokens of their own. -/
theorem shaped_ofTokens (ts : List Token) :
  (Parse.ofTokens ts).tree.Shaped NodeKind.Fits
  := by
  have hread := Grammar.shaped_read (fun _ => nofun) shapes_grammar nestingLimit
  have hfile : (file : Rule Symbol).Shapes NodeKind.Fits (grammar.read nestingLimit)
      fun _ => True := ⟨shapes_declarationOr rfl, shapes_of_unmarked rfl⟩
  have hstart : (State.start ts).Shaped NodeKind.Fits := List.forall_mem_nil _
  apply (shaped_run hread hfile trivial hstart).flush.node
  nofun

end Construct

end InlayHints

import InlayHints.Proofs.Grammar.Pattern
import InlayHints.Proofs.Grammar.Shape

/-!
# The nodes of derivations

The nodes of a derivation are those of the productions.  So what all nodes in the patterns of a
grammar are known to have, the nodes of its trees have (`Pattern.Derives.shaped`); for example, a
token of a kind that the pattern of the node requires (`Pattern.Derives.exists_token`).
-/

namespace InlayHints

namespace Pattern

variable {φ : Type} {G : φ → Pattern φ} {p : Pattern φ} {w : List Token} {ts : List Tree}

/-- Whether there is a token of kind `k` in every word, outside of the nodes. -/
def requires (k : TokenKind) : Pattern φ → Bool
  | .oneOf kinds => kinds.all (· = k)
  | .seq first second => first.requires k || second.requires k
  | .either left right => left.requires k && right.requires k
  | _ => false

/-- Whether all nodes in a pattern, the names of phrases apart, pass a check. -/
def nodesPass (check : NodeKind → Pattern φ → Bool) : Pattern φ → Bool
  | .seq first second => first.nodesPass check && second.nodesPass check
  | .either left right => left.nodesPass check && right.nodesPass check
  | .maybe body => body.nodesPass check
  | .many body => body.nodesPass check
  | .node kind body => check kind body && body.nodesPass check
  | _ => true

namespace Derives

theorem exists_token {k : TokenKind} (h : p.Derives G w ts) (hp : p.requires k = true) :
  ∃ t : Token, t.kind = k ∧ .token t ∈ ts
  := by
  induction h with
  | @oneOf t kinds ht =>
    use t
    constructor
    · apply of_decide_eq_true (List.all_eq_true.mp hp t.kind ht)
    · apply List.mem_singleton_self
  | seq _ _ ih₁ ih₂ =>
    rw [requires, Bool.or_eq_true] at hp
    rcases hp with hp | hp
    · obtain ⟨t, hkind, ht⟩ := ih₁ hp
      use t, hkind, List.mem_append_left _ ht
    · obtain ⟨t, hkind, ht⟩ := ih₂ hp
      use t, hkind, List.mem_append_right _ ht
  | left _ ih =>
    rw [requires, Bool.and_eq_true] at hp
    apply ih hp.1
  | right _ ih =>
    rw [requires, Bool.and_eq_true] at hp
    apply ih hp.2
  | _ => contradiction

/-- The nodes of a derivation fit, if every node in a pattern passes a check that makes it fit. -/
theorem shaped {Fits : NodeKind → List Tree → Prop} {check : NodeKind → Pattern φ → Bool}
    (hcheck : ∀ {kind p w ts}, check kind p = true → p.Derives G w ts → Fits kind ts)
    (hG : ∀ name, (G name).nodesPass check = true) (h : p.Derives G w ts)
    (hp : p.nodesPass check = true) :
  ∀ t ∈ ts, t.Shaped Fits
  := by
  induction h with
  | nothing => apply List.forall_mem_nil
  | @oneOf t _ _ =>
    intro c hc
    rw [List.mem_singleton.mp hc]
    apply Tree.Shaped.token
  | phrase _ ih => apply ih (hG _)
  | seq _ _ ih₁ ih₂ =>
    rw [nodesPass, Bool.and_eq_true] at hp
    apply List.forall_mem_append.mpr ⟨ih₁ hp.1, ih₂ hp.2⟩
  | left _ ih =>
    rw [nodesPass, Bool.and_eq_true] at hp
    apply ih hp.1
  | right _ ih =>
    rw [nodesPass, Bool.and_eq_true] at hp
    apply ih hp.2
  | missing => apply List.forall_mem_nil
  | present _ ih => apply ih hp
  | none => apply List.forall_mem_nil
  | more _ _ ih₁ ih₂ => apply List.forall_mem_append.mpr ⟨ih₁ hp, ih₂ hp⟩
  | node h ih =>
    rw [nodesPass, Bool.and_eq_true] at hp
    intro c hc
    rw [List.mem_singleton.mp hc]
    apply Tree.Shaped.node (hcheck hp.1 h) (ih hp.2)

end Derives

end Pattern

/-- What fits without trivia fits a tree that has trivia in it. -/
theorem Tree.shaped_of_sift {Fits : NodeKind → List Tree → Prop} {t : Tree}
    (h : t.sift.Shaped Fits) :
  t.Shaped fun kind cs => Fits kind (siftAll cs)
  := by
  induction t using induct with
  | token t => apply Shaped.token
  | node kind cs ih =>
    rw [sift_node] at h
    cases h with
    | node fits children =>
      apply Shaped.node
      · apply fits
      intro c hc
      cases c with
      | token t => apply Shaped.token
      | node k ds =>
        apply ih _ hc
        apply children
        rw [siftAll, List.mem_filter]
        use List.mem_map_of_mem hc
        rw [sift_node]
        rfl

end InlayHints

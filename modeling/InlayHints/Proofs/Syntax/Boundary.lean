import Mathlib
import InlayHints.Proofs.Grammar.Sealing
import InlayHints.Proofs.Syntax.Site.Parts
import InlayHints.Proofs.Syntax.Trimmed
import InlayHints.Syntax.SourceFile

/-!
# The first and the last token of a node

No node starts with trivia, the file itself apart, and in a text without faults every node ends
with a significant token (`SourceFile.boundaries_significant`).  A node that is missing something
at its end may end with trivia, or be empty: an expression that is not there is looked for after
the trivia.
-/

namespace InlayHints

namespace Construct

theorem seals_grammar (symbol : Symbol) :
  (grammar symbol).seals false (fun _ => true) = true
  := by
  cases symbol with
  | expression power => rfl
  | operand => rfl
  | block => rfl

theorem seals_file :
  file.seals true (fun _ => true) = true
  := rfl

end Construct

namespace Parse

open Construct

/-- In the tree of a text without faults, all nodes end with significant tokens, the file itself
apart. -/
theorem endsSignificant_ofTokens {ts : List Token} (h : (ofTokens ts).faults = []) :
  ∀ c ∈ (ofTokens ts).tree.children, c.Shaped Tree.EndsSignificant
  := by
  have hfaults : (finalState ts).faults = [] := List.reverse_eq_nil_iff.mp h
  have hsealed := Rule.sealed_run (State.kept_faults.read grammar nestingLimit)
    (Grammar.sealed_read seals_grammar nestingLimit) seals_file rfl hfaults
    (List.forall_mem_nil _)
  intro c hc
  apply hsealed.shaped.flush c (List.mem_reverse.mp hc)

end Parse

/-- A node has the tokens of its children. -/
theorem Site.exists_kind_of_isNode {s : Site} (h : s.isNode = true) :
  ∃ kind, s.kind = .node kind ∧ s.tree.tokens = s.tree.children.flatMap Tree.tokens
  := by
  rw [isNode] at h
  rw [kind]
  cases htree : s.tree with
  | token t =>
    rw [htree] at h
    contradiction
  | node k cs => exact ⟨k, rfl, Tree.tokens_node k cs⟩

namespace SourceFile

/-- In any text, no node but the file itself starts with trivia, if it has a token at all.  If
there are no faults, then every node but the file itself has a token, and does not end with
trivia. -/
theorem boundaries_significant (text : String) :
  ∀ n ∈ (ofText text).root.descendants, n ≠ (ofText text).root → n.isNode = true →
    (∀ t ∈ n.tree.tokens.head?, t.isTrivia = false)
      ∧ ((ofText text).parse.faults = [] → ∃ t ∈ n.tree.tokens.getLast?, t.isTrivia = false)
  := by
  intro n hn hne hnode
  obtain ⟨kind, hkind, htokens⟩ := Site.exists_kind_of_isNode hnode
  rw [htokens]
  constructor
  · have hshaped : n.tree.Shaped Tree.StartsSignificant :=
      Site.shaped_of_children
        (Parse.shaped_children_ofText Parse.startsSignificant_ofTokens text) hn hne
    apply Site.fits_of_shaped hshaped hkind
  · intro hfaults
    have hshaped : n.tree.Shaped Tree.EndsSignificant :=
      Site.shaped_of_children
        (Parse.shaped_children_of_faults Parse.endsSignificant_ofTokens hfaults) hn hne
    apply Site.fits_of_shaped hshaped hkind

/-- In a text without faults, a parameter with blanks on both sides starts with its name and ends
with its type. -/
theorem boundaries_significant_parameter :
  (ofText "fn f( a: u8 ) void {}").parse.faults = []
    ∧ ∃ n ∈ (ofText "fn f( a: u8 ) void {}").root.descendants, n.kind = .node .param
      ∧ (∀ t ∈ n.tree.tokens.head?, t.isTrivia = false)
      ∧ ∃ t ∈ n.tree.tokens.getLast?, t.isTrivia = false
  := by
  have hfaults : (ofText "fn f( a: u8 ) void {}").parse.faults = [] := by decide +kernel
  have hfound : ((ofText "fn f( a: u8 ) void {}").root.descendants.any fun n =>
      n.kind = .node .param && n.isNode) = true := by
    cbv
  obtain ⟨n, hn, hfound⟩ := List.any_eq_true.mp hfound
  simp only [Bool.and_eq_true, decide_eq_true_eq] at hfound
  obtain ⟨hkind, hnode⟩ := hfound
  have hne : n ≠ (ofText "fn f( a: u8 ) void {}").root := by
    rintro rfl
    contradiction
  obtain ⟨hfirst, hlast⟩ := boundaries_significant "fn f( a: u8 ) void {}" n hn hne hnode
  exact ⟨hfaults, n, hn, hkind, hfirst, hlast hfaults⟩

/-- A parameter whose type is missing ends with the blank that was taken in search of the type. -/
example :
  ((ofText "fn f(a: ) void {}").root.descendants.any fun n =>
    n.kind = .node .param && n.tree.tokens.getLast?.any Token.isTrivia) = true
  := by
  cbv

end SourceFile

end InlayHints

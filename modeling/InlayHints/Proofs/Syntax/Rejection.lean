import InlayHints.Syntax.SourceFile
import InlayHints.Proofs.Grammar.Shape
import InlayHints.Proofs.Syntax.Token.Width

/-!
# Texts that are too long

A text whose end is past the limit of offsets is rejected: its tree is that of a file without
tokens, and its only fault says how long the text is.  So the tree of any text is the tree of
some list of tokens (`Parse.exists_tokens`), and what is known of the nodes of all lists of
tokens is known of the nodes of all texts (`Parse.shaped_ofText`).  A text without faults is not
too long, and then these tokens are its own (`Parse.ofText_of_faults`).
-/

namespace InlayHints

namespace Parse

variable {text : String}

theorem ofText_of_le (h : text.utf8ByteSize ≤ countLimit) :
  ofText text = ofTokens (Token.lex text)
  := if_neg (Nat.not_lt.mpr h)

theorem ofText_of_lt (h : countLimit < text.utf8ByteSize) :
  ofText text = rejected text.utf8ByteSize
  := if_pos h

/-- A text that is too long has one fault, which says so. -/
theorem faults_ofText_of_lt (h : countLimit < text.utf8ByteSize) :
  (ofText text).faults = [⟨.tooLong text.utf8ByteSize, 0⟩]
  := by
  rw [ofText_of_lt h]
  rfl

/-- A text without faults is not too long. -/
theorem size_le_of_faults (h : (ofText text).faults = []) :
  text.utf8ByteSize ≤ countLimit
  := by
  apply Nat.not_lt.mp
  intro hlt
  rw [faults_ofText_of_lt hlt] at h
  contradiction

theorem ofText_of_faults (h : (ofText text).faults = []) :
  ofText text = ofTokens (Token.lex text)
  := ofText_of_le (size_le_of_faults h)

/-- The tree of a file that is not read is the tree of a file without tokens. -/
theorem tree_rejected (size : Nat) :
  (rejected size).tree = (ofTokens []).tree
  := by
  have hempty : Tree.node .sourceFile [] = (ofTokens []).tree := by decide +kernel
  apply hempty

/-- The tree of a text is the tree of some list of tokens. -/
theorem exists_tokens (text : String) :
  ∃ ts, (ofText text).tree = (ofTokens ts).tree
  := by
  rcases Nat.lt_or_ge countLimit text.utf8ByteSize with hlt | hle
  · use []
    rw [ofText_of_lt hlt, tree_rejected]
  · use Token.lex text
    rw [ofText_of_le hle]

/-- The root of the tree of a text is a file. -/
theorem exists_children (text : String) :
  ∃ cs, (ofText text).tree = .node .sourceFile cs
  := by
  obtain ⟨ts, htree⟩ := exists_tokens text
  exact ⟨_, htree⟩

/-- The nodes of all texts have the shapes that the nodes of all lists of tokens have. -/
theorem shaped_ofText {Fits : NodeKind → List Tree → Prop}
    (h : ∀ ts, (ofTokens ts).tree.Shaped Fits) (text : String) :
  (ofText text).tree.Shaped Fits
  := by
  obtain ⟨ts, htree⟩ := exists_tokens text
  rw [htree]
  apply h

/-- The nodes of all texts, the file itself apart, have the shapes that those of all lists of
tokens have. -/
theorem shaped_children_ofText {Fits : NodeKind → List Tree → Prop}
    (h : ∀ ts, ∀ c ∈ (ofTokens ts).tree.children, c.Shaped Fits) (text : String) :
  ∀ c ∈ (ofText text).tree.children, c.Shaped Fits
  := by
  obtain ⟨ts, htree⟩ := exists_tokens text
  rw [htree]
  apply h

/-- The nodes of all texts without faults have the shapes that those of all lists of tokens
without faults have. -/
theorem shaped_children_of_faults {Fits : NodeKind → List Tree → Prop}
    (h : ∀ {ts}, (ofTokens ts).faults = [] → ∀ c ∈ (ofTokens ts).tree.children, c.Shaped Fits)
    (hfaults : (ofText text).faults = []) :
  ∀ c ∈ (ofText text).tree.children, c.Shaped Fits
  := by
  have hread := ofText_of_faults hfaults
  rw [hread] at hfaults ⊢
  apply h hfaults

end Parse

namespace SourceFile

theorem kind_root (text : String) :
  (ofText text).root.kind = .node .sourceFile
  := by
  obtain ⟨cs, htree⟩ := Parse.exists_children text
  rw [Site.kind, root, Site.root, ofText, htree]
  rfl

/-- A file that is not read has no elements. -/
theorem elements_root_of_lt {text : String} (h : countLimit < text.utf8ByteSize) :
  (ofText text).root.elements = []
  := by
  rw [root, Site.root, ofText, Parse.ofText_of_lt h]
  rfl

end SourceFile

end InlayHints

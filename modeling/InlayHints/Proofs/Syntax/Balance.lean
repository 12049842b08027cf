import InlayHints.Proofs.Syntax.Termination

/-!
# The count of nesting is balanced

A reader of a text counts how deep the constructs nest in which it is.  Whatever the text, the count
never exceeds the limit, there is a construct to leave wherever one is left, and whatever is read
ends with the count that it started with, also where the text has faults or nests too deep
(`Parse.nesting_balanced`).
-/

namespace InlayHints

namespace Construct

open Rule

/-- The rules of all constructs, those that nest and those that are built from them. -/
def rules (power : Nat) : List (Rule Symbol) :=
  [file, item, function, parameterList, parameter, variableDeclaration, .nested .block, statement,
    expressionStatement, container, field, expression, .nested (.expression power),
    .nested .operand, chain, primary, argumentList]

theorem settles_rules {S : Setting Symbol} (hS : Priced S) (power : Nat) :
  ∀ r ∈ rules power, r.Settles S
  := by
  have hplain : ∀ {r : Rule Symbol}, r.isPlain = true → r.Settles S := settles_of_isPlain
  simp only [rules, List.forall_mem_cons]
  exact ⟨settles_file hS, settles_declarationOr hS (hplain rfl), settles_function hS,
    settles_parameterList hS, settles_parameter hS, hplain rfl, hplain rfl, hplain rfl, hplain rfl,
    settles_container hS, hplain rfl, hplain rfl, hplain rfl, hplain rfl, settles_chain hS,
    settles_primary hS, settles_argumentList hS, List.forall_mem_nil _⟩

/-- At any depth within the limit, a reader does what the rule of a construct means, and returns to
the depth. -/
theorem reaches_rules {limit depth : Nat} (hdepth : depth ≤ limit) {power : Nat} {r : Rule Symbol}
    (hr : r ∈ rules power) (tasks : List (Task Symbol)) (s : State) :
  Reader.Reaches grammar limit ⟨.read r :: tasks, depth, s⟩
    ⟨tasks, depth, r.run (grammar.read (limit - depth)) s⟩
  := by
  have hS := priced (Nat.sub_le limit depth)
  have hcosts := (costs_of_settles hS.symbols (settles_rules hS power r hr) s tasks).reaches
  have hat : (grammar.setting limit price freeSteps (limit - depth)).depth = depth :=
    Nat.sub_sub_self hdepth
  rw [hat] at hcosts
  apply hcosts

end Construct

namespace Parse

open Construct

/-- Whatever the text, the count of a reader of its file never exceeds the limit, there is always a
construct to be left where one is left, and the reader stops with nothing left to do and the count
at zero.  Whenever what is left to do is again what was left to do after some rule, the count is
what it was when the rule was begun; and the rules of all constructs come to that point, from any
state and at any depth within the limit.  What the reader has read in the end is the file. -/
theorem nesting_balanced (text : String) :
  (∀ c, (Reader.start file (Token.lex text)).Reaches grammar nestingLimit c →
      c.depth ≤ nestingLimit ∧ (∀ tasks, c.tasks = .leave :: tasks → 0 < c.depth)
      ∧ (c.step? grammar nestingLimit = none → c.tasks = [] ∧ c.depth = 0))
    ∧ (∀ c d r, (Reader.start file (Token.lex text)).Reaches grammar nestingLimit c →
      c.Reaches grammar nestingLimit d → c.tasks = .read r :: d.tasks → d.depth = c.depth)
    ∧ (∀ power, ∀ r ∈ rules power, ∀ depth ≤ nestingLimit, ∀ tasks s,
      Reader.Reaches grammar nestingLimit ⟨.read r :: tasks, depth, s⟩
        ⟨tasks, depth, r.run (grammar.read (nestingLimit - depth)) s⟩)
    ∧ ∃ s, (Reader.start file (Token.lex text)).Reaches grammar nestingLimit ⟨[], 0, s⟩
      ∧ s.flush = finalState (Token.lex text)
  := by
  have hbalanced : ∀ c, (Reader.start file (Token.lex text)).Reaches grammar nestingLimit c →
      c.Balanced nestingLimit := by
    intro c hc
    apply hc.induct
    · exact ⟨rfl, Nat.zero_le _⟩
    · intro c d hstep hc
      apply hc.step hstep
  refine ⟨?_, ?_, ?_, ?_⟩
  · intro c hc
    have hc := hbalanced c hc
    refine ⟨hc.depth_le, fun _ => hc.depth_pos, ?_⟩
    intro hstop
    have htasks := hc.tasks_eq_nil hstop
    use htasks
    rw [hc.depth_eq, htasks]
    rfl
  · intro c d r hc hd htasks
    have hc := hbalanced c hc
    have hd := hd.induct hc fun _ _ hstep hc => hc.step hstep
    rw [hd.depth_eq, hc.depth_eq, htasks]
    rfl
  · intro power r hr depth hdepth tasks s
    apply reaches_rules hdepth hr
  · exact ⟨_, ⟨_, after_start_file nestingLimit _⟩, rfl⟩

end Parse

end InlayHints

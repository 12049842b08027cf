import InlayHints.Grammar.State

/-!
# Rules

A rule describes how a construct of the language is read.  Rules are data: they refer to the
constructs that nest by a symbol, and `Rule.run` gives a rule its meaning once the meaning
of the symbols is known.  `Grammar.read` ties the knot: it reads a symbol by its rule, one
level of nesting deeper, and skips what is nested deeper than the levels it was given.  So
every rule ends: a rule is read by recursion on its shape, a symbol by recursion on the
levels, and a loop goes on only while it takes tokens.
-/

namespace InlayHints

/-- The description of a construct, where `σ` are the symbols for constructs that nest. -/
inductive Rule (σ : Type) where
  /-- Does nothing. -/
  | pass
  /-- Does one thing after the other. -/
  | seq (first second : Rule σ)
  /-- Takes the next token. -/
  | take
  /-- Notes a fault. -/
  | report (cause : Option TokenKind → Cause)
  /-- Groups what the body builds into a node. -/
  | node (kind : NodeKind) (body : Rule σ)
  /-- Opens a group that `wrap` can take as a whole. -/
  | apart (body : Rule σ)
  /-- Makes one node of the whole group and what the body adds to it. -/
  | wrap (kind : NodeKind) (body : Rule σ)
  /-- Decides by the next two tokens. -/
  | branch (test : Lookahead → Bool) (yes no : Rule σ)
  /-- Repeats the body while the test holds. -/
  | loop (test : Lookahead → Bool) (body : Rule σ)
  /-- Follows the body by another rule if the body has taken no token. -/
  | unlessTaken (body other : Rule σ)
  /-- Reads a construct one level deeper. -/
  | nested (symbol : σ)

namespace Rule

variable {σ : Type}

instance : AndThen (Rule σ) := ⟨fun first second => .seq first (second ())⟩

/-- The meaning of a rule, for a given meaning of the symbols. -/
def run (inner : σ → State → State) : Rule σ → State → State
  | .pass => id
  | .seq first second => fun s => second.run inner (first.run inner s)
  | .take => State.take
  | .report cause => State.report cause
  | .node kind body => State.within kind (body.run inner)
  | .apart body => State.apart (body.run inner)
  | .wrap kind body => State.wrap kind (body.run inner)
  | .branch test yes no => fun s => if test s.look then yes.run inner s else no.run inner s
  | .loop test body => State.repeatWhile test (body.run inner)
  | .unlessTaken body other => State.unlessTaken (body.run inner) (other.run inner)
  | .nested symbol => inner symbol

/-- One rule after another. -/
@[simp]
theorem run_andThen (inner : σ → State → State) (a b : Rule σ) (s : State) :
  (a >> b).run inner s = b.run inner (a.run inner s)
  := rfl

/-- Reads the body if the test holds. -/
def when (test : Lookahead → Bool) (body : Rule σ) : Rule σ := .branch test body .pass

/-- Reads the body unless the test holds. -/
def whenNot (test : Lookahead → Bool) (body : Rule σ) : Rule σ := .branch test .pass body

/-- Takes the next token if it is of kind `k`. -/
def accept (k : TokenKind) : Rule σ := when (·.isAt k) .take

/-- Takes the next token if it is of kind `k`, and notes a fault otherwise. -/
def expect (k : TokenKind) : Rule σ := .branch (·.isAt k) .take (.report (.missingToken k))

/-- Notes a fault and puts the next token, if there is one, into an error node. -/
def reject (cause : Cause) : Rule σ :=
  .report (fun _ => cause) >> whenNot (·.atEnd) (.node .error .take)

/-- Reads `item`, and rejects the next token if that takes nothing. -/
def orReject (item : Rule σ) (cause : Cause) : Rule σ := .unlessTaken item (reject cause)

/-- Reads items up to the token that closes the list. -/
def many (closing : TokenKind) (item : Rule σ) : Rule σ := .loop (·.isBefore closing) item

/-- Reads items with commas between them, and maybe one after the last, up to the token that
closes the list. -/
def commaSeparated (closing : TokenKind) (item : Rule σ) : Rule σ :=
  when (·.isBefore closing)
    (item >> .loop (·.isAt .comma) (.take >> when (·.isBefore closing) item))

/-! ### Decisions -/

section

variable {inner : σ → State → State} {s : State}

theorem run_branch_true {test : Lookahead → Bool} {yes no : Rule σ} (h : test s.look = true) :
  (branch test yes no).run inner s = yes.run inner s
  := if_pos h

theorem run_branch_false {test : Lookahead → Bool} {yes no : Rule σ} (h : test s.look = false) :
  (branch test yes no).run inner s = no.run inner s
  := if_neg (Bool.eq_false_iff.mp h)

theorem run_accept_true {k : TokenKind} (h : s.look.isAt k = true) :
  (accept k).run inner s = s.take
  := run_branch_true h

theorem run_accept_false {k : TokenKind} (h : s.look.isAt k = false) :
  (accept k).run inner s = s
  := run_branch_false h

theorem run_expect_true {k : TokenKind} (h : s.look.isAt k = true) :
  (expect k).run inner s = s.take
  := run_branch_true h

end

end Rule

/-- The rules of the constructs that nest. -/
abbrev Grammar (σ : Type) : Type := σ → Rule σ

namespace Grammar

variable {σ : Type}

/-- Reads a construct that may nest `levels` deep; at level zero it is skipped. -/
def read (g : Grammar σ) : Nat → σ → State → State
  | 0, _ => fun s => (s.report fun _ => .nestedTooDeep).skipLevel
  | levels + 1, symbol => (g symbol).run (g.read levels)

end Grammar

end InlayHints

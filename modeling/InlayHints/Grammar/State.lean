import InlayHints.Syntax.Tree
import InlayHints.Syntax.Fault
import InlayHints.Grammar.Input

/-!
# States of reading

While a text is read, its tokens move one by one from the tokens ahead into the trees built
so far.  Trivia moves along with the token that follows it, and a group of trees is opened
only when no trivia stands before it, so a group starts with a token that means something.
The steps here are the only ones that take tokens: `State.flush` takes the trivia ahead,
`State.take` the next token with the trivia before it.
-/

namespace InlayHints

/-- A text that is being read. -/
structure State where
  /-- The tokens not taken yet. -/
  ahead : Input
  /-- The offset of the first token ahead. -/
  offset : Nat
  /-- The trees of the innermost open group, the last one first. -/
  out : List Tree
  /-- The faults noticed so far, the last one first. -/
  faults : List Fault

namespace State

/-- The start of reading a list of tokens. -/
def start (ts : List Token) : State := ⟨.ofList ts, 0, [], []⟩

/-- How many tokens are not taken yet. -/
def count (s : State) : Nat := s.ahead.count

/-- The next two tokens. -/
def look (s : State) : Lookahead := s.ahead.look

/-- Takes the trivia before the next token. -/
def flush (s : State) : State where
  ahead := s.ahead.afterTrivia
  offset := s.offset + Token.totalWidth s.ahead.trivia
  out := s.ahead.trivia.foldl (fun out t => .token t :: out) s.out
  faults := s.faults

/-- Takes the first token ahead, trivia or not. -/
def shift (s : State) : State :=
  match s.ahead.tokens with
  | [] => s
  | t :: _ =>
    { s with
      ahead := s.ahead.tail
      offset := s.offset + t.width
      out := .token t :: s.out }

/-- Takes the next token and the trivia before it. -/
def take (s : State) : State := s.flush.shift

/-- Notes a fault at the next token. -/
def report (cause : Option TokenKind → Cause) (s : State) : State :=
  { s with
    faults := ⟨cause s.look.first, s.offset + Token.totalWidth s.ahead.trivia⟩ :: s.faults }

/-- The state with the trees `out` in its innermost group. -/
def withOut (s : State) (out : List Tree) : State := { s with out := out }

/-- Groups what `step` builds into a node. -/
def within (kind : NodeKind) (step : State → State) (s : State) : State :=
  let opened := s.flush
  let closed := step (opened.withOut [])
  closed.withOut (.node kind closed.out.reverse :: opened.out)

/-- Lets `step` build a group of its own, which `State.wrap` can take as a whole, and then
adds the group to what was there. -/
def apart (step : State → State) (s : State) : State :=
  let opened := s.flush
  let closed := step (opened.withOut [])
  closed.withOut (closed.out ++ opened.out)

/-- Makes one node of the whole group, with what `step` adds to it at its end. -/
def wrap (kind : NodeKind) (step : State → State) (s : State) : State :=
  let closed := step s
  closed.withOut [.node kind closed.out.reverse]

/-- Follows `step` by `other` if `step` has taken no token at all, trivia included. -/
def unlessTaken (step other : State → State) (s : State) : State :=
  let next := step s
  if next.count = s.count then other next else next

/-- Repeats `step` while `test` holds, up to a step that takes no token. -/
def repeatWhile (test : Lookahead → Bool) (step : State → State) (s : State) : State :=
  if test s.look then
    let next := step s
    if next.count < s.count then next.repeatWhile test step else next
  else s
termination_by s.count

/-! ### Skipping a level of nesting -/

/-- How many brackets are open after a token of kind `k` when `opened` were open before it;
`none` if the token ends the level, which a closing bracket or a divider does while no bracket
is open. -/
def balance? (opened : Nat) (k : TokenKind) : Option Nat :=
  if k.isOpening then some (opened + 1)
  else if k.isClosing then if opened = 0 then none else some (opened - 1)
  else if k.isDivider && opened = 0 then none
  else some opened

/-- How many brackets are open after the next token, `none` if it ends the level or there is
no next token. -/
def nextBalance? (opened : Nat) (s : State) : Option Nat := s.look.first.bind (balance? opened)

theorem count_shift_lt {s : State} (h : s.ahead.tokens ≠ []) :
  s.shift.count < s.count
  := by
  unfold shift
  split
  · contradiction
  · next t ts heq =>
    have := s.ahead.count_eq
    simp only [heq, List.length_cons] at this
    simp only [count, Input.tail]
    omega

theorem count_flush_le (s : State) :
  s.flush.count ≤ s.count
  := by
  simp [count, flush, Input.afterTrivia]

theorem count_take_lt {s : State} (h : s.look.first ≠ none) :
  s.take.count < s.count
  := by
  have hahead : s.flush.ahead.tokens ≠ [] := by
    intro hnil
    apply h
    have hnil : s.ahead.afterTrivia.tokens = [] := hnil
    simp [look, Input.look, hnil]
  have := count_shift_lt hahead
  have := count_flush_le s
  simp only [take]
  omega

/-- Takes tokens as long as none of them ends the level. -/
def takeLevel (opened : Nat) (s : State) : State :=
  match _h : s.nextBalance? opened with
  | none => s
  | some opened' => s.take.takeLevel opened'
termination_by s.count
decreasing_by
  apply count_take_lt
  intro hnone
  simp [nextBalance?, hnone] at _h

/-- Skips what is left of the level, as one error node if there is anything. -/
def skipLevel (s : State) : State :=
  match s.nextBalance? 0 with
  | none => s
  | some _ => s.within .error (takeLevel 0)

end State

end InlayHints

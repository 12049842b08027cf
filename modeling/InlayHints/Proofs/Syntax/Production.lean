import InlayHints.Proofs.Grammar.Agreement

/-!
# The grammar of the language

The productions of the source language, as patterns over the kinds of significant tokens, with
the nodes of the tree of a text.  Binary operators group to the left, and `*` and `/` bind more
tightly than `+` and `-`; calls and field accesses group to the left as well.  A field of a
container has a comma after it, except that the last member may be a field without one.

Of what follows from the productions, the other modules need the kinds of token that phrases
start and end with, the left-recursive phrases as phrases that grow (`Phrase.spans_expression`,
`Phrase.spans_term`, `Phrase.spans_chain`), and that a name with a colon after it is never
the start of a longer expression (`Phrase.isAt_colon_of_expression`).
-/

namespace InlayHints

/-- The names of the phrases of the language. -/
inductive Phrase where
  | item
  | function
  | parameterList
  | parameter
  | variableDecl
  /-- A variable or constant inside a block, where `pub` is not allowed. -/
  | localDecl
  | block
  | statement
  | expressionStatement
  /-- Terms with `+` and `-` between them. -/
  | expression
  /-- Operands with `*` and `/` between them. -/
  | term
  | operand
  /-- A primary expression with calls and field accesses after it. -/
  | chain
  | primary
  | container
  | member
  | argumentList
deriving DecidableEq, Repr

namespace Phrase

open Relation Pattern

/-- A value after `=`, if there is one. -/
def value : Pattern Phrase := maybe (token .eq >> phrase .expression)

/-- What a variable or constant consists of after `pub`. -/
def declared : Pattern Phrase :=
  oneOf [.constKw, .varKw]
    >> token .ident
    >> maybe (node .typeAscription (token .colon >> phrase .expression))
    >> value
    >> token .semicolon

/-- A field of a container, and what stands after it. -/
def field (tail : Pattern Phrase) : Pattern Phrase :=
  node .containerField
    (token .ident >> maybe (token .colon >> phrase .expression) >> value >> tail)

/-- What each phrase stands for. -/
def production : Phrase → Pattern Phrase
  | .item => phrase .function <|> phrase .variableDecl <|> phrase .expressionStatement
  | .function =>
    node .fnDecl
      (maybe (token .pubKw)
        >> token .fnKw
        >> token .ident
        >> phrase .parameterList
        >> maybe (phrase .expression)
        >> (phrase .block <|> token .semicolon))
  | .parameterList =>
    node .paramList (token .lParen >> commaList (phrase .parameter) >> token .rParen)
  | .parameter =>
    node .param
      (many (oneOf [.noaliasKw, .comptimeKw])
        >> maybe (token .ident >> token .colon)
        >> (token .anytypeKw <|> phrase .expression))
  | .variableDecl => node .varDecl (maybe (token .pubKw) >> declared)
  | .localDecl => node .varDecl declared
  | .block => node .block (token .lBrace >> many (phrase .statement) >> token .rBrace)
  | .statement =>
    phrase .localDecl
      <|> phrase .block
      <|> node .returnStmt
        (token .returnKw >> maybe (phrase .expression) >> token .semicolon)
      <|> phrase .expressionStatement
  | .expressionStatement => node .exprStmt (phrase .expression >> token .semicolon)
  | .expression =>
    phrase .term
      <|> node .binExpr (phrase .expression >> oneOf [.plus, .minus] >> phrase .term)
  | .term =>
    phrase .operand
      <|> node .binExpr (phrase .term >> oneOf [.star, .slash] >> phrase .operand)
  | .operand =>
    node .prefixExpr
        (oneOf [.star, .question, .bang, .minus, .amp]
          >> maybe (token .constKw)
          >> phrase .operand)
      <|> node .sliceType
        (token .lBracket >> token .rBracket >> maybe (token .constKw) >> phrase .operand)
      <|> phrase .chain
  | .chain =>
    phrase .primary
      <|> node .callExpr (phrase .chain >> phrase .argumentList)
      <|> node .fieldExpr (phrase .chain >> token .dot >> token .ident)
  | .primary =>
    node .nameRef (token .ident)
      <|> node .literal (oneOf [.intNumber, .stringLit])
      <|> node .builtinCall (token .builtinIdent >> phrase .argumentList)
      <|> node .parenExpr (token .lParen >> phrase .expression >> token .rParen)
      <|> phrase .container
  | .container =>
    node .containerDecl
      (token .structKw
        >> token .lBrace
        >> many (phrase .member)
        >> maybe (field nothing)
        >> token .rBrace)
  | .member => phrase .function <|> phrase .variableDecl <|> field (token .comma)
  | .argumentList =>
    node .argList (token .lParen >> commaList (phrase .expression) >> token .rParen)

/-- What a file consists of. -/
def file : Pattern Phrase := many (phrase .item)

/-! ### First tokens -/

/-- The kinds of token a primary expression starts with. -/
def primaryStarts : List TokenKind :=
  [.ident, .intNumber, .stringLit, .builtinIdent, .lParen, .structKw]

/-- The kinds of token an expression starts with. -/
def expressionStarts : List TokenKind :=
  [.star, .question, .bang, .minus, .amp, .lBracket] ++ primaryStarts

/-- The kinds of token the words of a phrase start with. -/
def starts : Phrase → List TokenKind
  | .item => [.pubKw, .fnKw, .constKw, .varKw] ++ expressionStarts
  | .function => [.pubKw, .fnKw]
  | .parameterList => [.lParen]
  | .parameter => [.noaliasKw, .comptimeKw, .anytypeKw] ++ expressionStarts
  | .variableDecl => [.pubKw, .constKw, .varKw]
  | .localDecl => [.constKw, .varKw]
  | .block => [.lBrace]
  | .statement => [.constKw, .varKw, .lBrace, .returnKw] ++ expressionStarts
  | .expressionStatement => expressionStarts
  | .expression => expressionStarts
  | .term => expressionStarts
  | .operand => expressionStarts
  | .chain => primaryStarts
  | .primary => primaryStarts
  | .container => [.structKw]
  | .member => [.pubKw, .fnKw, .constKw, .varKw, .ident]
  | .argumentList => [.lParen]

theorem startsTable :
  StartsTable production starts
  := by
  intro name
  cases name <;> decide

/-! ### Last tokens -/

/-- The kinds of token an expression ends with. -/
def expressionEnds : List TokenKind := [.ident, .intNumber, .stringLit, .rParen, .rBrace]

/-- The kinds of token the words of a phrase end with. -/
def ends : Phrase → List TokenKind
  | .item | .function | .statement => [.semicolon, .rBrace]
  | .variableDecl | .localDecl | .expressionStatement => [.semicolon]
  | .block | .container => [.rBrace]
  | .parameterList | .argumentList => [.rParen]
  | .parameter => .anytypeKw :: expressionEnds
  | .member => [.comma, .semicolon, .rBrace]
  | .expression | .term | .operand | .chain | .primary => expressionEnds

theorem endsTable :
  EndsTable production ends
  := by
  intro name
  cases name <;> decide

/-! ### Left recursion -/

variable {b c : Bare}

/-- What may follow an expression to make a longer one. -/
def expressionTails : List (NodeKind × Pattern Phrase) :=
  [(.binExpr, oneOf [.plus, .minus] >> phrase .term)]

/-- What may follow a term to make a longer one. -/
def termTails : List (NodeKind × Pattern Phrase) :=
  [(.binExpr, oneOf [.star, .slash] >> phrase .operand)]

/-- What may follow a chain to make a longer one. -/
def chainTails : List (NodeKind × Pattern Phrase) :=
  [(.callExpr, phrase .argumentList), (.fieldExpr, token .dot >> token .ident)]

theorem spans_expression (hb : b.out = []) :
  (phrase .expression).Spans production b c
    ↔ ∃ d, (phrase .term).Spans production b d
      ∧ ReflTransGen (Grows production expressionTails) d c
  := by
  apply spans_leftRecursive startsTable (by decide) _ hb
  intro b c
  rw [spans_phrase, production, spans_either]
  simp [expressionTails]

theorem spans_term (hb : b.out = []) :
  (phrase .term).Spans production b c
    ↔ ∃ d, (phrase .operand).Spans production b d
      ∧ ReflTransGen (Grows production termTails) d c
  := by
  apply spans_leftRecursive startsTable (by decide) _ hb
  intro b c
  rw [spans_phrase, production, spans_either]
  simp [termTails]

theorem spans_chain (hb : b.out = []) :
  (phrase .chain).Spans production b c
    ↔ ∃ d, (phrase .primary).Spans production b d
      ∧ ReflTransGen (Grows production chainTails) d c
  := by
  apply spans_leftRecursive startsTable (by decide) _ hb
  intro b c
  rw [spans_phrase, production, spans_either, spans_either]
  simp [chainTails]

/-! ### Names with a colon after them -/

/-- A name comes next, and then a colon. -/
def labelled (a : Lookahead) : Bool := a.isAt .ident && a.second = some .colon

/-- Where a name with a colon after it comes next, the pattern takes the name only. -/
def StopsAtColon (p : Pattern Phrase) : Prop :=
  ∀ b c : Bare, labelled b.look = true → p.Spans production b c → c.look.isAt .colon = true

theorem isAt_ident_of_labelled {a : Lookahead} (h : labelled a = true) :
  a.isAt .ident = true
  := by
  rw [labelled, Bool.and_eq_true] at h
  apply h.1

/-- A pattern whose words do not start with a name. -/
theorem stopsAtColon_of_starts {p : Pattern Phrase} (hp : p.nullable = false)
    (hk : ∀ k ∈ p.starts starts, decide (k = .ident) = false) :
  StopsAtColon p
  := by
  intro b c hb h
  have hident := isAt_ident_of_labelled hb
  rw [h.isAt_eq startsTable hp hk] at hident
  contradiction

theorem stopsAtColon_token :
  StopsAtColon (token .ident)
  := by
  intro b c hb h
  rw [labelled, Bool.and_eq_true, decide_eq_true_eq] at hb
  rw [Lookahead.isAt_iff, ← hb.2]
  apply h.look_second

theorem stopsAtColon_node {k : NodeKind} {p : Pattern Phrase} (hp : StopsAtColon p) :
  StopsAtColon (node k p)
  := by
  intro b c hb h
  obtain ⟨d, hd, rfl⟩ := spans_node.mp h
  apply hp b.opened d hb hd

theorem stopsAtColon_either {p q : Pattern Phrase} (hp : StopsAtColon p) (hq : StopsAtColon q) :
  StopsAtColon (p <|> q)
  := by
  intro b c hb h
  rcases spans_either.mp h with h | h
  · apply hp b c hb h
  · apply hq b c hb h

theorem stopsAtColon_phrase {name : Phrase} (h : StopsAtColon (production name)) :
  StopsAtColon (phrase name)
  := fun b c hb hspans => h b c hb (spans_phrase.mp hspans)

/-- A left-recursive phrase does not grow by a colon. -/
theorem stopsAtColon_of_grows {name : Phrase} {base : Pattern Phrase}
    {ways : List (NodeKind × Pattern Phrase)} (hbase : StopsAtColon base)
    (hname : ∀ {b c : Bare}, b.out = [] → ((phrase name).Spans production b c
      ↔ ∃ d, base.Spans production b d ∧ ReflTransGen (Grows production ways) d c))
    (hways : ∀ way ∈ ways, way.2.nullable = false
      ∧ ∀ k ∈ way.2.starts starts, decide (k = .colon) = false) :
  StopsAtColon (phrase name)
  := by
  intro b c hb h
  obtain ⟨e, he, rfl⟩ := spans_iff_opened.mp h
  obtain ⟨d, hd, hgrows⟩ := (hname rfl).mp he
  have hcolon := hbase b.opened d hb hd
  rcases ReflTransGen.cases_head hgrows with rfl | ⟨f, ⟨way, hway, g, htail, -⟩, -⟩
  · apply hcolon
  · obtain ⟨hnull, hk⟩ := hways way hway
    rw [htail.isAt_eq startsTable hnull hk] at hcolon
    contradiction

theorem stopsAtColon_operand :
  StopsAtColon (phrase .operand)
  := by
  apply stopsAtColon_phrase
  apply stopsAtColon_either
  · apply stopsAtColon_of_starts rfl (by decide)
  apply stopsAtColon_either
  · apply stopsAtColon_of_starts rfl (by decide)
  apply stopsAtColon_of_grows _ spans_chain (by decide)
  apply stopsAtColon_phrase
  apply stopsAtColon_either
  · apply stopsAtColon_node stopsAtColon_token
  · apply stopsAtColon_of_starts rfl (by decide)

/-- A name with a colon after it is never the start of a longer expression. -/
theorem isAt_colon_of_expression (hb : labelled b.look = true)
    (h : (phrase .expression).Spans production b c) :
  c.look.isAt .colon = true
  := by
  have hterm : StopsAtColon (phrase .term) :=
    stopsAtColon_of_grows stopsAtColon_operand spans_term (by decide)
  apply stopsAtColon_of_grows hterm spans_expression (by decide) b c hb h

end Phrase

end InlayHints

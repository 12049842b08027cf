import InlayHints.Grammar.Construct
import InlayHints.Proofs.Grammar.Agreement
import InlayHints.Proofs.Syntax.Production

/-!
# Declarations and statements agree with the grammar

What a symbol means, `Construct.Meaning`, is said by the grammar: an expression is a phrase of
the grammar after which nothing comes that could be part of it.  Under this meaning the rules
of declarations, statements and lists agree with the productions.
-/

namespace InlayHints

open Relation Rule Pattern Phrase

namespace Construct

/-- Whether a call or a field access comes next. -/
def continues (a : Lookahead) : Bool := a.isAt .lParen || a.isAt .dot && a.second = some .ident

/-- The phrase of the operands of binary operators that bind as tightly as `power`. -/
def operandsOf : Nat → Phrase
  | 0 => .expression
  | 1 => .term
  | _ => .operand

/-- What a symbol means: a phrase that is as long as it can be. -/
def Meaning : Symbol → Bare → Bare → Prop
  | .expression power => fun b c =>
    (phrase (operandsOf power)).Spans production b c
      ∧ bindsOver power c.look = false ∧ continues c.look = false
  | .operand => fun b c => (phrase .operand).Spans production b c ∧ continues c.look = false
  | .block => (phrase .block).Spans production

/-- Nothing comes next that could be part of an expression. -/
def Ended (a : Lookahead) : Prop := bindsOver 0 a = false ∧ continues a = false

/-- The kinds of token that may come after an expression. -/
def expressionEnds : List TokenKind := [.rParen, .comma, .semicolon, .lBrace, .rBrace, .eq]

variable {P : Lookahead → Prop} {b c : Bare}

theorem ended_of_isAt {a : Lookahead} {k : TokenKind} (h : a.isAt k = true)
    (hk : k ∈ expressionEnds) :
  Ended a
  := by
  obtain ⟨first, second⟩ := a
  obtain rfl : first = some k := Lookahead.isAt_iff.mp h
  simp only [expressionEnds, List.mem_cons, List.not_mem_nil, or_false] at hk
  rcases hk with rfl | rfl | rfl | rfl | rfl | rfl <;> exact ⟨rfl, rfl⟩

theorem ended_of_listItem {a : Lookahead} (h : a.isAt .comma = true ∨ a.isAt .rParen = true) :
  Ended a
  := by
  rcases h with h | h
  · apply ended_of_isAt h (by decide)
  · apply ended_of_isAt h (by decide)

/-- A phrase that starts with such a token ends the expression before it. -/
theorem ended_of_spans {q : Pattern Phrase} (hq : q.nullable = false)
    (hk : ∀ k ∈ q.starts Phrase.starts, k ∈ expressionEnds) (h : q.Spans production b c) :
  Ended b.look
  := by
  obtain ⟨k, hk', hlook⟩ := h.look_first startsTable hq
  apply ended_of_isAt (Lookahead.isAt_iff.mpr hlook) (hk k hk')

theorem agrees_expression :
  Agrees Meaning production P expression (phrase .expression) Ended
  := by
  intro b c _ hc
  constructor
  · intro h
    apply h.1
  · intro h
    use h, hc.1, hc.2

theorem agrees_block :
  Agrees Meaning production P (.nested .block) (phrase .block) fun _ => True
  := by
  intro b c _ _
  rfl

/-- An expression, and then something that ends it. -/
theorem agrees_expression_seq {s : Rule Symbol} {q : Pattern Phrase} {F : Lookahead → Prop}
    (hq : q.nullable = false) (hk : ∀ k ∈ q.starts Phrase.starts, k ∈ expressionEnds)
    (hs : Agrees Meaning production (fun _ => True) s q F) :
  Agrees Meaning production P (expression >> s) (phrase .expression >> q) F
  := agrees_expression.seq hs fun h _ => ended_of_spans hq hk h

/-! ### Lists -/

/-- Things in parentheses with commas between them. -/
theorem agrees_list {r : Rule Symbol} {p : Pattern Phrase} (hp : p.nullable = false)
    (hstarts : .rParen ∉ p.starts Phrase.starts)
    (hr : Agrees Meaning production (fun _ => True) r p
      fun a => a.isAt .comma = true ∨ a.isAt .rParen = true) :
  Agrees Meaning production P (expect .lParen >> commaSeparated .rParen r >> expect .rParen)
    (token .lParen >> commaList p >> token .rParen) fun _ => True
  := by
  apply Agrees.expect_seq
  apply Agrees.seq (Agrees.commaSeparated startsTable (by decide) hp hstarts hr) Agrees.expect
  intro c d h _
  apply h.isAt_of_token

theorem agrees_argumentList :
  Agrees Meaning production P argumentList (phrase .argumentList) fun _ => True
  := by
  apply Agrees.phrase
  apply Agrees.node
  apply agrees_list
  · rfl
  · decide
  · apply Agrees.orReject startsTable rfl
    apply agrees_expression.mono (fun _ ha => ha) fun _ => ended_of_listItem

/-! ### Functions -/

/-- What is left of a parameter without its name has no colon after it. -/
theorem labelled_eq_false
    (h : (token .anytypeKw <|> phrase .expression : Pattern Phrase).Spans production b c)
    (hc : c.look.isAt .comma = true ∨ c.look.isAt .rParen = true) :
  labelled b.look = false
  := by
  by_contra hb
  rw [Bool.not_eq_false] at hb
  rcases spans_either.mp h with h | h
  · have hident := isAt_ident_of_labelled hb
    rw [Lookahead.isAt_eq_false h.isAt_of_token (by decide)] at hident
    contradiction
  · have hcolon := isAt_colon_of_expression hb h
    rcases hc with hc | hc
    · rw [Lookahead.isAt_eq_false hc (by decide)] at hcolon
      contradiction
    · rw [Lookahead.isAt_eq_false hc (by decide)] at hcolon
      contradiction

/-- A parameter, which is one of a list. -/
theorem agrees_parameter :
  Agrees Meaning production P parameter (phrase .parameter)
    fun a => a.isAt .comma = true ∨ a.isAt .rParen = true
  := by
  apply Agrees.phrase
  apply Agrees.node
  apply Agrees.seq (I := fun a => a.isAny TokenKind.isQualifier = false)
  · apply Agrees.loop (I := fun _ => True)
    · apply Agrees.takeAny
      · intro a ha
        apply ha
      · intro k hk
        cases k <;> first | decide | contradiction
    · intro b c h
      apply h.isAny_eq startsTable rfl (by decide)
    · intro b c _
      trivial
    · intro a ha
      use ha
  · apply Agrees.seq (I := fun a => labelled a = false)
    · apply Agrees.when
      · apply Agrees.takeBoth
        intro a ha
        simpa using ha.2
      · intro b c _ h
        simpa using h.look_both
      · intro a ha
        apply ha
    · apply Agrees.branchAt startsTable rfl (by decide) rfl (by decide)
      · apply Agrees.takeAt
        intro a ha
        apply ha.2
      · apply agrees_expression.mono (fun _ ha => ha) fun _ => ended_of_listItem
    · intro c d h hd
      apply labelled_eq_false h hd
  · intro c d h _
    apply h.isAny_eq startsTable rfl (by decide)

theorem agrees_parameterList :
  Agrees Meaning production P parameterList (phrase .parameterList) fun _ => True
  := by
  apply Agrees.phrase
  apply Agrees.node
  apply agrees_list
  · rfl
  · decide
  · apply Agrees.orReject startsTable rfl agrees_parameter

theorem agrees_function :
  Agrees Meaning production P function (phrase .function) fun _ => True
  := by
  apply Agrees.phrase
  apply Agrees.node
  apply Agrees.accept_seq startsTable rfl (by decide)
  apply Agrees.expect_seq
  apply Agrees.expect_seq
  apply Agrees.seq agrees_parameterList _ fun _ _ => trivial
  apply Agrees.seq (I := fun a => (a.isAt .lBrace || a.isAt .semicolon) = true)
  · apply Agrees.whenNot
    · apply agrees_expression.mono (fun _ ha => ha)
      intro a ha
      rw [Bool.or_eq_true] at ha
      rcases ha with ha | ha
      · apply ended_of_isAt ha (by decide)
      · apply ended_of_isAt ha (by decide)
    · intro b c _ h
      apply h.isAtEither_eq startsTable rfl (by decide)
    · intro a ha
      apply ha
  · apply Agrees.branchAt startsTable rfl (by decide) rfl (by decide)
    · apply agrees_block
    · apply Agrees.expect
  · intro c d h _
    apply h.isAtEither_eq startsTable rfl (by decide)

/-! ### Types and values -/

/-- What may come after the value of something that is declared. -/
def AfterValue (a : Lookahead) : Prop :=
  a.isAt .semicolon = true ∨ a.isAt .comma = true ∨ a.isAt .rBrace = true

theorem AfterValue.ended {a : Lookahead} (h : AfterValue a) :
  Ended a
  := by
  rcases h with h | h | h
  · apply ended_of_isAt h (by decide)
  · apply ended_of_isAt h (by decide)
  · apply ended_of_isAt h (by decide)

theorem AfterValue.isAt_eq_false {a : Lookahead} (h : AfterValue a) {k : TokenKind}
    (hk : k ∉ [.semicolon, .comma, .rBrace]) :
  a.isAt k = false
  := by
  simp only [List.mem_cons, List.not_mem_nil, or_false, not_or] at hk
  obtain ⟨h₁, h₂, h₃⟩ := hk
  rcases h with h | h | h
  · apply Lookahead.isAt_eq_false h (Ne.symm h₁)
  · apply Lookahead.isAt_eq_false h (Ne.symm h₂)
  · apply Lookahead.isAt_eq_false h (Ne.symm h₃)

/-- A token that is known to come, and an expression. -/
theorem agrees_take_expression {k : TokenKind} :
  Agrees Meaning production (fun a => a.isAt k = true) (.take >> expression)
    (token k >> phrase .expression) Ended
  := Agrees.takeAt_seq (fun _ ha => ha) agrees_expression

/-- A type that is read by `r`, a value and something after them. -/
theorem agrees_type_value {r s : Rule Symbol} {p q : Pattern Phrase} {F : Lookahead → Prop}
    (hr : Agrees Meaning production (fun a => a.isAt .colon = true) r p Ended)
    (hp : p.nullable = false)
    (hstarts : ∀ k ∈ p.starts Phrase.starts, decide (k = .colon) = true)
    (hs : Agrees Meaning production (fun _ => True) s q F)
    (hq : ∀ {b c}, q.Spans production b c → F c.look → AfterValue b.look) :
  Agrees Meaning production P
    (when (·.isAt .colon) r >> when (·.isAt .eq) (.take >> expression) >> s)
    (maybe p >> value >> q) F
  := by
  apply Agrees.seq (I := fun a => a.isAt .eq = true ∨ AfterValue a)
  · apply Agrees.when
    · apply hr.mono
      · intro a ha
        apply ha.2
      · intro a ha
        rcases ha with ha | ha
        · apply ended_of_isAt ha (by decide)
        · apply ha.ended
    · intro b c _ h
      apply h.isAt_eq startsTable hp hstarts
    · intro a ha
      rcases ha with ha | ha
      · apply Lookahead.isAt_eq_false ha (by decide)
      · apply ha.isAt_eq_false (by decide)
  · apply Agrees.seq (I := AfterValue) _ hs hq
    apply Agrees.when
    · apply agrees_take_expression.mono
      · intro a ha
        apply ha.2
      · intro a ha
        apply ha.ended
    · intro b c _ h
      apply h.isAt_eq startsTable rfl (by decide)
    · intro a ha
      apply ha.isAt_eq_false (by decide)
  · intro c e h he
    obtain ⟨d, hvalue, hd⟩ := spans_seq.mp h
    rcases spans_maybe.mp hvalue with rfl | hvalue
    · apply Or.inr (hq hd he)
    · apply Or.inl (hvalue.isAt_eq startsTable rfl (by decide))

theorem agrees_mutability :
  Agrees Meaning production P (.branch (·.isAt .constKw) .take (expect .varKw))
    (oneOf [.constKw, .varKw]) fun _ => True
  := by
  apply Agrees.congr _ spans_oneOf_pair
  apply Agrees.branchAt startsTable rfl (by decide) rfl (by decide)
  · apply Agrees.takeAt
    intro a ha
    apply ha.2
  · apply Agrees.expect

theorem agrees_variableDeclaration :
  Agrees Meaning production P variableDeclaration (phrase .variableDecl) fun _ => True
  := by
  apply Agrees.phrase
  apply Agrees.node
  apply Agrees.accept_seq startsTable rfl (by decide)
  apply Agrees.seq agrees_mutability _ fun _ _ => trivial
  apply Agrees.expect_seq
  apply agrees_type_value
  · apply Agrees.node agrees_take_expression
  · rfl
  · decide
  · apply Agrees.expect
  · intro b c h _
    apply Or.inl h.isAt_of_token

/-- Where `pub` is not ahead, a variable or constant is one of a block. -/
theorem spans_localDecl (hb : b.look.isAt .pubKw = false) :
  (phrase .localDecl).Spans production b c ↔ (phrase .variableDecl).Spans production b c
  := by
  simp only [spans_phrase, production, spans_node, spans_seq (p := maybe (token .pubKw)),
    spans_maybe]
  constructor
  · rintro ⟨d, hd, rfl⟩
    use d, ⟨b.opened, Or.inl rfl, hd⟩
  · rintro ⟨d, ⟨e, rfl | he, hd⟩, rfl⟩
    · use d
    · have hpub : b.look.isAt .pubKw = true := he.isAt_of_token (b := b.opened)
      rw [hb] at hpub
      contradiction

/-! ### Statements -/

theorem agrees_returnStatement :
  Agrees Meaning production (fun a => a.isAt .returnKw = true) returnStatement
    (node .returnStmt (token .returnKw >> maybe (phrase .expression) >> token .semicolon))
    fun _ => True
  := by
  apply Agrees.node
  apply Agrees.takeAt_seq fun _ ha => ha
  apply Agrees.seq (I := fun a => a.isAt .semicolon = true)
  · apply Agrees.whenNot
    · apply agrees_expression.mono (fun _ ha => ha)
      intro a ha
      apply ended_of_isAt ha (by decide)
    · intro b c _ h
      apply h.isAt_eq startsTable rfl (by decide)
    · intro a ha
      apply ha
  · apply Agrees.expect
  · intro c d h _
    apply h.isAt_of_token

theorem agrees_expressionStatement {cause : Cause} :
  Agrees Meaning production P (expressionStatement.orReject cause) (phrase .expressionStatement)
    fun _ => True
  := by
  apply Agrees.orReject_branch
  apply Agrees.orFault
  · apply Agrees.orReject startsTable rfl
    apply Agrees.phrase
    apply Agrees.node
    apply agrees_expression_seq rfl (by decide) Agrees.expect
  · rintro b c ⟨rfl, hlt⟩
    omega
  · intro b c _ h
    apply h.isAny_eq startsTable rfl (by decide)

theorem agrees_statement {cause : Cause} :
  Agrees Meaning production P (statement.orReject cause) (phrase .statement) fun _ => True
  := by
  apply Agrees.phrase
  apply Agrees.orReject_branch
  apply Agrees.branch
  · apply Agrees.orReject startsTable rfl
    intro b c hb _
    rw [spans_localDecl]
    · apply agrees_variableDeclaration (P := fun _ => True) b c trivial trivial
    · apply Lookahead.isAt_eq_false_of_isAny hb.2 rfl
  · apply Agrees.orReject_branch
    apply Agrees.branchAt startsTable rfl (by decide) rfl (by decide)
    · apply Agrees.orReject startsTable rfl agrees_block
    · apply Agrees.orReject_branch
      apply Agrees.branchAt startsTable rfl (by decide) rfl (by decide)
      · apply Agrees.orReject startsTable rfl
        apply agrees_returnStatement.mono _ fun _ ha => ha
        intro a ha
        apply ha.2
      · apply agrees_expressionStatement
  · intro b c _ h
    apply h.isAny_eq startsTable rfl (by decide)
  · intro b c _ h
    apply h.isAny_eq startsTable rfl (by decide)

theorem agrees_block_body :
  Agrees Meaning production P block (phrase .block) fun _ => True
  := by
  apply Agrees.phrase
  apply Agrees.node
  apply Agrees.expect_seq
  apply Agrees.seq (I := fun a => a.isAt .rBrace = true)
  · apply Agrees.loop (I := fun _ => True) agrees_statement
    · intro b c h
      apply h.isBefore startsTable rfl (by decide)
    · intro b c _
      trivial
    · intro a ha
      simp [Lookahead.isBefore, ha]
  · apply Agrees.expect
  · intro c d h _
    apply h.isAt_of_token

/-! ### Choices by keyword -/

/-- After `pub`, if it is there, the next token is the keyword. -/
theorem keyword_of_spans {ks : List TokenKind} {q : Pattern Phrase} (hks : .pubKw ∉ ks)
    (h : (maybe (token .pubKw) >> oneOf ks >> q).Spans production b c) :
  ∃ k ∈ ks, b.look.keyword = some k
  := by
  obtain ⟨d, hpub, h⟩ := spans_seq.mp h
  obtain ⟨e, htoken, -⟩ := spans_seq.mp h
  obtain ⟨k, hk, hlook⟩ := htoken.look_first startsTable rfl
  use k, hk
  rcases spans_maybe.mp hpub with rfl | hpub
  · have hne : d.look.isAt .pubKw = false := by
      apply Lookahead.isAt_eq_false (Lookahead.isAt_iff.mpr hlook)
      rintro rfl
      contradiction
    simpa [Lookahead.keyword, hne] using hlook
  · rw [Lookahead.keyword, if_pos hpub.isAt_of_token, ← hpub.look_second, hlook]

theorem keyword_of_function (h : (phrase .function).Spans production b c) :
  b.look.keyword = some .fnKw
  := by
  obtain ⟨d, hd, -⟩ := spans_node.mp (spans_phrase.mp h)
  obtain ⟨k, hk, hkeyword⟩ := keyword_of_spans (by decide) hd
  rw [List.mem_singleton] at hk
  rw [← hk, ← hkeyword]
  rfl

theorem keyword_of_variableDecl (h : (phrase .variableDecl).Spans production b c) :
  b.look.keyword.any isMutability = true
  := by
  obtain ⟨d, hd, -⟩ := spans_node.mp (spans_phrase.mp h)
  obtain ⟨k, hk, hkeyword⟩ := keyword_of_spans (by decide) hd
  have hkeyword : b.look.keyword = some k := hkeyword
  simp only [List.mem_cons, List.not_mem_nil, or_false] at hk
  rcases hk with rfl | rfl
  · simp [hkeyword, isMutability]
  · simp [hkeyword, isMutability]

/-- Without `pub` the keyword is the next token. -/
theorem keyword_of_starts {p : Pattern Phrase} (hp : p.nullable = false)
    (hk : ∀ k ∈ p.starts Phrase.starts, decide (k = .pubKw) = false)
    (h : p.Spans production b c) :
  ∃ k ∈ p.starts Phrase.starts, b.look.keyword = some k
  := by
  obtain ⟨k, hk', hlook⟩ := h.look_first startsTable hp
  use k, hk'
  rw [Lookahead.keyword, h.isAt_eq startsTable hp hk]
  apply hlook

/-- A function, a constant or variable, or something that starts with another keyword. -/
theorem agrees_declarationOr {other : Rule Symbol} {p : Pattern Phrase} {F : Lookahead → Prop}
    {cause : Cause} (hp : p.nullable = false)
    (hk : ∀ k ∈ p.starts Phrase.starts, decide (k = .pubKw) = false ∧ k ≠ .fnKw
      ∧ isMutability k = false)
    (hother : Agrees Meaning production (fun _ => True) (other.orReject cause) p F) :
  Agrees Meaning production P ((declarationOr other).orReject cause)
    (phrase .function <|> phrase .variableDecl <|> p) F
  := by
  have hkeyword : ∀ {b c}, p.Spans production b c →
      ∃ k, b.look.keyword = some k ∧ k ≠ .fnKw ∧ isMutability k = false := by
    intro b c h
    obtain ⟨k, hk', hkeyword⟩ := keyword_of_starts hp (fun k hk' => (hk k hk').1) h
    use k, hkeyword, (hk k hk').2.1, (hk k hk').2.2
  apply Agrees.orReject_branch
  apply Agrees.branch
  · apply Agrees.orReject startsTable rfl
    apply agrees_function.mono (fun _ ha => ha) fun _ _ => trivial
  · apply Agrees.orReject_branch
    apply Agrees.branch
    · apply Agrees.orReject startsTable rfl
      apply agrees_variableDeclaration.mono (fun _ ha => ha) fun _ _ => trivial
    · apply hother.mono (fun _ _ => trivial) fun _ ha => ha
    · intro b c _ h
      apply keyword_of_variableDecl h
    · intro b c _ h
      obtain ⟨k, hkeyword, -, hne⟩ := hkeyword h
      simp [hkeyword, hne]
  · intro b c _ h
    simp [keyword_of_function h]
  · intro b c _ h
    rcases spans_either.mp h with h | h
    · have hmutability := keyword_of_variableDecl h
      by_contra hfn
      simp only [Bool.not_eq_false, decide_eq_true_eq] at hfn
      simp [hfn, isMutability] at hmutability
    · obtain ⟨k, hkeyword, hne, -⟩ := hkeyword h
      simp [hkeyword, hne]

theorem agrees_item {cause : Cause} :
  Agrees Meaning production P (item.orReject cause) (phrase .item) fun _ => True
  := by
  apply Agrees.phrase
  apply agrees_declarationOr rfl (by decide) agrees_expressionStatement

/-! ### Containers -/

/-- A field whose end is read as `q`. -/
theorem agrees_field {q : Pattern Phrase} {F : Lookahead → Prop}
    (htail : Agrees Meaning production (fun _ => True)
      (whenNot (·.isAt .rBrace) (expect .comma)) q F)
    (hq : ∀ {b c}, q.Spans production b c → F c.look → AfterValue b.look) :
  Agrees Meaning production (fun a => a.isAt .ident = true) Construct.field (Phrase.field q) F
  := by
  apply Agrees.node
  apply Agrees.takeAt_seq fun _ ha => ha
  apply agrees_type_value agrees_take_expression rfl (by decide) htail hq

/-- A field never starts with `pub`, though the keyword is a name then. -/
theorem isAt_ident_of_field (hb : b.look.keyword = some .ident)
    (h : Construct.field.Reads Meaning b c) :
  b.look.isAt .ident = true
  := by
  by_contra hident
  have hpub : b.look.isAt .pubKw = true := by
    by_contra hpub
    rw [Lookahead.keyword, if_neg hpub] at hb
    apply hident (Lookahead.isAt_iff.mpr hb)
  rw [Lookahead.keyword, if_pos hpub] at hb
  obtain ⟨e, ⟨d, hd, f, htype, g, hvalue, htail⟩, -⟩ := h
  have htake : Agrees Meaning production (fun a => a.isAt .pubKw = true) .take (token .pubKw)
      fun _ => True := Agrees.takeAt fun _ ha => ha
  have hnext : d.look.isAt .ident = true := by
    rw [Lookahead.isAt_iff, ((htake b.opened d hpub trivial).mp hd).look_second]
    apply hb
  -- after the name that follows `pub` nothing is read but a comma, which is not there
  obtain rfl : f = d :=
    (reads_branch_of_false (Lookahead.isAt_eq_false hnext (by decide))).mp htype
  obtain rfl : g = f :=
    (reads_branch_of_false (Lookahead.isAt_eq_false hnext (by decide))).mp hvalue
  have hcomma := (reads_branch_of_false (Lookahead.isAt_eq_false hnext (by decide))).mp htail
  apply (reads_branch_of_false (Lookahead.isAt_eq_false hnext (by decide))).mp hcomma

/-- A member, where the end of a field is read as `q`. -/
theorem agrees_member {q : Pattern Phrase} {F : Lookahead → Prop}
    (htail : Agrees Meaning production (fun _ => True)
      (whenNot (·.isAt .rBrace) (expect .comma)) q F)
    (hq : ∀ {b c}, q.Spans production b c → F c.look → AfterValue b.look) :
  Agrees Meaning production P member
    (phrase .function <|> phrase .variableDecl <|> Phrase.field q) F
  := by
  have hstarts : (Phrase.field q).starts Phrase.starts = [.ident] := rfl
  apply agrees_declarationOr rfl
  · rw [hstarts]
    decide
  apply Agrees.orReject_branch
  apply Agrees.orFault
  · apply Agrees.orReject startsTable rfl
    intro b c hb hc
    have hkeyword : b.look.keyword = some .ident := by simpa using hb.2
    constructor
    · intro h
      apply (agrees_field htail hq b c (isAt_ident_of_field hkeyword h) hc).mp h
    · intro h
      apply (agrees_field htail hq b c _ hc).mpr h
      apply h.isAt_eq startsTable rfl
      rw [hstarts]
      decide
  · rintro b c ⟨rfl, hlt⟩
    omega
  · intro b c _ h
    obtain ⟨k, hk, hkeyword⟩ := keyword_of_starts rfl (by rw [hstarts]; decide) h
    rw [hstarts, List.mem_singleton] at hk
    simp [hkeyword, hk]

theorem spans_field_maybe {q : Pattern Phrase} :
  (Phrase.field (maybe q)).Spans production b c
    ↔ (Phrase.field q).Spans production b c ∨ (Phrase.field nothing).Spans production b c
  := by
  simp only [Phrase.field, spans_node, spans_seq, spans_maybe (p := q), spans_nothing]
  constructor
  · rintro ⟨d, ⟨e, hname, f, htype, g, hvalue, hq | hq⟩, rfl⟩
    · apply Or.inr ⟨d, ⟨e, hname, f, htype, g, hvalue, hq⟩, rfl⟩
    · apply Or.inl ⟨d, ⟨e, hname, f, htype, g, hvalue, hq⟩, rfl⟩
  · rintro (⟨d, ⟨e, hname, f, htype, g, hvalue, hq⟩, rfl⟩
      | ⟨d, ⟨e, hname, f, htype, g, hvalue, hq⟩, rfl⟩)
    · use d, ⟨e, hname, f, htype, g, hvalue, Or.inr hq⟩
    · use d, ⟨e, hname, f, htype, g, hvalue, Or.inl hq⟩

/-- Only before the end of the container a field may have no comma after it. -/
theorem reads_member :
  member.Reads Meaning b c
    ↔ (phrase .member).Spans production b c
      ∨ (Phrase.field nothing).Spans production b c ∧ c.look.isAt .rBrace = true
  := by
  rw [spans_phrase, production]
  cases hc : c.look.isAt .rBrace with
  | true =>
    have hmember : Agrees Meaning production (fun _ => True) member
        (phrase .function <|> phrase .variableDecl <|> Phrase.field (maybe (token .comma)))
        fun a => a.isAt .rBrace = true := by
      apply agrees_member
      · apply Agrees.whenNot
        · apply Agrees.expect
        · intro b c _ h
          apply Lookahead.isAt_eq_false h.isAt_of_token (by decide)
        · intro a ha
          apply ha
      · intro b c h hc
        rcases spans_maybe.mp h with rfl | h
        · apply Or.inr (Or.inr hc)
        · apply Or.inr (Or.inl h.isAt_of_token)
    rw [hmember b c trivial hc]
    simp only [spans_either, spans_field_maybe, and_true, or_assoc]
  | false =>
    have hmember : Agrees Meaning production (fun _ => True) member
        (phrase .function <|> phrase .variableDecl <|> Phrase.field (token .comma))
        fun a => a.isAt .rBrace = false := by
      apply agrees_member
      · intro b c _ hc
        cases hb : b.look.isAt .rBrace with
        | true =>
          rw [whenNot, reads_branch_of_true hb]
          constructor
          · rintro rfl
            rw [hb] at hc
            contradiction
          · intro h
            rw [Lookahead.isAt_eq_false h.isAt_of_token (by decide)] at hb
            contradiction
        | false =>
          rw [whenNot, reads_branch_of_false hb]
          apply Agrees.expect (P := fun _ => True) (F := fun _ => True) b c trivial trivial
      · intro b c h _
        apply Or.inr (Or.inl h.isAt_of_token)
    rw [hmember b c trivial hc]
    simp

theorem agrees_members :
  Agrees Meaning production P (Rule.many .rBrace member)
    (Pattern.many (phrase .member) >> maybe (Phrase.field nothing)) fun a => a.isAt .rBrace = true
  := by
  intro b c hb hc
  clear hb
  have hstop : c.look.isBefore .rBrace = false := by
    simp [Lookahead.isBefore, hc]
  constructor
  · rintro ⟨h, -⟩
    induction h using ReflTransGen.head_induction_on with
    | refl => apply spans_seq.mpr ⟨c, spans_many.mpr .refl, spans_maybe.mpr (Or.inl rfl)⟩
    | @head b d hstep hsteps ih =>
      rcases reads_member.mp hstep.2 with hmember | ⟨hfield, hd⟩
      · obtain ⟨e, hmany, hmaybe⟩ := spans_seq.mp ih
        apply spans_seq.mpr ⟨e, spans_many.mpr (.head hmember (spans_many.mp hmany)), hmaybe⟩
      · rcases ReflTransGen.cases_head hsteps with rfl | ⟨e, hstep', -⟩
        · apply spans_seq.mpr ⟨b, spans_many.mpr .refl, spans_maybe.mpr (Or.inr hfield)⟩
        · have hbefore := hstep'.1
          simp [Lookahead.isBefore, hd] at hbefore
  · intro h
    obtain ⟨d, hmany, hmaybe⟩ := spans_seq.mp h
    use ?_, hstop
    apply ReflTransGen.trans (b := d)
    · apply ReflTransGen.mono _ b d (spans_many.mp hmany)
      intro b c hmember
      use hmember.isBefore startsTable rfl (by decide)
      apply reads_member.mpr (Or.inl hmember)
    · rcases spans_maybe.mp hmaybe with rfl | hfield
      · apply ReflTransGen.refl
      · apply ReflTransGen.single
        use hfield.isBefore startsTable rfl (by decide)
        apply reads_member.mpr (Or.inr ⟨hfield, hc⟩)

theorem agrees_container :
  Agrees Meaning production P container (phrase .container) fun _ => True
  := by
  apply Agrees.phrase
  apply Agrees.node
  apply Agrees.expect_seq
  apply Agrees.expect_seq
  apply Agrees.congr _ spans_seq_assoc.symm
  apply Agrees.seq agrees_members Agrees.expect
  intro c d h _
  apply h.isAt_of_token

end Construct

end InlayHints

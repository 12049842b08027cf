import InlayHints.Proofs.Syntax.Levels
import InlayHints.Proofs.Syntax.Reconstruction
import InlayHints.Proofs.Syntax.Token.Spacing

/-!
# Recovery from deep nesting

Parentheses, prefix operators and blocks are nested in a declaration to any depth that leaves the
text short enough to be read.  As long as they nest no deeper than they may, the file has no
faults.  Beyond that the nesting gets too deep just once: what is too deep is skipped as one error
node, up to the token that the innermost construct still waits for, and reading goes on as if the
piece had been read.  So the file always has one item that spans it, and at most one fault
(`SourceFile.nesting_recovers`).

How deep a construct nests is known from `Construct.Nests`.  Here it becomes the value of a
constant or the body of a function, and these become the text of a file.
-/

namespace InlayHints

namespace Construct

open Rule

/-! ### Declarations -/

def constKeyword : Token := ⟨.constKw, "const"⟩

def fnKeyword : Token := ⟨.fnKw, "fn"⟩

def equals : Token := ⟨.eq, "="⟩

def semicolon : Token := ⟨.semicolon, ";"⟩

def name (text : String) : Token := ⟨.ident, text⟩

/-- The declaration of a constant. -/
def constant (x : String) (value : List Token) : List Token :=
  constKeyword :: name x :: equals :: (value ++ [semicolon])

/-- The declaration of a function `f` without parameters and with the result `void`. -/
def procedure (body : List Token) : List Token :=
  fnKeyword :: name "f" :: leftParen :: rightParen :: name "void" :: body

/-- The tokens `ts` are read as a file with one item, a node of the given kind.  If `fits` then no
fault is noted and there is no error node in it; otherwise the nesting gets too deep once, and
there is one error node in it. -/
def FileIf (levels : Nat) (kind : NodeKind) (ts : List Token) (fits : Prop) [Decidable fits] :
    Prop :=
  ∃ cs, (Tree.node kind cs).countNodes .error = (overflow fits).length
    ∧ file.Results (grammar.read levels) ⟨ts, []⟩ (overflow fits) ⟨[], [.node kind cs]⟩

section

variable {levels : Nat} {ts : List Token} {fits : Prop} [Decidable fits]

/-- A single item is a file. -/
theorem results_file {causes : List Cause} {out : List Tree} (hne : ts ≠ [])
    (h : item.Results (grammar.read levels) ⟨ts, []⟩ causes ⟨[], out⟩) :
  file.Results (grammar.read levels) ⟨ts, []⟩ causes ⟨[], out⟩
  := by
  have htakes := State.kept_takes.read grammar levels
  have hlt : ([] : List Token).length < ts.length := List.length_pos_iff.mpr hne
  have hitem := h.orReject htakes hlt .strayAtTop
  obtain ⟨u, us, rfl⟩ := List.exists_cons_of_ne_nil hne
  apply hitem.loop_once htakes rfl hlt rfl

/-- An expression as the value of a constant. -/
theorem NestsIf.constant (h : NestsIf levels (.expression 0) ts fits) (x : String) :
  FileIf levels .varDecl (constant x ts) fits
  := by
  obtain ⟨t, ht, hreads⟩ := h
  refine ⟨[.token semicolon, t, .token equals, .token (name x), .token constKeyword].reverse,
    by simpa using ht, results_file (List.cons_ne_nil _ _) ?_⟩
  have hvalue := (hreads [semicolon] [.token equals, .token (name x), .token constKeyword]
    rfl).after (results_take _ _ _)
  apply Results.branch_false rfl
  apply Results.branch_true rfl
  apply Results.node
  refine Results.after ?_ (Results.when_false rfl)
  refine Results.after ?_ (Results.branch_true rfl (results_take _ _ _))
  refine Results.after ?_ (Results.expect_take rfl _ _)
  refine Results.after ?_ (Results.when_false rfl)
  exact Results.before (Results.branch_true rfl hvalue) (Results.expect_take rfl _ _)

theorem results_noParameters (levels : Nat) (ts : List Token) (out : List Tree) :
  parameterList.Results (grammar.read levels) ⟨leftParen :: rightParen :: ts, out⟩ []
    ⟨ts, .node .paramList [.token leftParen, .token rightParen] :: out⟩
  := (((Results.expect_take rfl _ _).after (Results.when_false rfl)).after
    (Results.expect_take rfl _ _)).node .paramList out

/-- The result of a function is read up to the brace that its body starts with. -/
theorem results_void (levels : Nat) (ts : List Token) (out : List Tree) :
  expression.Results (grammar.read (levels + 2)) ⟨name "void" :: leftBrace :: ts, out⟩ []
    ⟨leftBrace :: ts, .node .nameRef [.token (name "void")] :: out⟩
  := by
  apply results_expression rfl
  apply results_operand rfl (by decide) rfl rfl
  apply Results.branch_true rfl
  exact (results_take _ _ _).node .nameRef []

/-- A block as the body of a function. -/
theorem NestsIf.procedure (h : NestsIf (levels + 2) .block ts fits)
    (hbrace : ts.head? = some leftBrace) :
  FileIf (levels + 2) .fnDecl (procedure ts) fits
  := by
  obtain ⟨ts, rfl⟩ := List.head?_eq_some_iff.mp hbrace
  obtain ⟨t, ht, hreads⟩ := h
  refine ⟨[t, .node .nameRef [.token (name "void")],
      .node .paramList [.token leftParen, .token rightParen], .token (name "f"),
      .token fnKeyword].reverse,
    by simpa using ht, results_file (List.cons_ne_nil _ _) ?_⟩
  have hbody (out : List Tree) : (nested Symbol.block).Results (grammar.read (levels + 2))
      ⟨leftBrace :: ts, out⟩ (overflow fits) ⟨[], t :: out⟩ := by
    have hread := hreads [] out rfl
    rwa [List.append_nil] at hread
  apply Results.branch_true rfl
  apply Results.node
  refine Results.after ?_ (Results.when_false rfl)
  refine Results.after ?_ (Results.expect_take rfl _ _)
  refine Results.after ?_ (Results.expect_take rfl _ _)
  refine Results.after ?_ (results_noParameters _ _ _)
  refine Results.after ?_ (Results.branch_false rfl (results_void levels ts _))
  exact Results.branch_true rfl (hbody _)

end

/-! ### Texts -/

open Lexer Token

theorem parens_eq (n : Nat) :
  parens n = List.replicate n leftParen ++ one :: List.replicate n rightParen
  := by
  induction n with
  | zero => rfl
  | succ n ih =>
    rw [parens, ih, List.append_assoc, List.cons_append, ← List.replicate_succ']
    rfl

theorem stars_eq (n : Nat) :
  stars n = List.replicate n star ++ [one]
  := by
  induction n with
  | zero => rfl
  | succ n ih =>
    rw [stars, ih]
    rfl

theorem blocks_eq (n : Nat) :
  blocks n = List.replicate (n + 1) leftBrace ++ List.replicate (n + 1) rightBrace
  := by
  induction n with
  | zero => rfl
  | succ n ih =>
    rw [blocks, ih, List.append_assoc, ← List.replicate_succ']
    rfl

theorem significant_replicate {t : Token} (h : t.isTrivia = false) (n : Nat) :
  significant (List.replicate n t) = List.replicate n t
  := List.filter_replicate_of_pos (by rw [h]; rfl)

theorem significant_parens (n : Nat) :
  significant (parens n) = parens n
  := by
  rw [parens_eq, significant_append, significant_replicate rfl, List.append_cancel_left_eq]
  exact congrArg (one :: ·) (significant_replicate rfl n)

theorem significant_stars (n : Nat) :
  significant (stars n) = stars n
  := by
  rw [stars_eq, significant_append, significant_replicate rfl]
  rfl

theorem significant_blocks (n : Nat) :
  significant (blocks n) = blocks n
  := by
  rw [blocks_eq, significant_append, significant_replicate rfl, significant_replicate rfl]

section

variable {cs : List Char} {ts : List Token}

theorem cuts_one (h : Cuts cs ts) (hcs : ∀ c ∈ cs.head?, isNumberPart c = false) :
  Cuts ('1' :: cs) (one :: ts)
  := h.number (t := one) (mem_intNumber.mpr ⟨'1', [], rfl, rfl, List.forall_mem_nil _⟩) rfl hcs

theorem cuts_blank (h : Cuts cs ts) (hcs : ∀ c ∈ cs.head?, isBlank c = false) :
  Cuts (' ' :: cs) (blank :: ts)
  := h.blank rfl hcs

theorem cuts_parens (n : Nat) :
  Cuts (List.replicate n '(' ++ '1' :: (List.replicate n ')' ++ [';'])) (parens n ++ [semicolon])
  := by
  have hclose := (Cuts.nil.mark (t := semicolon) rfl).replicate_mark (t := rightParen) rfl rfl n
  have hone := cuts_one hclose (forall_head?_replicate rfl (forall_head?_cons rfl) n)
  rw [parens_eq, List.append_assoc]
  exact hone.replicate_mark rfl rfl n

theorem cuts_stars (n : Nat) :
  Cuts (List.replicate n '*' ++ ['1', ';']) (stars n ++ [semicolon])
  := by
  have hone := cuts_one (Cuts.nil.mark (t := semicolon) rfl) (forall_head?_cons rfl)
  rw [stars_eq, List.append_assoc]
  exact hone.replicate_mark rfl rfl n

theorem cuts_blocks (n : Nat) :
  Cuts (List.replicate (n + 1) '{' ++ List.replicate (n + 1) '}') (blocks n)
  := by
  have hclose := Cuts.nil.replicate_mark (t := rightBrace) rfl rfl (n + 1)
  have hboth := hclose.replicate_mark (t := leftBrace) rfl rfl (n + 1)
  rw [List.append_nil, List.append_nil] at hboth
  rw [blocks_eq]
  exact hboth

/-- A constant up to its value, with blanks between the tokens. -/
theorem cuts_constant {x : String} (hx : x.toList ∈ language .ident) (hkeyword : keyword? x = none)
    (h : Cuts cs ts) (hcs : ∀ c ∈ cs.head?, isBlank c = false) :
  Cuts ("const ".toList ++ (x.toList ++ (" = ".toList ++ cs)))
    (constKeyword :: blank :: name x :: blank :: equals :: blank :: ts)
  := by
  have hkind : (name x).kind = (keyword? x).getD .ident := by
    rw [hkeyword]
    rfl
  have hsign := (cuts_blank h hcs).mark (t := equals) rfl
  have hname := (cuts_blank hsign (forall_head?_cons rfl)).word (t := name x) hx hkind
    (forall_head?_cons rfl)
  have hblank := cuts_blank hname (isBlank_head_of_mem_ident hx)
  exact hblank.word (t := constKeyword) (mem_ident_of_all rfl) rfl (forall_head?_cons rfl)

/-- A function up to its body, with blanks between the tokens. -/
theorem cuts_procedure (h : Cuts cs ts) (hcs : ∀ c ∈ cs.head?, isBlank c = false) :
  Cuts ("fn f() void ".toList ++ cs)
    (fnKeyword :: blank :: name "f" :: leftParen :: rightParen :: blank :: name "void" :: blank
      :: ts)
  := by
  have hresult := (cuts_blank h hcs).word (t := name "void") (mem_ident_of_all rfl) rfl
    (forall_head?_cons rfl)
  have hclose := (cuts_blank hresult (forall_head?_cons rfl)).mark (t := rightParen) rfl
  have hopen := hclose.mark (t := leftParen) rfl
  have hname := hopen.word (t := name "f") (mem_ident_of_all rfl) rfl (forall_head?_cons rfl)
  have hblank := cuts_blank hname (forall_head?_cons rfl)
  exact hblank.word (t := fnKeyword) (mem_ident_of_all rfl) rfl (forall_head?_cons rfl)

end

end Construct

namespace SourceFile

open Construct Lexer Token

/-! ### Files -/

/-- A file has one item, which is a node of the given kind and spans the file.  If `fits` then no
fault is noted and there is no error node; otherwise the nesting gets too deep once, nothing else
is noted, and there is one error node. -/
structure Recovers (f : SourceFile) (kind : NodeKind) (fits : Prop) [Decidable fits] : Prop where
  messages : f.parse.faults.map (·.cause.message) = if fits then [] else ["nesting too deep"]
  errors : f.root.descendants.countP (·.kind = .node .error) = if fits then 0 else 1
  item : ∃ item, f.root.elements = [item] ∧ item.kind = .node kind
    ∧ item.start = f.range.start ∧ item.stop = f.range.stop

section

variable {text : String} {kind : NodeKind} {ts : List Token} {depth : Nat} {fits fits' : Prop}
variable [Decidable fits] [Decidable fits']

theorem Recovers.congr {f : SourceFile} (h : f.Recovers kind fits) (hfits : fits ↔ fits') :
  f.Recovers kind fits'
  where
  messages := h.messages.trans (if_congr hfits rfl rfl)
  errors := h.errors.trans (if_congr hfits rfl rfl)
  item := h.item

theorem map_message_overflow :
  (overflow fits).map Cause.message = if fits then [] else ["nesting too deep"]
  := by
  rw [overflow]
  split
  · rfl
  · rfl

theorem length_overflow :
  (overflow fits).length = if fits then 0 else 1
  := by
  rw [overflow]
  split
  · rfl
  · rfl

/-- A text recovers if its significant tokens are read as one item, and if there is no trivia
around them. -/
theorem recovers_of_fileIf (hsize : text.utf8ByteSize ≤ countLimit)
    (h : FileIf nestingLimit kind (significant (lex text)) fits)
    (hfirst : ∀ t ∈ (lex text).head?, t.isTrivia = false) (hlast : EndsSignificant (lex text)) :
  (ofText text).Recovers kind fits
  := by
  obtain ⟨cs, hcount, hresults⟩ := h
  obtain ⟨hbare, hcauses⟩ := hresults (.start (lex text)) rfl
  have hread : (ofText text).parse = Parse.ofTokens (lex text) := Parse.ofText_of_le hsize
  have hsift : (ofText text).parse.tree.sift = .node .sourceFile [.node kind cs] := by
    calc (ofText text).parse.tree.sift
      _ = .node .sourceFile (Parse.finalState (lex text)).bare.out.reverse := by
        rw [hread, Parse.sift_ofTokens]
      _ = .node .sourceFile [.node kind cs] := by rw [Parse.bare_finalState, hbare]; rfl
  have hfaults : (ofText text).parse.faults.map Fault.cause = overflow fits := by
    calc (ofText text).parse.faults.map Fault.cause
      _ = (State.causes (file.run (grammar.read nestingLimit) (.start (lex text)))).reverse := by
        rw [hread]
        apply List.map_reverse
      _ = overflow fits := by rw [hcauses, List.reverse_append, List.reverse_reverse]; rfl
  constructor
  · rw [← map_message_overflow, ← hfaults, List.map_map]
    rfl
  · rw [Site.countP_descendants, ← length_overflow, ← hcount]
    calc (ofText text).parse.tree.countNodes .error
      _ = (ofText text).parse.tree.sift.countNodes .error := (Tree.countNodes_sift _ _).symm
      _ = (Tree.node kind cs).countNodes .error := by rw [hsift]; simp
  · obtain ⟨ds, hds⟩ : ∃ ds, (ofText text).parse.tree = .node .sourceFile ds :=
      Parse.exists_children text
    have htokens : ds.flatMap Tree.tokens = lex text := by
      rw [← Tree.tokens_node .sourceFile, ← hds]
      apply Parse.tokens_ofText hsize
    rw [hds, Tree.sift_node] at hsift
    obtain ⟨es, rfl⟩ := Tree.eq_singleton_of_siftAll (Tree.node.inj hsift).2
      (by rwa [htokens]) (by rwa [htokens])
    refine ⟨⟨0, .node kind es, [⟨.sourceFile, [], []⟩]⟩, ?_, rfl, rfl, ?_⟩
    · rw [root, hds]
      rfl
    · rw [List.flatMap_singleton] at htokens
      rw [Site.stop, Tree.width_eq, htokens, totalWidth_lex hsize]
      rfl

theorem recovers_constant (hsize : text.utf8ByteSize ≤ countLimit) {x : String}
    {value : List Char} (hx : x.toList ∈ language .ident)
    (hkeyword : keyword? x = none)
    (htext : text.toList = "const ".toList ++ (x.toList ++ (" = ".toList ++ value)))
    (hcuts : Cuts value (ts ++ [semicolon])) (hvalue : ∀ c ∈ value.head?, isBlank c = false)
    (hts : significant ts = ts) (h : Nests (.expression 0) ts depth) :
  (ofText text).Recovers .varDecl (depth ≤ nestingLimit)
  := by
  have hlex : lex text
      = constKeyword :: blank :: name x :: blank :: equals :: blank :: (ts ++ [semicolon]) := by
    have hall := cuts_lex hsize
    rw [htext] at hall
    exact hall.unique (cuts_constant hx hkeyword hcuts hvalue)
  have hsignificant : significant (lex text) = constant x ts := by
    have hend : significant (ts ++ [semicolon]) = ts ++ [semicolon] := by
      rw [significant_append, hts]
      rfl
    rw [hlex]
    exact congrArg (fun us => constKeyword :: name x :: equals :: us) hend
  have hlast : EndsSignificant [semicolon] := ⟨semicolon, rfl, rfl⟩
  apply recovers_of_fileIf hsize
  · rw [hsignificant]
    apply (h.reads nestingLimit).constant
  · rw [hlex]
    rintro _ ⟨⟩
    rfl
  · rw [hlex]
    exact hlast.append_left (_ :: _ :: _ :: _ :: _ :: _ :: ts)

theorem recovers_procedure (hsize : text.utf8ByteSize ≤ countLimit) {body : List Char}
    (htext : text.toList = "fn f() void ".toList ++ body) (hcuts : Cuts body ts)
    (hbody : ∀ c ∈ body.head?, isBlank c = false) (hbrace : ts.head? = some leftBrace)
    (hlast : EndsSignificant ts) (hts : significant ts = ts) (h : Nests .block ts depth) :
  (ofText text).Recovers .fnDecl (depth ≤ nestingLimit)
  := by
  have hlex : lex text = fnKeyword :: blank :: name "f" :: leftParen :: rightParen :: blank
      :: name "void" :: blank :: ts := by
    have hall := cuts_lex hsize
    rw [htext] at hall
    exact hall.unique (cuts_procedure hcuts hbody)
  have hsignificant : significant (lex text) = procedure ts := by
    rw [hlex]
    exact congrArg procedure hts
  apply recovers_of_fileIf hsize
  · rw [hsignificant]
    exact (h.reads nestingLimit).procedure hbrace
  · rw [hlex]
    rintro _ ⟨⟩
    rfl
  · rw [hlex]
    exact hlast.append_left [_, _, _, _, _, _, _, _]

/-- A file that is not read has no item. -/
theorem not_recovers_of_lt (h : countLimit < text.utf8ByteSize) :
  ¬ (ofText text).Recovers kind fits
  := by
  intro hrecovers
  obtain ⟨item, hitem, -⟩ := hrecovers.item
  rw [elements_root_of_lt h] at hitem
  contradiction

end

/-! ### The limit -/

/-- The declaration of a constant in `n` pairs of parentheses. -/
def parensText (n : Nat) : String :=
  "const x = " ++ repeated '(' n ++ "1" ++ repeated ')' n ++ ";"

/-- The declaration of a constant behind `n` prefix operators. -/
def starsText (n : Nat) : String := "const p = " ++ repeated '*' n ++ "1;"

/-- A function whose body is `n` blocks in each other. -/
def blocksText (n : Nat) : String := "fn f() void " ++ repeated '{' n ++ repeated '}' n

/-- A pair of parentheses takes two levels. -/
theorem recovers_parens {n : Nat} (hsize : (parensText n).utf8ByteSize ≤ countLimit) :
  (ofText (parensText n)).Recovers .varDecl (n ≤ 255)
  := by
  have hlimit : 2 * n + 2 ≤ nestingLimit ↔ n ≤ 255 := by
    rw [nestingLimit]
    omega
  refine Recovers.congr ?_ hlimit
  apply recovers_constant hsize (x := "x") (mem_ident_of_all rfl) rfl _ (cuts_parens n)
    (forall_head?_replicate rfl (forall_head?_cons rfl) n) (significant_parens n) (nests_parens n)
  simp [parensText, toList_repeated]

/-- A prefix operator takes one level, and the value that they stand in another one. -/
theorem recovers_stars {n : Nat} (hsize : (starsText n).utf8ByteSize ≤ countLimit) :
  (ofText (starsText n)).Recovers .varDecl (n ≤ 510)
  := by
  have hlimit : n + 1 + 1 ≤ nestingLimit ↔ n ≤ 510 := by
    rw [nestingLimit]
    omega
  refine Recovers.congr ?_ hlimit
  apply recovers_constant hsize (x := "p") (mem_ident_of_all rfl) rfl _ (cuts_stars n)
    (forall_head?_replicate rfl (forall_head?_cons rfl) n) (significant_stars n)
    (nests_stars n).expression
  simp [starsText, toList_repeated]

/-- A block takes one level. -/
theorem recovers_blocks {n : Nat} (hsize : (blocksText (n + 1)).utf8ByteSize ≤ countLimit) :
  (ofText (blocksText (n + 1))).Recovers .fnDecl (n + 1 ≤ 512)
  := by
  apply recovers_procedure hsize _ (cuts_blocks n) (forall_head?_cons rfl) _ _
    (significant_blocks n) (nests_blocks n)
  · simp [blocksText, toList_repeated]
  · rw [blocks_eq]
    rfl
  · rw [blocks_eq]
    apply EndsSignificant.append_left
    rw [List.replicate_succ']
    apply EndsSignificant.append_left ⟨rightBrace, rfl, rfl⟩

/-- Parentheses and prefix operators in the value of a constant, and blocks in the body of a
function, may nest to any depth as long as the text is not too long: the file has one item that
spans it, and up to a limit no fault and no error node, beyond it one of each. -/
theorem nesting_recovers (n : Nat) :
  ((parensText n).utf8ByteSize ≤ countLimit →
      (ofText (parensText n)).Recovers .varDecl (n ≤ 255))
    ∧ ((starsText n).utf8ByteSize ≤ countLimit →
      (ofText (starsText n)).Recovers .varDecl (n ≤ 510))
    ∧ (1 ≤ n → (blocksText n).utf8ByteSize ≤ countLimit →
      (ofText (blocksText n)).Recovers .fnDecl (n ≤ 512))
  := by
  refine ⟨recovers_parens, recovers_stars, fun hn hsize => ?_⟩
  obtain ⟨m, rfl⟩ := Nat.exists_eq_succ_of_ne_zero (Nat.ne_zero_of_lt hn)
  exact recovers_blocks hsize

/-- One block more than the limit allows. -/
theorem nesting_recovers_beyond :
  1 ≤ 513 ∧ (blocksText 513).utf8ByteSize ≤ countLimit
    ∧ (ofText (blocksText 513)).parse.faults.map (·.cause.message) = ["nesting too deep"]
  := by
  have hsize : (blocksText 513).utf8ByteSize ≤ countLimit := by
    rw [blocksText, String.utf8ByteSize_append, String.utf8ByteSize_append,
      utf8ByteSize_repeated rfl, utf8ByteSize_repeated rfl]
    decide
  refine ⟨by decide, hsize, ?_⟩
  exact ((nesting_recovers 513).2.2 (by decide) hsize).messages

/-- With too many prefix operators the text is too long, and nothing of it is read. -/
theorem nesting_recovers_overlong :
  (ofText (starsText 4294967296)).parse.faults = [⟨.tooLong 4294967308, 0⟩]
    ∧ ¬ (ofText (starsText 4294967296)).Recovers .varDecl (4294967296 ≤ 510)
  := by
  have hsize : (starsText 4294967296).utf8ByteSize = 4294967308 := by
    rw [starsText, String.utf8ByteSize_append, String.utf8ByteSize_append,
      utf8ByteSize_repeated rfl]
    rfl
  have hlt : countLimit < (starsText 4294967296).utf8ByteSize := by
    rw [hsize]
    decide
  constructor
  · rw [ofText, Parse.faults_ofText_of_lt hlt, hsize]
  · apply not_recovers_of_lt hlt

end SourceFile

end InlayHints

import Mathlib.Computability.Language
import Mathlib.Tactic.Use
import InlayHints.Syntax.Token.Lexer

/-!
# The languages of tokens

For every kind of token, the texts that tokens of this kind may have, as regular languages over
classes of characters.  A text may belong to several of them: each keyword is a name too, and
a comment starts with two slashes.  No text belongs to the language of error tokens.

The lemmas here say which words a language has, in terms of the tests on characters by which
a text is cut.
-/

namespace InlayHints

open scoped Computability

namespace Lexer

/-- The texts of one character that satisfies `p`. -/
def oneOf (p : Char → Prop) : Language Char := { w | ∃ c, p c ∧ w = [c] }

/-- One fixed text. -/
def word (text : String) : Language Char := {text.toList}

def blank : Language Char := oneOf (· ∈ [' ', '\t', '\r', '\n'])

def letter : Language Char :=
  oneOf fun c => 'A' ≤ c ∧ c ≤ 'Z' ∨ 'a' ≤ c ∧ c ≤ 'z' ∨ c = '_'

def digit : Language Char := oneOf fun c => '0' ≤ c ∧ c ≤ '9'

/-- A unit of quoted text: a plain character, or a backslash and what it escapes. -/
def quotedUnit : Language Char :=
  oneOf (· ∉ ['"', '\\', '\n']) + word "\\" * oneOf (· ≠ '\n')

/-- The texts of the tokens of a kind. -/
def language : TokenKind → Language Char
  | .whitespace => blank * blank∗
  | .comment => word "//" * (oneOf (· ≠ '\n'))∗
  | .ident => letter * (letter + digit)∗
  | .builtinIdent => word "@" * (letter * (letter + digit)∗)
  | .intNumber => digit * (digit + word "_")∗
  | .stringLit => word "\"" * (quotedUnit∗ * word "\"")
  | .constKw => word "const"
  | .varKw => word "var"
  | .fnKw => word "fn"
  | .pubKw => word "pub"
  | .returnKw => word "return"
  | .structKw => word "struct"
  | .noaliasKw => word "noalias"
  | .comptimeKw => word "comptime"
  | .anytypeKw => word "anytype"
  | .lParen => word "("
  | .rParen => word ")"
  | .lBrace => word "\x7b"
  | .rBrace => word "\x7d"
  | .lBracket => word "["
  | .rBracket => word "]"
  | .comma => word ","
  | .semicolon => word ";"
  | .colon => word ":"
  | .dot => word "."
  | .eq => word "="
  | .star => word "*"
  | .question => word "?"
  | .bang => word "!"
  | .plus => word "+"
  | .minus => word "-"
  | .slash => word "/"
  | .amp => word "&"
  | .errorToken => 0

/-! ### Classes of characters -/

/-- The language of the single characters that pass a test. -/
def IsClass (l : Language Char) (p : Char → Bool) : Prop :=
  ∀ w, w ∈ l ↔ ∃ c, p c = true ∧ w = [c]

variable {l m : Language Char} {p q : Char → Bool} {w : List Char}

theorem isClass_oneOf {P : Char → Prop} (h : ∀ c, p c = true ↔ P c) :
  IsClass (oneOf P) p
  := by
  intro w
  constructor
  · rintro ⟨c, hc, rfl⟩
    use c, (h c).mpr hc
  · rintro ⟨c, hc, rfl⟩
    use c, (h c).mp hc

/-- Either of two classes is a class. -/
theorem IsClass.add (hl : IsClass l p) (hm : IsClass m q) :
  IsClass (l + m) fun c => p c || q c
  := by
  intro w
  rw [Language.mem_add, hl, hm]
  constructor
  · rintro (⟨c, hc, rfl⟩ | ⟨c, hc, rfl⟩)
    · use c, Bool.or_eq_true_iff.mpr (Or.inl hc)
    · use c, Bool.or_eq_true_iff.mpr (Or.inr hc)
  · rintro ⟨c, hc, rfl⟩
    rw [Bool.or_eq_true] at hc
    rcases hc with hc | hc
    · apply Or.inl ⟨c, hc, rfl⟩
    · apply Or.inr ⟨c, hc, rfl⟩

/-- Repetitions of a class are the texts all of whose characters belong to it. -/
theorem IsClass.mem_star (hl : IsClass l p) :
  w ∈ l∗ ↔ ∀ c ∈ w, p c = true
  := by
  constructor
  · rintro ⟨L, rfl, hL⟩ c hc
    obtain ⟨u, hu, hc⟩ := List.mem_flatten.mp hc
    obtain ⟨d, hd, rfl⟩ := (hl u).mp (hL u hu)
    rw [List.mem_singleton] at hc
    rw [hc, hd]
  · intro h
    use w.map ([·])
    constructor
    · apply (List.flatMap_singleton' w).symm
    · intro u hu
      obtain ⟨c, hc, rfl⟩ := List.mem_map.mp hu
      apply (hl [c]).mpr ⟨c, h c hc, rfl⟩

/-- One class, and then repetitions of another. -/
theorem IsClass.mem_run (hl : IsClass l p) (hm : IsClass m q) :
  w ∈ l * m∗ ↔ ∃ c cs, w = c :: cs ∧ p c = true ∧ ∀ d ∈ cs, q d = true
  := by
  rw [Language.mem_mul]
  constructor
  · rintro ⟨u, hu, cs, hcs, rfl⟩
    obtain ⟨c, hc, rfl⟩ := (hl u).mp hu
    use c, cs, rfl, hc, hm.mem_star.mp hcs
  · rintro ⟨c, cs, rfl, hc, hcs⟩
    use [c], (hl [c]).mpr ⟨c, hc, rfl⟩, cs, hm.mem_star.mpr hcs
    rfl

theorem mem_word_mul {text : String} :
  w ∈ word text * l ↔ ∃ u ∈ l, w = text.toList ++ u
  := by
  rw [Language.mem_mul]
  constructor
  · rintro ⟨v, rfl, u, hu, rfl⟩
    use u, hu
  · rintro ⟨u, hu, rfl⟩
    use text.toList, rfl, u, hu

theorem isClass_blank :
  IsClass blank isBlank
  := by
  apply isClass_oneOf
  intro c
  simp [isBlank, or_assoc]

theorem isWordStart_iff {c : Char} :
  isWordStart c = true ↔ 'A' ≤ c ∧ c ≤ 'Z' ∨ 'a' ≤ c ∧ c ≤ 'z' ∨ c = '_'
  := by
  have hstart : isWordStart c = ((decide ('A' ≤ c ∧ c ≤ 'Z')
      || decide ('a' ≤ c) && decide (c ≤ 'z')) || decide (c = '_')) := rfl
  rw [hstart]
  simp [or_assoc]

theorem isDigit_iff {c : Char} :
  c.isDigit = true ↔ '0' ≤ c ∧ c ≤ '9'
  := by
  have hdigit : c.isDigit = (decide ('0' ≤ c) && decide (c ≤ '9')) := rfl
  rw [hdigit, Bool.and_eq_true, decide_eq_true_eq, decide_eq_true_eq]

theorem isClass_letter :
  IsClass letter isWordStart
  := isClass_oneOf fun _ => isWordStart_iff

theorem isClass_digit :
  IsClass digit Char.isDigit
  := isClass_oneOf fun _ => isDigit_iff

theorem isClass_wordPart :
  IsClass (letter + digit) isWordPart
  := isClass_letter.add isClass_digit

theorem isClass_numberPart :
  IsClass (digit + word "_") isNumberPart
  := by
  apply isClass_digit.add
  intro w
  constructor
  · rintro rfl
    use '_', rfl
    rfl
  · rintro ⟨c, hc, rfl⟩
    rw [decide_eq_true_eq] at hc
    rw [hc]
    rfl

theorem isClass_notLineEnd :
  IsClass (oneOf (· ≠ '\n')) (· ≠ '\n')
  := by
  apply isClass_oneOf
  intro c
  simp

/-! ### Words -/

theorem mem_whitespace :
  w ∈ language .whitespace ↔ ∃ c cs, w = c :: cs ∧ isBlank c = true ∧ ∀ d ∈ cs, isBlank d = true
  := isClass_blank.mem_run isClass_blank

theorem mem_comment :
  w ∈ language .comment ↔ ∃ cs, w = '/' :: '/' :: cs ∧ ∀ d ∈ cs, decide (d ≠ '\n') = true
  := by
  rw [language, mem_word_mul]
  constructor
  · rintro ⟨cs, hcs, rfl⟩
    use cs, rfl, isClass_notLineEnd.mem_star.mp hcs
  · rintro ⟨cs, rfl, hcs⟩
    use cs, isClass_notLineEnd.mem_star.mpr hcs
    rfl

theorem mem_ident :
  w ∈ language .ident
    ↔ ∃ c cs, w = c :: cs ∧ isWordStart c = true ∧ ∀ d ∈ cs, isWordPart d = true
  := isClass_letter.mem_run isClass_wordPart

/-- Whether a text is a name can be computed. -/
theorem mem_ident_of_all (h : (w.head?.any isWordStart && w.tail.all isWordPart) = true) :
  w ∈ language .ident
  := by
  obtain ⟨hstart, hpart⟩ := Bool.and_eq_true_iff.mp h
  obtain ⟨c, hc, hstart⟩ := (Option.any_eq_true _ _).mp hstart
  obtain ⟨cs, rfl⟩ := List.head?_eq_some_iff.mp hc
  exact mem_ident.mpr ⟨c, cs, rfl, hstart, List.all_eq_true.mp hpart⟩

theorem mem_builtinIdent :
  w ∈ language .builtinIdent ↔ ∃ u ∈ language .ident, w = '@' :: u
  := mem_word_mul

theorem mem_intNumber :
  w ∈ language .intNumber
    ↔ ∃ c cs, w = c :: cs ∧ c.isDigit = true ∧ ∀ d ∈ cs, isNumberPart d = true
  := isClass_digit.mem_run isClass_numberPart

theorem mem_stringLit :
  w ∈ language .stringLit ↔ ∃ u ∈ quotedUnit∗, w = '"' :: (u ++ ['"'])
  := by
  rw [language, mem_word_mul]
  constructor
  · rintro ⟨v, ⟨u, hu, x, rfl, rfl⟩, rfl⟩
    use u, hu
    rfl
  · rintro ⟨u, hu, rfl⟩
    use u ++ ['"'], ⟨u, hu, ['"'], rfl, rfl⟩
    rfl

/-! ### Quoted text -/

theorem mem_quotedUnit :
  w ∈ quotedUnit
    ↔ (∃ c, c ∉ ['"', '\\', '\n'] ∧ w = [c]) ∨ ∃ c, c ≠ '\n' ∧ w = ['\\', c]
  := by
  rw [quotedUnit, Language.mem_add, mem_word_mul]
  apply or_congr Iff.rfl
  constructor
  · rintro ⟨u, ⟨c, hc, rfl⟩, rfl⟩
    use c, hc
    rfl
  · rintro ⟨c, hc, rfl⟩
    use [c], ⟨c, hc, rfl⟩
    rfl

/-- A unit and more quoted text are quoted text. -/
theorem append_mem_quoted {u v : List Char} (hu : u ∈ quotedUnit) (hv : v ∈ quotedUnit∗) :
  u ++ v ∈ quotedUnit∗
  := by
  rw [← Language.one_add_self_mul_kstar_eq_kstar, Language.mem_add]
  apply Or.inr (Language.append_mem_mul hu hv)

theorem quotedReach_plain {c : Char} (hc : c ∉ ['"', '\\', '\n']) (n : Nat) (cs : List Char) :
  quotedReach n (c :: cs) = quotedReach (n + 1) cs
  := by
  simp only [List.mem_cons, List.not_mem_nil, or_false, not_or] at hc
  obtain ⟨hquote, hbackslash, hline⟩ := hc
  rw [quotedReach]
  · simp [hquote, hbackslash, hline]
  · intro d ds hc
    contradiction

theorem quotedReach_escape {d : Char} (hd : d ≠ '\n') (n : Nat) (cs : List Char) :
  quotedReach n ('\\' :: d :: cs) = quotedReach (n + 2) cs
  := by
  rw [quotedReach, if_neg hd]

/-- Over quoted text the reach grows by its length. -/
theorem quotedReach_append {u : List Char} (hu : u ∈ quotedUnit∗) (n : Nat) (cs : List Char) :
  quotedReach n (u ++ cs) = quotedReach (n + u.length) cs
  := by
  obtain ⟨L, rfl, hL⟩ := hu
  induction L generalizing n with
  | nil => rfl
  | cons v L ih =>
    have hv := hL v List.mem_cons_self
    have ih := fun n => ih n fun y hy => hL y (List.mem_cons_of_mem v hy)
    rw [List.flatten_cons, List.append_assoc, List.length_append, ← Nat.add_assoc, ← ih]
    rcases mem_quotedUnit.mp hv with ⟨c, hc, rfl⟩ | ⟨c, hc, rfl⟩
    · apply quotedReach_plain hc
    · apply quotedReach_escape hc

theorem le_quotedReach (n : Nat) (cs : List Char) :
  n ≤ quotedReach n cs
  := by
  fun_induction quotedReach n cs with
  | case1 => rfl
  | case2 => rfl
  | case3 n d cs hd ih => omega
  | case4 => rfl
  | case5 n c cs _ hc ih => omega

/-- What is in reach is quoted text. -/
theorem take_quotedReach (n : Nat) (cs : List Char) :
  cs.take (quotedReach n cs - n) ∈ quotedUnit∗
  := by
  fun_induction quotedReach n cs with
  | case1 n =>
    rw [Nat.sub_self]
    apply Language.nil_mem_kstar
  | case2 n =>
    rw [Nat.sub_self]
    apply Language.nil_mem_kstar
  | case3 n d cs hd ih =>
    have hle := le_quotedReach (n + 2) cs
    have hreach : quotedReach (n + 2) cs - n = quotedReach (n + 2) cs - (n + 2) + 2 := by omega
    rw [hreach]
    apply append_mem_quoted (mem_quotedUnit.mpr (Or.inr ⟨d, hd, rfl⟩)) ih
  | case4 n c cs =>
    rw [Nat.sub_self]
    apply Language.nil_mem_kstar
  | case5 n c cs _ hc ih =>
    have hle := le_quotedReach (n + 1) cs
    have hreach : quotedReach (n + 1) cs - n = quotedReach (n + 1) cs - (n + 1) + 1 := by omega
    rw [hreach]
    apply append_mem_quoted (mem_quotedUnit.mpr (Or.inl ⟨c, _, rfl⟩)) ih
    simpa [or_assoc] using hc

end Lexer

end InlayHints

import InlayHints.Proofs.Syntax.Token.Joining

/-!
# Tokens that keep apart

Names, keywords, punctuation and single blanks, one after the other, are cut again from the text
that they make up, as long as no name or keyword stands next to another one and no blank next to
another one (`Token.Spaced.pieces_eq`).  Slashes are left out, since two of them start a comment.
-/

namespace InlayHints

/-- The kinds of names and keywords. -/
def TokenKind.isWord : TokenKind → Bool
  | .ident | .constKw | .varKw | .fnKw | .pubKw | .returnKw | .structKw | .noaliasKw | .comptimeKw
  | .anytypeKw => true
  | _ => false

namespace Lexer

variable {cs : List Char} {ts : List Token} {t : Token}

theorem isWord_keyword (text : String) :
  ((keyword? text).getD .ident).isWord = true
  := by
  unfold keyword?
  split <;> rfl

/-- The characters of punctuation stand for themselves: they are no part of a name, and they are
not blank. -/
theorem mark_keeps_apart {m : TokenKind × Char} (h : m ∈ marks) :
  isWordPart m.2 = false ∧ isBlank m.2 = false
  := by
  revert m
  decide

/-- A name or keyword does not start with a blank. -/
theorem isBlank_head_of_mem_ident {w : List Char} (h : w ∈ language .ident) :
  ∀ c ∈ (w ++ cs).head?, isBlank c = false
  := by
  obtain ⟨c, ds, rfl, hstart, -⟩ := mem_ident.mp h
  rintro _ ⟨⟩
  apply isBlank_eq_false (isWordPart_of_isWordStart hstart)

/-- What passes a test is taken off the front, up to something that does not pass it. -/
theorem takeWhile_append_eq {p : Char → Bool} {xs ys : List Char}
    (hxs : ∀ x ∈ xs, p x = true) (hys : ∀ y ∈ ys.head?, p y = false) :
  (xs ++ ys).takeWhile p = xs
  := by
  rw [List.takeWhile_append_of_pos hxs, List.append_right_eq_self]
  cases ys with
  | nil => rfl
  | cons y ys => rw [List.takeWhile_cons_of_neg (by simp [hys y rfl])]

theorem forall_head?_cons {p : Char → Bool} {c : Char} (hc : p c = false) :
  ∀ d ∈ (c :: cs).head?, p d = false
  := by
  rintro _ ⟨⟩
  exact hc

/-- What is repeated at the front of a text may come to nothing. -/
theorem forall_head?_replicate {p : Char → Bool} {c : Char} (hc : p c = false)
    (hcs : ∀ d ∈ cs.head?, p d = false) (n : Nat) :
  ∀ d ∈ (List.replicate n c ++ cs).head?, p d = false
  := by
  cases n with
  | zero => exact hcs
  | succ n => exact forall_head?_cons hc

/-- A token is cut off if the scan finds its kind and its length. -/
theorem Cuts.scanned (h : Cuts cs ts) {c : Char} {ds : List Char} (htext : t.text.toList = c :: ds)
    (hscan : scan c (ds ++ cs) = (t.kind, ds.length)) :
  Cuts (t.text.toList ++ cs) (t :: ts)
  := by
  have hword : String.ofList (c :: ds) = t.text := by rw [← htext, String.ofList_toList]
  have hfirst : first c (ds ++ cs) = t := by rw [first, hscan, List.take_left, hword]
  have hrest : rest c (ds ++ cs) = cs := by rw [rest, hscan, List.drop_left]
  rw [htext, List.cons_append, ← hfirst]
  apply Cuts.cons
  rw [hrest]
  apply h

/-- A name or keyword is cut off before a character that it cannot go on with. -/
theorem Cuts.word (h : Cuts cs ts) (ht : t.text.toList ∈ language .ident)
    (hkind : t.kind = (keyword? t.text).getD .ident) (hcs : ∀ c ∈ cs.head?, isWordPart c = false) :
  Cuts (t.text.toList ++ cs) (t :: ts)
  := by
  obtain ⟨c, ds, htext, hstart, hparts⟩ := mem_ident.mp ht
  have htake : (ds ++ cs).takeWhile isWordPart = ds := takeWhile_append_eq hparts hcs
  apply h.scanned htext
  rw [scan_word hstart, reach, htake, ← htext, String.ofList_toList, ← hkind]

/-- A number is cut off before a character that it cannot go on with. -/
theorem Cuts.number (h : Cuts cs ts) (ht : t.text.toList ∈ language .intNumber)
    (hkind : t.kind = .intNumber) (hcs : ∀ c ∈ cs.head?, isNumberPart c = false) :
  Cuts (t.text.toList ++ cs) (t :: ts)
  := by
  obtain ⟨c, ds, htext, hdigit, hparts⟩ := mem_intNumber.mp ht
  have htake : (ds ++ cs).takeWhile isNumberPart = ds := takeWhile_append_eq hparts hcs
  apply h.scanned htext
  rw [scan_digit hdigit, reach, htake, ← hkind]

/-- Whether a token is punctuation other than a slash. -/
def isMark (t : Token) : Bool :=
  marks.any fun m => m.1 = t.kind && t.text.toList = [m.2] && m.2 ≠ '/'

theorem isMark_iff :
  isMark t = true ↔ ∃ c, (t.kind, c) ∈ marks ∧ t.text.toList = [c] ∧ c ≠ '/'
  := by
  simp only [isMark, List.any_eq_true, Bool.and_eq_true, decide_eq_true_eq]
  constructor
  · rintro ⟨⟨_, c⟩, hm, ⟨rfl, htext⟩, hc⟩
    exact ⟨c, hm, htext, hc⟩
  · rintro ⟨c, hm, htext, hc⟩
    exact ⟨(t.kind, c), hm, ⟨rfl, htext⟩, hc⟩

/-- Punctuation other than a slash is cut off before anything. -/
theorem Cuts.mark (h : Cuts cs ts) (ht : isMark t = true) :
  Cuts (t.text.toList ++ cs) (t :: ts)
  := by
  obtain ⟨c, ht, htext, hc⟩ := isMark_iff.mp ht
  apply h.scanned htext
  rcases scan_punctuation (punctuation?_eq_some.mpr ht) cs with hscan | ⟨_, hslash, -⟩
  · apply hscan
  · contradiction

/-- Punctuation that is repeated is cut off piece by piece. -/
theorem Cuts.replicate_mark (h : Cuts cs ts) (ht : isMark t = true) {c : Char}
    (htext : t.text.toList = [c]) (n : Nat) :
  Cuts (List.replicate n c ++ cs) (List.replicate n t ++ ts)
  := by
  induction n with
  | zero => apply h
  | succ n ih =>
    have hfirst := ih.mark ht
    rw [htext] at hfirst
    exact hfirst

end Lexer

namespace Token

open Lexer

/-- A blank. -/
def blank : Token := ⟨.whitespace, " "⟩

/-- Names, keywords, punctuation and blanks such that neither two names or keywords nor two blanks
stand next to each other. -/
inductive Spaced : List Token → Prop where
  | nil : Spaced []
  | word {t : Token} {ts : List Token} (mem : t.text.toList ∈ language .ident)
    (kind : t.kind = (keyword? t.text).getD .ident)
    (next : ∀ u ∈ ts.head?, u.kind.isWord = false) (h : Spaced ts) : Spaced (t :: ts)
  | mark {t : Token} {ts : List Token} (mark : isMark t = true) (h : Spaced ts) : Spaced (t :: ts)
  | blank {ts : List Token} (next : ∀ u ∈ ts.head?, u.isTrivia = false) (h : Spaced ts) :
    Spaced (blank :: ts)

namespace Spaced

variable {ts : List Token}

/-- Tokens that do not start with a name or keyword have a text that no name goes on with. -/
theorem isWordPart_head (h : Spaced ts) (hnext : ∀ u ∈ ts.head?, u.kind.isWord = false) :
  ∀ c ∈ (ts.flatMap (·.text.toList)).head?, isWordPart c = false
  := by
  cases h with
  | nil => nofun
  | word mem kind =>
    have hword := hnext _ rfl
    rw [kind, isWord_keyword] at hword
    contradiction
  | mark mark =>
    obtain ⟨c, hc, htext, -⟩ := isMark_iff.mp mark
    rw [List.flatMap_cons, htext]
    rintro _ ⟨⟩
    apply (mark_keeps_apart hc).1
  | blank =>
    rintro _ ⟨⟩
    rfl

/-- Tokens that do not start with a blank have a text that does not, either. -/
theorem isBlank_head (h : Spaced ts) (hnext : ∀ u ∈ ts.head?, u.isTrivia = false) :
  ∀ c ∈ (ts.flatMap (·.text.toList)).head?, isBlank c = false
  := by
  cases h with
  | nil => nofun
  | word mem kind =>
    rw [List.flatMap_cons]
    apply isBlank_head_of_mem_ident mem
  | mark mark =>
    obtain ⟨c, hc, htext, -⟩ := isMark_iff.mp mark
    rw [List.flatMap_cons, htext]
    rintro _ ⟨⟩
    apply (mark_keeps_apart hc).2
  | blank =>
    have htrivia := hnext _ rfl
    contradiction

/-- A keyword may stand before anything but a name or keyword. -/
theorem keyword {t : Token} (h : Spaced ts) (ht : (t.kind, t.text) ∈ keywords)
    (hnext : ∀ u ∈ ts.head?, u.kind.isWord = false) :
  Spaced (t :: ts)
  := by
  have hkind : keyword? t.text = some t.kind := keyword?_eq_some.mpr ht
  apply word (language_keyword ht).2 _ hnext h
  rw [hkind]
  rfl

theorem cuts (h : Spaced ts) :
  Cuts (ts.flatMap (·.text.toList)) ts
  := by
  induction h with
  | nil => apply Cuts.nil
  | word mem kind next h ih => apply ih.word mem kind (h.isWordPart_head next)
  | mark mark h ih => apply ih.mark mark
  | blank next h ih => apply ih.blank rfl (h.isBlank_head next)

/-- Tokens that keep apart are the pieces of the text that they make up. -/
theorem pieces_eq (h : Spaced ts) {text : String}
    (htext : text.toList = ts.flatMap (·.text.toList)) :
  pieces text = ts
  := by
  have hcuts := cuts_pieces text
  rw [htext] at hcuts
  apply hcuts.unique h.cuts

end Spaced

end Token

end InlayHints

import Mathlib.Data.List.Chain
import InlayHints.Syntax.Token.Lexer
import InlayHints.Proofs.Text.Position

/-!
# Widths and offsets of tokens

The widths of tokens side by side add up, and the pieces of a text are as wide as the text.
The tokens of a text are the first of its pieces, those that end within the limit of offsets
(`Token.prefix_lex`); a text that ends within the limit itself loses none
(`Token.lex_eq_pieces`).
-/

namespace InlayHints

namespace Token

theorem foldl_width (n : Nat) (ts : List Token) :
  ts.foldl (fun n t => n + t.width) n = n + totalWidth ts
  := by
  induction ts generalizing n with
  | nil => rfl
  | cons t ts ih =>
    rw [totalWidth, List.foldl_cons, List.foldl_cons, ih, ih (0 + _)]
    omega

@[simp]
theorem totalWidth_nil :
  totalWidth [] = 0
  := rfl

@[simp]
theorem totalWidth_cons (t : Token) (ts : List Token) :
  totalWidth (t :: ts) = t.width + totalWidth ts
  := by
  rw [totalWidth, List.foldl_cons, foldl_width, Nat.zero_add]

@[simp]
theorem totalWidth_append (ts us : List Token) :
  totalWidth (ts ++ us) = totalWidth ts + totalWidth us
  := by
  rw [totalWidth, List.foldl_append, foldl_width]
  rfl

/-- The texts of tokens are as long as the tokens are wide. -/
theorem size_flatMap_text (ts : List Token) :
  Encoding.utf8.size (ts.flatMap (·.text.toList)) = totalWidth ts
  := by
  induction ts with
  | nil => rfl
  | cons t ts ih =>
    rw [List.flatMap_cons, Encoding.size_append, Encoding.size_utf8, ih, totalWidth_cons, width]

/-- The pieces of a text are as wide as the text. -/
theorem totalWidth_pieces (text : String) :
  totalWidth (Lexer.pieces text) = text.utf8ByteSize
  := by
  rw [← size_flatMap_text, Lexer.texts_pieces, Encoding.size_utf8]

/-! ### Offsets -/

/-- The tokens with the offsets they start at, when the first one starts at `n`. -/
def startsFrom (n : Nat) : List Token → List (Nat × Token)
  | [] => []
  | t :: ts => (n, t) :: startsFrom (n + t.width) ts

theorem withStarts_eq (ts : List Token) :
  withStarts ts = startsFrom 0 ts
  := by
  have hfold : ∀ n done, (ts.foldl place (n, done)).2
      = (startsFrom n ts).reverse ++ done := by
    induction ts with
    | nil =>
      intro n done
      rfl
    | cons t ts ih =>
      intro n done
      rw [List.foldl_cons, place, ih, startsFrom, List.reverse_cons, List.append_assoc]
      rfl
  rw [withStarts, hfold, List.append_nil, List.reverse_reverse]

/-- Each token starts where the one before it ends. -/
theorem isChain_startsFrom (n : Nat) (ts : List Token) :
  (startsFrom n ts).IsChain fun r q => r.1 + r.2.width = q.1
  := by
  induction ts generalizing n with
  | nil => apply List.IsChain.nil
  | cons t ts ih =>
    cases ts with
    | nil => apply List.IsChain.singleton
    | cons u us =>
      apply List.IsChain.cons_cons
      · rfl
      · apply ih (n + t.width)

/-- The last token ends where all the texts of the tokens end. -/
theorem end_startsFrom {n : Nat} {ts : List Token} {r : Nat × Token}
    (h : r ∈ (startsFrom n ts).getLast?) :
  r.1 + r.2.width = n + (String.ofList (ts.flatMap (·.text.toList))).utf8ByteSize
  := by
  induction ts generalizing n with
  | nil => contradiction
  | cons t ts ih =>
    rw [List.flatMap_cons, String.ofList_append, String.utf8ByteSize_append, String.ofList_toList,
      ← Nat.add_assoc]
    cases ts with
    | nil =>
      obtain rfl : (n, t) = r := Option.some_inj.mp h
      rfl
    | cons u us =>
      apply ih
      rw [startsFrom, startsFrom, List.getLast?_cons_cons] at h
      apply h

/-- Tokens that follow others start where these end. -/
theorem startsFrom_append (n : Nat) (ts us : List Token) :
  startsFrom n (ts ++ us) = startsFrom n ts ++ startsFrom (n + totalWidth ts) us
  := by
  induction ts generalizing n with
  | nil => rfl
  | cons t ts ih => rw [List.cons_append, startsFrom, ih, startsFrom, totalWidth_cons,
      Nat.add_assoc, List.cons_append]

theorem map_snd_startsFrom (n : Nat) (ts : List Token) :
  (startsFrom n ts).map Prod.snd = ts
  := by
  induction ts generalizing n with
  | nil => rfl
  | cons t ts ih => rw [startsFrom, List.map_cons, ih]

theorem mem_of_mem_startsFrom {n : Nat} {ts : List Token} {r : Nat × Token}
    (h : r ∈ startsFrom n ts) :
  r.2 ∈ ts
  := by
  induction ts generalizing n with
  | nil => contradiction
  | cons t ts ih =>
    rcases List.mem_cons.mp h with rfl | h
    · apply List.mem_cons_self
    · apply List.mem_cons_of_mem t (ih h)

/-- No token ends after all of them do. -/
theorem end_le_of_mem_startsFrom {n : Nat} {ts : List Token} {r : Nat × Token}
    (h : r ∈ startsFrom n ts) :
  r.1 + r.2.width ≤ n + totalWidth ts
  := by
  induction ts generalizing n with
  | nil => contradiction
  | cons t ts ih =>
    rw [totalWidth_cons]
    rcases List.mem_cons.mp h with rfl | h
    · apply Nat.add_le_add_left (Nat.le_add_right t.width _)
    · rw [← Nat.add_assoc]
      apply ih h

/-! ### The limit of offsets -/

theorem lex_eq (text : String) :
  lex text = ((startsFrom 0 (Lexer.pieces text)).takeWhile endsInLimit).map Prod.snd
  := by
  rw [lex, withStarts_eq]

/-- The tokens of a text are the first of its pieces. -/
theorem prefix_lex (text : String) :
  lex text <+: Lexer.pieces text
  := by
  have hprefix := (List.takeWhile_prefix (l := startsFrom 0 (Lexer.pieces text))
    endsInLimit).map Prod.snd
  rw [map_snd_startsFrom, ← lex_eq] at hprefix
  apply hprefix

/-- The tokens of a text start where they start as its pieces. -/
theorem mem_startsFrom_pieces {text : String} {r : Nat × Token}
    (hr : r ∈ startsFrom 0 (lex text)) :
  r ∈ startsFrom 0 (Lexer.pieces text)
  := by
  obtain ⟨ts, hts⟩ := prefix_lex text
  rw [← hts, startsFrom_append]
  apply List.mem_append_left _ hr

/-- The pieces of a text that ends within the limit are its tokens. -/
theorem lex_eq_pieces {text : String} (h : text.utf8ByteSize ≤ countLimit) :
  lex text = Lexer.pieces text
  := by
  rw [lex_eq, List.takeWhile_eq_self_iff.mpr, map_snd_startsFrom]
  intro r hr
  have hend := end_le_of_mem_startsFrom hr
  rw [totalWidth_pieces] at hend
  apply decide_eq_true
  omega

/-- The texts of the tokens, put together, are the text they were cut from. -/
theorem lex_texts {text : String} (h : text.utf8ByteSize ≤ countLimit) :
  (lex text).flatMap (·.text.toList) = text.toList
  := by
  rw [lex_eq_pieces h, Lexer.texts_pieces]

/-- The tokens of a text are as wide as the text. -/
theorem totalWidth_lex {text : String} (h : text.utf8ByteSize ≤ countLimit) :
  totalWidth (lex text) = text.utf8ByteSize
  := by
  rw [lex_eq_pieces h, totalWidth_pieces]

/-- Tokens side by side that all end within the limit have a width within it. -/
theorem totalWidth_takeWhile_le {n : Nat} (ts : List Token) (hn : n ≤ countLimit) :
  n + totalWidth (((startsFrom n ts).takeWhile endsInLimit).map Prod.snd) ≤ countLimit
  := by
  induction ts generalizing n with
  | nil => apply hn
  | cons t ts ih =>
    rw [startsFrom, List.takeWhile_cons]
    split
    · next hend =>
      rw [List.map_cons, totalWidth_cons, ← Nat.add_assoc]
      apply ih (of_decide_eq_true hend)
    · apply hn

/-- The tokens of any text have a width within the limit. -/
theorem totalWidth_lex_le (text : String) :
  totalWidth (lex text) ≤ countLimit
  := by
  have hle := totalWidth_takeWhile_le (Lexer.pieces text) (Nat.zero_le countLimit)
  rw [lex_eq]
  omega

end Token

end InlayHints

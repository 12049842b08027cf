import InlayHints.Syntax.Token

/-!
# The tokens ahead

What is still to be read of a list of tokens, and what can be seen of it.  Decisions are made
by the kinds of the next two tokens, and trivia between them is looked through.  The number of
tokens ahead is kept beside them, since reading goes on only while it goes down.
-/

namespace InlayHints

/-- The kinds of the next two tokens other than trivia; `none` stands for the end of the text. -/
structure Lookahead where
  first : Option TokenKind
  second : Option TokenKind
deriving DecidableEq, Repr

namespace Lookahead

/-- Whether the next token is of kind `k`. -/
def isAt (k : TokenKind) (a : Lookahead) : Bool := a.first = some k

/-- Whether nothing but trivia is left. -/
def atEnd (a : Lookahead) : Bool := a.first = none

/-- Whether the next token satisfies `p`. -/
def isAny (p : TokenKind → Bool) (a : Lookahead) : Bool := a.first.any p

/-- Whether there is a next token, and it is not the one that closes a list. -/
def isBefore (closing : TokenKind) (a : Lookahead) : Bool := !a.isAt closing && !a.atEnd

/-- The next token, or the one after it if the next token is `pub`. -/
def keyword (a : Lookahead) : Option TokenKind := if a.isAt .pubKw then a.second else a.first

end Lookahead

/-- The tokens not taken yet, and their number. -/
structure Input where
  tokens : List Token
  count : Nat
  count_eq : count = tokens.length

namespace Input

/-- All tokens of a list. -/
def ofList (ts : List Token) : Input := ⟨ts, ts.length, rfl⟩

/-- The trivia at the front. -/
def trivia (a : Input) : List Token := a.tokens.takeWhile Token.isTrivia

/-- What is left after the trivia at the front. -/
def afterTrivia (a : Input) : Input where
  tokens := a.tokens.dropWhile Token.isTrivia
  count := a.count - a.trivia.length
  count_eq := by
    have h := congrArg List.length (List.takeWhile_append_dropWhile (p := Token.isTrivia)
      (l := a.tokens))
    simp only [List.length_append] at h
    simp only [trivia, a.count_eq]
    omega

/-- What is left after the first token. -/
def tail (a : Input) : Input where
  tokens := a.tokens.tail
  count := a.count - 1
  count_eq := by simp [a.count_eq]

/-- The next two tokens other than trivia. -/
def look (a : Input) : Lookahead :=
  match a.afterTrivia.tokens with
  | [] => ⟨none, none⟩
  | t :: ts => ⟨some t.kind, (ts.dropWhile Token.isTrivia).head?.map Token.kind⟩

end Input

end InlayHints

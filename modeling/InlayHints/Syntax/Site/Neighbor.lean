import InlayHints.Syntax.Site

/-!
# Neighbours of tokens

From a token one steps to the next token through the next element: the next sibling of the
token, or else of the nearest node around it that has one.  The next token is the one that
this element starts with, and there is none if the element starts with an empty node.  So an
empty node stops a walk.  Steps to the left go the same way, through the element before.
-/

namespace InlayHints

namespace Site

/-- The token that a tree starts with, `none` if it starts with an empty node. -/
def firstIn (start : Nat) (path : List Frame) : Tree → Option Leaf
  | .token t => some ⟨start, t, path⟩
  | .node _ [] => none
  | .node k (c :: cs) => firstIn start (⟨k, [], cs⟩ :: path) c

/-- The token that a tree ends with, `none` if it ends with an empty node. -/
def lastIn (stop : Nat) (path : List Frame) : Tree → Option Leaf
  | .token t => some ⟨stop - t.width, t, path⟩
  | .node k cs =>
    match _h : cs.reverse with
    | [] => none
    | c :: rest => lastIn stop (⟨k, rest, []⟩ :: path) c
termination_by t => sizeOf t
decreasing_by
  have hmem : c ∈ cs := by
    rw [← List.mem_reverse, _h]
    simp
  have := List.sizeOf_lt_of_mem hmem
  simp only [Tree.node.sizeOf_spec]
  omega

/-- The token that a site starts with. -/
def firstToken? (s : Site) : Option Leaf := firstIn s.start s.path s.tree

/-- The token that a site ends with. -/
def lastToken? (s : Site) : Option Leaf := lastIn s.stop s.path s.tree

/-- The element after the tree `t`, which ends at `stop`. -/
def elementAfter (stop : Nat) (t : Tree) : List Frame → Option Site
  | [] => none
  | f :: path =>
    match f.after with
    | [] => elementAfter stop (f.plug t) path
    | c :: cs => some ⟨stop, c, ⟨f.kind, t :: f.before, cs⟩ :: path⟩

/-- The element before the tree `t`, which starts at `start`. -/
def elementBefore (start : Nat) (t : Tree) : List Frame → Option Site
  | [] => none
  | f :: path =>
    match f.before with
    | [] => elementBefore start (f.plug t) path
    | c :: cs => some ⟨start - c.width, c, ⟨f.kind, cs, t :: f.after⟩ :: path⟩

end Site

/-! ### How much is left on either side -/

namespace Frame

/-- The size of what is left of a path on the right. -/
noncomputable def roomAfter (path : List Frame) : Nat :=
  path.foldr (fun f n => sizeOf f.after + n) 0

/-- The size of what is left of a path on the left. -/
noncomputable def roomBefore (path : List Frame) : Nat :=
  path.foldr (fun f n => sizeOf f.before + n) 0

end Frame

namespace Site

theorem roomAfter_firstIn {start : Nat} {path : List Frame} {t : Tree} {l : Leaf}
    (h : firstIn start path t = some l) :
  Frame.roomAfter l.path < Frame.roomAfter path + sizeOf t
  := by
  fun_induction firstIn start path t with
  | case1 path t =>
    simp only [Option.some.injEq] at h
    subst h
    simp only [Tree.token.sizeOf_spec]
    omega
  | case2 => simp at h
  | case3 path k c cs ih =>
    have := ih h
    simp only [Frame.roomAfter, List.foldr_cons] at this ⊢
    simp only [Tree.node.sizeOf_spec, List.cons.sizeOf_spec]
    omega

theorem sizeOf_reverse_cons {cs rest : List Tree} {c : Tree} (h : cs.reverse = c :: rest) :
  sizeOf rest + sizeOf c < sizeOf cs
  := by
  have key (xs ys : List Tree) : sizeOf (xs.reverseAux ys) + 1 = sizeOf xs + sizeOf ys := by
    induction xs generalizing ys with
    | nil =>
      simp [List.reverseAux]
      omega
    | cons x xs ih =>
      rw [List.reverseAux, ih]
      simp only [List.cons.sizeOf_spec]
      omega
  have hrev := key cs []
  rw [← List.reverse, h] at hrev
  simp only [List.cons.sizeOf_spec, List.nil.sizeOf_spec] at hrev
  omega

theorem roomBefore_lastIn {stop : Nat} {path : List Frame} {t : Tree} {l : Leaf}
    (h : lastIn stop path t = some l) :
  Frame.roomBefore l.path < Frame.roomBefore path + sizeOf t
  := by
  fun_induction lastIn stop path t with
  | case1 path t =>
    simp only [Option.some.injEq] at h
    subst h
    simp only [Tree.token.sizeOf_spec]
    omega
  | case2 => simp at h
  | case3 path k cs c rest hrev ih =>
    have hlt := ih h
    have hsize := sizeOf_reverse_cons hrev
    simp only [Frame.roomBefore, List.foldr_cons] at hlt ⊢
    simp only [Tree.node.sizeOf_spec]
    omega

theorem roomAfter_elementAfter {stop : Nat} {t : Tree} {path : List Frame} {s : Site}
    (h : elementAfter stop t path = some s) :
  Frame.roomAfter s.path + sizeOf s.tree < Frame.roomAfter path
  := by
  fun_induction elementAfter stop t path with
  | case1 => simp at h
  | case2 t f path hnil ih =>
    have := ih h
    simp only [Frame.roomAfter, List.foldr_cons] at this ⊢
    omega
  | case3 t f path c cs hcons =>
    simp only [Option.some.injEq] at h
    subst h
    simp only [Frame.roomAfter, List.foldr_cons, hcons, List.cons.sizeOf_spec]
    omega

theorem roomBefore_elementBefore {start : Nat} {t : Tree} {path : List Frame} {s : Site}
    (h : elementBefore start t path = some s) :
  Frame.roomBefore s.path + sizeOf s.tree < Frame.roomBefore path
  := by
  fun_induction elementBefore start t path with
  | case1 => simp at h
  | case2 t f path hnil ih =>
    have := ih h
    simp only [Frame.roomBefore, List.foldr_cons] at this ⊢
    omega
  | case3 t f path c cs hcons =>
    simp only [Option.some.injEq] at h
    subst h
    simp only [Frame.roomBefore, List.foldr_cons, hcons, List.cons.sizeOf_spec]
    omega

end Site

/-! ### Walking over tokens -/

namespace Leaf

/-- The next token. -/
def next? (l : Leaf) : Option Leaf :=
  (Site.elementAfter l.stop (.token l.token) l.path).bind Site.firstToken?

/-- The token before. -/
def previous? (l : Leaf) : Option Leaf :=
  (Site.elementBefore l.start (.token l.token) l.path).bind Site.lastToken?

theorem roomAfter_next? {l m : Leaf} (h : l.next? = some m) :
  Frame.roomAfter m.path < Frame.roomAfter l.path
  := by
  obtain ⟨s, hs, hm⟩ := Option.bind_eq_some_iff.1 h
  have := Site.roomAfter_elementAfter hs
  have := Site.roomAfter_firstIn hm
  omega

theorem roomBefore_previous? {l m : Leaf} (h : l.previous? = some m) :
  Frame.roomBefore m.path < Frame.roomBefore l.path
  := by
  obtain ⟨s, hs, hm⟩ := Option.bind_eq_some_iff.1 h
  have := Site.roomBefore_elementBefore hs
  have := Site.roomBefore_lastIn hm
  omega

/-- The next token other than trivia. -/
def nextSignificant? (l : Leaf) : Option Leaf :=
  match _h : l.next? with
  | none => none
  | some m => if m.isTrivia then m.nextSignificant? else some m
termination_by Frame.roomAfter l.path
decreasing_by exact roomAfter_next? _h

/-- The token before, other than trivia. -/
def previousSignificant? (l : Leaf) : Option Leaf :=
  match _h : l.previous? with
  | none => none
  | some m => if m.isTrivia then m.previousSignificant? else some m
termination_by Frame.roomBefore l.path
decreasing_by exact roomBefore_previous? _h

end Leaf

namespace Site

/-- The first token of a site other than trivia. -/
def firstSignificant? (s : Site) : Option Leaf :=
  s.firstToken?.bind fun l =>
    if l.isTrivia then l.nextSignificant?.filter (·.stop ≤ s.stop) else some l

/-- The last token of a site other than trivia. -/
def lastSignificant? (s : Site) : Option Leaf :=
  s.lastToken?.bind fun l =>
    if l.isTrivia then l.previousSignificant?.filter (s.start ≤ ·.start) else some l

end Site

end InlayHints

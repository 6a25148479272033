import Mathlib.Algebra.Group.Nat.Defs
import Mathlib.Data.List.Basic
import Mathlib.Data.Nat.Log

/-!
# Red-black trees

Trees whose nodes are red or black, and how insertion and removal repair them from the bottom up.
Everything is said once for both sides: `join s` makes a node with its first subtree on side `s`.

- `ColorTree`, `join`, `toList`: trees, and their nodes in order.
- `TreePath`, `fill`: the way from a subtree up to the root, innermost node first, and the whole
  tree.
- `Balanced`: no red node has a red child, and all ways down meet equally many black nodes.
- `Fits`: what a tree with a hole accepts there. `Fits.fill`, `fits_of_fill`.
- `InsertStep`, `InsertOk`: the repair above a new red node.
- `Rise`, `DeleteStep`, `DeleteOk`: the repair above a place where one black node is missing.
- `Balanced.height_le`: the height is at most twice the logarithm of the size.
-/

namespace RedBlack

inductive Color where
  | red
  | black
deriving DecidableEq

inductive Side where
  | left
  | right
deriving DecidableEq

namespace Side

/-- The opposite side. -/
def other : Side → Side
  | left => right
  | right => left

@[simp] theorem other_other (s : Side) : s.other.other = s := by cases s <;> rfl

@[simp] theorem other_ne (s : Side) : s.other ≠ s := by cases s <;> decide

theorem right_ne_left : right ≠ left := by decide

@[simp] theorem ne_other (s : Side) : s ≠ s.other := s.other_ne.symm

/-- One of two sides is the other one. -/
theorem eq_other_of_ne {s s' : Side} (h : s' ≠ s) : s' = s.other := by
  cases s <;> cases s' <;> first | rfl | exact absurd rfl h

end Side

inductive ColorTree (α : Type*) where
  | leaf
  | node (c : Color) (l : ColorTree α) (x : α) (r : ColorTree α)

variable {α : Type*} {c c' : Color} {s s' : Side} {x y : α} {t u v : ColorTree α} {n : ℕ}

namespace ColorTree

/-- Leaves are black. -/
def color : ColorTree α → Color
  | leaf => .black
  | node c _ _ _ => c

/-- The root with another color. -/
def paint (c : Color) : ColorTree α → ColorTree α
  | leaf => leaf
  | node _ l x r => node c l x r

/-- The nodes in order. -/
def toList : ColorTree α → List α
  | leaf => []
  | node _ l x r => l.toList ++ x :: r.toList

def height : ColorTree α → ℕ
  | leaf => 0
  | node _ l _ r => max l.height r.height + 1

@[simp] theorem color_leaf : (leaf : ColorTree α).color = .black := rfl

@[simp] theorem toList_leaf : (leaf : ColorTree α).toList = [] := rfl

@[simp] theorem toList_paint : (t.paint c).toList = t.toList := by cases t <;> rfl

/-- The root has that color already. -/
theorem paint_of_color (h : t.color = c) : t.paint c = t := by
  cases t with
  | leaf => rfl
  | node d l x r =>
    obtain rfl : d = c := h
    rfl

end ColorTree

open ColorTree Color

/-- A node with `t` on side `s` and `u` on the other one. -/
def join (s : Side) (c : Color) (t : ColorTree α) (x : α) (u : ColorTree α) : ColorTree α :=
  match s with
  | .left => node c t x u
  | .right => node c u x t

theorem join_other : join s.other c t x u = join s c u x t := by cases s <;> rfl

/-- A tree is a leaf, or a node for either side. -/
theorem leaf_or_join (s : Side) (t : ColorTree α) :
    t = leaf ∨ ∃ a x b, t = join s t.color a x b := by
  cases t with
  | leaf => exact .inl rfl
  | node c l x r =>
    cases s with
    | left => exact .inr ⟨l, x, r, rfl⟩
    | right => exact .inr ⟨r, x, l, rfl⟩

/-- A red tree is a node. -/
theorem exists_join_of_red (s : Side) (h : t.color = red) : ∃ a x b, t = join s red a x b := by
  obtain rfl | ⟨a, x, b, hjoin⟩ := leaf_or_join s t
  · cases h
  · exact ⟨a, x, b, h ▸ hjoin⟩

theorem join_ne_leaf : join s c t x u ≠ leaf := by cases s <;> simp [join]

@[simp] theorem color_join : (join s c t x u).color = c := by cases s <;> rfl

@[simp] theorem paint_join : (join s c t x u).paint c' = join s c' t x u := by cases s <;> rfl

@[simp] theorem height_join : (join s c t x u).height = max t.height u.height + 1 := by
  cases s
  · rfl
  · exact congrArg (· + 1) (Nat.max_comm _ _)

/-- The order does not depend on colors. -/
theorem toList_join_color : (join s c t x u).toList = (join s c' t x u).toList := by
  cases s <;> rfl

theorem toList_join_congr {t' u' : ColorTree α} (ht : t'.toList = t.toList)
    (hu : u'.toList = u.toList) : (join s c' t' x u').toList = (join s c t x u).toList := by
  cases s <;> simp [join, toList, ht, hu]

/-- **A rotation** keeps the order. -/
theorem toList_rotate {d d' : Color} : (join s d' (join s d t x u) y v).toList
    = (join s c t x (join s c' u y v)).toList := by
  cases s <;> simp [join, toList]

/-! ## Paths -/

/-- A node without the subtree on side `side`. -/
structure Frame (α : Type*) where
  side : Side
  color : Color
  val : α
  sibling : ColorTree α

/-- The nodes above a place, the innermost one first. -/
abbrev TreePath (α : Type*) := List (Frame α)

/-- The node, with the subtree. -/
def Frame.fill (f : Frame α) (t : ColorTree α) : ColorTree α :=
  join f.side f.color t f.val f.sibling

/-- The whole tree. -/
def fill : TreePath α → ColorTree α → ColorTree α
  | [], t => t
  | f :: p, t => fill p (f.fill t)

namespace TreePath

/-- The nodes in front of a place. -/
def before : TreePath α → List α
  | [] => []
  | f :: p =>
    match f.side with
    | .left => before p
    | .right => before p ++ (f.sibling.toList ++ [f.val])

/-- The nodes behind it. -/
def after : TreePath α → List α
  | [] => []
  | f :: p =>
    match f.side with
    | .left => f.val :: f.sibling.toList ++ after p
    | .right => after p

/-- The nodes above it and beside it, in no order. -/
def nodes : TreePath α → List α
  | [] => []
  | f :: p => f.val :: (f.sibling.toList ++ nodes p)

@[simp] theorem nodes_nil : nodes ([] : TreePath α) = [] := rfl

@[simp] theorem nodes_cons (f : Frame α) (p : TreePath α) :
    nodes (f :: p) = f.val :: (f.sibling.toList ++ nodes p) := rfl

end TreePath

variable {p p' q : TreePath α} {f : Frame α}

@[simp] theorem fill_nil : fill ([] : TreePath α) t = t := rfl

@[simp] theorem fill_cons : fill (f :: p) t = fill p (f.fill t) := rfl

/-- A place below a node, on the side that is given. -/
theorem fill_frame : fill (⟨s, c, x, u⟩ :: p) t = fill p (join s c t x u) := rfl

/-- On the opposite side. -/
theorem fill_other : fill (⟨s.other, c, x, u⟩ :: p) t = fill p (join s c u x t) :=
  congrArg (fill p) join_other

theorem fill_append : fill (p ++ q) t = fill q (fill p t) := by
  induction p generalizing t with
  | nil => rfl
  | cons f p ih => exact ih

/-- The order of the whole tree. -/
theorem toList_fill : (fill p t).toList = p.before ++ t.toList ++ p.after := by
  induction p generalizing t with
  | nil => simp [TreePath.before, TreePath.after]
  | cons f p ih =>
    obtain ⟨side, c, x, u⟩ := f
    cases side <;> simp [ih, Frame.fill, join, toList, TreePath.before, TreePath.after]

/-- A node of a tree is at some place in it. -/
theorem exists_fill_of_mem (h : x ∈ t.toList) : ∃ p c l r, t = fill p (node c l x r) := by
  induction t with
  | leaf => cases h
  | node d l y r ihl ihr =>
    rcases List.mem_append.mp h with hl | hr
    · obtain ⟨p, c, a, b, rfl⟩ := ihl hl
      exact ⟨p ++ [⟨.left, d, y, r⟩], c, a, b, by rw [fill_append]; rfl⟩
    · rcases List.mem_cons.mp hr with rfl | hr
      · exact ⟨[], d, l, r, rfl⟩
      · obtain ⟨p, c, a, b, rfl⟩ := ihr hr
        exact ⟨p ++ [⟨.right, d, y, l⟩], c, a, b, by rw [fill_append]; rfl⟩

theorem before_append : TreePath.before (p ++ q) = TreePath.before q ++ TreePath.before p := by
  induction p with
  | nil => simp [TreePath.before]
  | cons f p ih =>
    obtain ⟨side, c, x, u⟩ := f
    cases side <;> simp [TreePath.before, ih]

theorem after_append : TreePath.after (p ++ q) = TreePath.after p ++ TreePath.after q := by
  induction p with
  | nil => simp [TreePath.after]
  | cons f p ih =>
    obtain ⟨side, c, x, u⟩ := f
    cases side <;> simp [TreePath.after, ih]

theorem perm_join : (join s c t x u).toList.Perm (x :: (t.toList ++ u.toList)) := by
  cases s with
  | left => exact List.perm_middle
  | right => exact List.perm_middle.trans (List.perm_append_comm.cons x)

/-- The nodes of the whole tree. -/
theorem perm_fill : (fill p t).toList.Perm (t.toList ++ p.nodes) := by
  induction p generalizing t with
  | nil => simp
  | cons f p ih =>
    refine ih.trans ((perm_join.append_right _).trans ?_)
    simp only [TreePath.nodes_cons, List.cons_append, List.append_assoc]
    exact List.perm_middle.symm

/-- It only depends on the order of the subtree. -/
theorem toList_fill_congr (h : t.toList = u.toList) : (fill p t).toList = (fill p u).toList := by
  rw [toList_fill, toList_fill, h]

/-- A path goes down as far as the tree is high. -/
theorem length_le_height : p.length + t.height ≤ (fill p t).height := by
  induction p generalizing t with
  | nil => simp
  | cons f p ih =>
    have hfill : (fill p (f.fill t)).height ≥ p.length + (f.fill t).height := ih
    have hframe : t.height + 1 ≤ (f.fill t).height := by
      rw [Frame.fill, height_join]
      exact Nat.succ_le_succ (Nat.le_max_left _ _)
    simp only [List.length_cons, fill_cons]
    omega

/-- Filled with a node, a path leads to a node. -/
theorem fill_ne_leaf (h : t ≠ leaf) : fill p t ≠ leaf := by
  induction p generalizing t with
  | nil => exact h
  | cons f p ih =>
    refine ih fun hleaf => ?_
    have hheight := congrArg height hleaf
    simp [Frame.fill, height] at hheight

/-! ## Balance -/

/-- No red node has a red child, and each way down meets `n` black nodes; `c` is the color of
the root. -/
inductive Balanced : ColorTree α → Color → ℕ → Prop
  | leaf : Balanced leaf black 0
  | redNode {l x r n} (hl : Balanced l black n) (hr : Balanced r black n) :
      Balanced (node red l x r) red n
  | blackNode {l x r n c c'} (hl : Balanced l c n) (hr : Balanced r c' n) :
      Balanced (node black l x r) black (n + 1)

theorem Balanced.color_eq (h : Balanced t c n) : t.color = c := by
  cases h <;> rfl

theorem balanced_join_red :
    Balanced (join s red t x u) c n ↔ c = red ∧ Balanced t black n ∧ Balanced u black n := by
  constructor
  · intro h
    cases s <;> cases h with
    | redNode hl hr => first | exact ⟨rfl, hl, hr⟩ | exact ⟨rfl, hr, hl⟩
  · rintro ⟨rfl, ht, hu⟩
    cases s
    · exact .redNode ht hu
    · exact .redNode hu ht

theorem balanced_join_black : Balanced (join s black t x u) c n ↔
    c = black ∧ ∃ m, n = m + 1 ∧ (∃ d, Balanced t d m) ∧ ∃ d, Balanced u d m := by
  constructor
  · intro h
    cases s <;> cases h with
    | blackNode hl hr =>
      first | exact ⟨rfl, _, rfl, ⟨_, hl⟩, _, hr⟩ | exact ⟨rfl, _, rfl, ⟨_, hr⟩, _, hl⟩
  · rintro ⟨rfl, m, rfl, ⟨d, ht⟩, d', hu⟩
    cases s
    · exact .blackNode ht hu
    · exact .blackNode hu ht

/-- A red root can be made black. -/
theorem Balanced.paint_red (h : Balanced t red n) : Balanced (t.paint black) black (n + 1) := by
  cases h with
  | redNode hl hr => exact .blackNode hl hr

/-- A tree is black, or it is red and has only one black node more when it is made black. -/
theorem Balanced.black_or (h : Balanced t c n) : Balanced t black n ∨
    t.color = red ∧ Balanced (t.paint black) black (n + 1) := by
  cases c with
  | black => exact .inl h
  | red => exact .inr ⟨h.color_eq, h.paint_red⟩

/-- A tree that has a black node on each way down is a node. -/
theorem Balanced.exists_join (s : Side) (h : Balanced t c (n + 1)) :
    ∃ a x b, t = join s c a x b := by
  obtain rfl | ⟨a, x, b, hjoin⟩ := leaf_or_join s t
  · cases h
  · exact ⟨a, x, b, h.color_eq ▸ hjoin⟩

/-- A balanced tree with a hole accepts a tree with a root of that color and `n` black nodes on
each way down. The root of the whole tree is black. -/
def Fits : TreePath α → Color → ℕ → Prop
  | [], c, _ => c = black
  | ⟨_, red, _, u⟩ :: p, c, n => c = black ∧ Balanced u black n ∧ Fits p red n
  | ⟨_, black, _, u⟩ :: p, _, n => (∃ d, Balanced u d n) ∧ Fits p black (n + 1)

@[simp] theorem fits_nil : Fits ([] : TreePath α) c n ↔ c = black := Iff.rfl

@[simp] theorem fits_red : Fits (⟨s, red, x, u⟩ :: p) c n ↔
    c = black ∧ Balanced u black n ∧ Fits p red n := Iff.rfl

@[simp] theorem fits_black : Fits (⟨s, black, x, u⟩ :: p) c n ↔
    (∃ d, Balanced u d n) ∧ Fits p black (n + 1) := Iff.rfl

/-- Black fits wherever red does. -/
theorem Fits.to_black (h : Fits p c n) : Fits p black n := by
  cases p with
  | nil => rfl
  | cons f p =>
    obtain ⟨side, d, x, u⟩ := f
    cases d with
    | red => exact ⟨rfl, h.2⟩
    | black => exact h

/-- **A hole that is filled** with what it accepts gives a balanced tree. -/
theorem Fits.fill (h : Fits p c n) (ht : Balanced t c n) : ∃ m, Balanced (fill p t) black m := by
  induction p generalizing t c n with
  | nil =>
    obtain rfl : c = black := h
    exact ⟨n, ht⟩
  | cons f p ih =>
    obtain ⟨side, d, x, u⟩ := f
    cases d with
    | red =>
      obtain ⟨rfl, hu, hp⟩ := h
      exact ih hp (balanced_join_red.mpr ⟨rfl, ht, hu⟩)
    | black =>
      obtain ⟨hu, hp⟩ := h
      exact ih hp (balanced_join_black.mpr ⟨rfl, n, rfl, ⟨_, ht⟩, hu⟩)

/-- **Any subtree** of a balanced tree is balanced, and fits where it is. -/
theorem fits_of_fill {m : ℕ} (h : Balanced (fill p t) black m) :
    ∃ c n, Balanced t c n ∧ Fits p c n := by
  induction p generalizing t with
  | nil => exact ⟨_, _, h, rfl⟩
  | cons f p ih =>
    obtain ⟨c, n, hf, hp⟩ := ih h
    obtain ⟨side, d, x, u⟩ := f
    cases d with
    | red =>
      obtain ⟨rfl, ht, hu⟩ := balanced_join_red.mp hf
      exact ⟨black, n, ht, rfl, hu, hp⟩
    | black =>
      obtain ⟨rfl, m, rfl, ⟨d, ht⟩, hu⟩ := balanced_join_black.mp hf
      exact ⟨d, m, ht, hu, hp⟩

/-- It does not matter which nodes are above the hole. -/
theorem fits_replace (h : Fits (p ++ ⟨s, c', x, u⟩ :: q) c n) :
    Fits (p ++ ⟨s, c', y, u⟩ :: q) c n := by
  induction p generalizing c n with
  | nil => cases c' <;> exact h
  | cons f p ih =>
    obtain ⟨side, d, x, u⟩ := f
    cases d with
    | red => exact ⟨h.1, h.2.1, ih h.2.2⟩
    | black => exact ⟨h.1, ih h.2⟩

/-- Nor for the balance of the whole tree. -/
theorem Balanced.replace {m : ℕ}
    (h : Balanced (RedBlack.fill (p ++ ⟨s, c', x, u⟩ :: q) t) black m) :
    ∃ k, Balanced (RedBlack.fill (p ++ ⟨s, c', y, u⟩ :: q) t) black k := by
  obtain ⟨c, n, ht, hfits⟩ := fits_of_fill h
  exact (fits_replace hfits).fill ht

/-! ## Repair after an insertion -/

/-- One step of the repair above the red tree `t`: the red node above it is made black with its
red sibling, or rotated up. -/
inductive InsertStep : TreePath α → ColorTree α → TreePath α → ColorTree α → Prop
  | recolor {s s' : Side} {c : Color} {x y : α} {t u v : ColorTree α} {p : TreePath α}
      (hv : v.color = red) :
      InsertStep (⟨s', red, x, u⟩ :: ⟨s, c, y, v⟩ :: p) t
        p (join s red (join s' black t x u) y (v.paint black))
  | outer {s : Side} {c : Color} {x y : α} {t u v : ColorTree α} {p : TreePath α}
      (hv : v.color = black) :
      InsertStep (⟨s, red, x, u⟩ :: ⟨s, c, y, v⟩ :: p) t
        (⟨s, black, x, join s red u y v⟩ :: p) t
  | inner {s : Side} {c c' : Color} {x y z : α} {a b u v : ColorTree α} {p : TreePath α}
      (hv : v.color = black) :
      InsertStep (⟨s.other, red, x, u⟩ :: ⟨s, c, y, v⟩ :: p) (join s c' a z b)
        (⟨s, black, z, join s red b y v⟩ :: p) (join s red u x a)

/-- The only fault is that `t` is red. -/
structure InsertOk (p : TreePath α) (t : ColorTree α) (n : ℕ) : Prop where
  tree : Balanced t red n
  path : Fits p black n

/-- Nothing to repair: the node above is black, or there is none. -/
def Settled (p : TreePath α) : Prop := ∀ f ∈ p.head?, f.color = black

@[simp] theorem settled_nil : Settled ([] : TreePath α) := fun _ hf => by cases hf

theorem InsertStep.toList_eq {t' : ColorTree α} (h : InsertStep p t p' t') :
    (fill p' t').toList = (fill p t).toList := by
  cases h with
  | recolor => exact toList_fill_congr (toList_join_congr toList_join_color toList_paint)
  | @outer s => cases s <;> simp [Frame.fill, join, toList_fill, toList]
  | @inner s => cases s <;> simp [Frame.fill, join, toList_fill, toList, Side.other]

theorem InsertStep.length_lt {t' : ColorTree α} (h : InsertStep p t p' t') :
    p'.length < p.length := by
  cases h <;> simp only [List.length_cons] <;> omega

/-- **A step of the repair** leaves no other fault. -/
theorem InsertStep.ok {t' : ColorTree α} (h : InsertStep p t p' t') (hok : InsertOk p t n) :
    ∃ m, InsertOk p' t' m := by
  obtain ⟨ht, hp⟩ := hok
  cases h with
  | @recolor s s' c x y t u v p hv =>
    obtain ⟨-, hu, hp⟩ := fits_red.mp hp
    cases c with
    | red => cases hp.1
    | black =>
      obtain ⟨⟨d, hd⟩, hp⟩ := hp
      obtain rfl : d = red := hd.color_eq.symm.trans hv
      have hjoin : Balanced (join s' black t x u) black (n + 1) :=
        balanced_join_black.mpr ⟨rfl, n, rfl, ⟨_, ht⟩, _, hu⟩
      exact ⟨n + 1, balanced_join_red.mpr ⟨rfl, hjoin, hd.paint_red⟩, hp⟩
  | @outer s c x y t u v p hv =>
    obtain ⟨-, hu, hp⟩ := fits_red.mp hp
    cases c with
    | red => cases hp.1
    | black =>
      obtain ⟨⟨d, hd⟩, hp⟩ := hp
      obtain rfl : d = black := hd.color_eq.symm.trans hv
      exact ⟨n, ht, ⟨_, balanced_join_red.mpr ⟨rfl, hu, hd⟩⟩, hp⟩
  | @inner s c c' x y z a b u v p hv =>
    obtain ⟨-, hu, hp⟩ := fits_red.mp hp
    cases c with
    | red => cases hp.1
    | black =>
      obtain ⟨⟨d, hd⟩, hp⟩ := hp
      obtain rfl : d = black := hd.color_eq.symm.trans hv
      obtain rfl : c' = red := color_join.symm.trans ht.color_eq
      obtain ⟨-, ha, hb⟩ := balanced_join_red.mp ht
      exact ⟨n, balanced_join_red.mpr ⟨rfl, hu, ha⟩,
        ⟨_, balanced_join_red.mpr ⟨rfl, hb, hd⟩⟩, hp⟩

/-- While there is something to repair, a step can be made. -/
theorem InsertOk.step (h : InsertOk p t n) (hp : ¬ Settled p) :
    ∃ p' t', InsertStep p t p' t' := by
  obtain ⟨ht, hfits⟩ := h
  match p, hp, hfits with
  | [], hp, _ => exact absurd settled_nil hp
  | ⟨_, black, _, _⟩ :: _, hp, _ => exact absurd (fun f hf => by cases hf; rfl) hp
  | [⟨_, red, _, _⟩], _, hfits => cases hfits.2.2
  | ⟨s', red, x, u⟩ :: ⟨s, c, y, v⟩ :: p, _, _ =>
    cases hv : v.color with
    | red => exact ⟨_, _, .recolor hv⟩
    | black =>
      by_cases hs : s' = s
      · subst hs
        exact ⟨_, _, .outer hv⟩
      · obtain rfl := Side.eq_other_of_ne hs
        obtain ⟨a, z, b, rfl⟩ := exists_join_of_red s ht.color_eq
        exact ⟨_, _, .inner hv⟩

/-- **At the end** the tree is balanced when its root is made black. -/
theorem InsertOk.settled (h : InsertOk p t n) (hp : Settled p) :
    ∃ m, Balanced ((fill p t).paint black) black m := by
  obtain ⟨ht, hfits⟩ := h
  cases p with
  | nil => exact ⟨_, ht.paint_red⟩
  | cons f p =>
    obtain ⟨side, d, x, u⟩ := f
    obtain rfl : d = black := hp _ rfl
    have hred : Fits (⟨side, black, x, u⟩ :: p) red n := hfits
    obtain ⟨m, hm⟩ := hred.fill ht
    rw [paint_of_color hm.color_eq]
    exact ⟨m, hm⟩

/-! ## Repair after a removal -/

/-- A red sibling is rotated up, so that the place gets a black one. -/
inductive Rise : TreePath α → TreePath α → Prop
  | mk {s : Side} {c : Color} {x w : α} {a b : ColorTree α} {p : TreePath α} :
    Rise (⟨s, c, x, join s red a w b⟩ :: p) (⟨s, red, x, a⟩ :: ⟨s, black, w, b⟩ :: p)

/-- One step of the repair above the tree `t`, where a black node is missing, with a black
sibling: it is made red and the place above is repaired, or one of its red children makes up for
the missing node. -/
inductive DeleteStep : TreePath α → ColorTree α → TreePath α → ColorTree α → Prop
  | lower {s : Side} {c : Color} {x w : α} {t a b : ColorTree α} {p : TreePath α}
      (ha : a.color = black) (hb : b.color = black) :
      DeleteStep (⟨s, c, x, join s black a w b⟩ :: p) t p (join s c t x (join s red a w b))
  | far {s : Side} {c : Color} {x w : α} {t a b : ColorTree α} {p : TreePath α}
      (hb : b.color = red) :
      DeleteStep (⟨s, c, x, join s black a w b⟩ :: p) t
        [] (fill p (join s c (join s black t x a) w (b.paint black)))
  | near {s : Side} {c : Color} {x v w : α} {t a b d : ColorTree α} {p : TreePath α}
      (hb : b.color = black) :
      DeleteStep (⟨s, c, x, join s black (join s red a v d) w b⟩ :: p) t
        [] (fill p (join s c (join s black t x a) v (join s black d w b)))

/-- The only fault is that each way down through `t` meets one black node too few. It may have
a red root with red children, which is made black next. -/
structure DeleteOk (p : TreePath α) (t : ColorTree α) (n : ℕ) : Prop where
  tree : Balanced t black n ∨ t.color = red ∧ Balanced (t.paint black) black (n + 1)
  path : Fits p black (n + 1)

/-- Nothing to repair but the color of the root of `t`. -/
def Mended (p : TreePath α) (t : ColorTree α) : Prop := p = [] ∨ t.color = red

theorem Rise.fill_toList (h : Rise p p') : (fill p' t).toList = (fill p t).toList := by
  cases h with
  | mk => exact toList_fill_congr toList_rotate

theorem Rise.length_eq (h : Rise p p') : p'.length = p.length + 1 := by
  cases h
  rfl

theorem Rise.fits (h : Rise p p') (hp : Fits p black (n + 1)) : Fits p' black (n + 1) := by
  cases h with
  | @mk s c x w a b p =>
    cases c with
    | red =>
      obtain ⟨-, hu, -⟩ := hp
      cases (balanced_join_red.mp hu).1
    | black =>
      obtain ⟨⟨d, hd⟩, hp⟩ := hp
      obtain ⟨-, ha, hb⟩ := balanced_join_red.mp hd
      exact ⟨rfl, ha, ⟨_, hb⟩, hp⟩

theorem DeleteStep.toList_eq {t' : ColorTree α} (h : DeleteStep p t p' t') :
    (fill p' t').toList = (fill p t).toList := by
  cases h with
  | lower => exact toList_fill_congr (toList_join_congr rfl toList_join_color)
  | @far s => cases s <;> simp [Frame.fill, join, toList_fill, toList]
  | @near s => cases s <;> simp [Frame.fill, join, toList_fill, toList]

theorem DeleteStep.ne_leaf {t' : ColorTree α} (h : DeleteStep p t p' t') : t' ≠ leaf := by
  cases h with
  | lower => exact join_ne_leaf
  | far | near => exact fill_ne_leaf join_ne_leaf

/-- A step leads upwards. -/
theorem DeleteStep.length_le {t' : ColorTree α} (h : DeleteStep (f :: p) t p' t') :
    p'.length ≤ p.length := by
  cases h with
  | lower => exact le_rfl
  | far | near => exact Nat.zero_le _

/-- Below a red node it is the last one. -/
theorem DeleteStep.mended {t' : ColorTree α} (h : DeleteStep (f :: p) t p' t')
    (hf : f.color = red) : Mended p' t' := by
  cases h with
  | lower => exact .inr (color_join.trans hf)
  | far | near => exact .inl rfl

/-- **A step of the repair** leaves no other fault. -/
theorem DeleteStep.ok {t' : ColorTree α} (h : DeleteStep p t p' t') (hok : DeleteOk p t n)
    (hblack : t.color = black) : ∃ m, DeleteOk p' t' m := by
  obtain ⟨htree, hp⟩ := hok
  have ht : Balanced t black n := htree.resolve_right fun hred => by
    cases hblack.symm.trans hred.1
  cases h with
  | @lower s c x w t a b p ha hb =>
    cases c with
    | red =>
      obtain ⟨-, hw, hp⟩ := hp
      obtain ⟨-, m, hm, ⟨d, hd⟩, d', hd'⟩ := balanced_join_black.mp hw
      obtain rfl : n = m := Nat.succ.inj hm
      obtain rfl : d = black := hd.color_eq.symm.trans ha
      obtain rfl : d' = black := hd'.color_eq.symm.trans hb
      refine ⟨n, .inr ⟨color_join, ?_⟩, hp.to_black⟩
      rw [paint_join]
      exact balanced_join_black.mpr
        ⟨rfl, n, rfl, ⟨_, ht⟩, _, balanced_join_red.mpr ⟨rfl, hd, hd'⟩⟩
    | black =>
      obtain ⟨⟨e, hw⟩, hp⟩ := hp
      obtain ⟨-, m, hm, ⟨d, hd⟩, d', hd'⟩ := balanced_join_black.mp hw
      obtain rfl : n = m := Nat.succ.inj hm
      obtain rfl : d = black := hd.color_eq.symm.trans ha
      obtain rfl : d' = black := hd'.color_eq.symm.trans hb
      exact ⟨n + 1, .inl (balanced_join_black.mpr
        ⟨rfl, n, rfl, ⟨_, ht⟩, _, balanced_join_red.mpr ⟨rfl, hd, hd'⟩⟩), hp⟩
  | @far s c x w t a b p hb =>
    have hsib : ∃ e, Balanced (join s black a w b) e (n + 1) := by
      cases c with
      | red => exact ⟨_, hp.2.1⟩
      | black => exact hp.1
    obtain ⟨e, hw⟩ := hsib
    obtain ⟨-, m, hm, ha, d', hd'⟩ := balanced_join_black.mp hw
    obtain rfl : n = m := Nat.succ.inj hm
    obtain rfl : d' = red := hd'.color_eq.symm.trans hb
    have hnear : Balanced (join s black t x a) black (n + 1) :=
      balanced_join_black.mpr ⟨rfl, n, rfl, ⟨_, ht⟩, ha⟩
    have hwhole : ∃ k, Balanced (RedBlack.fill p
        (join s c (join s black t x a) w (b.paint black))) black k := by
      cases c with
      | red => exact hp.2.2.fill (balanced_join_red.mpr ⟨rfl, hnear, hd'.paint_red⟩)
      | black =>
        exact hp.2.fill (balanced_join_black.mpr ⟨rfl, _, rfl, ⟨_, hnear⟩, _, hd'.paint_red⟩)
    obtain ⟨k, hk⟩ := hwhole
    exact ⟨k, .inl hk, rfl⟩
  | @near s c x v w t a b d p hb =>
    have hsib : ∃ e, Balanced (join s black (join s red a v d) w b) e (n + 1) := by
      cases c with
      | red => exact ⟨_, hp.2.1⟩
      | black => exact hp.1
    obtain ⟨e, hw⟩ := hsib
    obtain ⟨-, m, hm, ⟨e', he'⟩, d', hd'⟩ := balanced_join_black.mp hw
    obtain rfl : n = m := Nat.succ.inj hm
    obtain ⟨-, ha, hd⟩ := balanced_join_red.mp he'
    have hnear : Balanced (join s black t x a) black (n + 1) :=
      balanced_join_black.mpr ⟨rfl, n, rfl, ⟨_, ht⟩, _, ha⟩
    have hfar : Balanced (join s black d w b) black (n + 1) :=
      balanced_join_black.mpr ⟨rfl, n, rfl, ⟨_, hd⟩, _, hd'⟩
    have hwhole : ∃ k, Balanced (RedBlack.fill p
        (join s c (join s black t x a) v (join s black d w b))) black k := by
      cases c with
      | red => exact hp.2.2.fill (balanced_join_red.mpr ⟨rfl, hnear, hfar⟩)
      | black =>
        exact hp.2.fill (balanced_join_black.mpr ⟨rfl, _, rfl, ⟨_, hnear⟩, _, hfar⟩)
    obtain ⟨k, hk⟩ := hwhole
    exact ⟨k, .inl hk, rfl⟩

/-- The place above a fault has a sibling with a black node on each way down. -/
theorem Fits.sibling (h : Fits (f :: p) c n) : ∃ d, Balanced f.sibling d n := by
  obtain ⟨side, e, x, u⟩ := f
  cases e with
  | red => exact ⟨_, h.2.1⟩
  | black => exact h.1

/-- With a black sibling, a step can be made. -/
theorem DeleteOk.step (h : DeleteOk (f :: p) t n) (hf : f.sibling.color = black) :
    ∃ p' t', DeleteStep (f :: p) t p' t' := by
  obtain ⟨d, hd⟩ := h.path.sibling
  obtain ⟨side, e, x, u⟩ := f
  obtain ⟨a, w, b, hu⟩ := hd.exists_join side
  obtain rfl : u = join side d a w b := hu
  obtain rfl : d = black := color_join.symm.trans hf
  cases hb : b.color with
  | red => exact ⟨_, _, .far hb⟩
  | black =>
    cases ha : a.color with
    | black => exact ⟨_, _, .lower ha hb⟩
    | red =>
      obtain ⟨a', v, d, rfl⟩ := exists_join_of_red side ha
      exact ⟨_, _, .near hb⟩

/-- With a red sibling, it can be rotated up, and the new one is black. -/
theorem DeleteOk.rise (h : DeleteOk (f :: p) t n) (hf : f.sibling.color = red) :
    ∃ g q, Rise (f :: p) (g :: q) ∧ g.color = red ∧ g.sibling.color = black := by
  obtain ⟨side, e, x, u⟩ := f
  obtain ⟨a, w, b, rfl⟩ := exists_join_of_red side hf
  obtain ⟨d, hd⟩ := h.path.sibling
  exact ⟨_, _, .mk, rfl, (balanced_join_red.mp hd).2.1.color_eq⟩

/-- **At the end** the tree is balanced when the root of the subtree is made black. -/
theorem DeleteOk.mended (h : DeleteOk p t n) (hm : Mended p t) :
    ∃ m, Balanced (fill p (t.paint black)) black m := by
  obtain ⟨ht | ⟨-, ht⟩, hp⟩ := h
  · rcases hm with rfl | hred
    · rw [paint_of_color ht.color_eq]
      exact ⟨n, ht⟩
    · cases ht.color_eq.symm.trans hred
  · exact hp.fill ht

/-- **A node with one child** at most can be taken out: a red one without harm, and a black one is
missing then. -/
theorem Balanced.take {m : ℕ} (h : Balanced (fill p (join s c ColorTree.leaf x t)) black m) :
    (c = red → ∃ k, Balanced (fill p t) black k) ∧ (c = black → DeleteOk p t 0) := by
  obtain ⟨d, n, hjoin, hp⟩ := fits_of_fill h
  constructor
  · rintro rfl
    obtain ⟨rfl, -, ht⟩ := balanced_join_red.mp hjoin
    exact hp.to_black.fill ht
  · rintro rfl
    obtain ⟨rfl, k, rfl, ⟨e, hleaf⟩, e', ht⟩ := balanced_join_black.mp hjoin
    cases hleaf
    exact ⟨ht.black_or, hp⟩

/-! ## Height -/

/-- A balanced tree with `n` black nodes on each way down has at least `2 ^ n - 1` nodes. -/
theorem Balanced.pow_le (h : Balanced t c n) : 2 ^ n ≤ t.toList.length + 1 := by
  induction h with
  | leaf => simp
  | redNode hl hr ihl ihr =>
    simp only [toList, List.length_append, List.length_cons]
    omega
  | blackNode hl hr ihl ihr =>
    simp only [toList, List.length_append, List.length_cons, Nat.pow_succ]
    omega

theorem Balanced.height_le_double (h : Balanced t c n) :
    t.height ≤ 2 * n + if c = red then 1 else 0 := by
  induction h with
  | leaf => simp [height]
  | redNode hl hr ihl ihr =>
    simp [height] at ihl ihr ⊢
    omega
  | @blackNode l x r n c c' hl hr ihl ihr =>
    have hone : ∀ d : Color, (if d = red then 1 else 0) ≤ 1 := fun d => by split <;> simp
    have hl := hone c
    have hr := hone c'
    simp only [height, reduceCtorEq, if_false]
    omega

/-- **The height** of a balanced tree with a black root. -/
theorem Balanced.height_le (h : Balanced t black n) :
    t.height ≤ 2 * Nat.log 2 (t.toList.length + 1) := by
  have hlog : n ≤ Nat.log 2 (t.toList.length + 1) :=
    Nat.le_log_of_pow_le (by decide) h.pow_le
  have hheight := h.height_le_double
  simp only [reduceCtorEq, if_false] at hheight
  omega

end RedBlack

import Mathlib.Logic.Function.Basic
import Dungeon.Lib.Loop
import Dungeon.Lib.Machine
import Dungeon.Lib.RedBlack

/-!
# The red-black tree (`ds_rbtree.c`)

Nodes with pointers to their children and their parent; one node, the sentinel, stands for all
leaves.

- `Rbtree`: `struct rbtree_s` with the nodes in memory, one map for each field.
- `rotate`, `rbtreeInsert`, `rbtreeDelete`, `rbtreeMin`: the functions, assignment by assignment;
  `none` is a look at `NULL`, or a loop with more than the turns it is given. What the source
  writes once for the left side and once for the right one takes the side as an argument.
-/

namespace Dungeon

open RedBlack

/-- `struct rbtree_s` without its way to compare keys, and the nodes in memory. -/
structure Rbtree (ι K : Type) where
  root : ι
  sentinel : ι
  key : ι → K
  /-- `left` and `right` -/
  link : Side → ι → Option ι
  parent : ι → Option ι
  /-- `color` -/
  red : ι → Bool

namespace Rbtree

variable {ι K : Type}

section Functions

variable [DecidableEq ι]

/-! ## Assignments -/

/-- `n->left = p` or `n->right = p`. -/
def setLink (m : Rbtree ι K) (s : Side) (n : ι) (p : Option ι) : Rbtree ι K :=
  { m with link := fun s' n' => if s' = s ∧ n' = n then p else m.link s' n' }

/-- `n->parent = p`. -/
def setParent (m : Rbtree ι K) (n : ι) (p : Option ι) : Rbtree ι K :=
  { m with parent := Function.update m.parent n p }

/-- `rbt_red` and `rbt_black`. -/
def setRed (m : Rbtree ι K) (n : ι) (b : Bool) : Rbtree ι K :=
  { m with red := Function.update m.red n b }

/-- `n->key = k`. -/
def setKey (m : Rbtree ι K) (n : ι) (k : K) : Rbtree ι K :=
  { m with key := Function.update m.key n k }

/-- `*root = n`. -/
def setRoot (m : Rbtree ι K) (n : ι) : Rbtree ι K := { m with root := n }

/-- `if (p != sentinel) p->parent = q`. -/
def adopt (m : Rbtree ι K) (p q : ι) : Rbtree ι K :=
  if p ≠ m.sentinel then m.setParent p (some q) else m

/-- The link of `up` to `node` is now one to `temp`; the one on side `s` is looked at first. -/
def relink (m : Rbtree ι K) (s : Side) (up node temp : ι) : Rbtree ι K :=
  if m.link s up = some node then m.setLink s up (some temp)
  else m.setLink s.other up (some temp)

/-- `temp` takes the place of `node` below its parent, or as the root. -/
def rehang (m : Rbtree ι K) (s : Side) (node temp : ι) : Option (Rbtree ι K) :=
  if node = m.root then some (m.setRoot temp)
  else do
    let up ← m.parent node
    return m.relink s up node temp

/-! ## The functions -/

/-- `rbtree_init`. -/
def rbtreeInit (m : Rbtree ι K) (s : ι) : Rbtree ι K :=
  { m.setRed s false with root := s, sentinel := s }

/-- `rbtree_left_rotate` and `rbtree_right_rotate`. -/
def rotate (m : Rbtree ι K) (s : Side) (node : ι) : Option (Rbtree ι K) := do
  let temp ← m.link s.other node
  let inner ← m.link s temp
  let m := m.setLink s.other node (some inner)
  let m := m.adopt inner node
  let m := m.setParent temp (m.parent node)
  let m ← m.rehang s node temp
  return (m.setLink s temp (some node)).setParent node (some temp)

/-- The loop of `rbtree_min`. -/
def minTurn (m : Rbtree ι K) (node : ι) : Turn ι ι :=
  match m.link .left node with
  | none => .undefined
  | some left => if left ≠ m.sentinel then .next left else .done node

/-- `rbtree_min`. -/
def rbtreeMin (m : Rbtree ι K) (n : ℕ) (node : ι) : Option ι := Loop.run m.minTurn n node

/-- The loop of `rbtree_insert_value` and `rbtree_insert_timer_value`, for the node of key `k`:
where the node is put. -/
def descendTurn (less : K → K → Bool) (m : Rbtree ι K) (k : K) (temp : ι) : Turn ι (ι × Side) :=
  let s := if less k (m.key temp) then Side.left else Side.right
  match m.link s temp with
  | none => .undefined
  | some p => if p = m.sentinel then .done (temp, s) else .next p

/-- What is done behind that loop. -/
def attach (m : Rbtree ι K) (s : Side) (temp node : ι) : Rbtree ι K :=
  let m := m.setLink s temp (some node)
  let m := m.setParent node (some temp)
  let m := m.setLink .left node (some m.sentinel)
  let m := m.setLink .right node (some m.sentinel)
  m.setRed node true

/-- `rbtree_insert_value` and `rbtree_insert_timer_value`. -/
def insertValue (less : K → K → Bool) (m : Rbtree ι K) (n : ℕ) (temp node : ι) :
    Option (Rbtree ι K) := do
  let (temp, s) ← Loop.run (descendTurn less m (m.key node)) n temp
  return m.attach s temp node

/-- `node != *root && rbt_is_red(node->parent)`. -/
def insertGoes (r : Rbtree ι K × ι) : Option Bool :=
  if r.2 = r.1.root then some false else (r.1.parent r.2).map r.1.red

/-- The end of a turn of the loop of `rbtree_insert`: the parent of the node is rotated up. -/
def insertRotate (s : Side) (m : Rbtree ι K) (node : ι) : Option (Rbtree ι K × ι) := do
  let parent ← m.parent node
  let m := m.setRed parent false
  let grand ← m.parent parent
  let m := m.setRed grand true
  let m ← m.rotate s.other grand
  return (m, node)

/-- A turn of the loop of `rbtree_insert`, for a parent on side `s`. -/
def insertSide (s : Side) (m : Rbtree ι K) (node : ι) : Option (Rbtree ι K × ι) := do
  let parent ← m.parent node
  let grand ← m.parent parent
  let temp ← m.link s.other grand
  if m.red temp then
    return (((m.setRed parent false).setRed temp false).setRed grand true, grand)
  else if m.link s.other parent = some node then do
    let m ← m.rotate s parent
    m.insertRotate s parent
  else m.insertRotate s node

/-- A turn of the loop of `rbtree_insert`. -/
def insertBody (r : Rbtree ι K × ι) : Option (Rbtree ι K × ι) := do
  let parent ← r.1.parent r.2
  let grand ← r.1.parent parent
  if r.1.link .left grand = some parent then insertSide .left r.1 r.2
  else insertSide .right r.1 r.2

/-- The first node of a tree. -/
def plant (m : Rbtree ι K) (node : ι) : Rbtree ι K :=
  let m := m.setParent node none
  let m := m.setLink .left node (some m.sentinel)
  let m := m.setLink .right node (some m.sentinel)
  let m := m.setRed node false
  m.setRoot node

/-- `rbtree_insert`, with at most `n` turns of each loop. -/
def rbtreeInsert (less : K → K → Bool) (m : Rbtree ι K) (n : ℕ) (node : ι) :
    Option (Rbtree ι K) :=
  if m.root = m.sentinel then some (m.plant node)
  else do
    let m ← m.insertValue less n m.root node
    let (m, _) ← Loop.run (Turn.whileDo insertGoes insertBody) n (m, node)
    return m.setRed m.root false

/-- `temp != *root && rbt_is_black(temp)`. -/
def deleteGoes (r : Rbtree ι K × ι) : Option Bool :=
  some (decide (r.2 ≠ r.1.root) && !r.1.red r.2)

/-- A red sibling of `temp` on the side opposite to `s` is rotated up. -/
def riseSide (s : Side) (m : Rbtree ι K) (temp : ι) : Option (Rbtree ι K) := do
  let parent ← m.parent temp
  let w ← m.link s.other parent
  if m.red w then
    let m := m.setRed w false
    let m := m.setRed parent true
    m.rotate s parent
  else some m

/-- The red child of the sibling `w` that is nearer to `temp` is rotated up. -/
def lendNear (s : Side) (m : Rbtree ι K) (w : ι) : Option (Rbtree ι K) := do
  let near ← m.link s w
  let m := m.setRed near false
  let m := m.setRed w true
  m.rotate s.other w

/-- The sibling of `temp`, whose child on the far side is red, is rotated up. -/
def lendFar (s : Side) (m : Rbtree ι K) (temp : ι) : Option (Rbtree ι K) := do
  let parent ← m.parent temp
  let w ← m.link s.other parent
  let m := m.setRed w (m.red parent)
  let m := m.setRed parent false
  let far ← m.link s.other w
  let m := m.setRed far false
  m.rotate s parent

/-- The rest of a turn of the loop of `rbtree_delete`, for a black sibling. -/
def lend (s : Side) (m : Rbtree ι K) (temp : ι) : Option (Rbtree ι K × ι) := do
  let parent ← m.parent temp
  let w ← m.link s.other parent
  let near ← m.link s w
  let far ← m.link s.other w
  if !m.red near && !m.red far then return (m.setRed w true, parent)
  else do
    let m ← if !m.red far then m.lendNear s w else some m
    let m ← m.lendFar s temp
    return (m, m.root)

/-- A turn of the loop of `rbtree_delete`, for `temp` on side `s`. -/
def deleteSide (s : Side) (m : Rbtree ι K) (temp : ι) : Option (Rbtree ι K × ι) := do
  let m ← m.riseSide s temp
  m.lend s temp

/-- A turn of the loop of `rbtree_delete`. -/
def deleteBody (r : Rbtree ι K × ι) : Option (Rbtree ι K × ι) := do
  let parent ← r.1.parent r.2
  if r.1.link .left parent = some r.2 then deleteSide .left r.1 r.2
  else deleteSide .right r.1 r.2

/-- What `rbtree_delete` leaves of the node. -/
def clear [OfNat K 0] (m : Rbtree ι K) (node : ι) : Rbtree ι K :=
  (((m.setLink .left node none).setLink .right node none).setParent node none).setKey node 0

/-- `subst`, which is taken out of its place, and `temp`, which comes there. -/
def substOf (m : Rbtree ι K) (n : ℕ) (node : ι) : Option (ι × ι) := do
  let left ← m.link .left node
  let right ← m.link .right node
  if left = m.sentinel then return (node, right)
  else if right = m.sentinel then return (node, left)
  else do
    let subst ← m.rbtreeMin n right
    let left ← m.link .left subst
    if left ≠ m.sentinel then return (subst, left)
    else do
      let right ← m.link .right subst
      return (subst, right)

/-- `subst` gets the fields of the node. -/
def copyNode (m : Rbtree ι K) (node subst : ι) : Rbtree ι K :=
  let m := m.setLink .left subst (m.link .left node)
  let m := m.setLink .right subst (m.link .right node)
  let m := m.setParent subst (m.parent node)
  m.setRed subst (m.red node)

/-- `subst` takes the place of the node. -/
def substitute (m : Rbtree ι K) (node subst : ι) : Option (Rbtree ι K) := do
  let m := m.copyNode node subst
  let m ← m.rehang .left node subst
  let left ← m.link .left subst
  let m := m.adopt left subst
  let right ← m.link .right subst
  return m.adopt right subst

/-- `rbtree_delete`, with at most `n` turns of each loop. -/
def rbtreeDelete [OfNat K 0] (m : Rbtree ι K) (n : ℕ) (node : ι) : Option (Rbtree ι K) := do
  let (subst, temp) ← m.substOf n node
  if subst = m.root then
    return ((m.setRoot temp).setRed temp false).clear node
  else do
    let red := m.red subst
    let up ← m.parent subst
    let m := m.relink .left up subst temp
    let m ←
      if subst = node then some (m.setParent temp (m.parent subst))
      else if m.parent subst = some node then (m.setParent temp (some subst)).substitute node subst
      else (m.setParent temp (m.parent subst)).substitute node subst
    let m := m.clear node
    if red then return m
    else do
      let (m, temp) ← Loop.run (Turn.whileDo deleteGoes deleteBody) n (m, temp)
      return m.setRed temp false

end Functions

/-! ## Memory that holds a tree -/

/-- The pointer to a tree; `z` is the sentinel. -/
def ptr (z : ι) : ColorTree ι → ι
  | .leaf => z
  | .node _ _ x _ => x

/-- The nodes of a tree, with `q` for the parent of its root. -/
def Subtree (m : Rbtree ι K) : Option ι → ColorTree ι → Prop
  | _, .leaf => True
  | q, .node c l x r => m.parent x = q ∧ m.red x = decide (c = .red) ∧
      m.link .left x = some (ptr m.sentinel l) ∧ m.link .right x = some (ptr m.sentinel r) ∧
      m.Subtree (some x) l ∧ m.Subtree (some x) r

/-- The memory holds the tree: its nodes are different, and what their fields say. What the
parent of the root is does not matter. -/
structure Holds (m : Rbtree ι K) (t : ColorTree ι) : Prop where
  nodup : (m.sentinel :: t.toList).Nodup
  root : m.root = ptr m.sentinel t
  black : m.red m.sentinel = false
  nodes : ∃ q, m.Subtree q t

/-- The memory holds a red-black tree with these nodes, in this order. -/
def Stores (m : Rbtree ι K) (nodes : List ι) : Prop :=
  ∃ t k, m.Holds t ∧ Balanced t .black k ∧ t.toList = nodes

/-- The node above a place. -/
def above (q : Option ι) : TreePath ι → Option ι
  | [] => q
  | f :: _ => some f.val

/-- The nodes above a place where `x` is. -/
def PathAt (m : Rbtree ι K) (q : Option ι) : TreePath ι → ι → Prop
  | [], _ => True
  | f :: p, x => m.parent f.val = above q p ∧ m.red f.val = decide (f.color = .red) ∧
      m.link f.side f.val = some x ∧ m.link f.side.other f.val = some (ptr m.sentinel f.sibling) ∧
      m.Subtree (some f.val) f.sibling ∧ m.PathAt q p f.val

/-- The fields of a node are the same. -/
structure Agree (m m' : Rbtree ι K) (n : ι) : Prop where
  parent : m'.parent n = m.parent n
  red : m'.red n = m.red n
  link : ∀ s, m'.link s n = m.link s n

variable {m m' m'' : Rbtree ι K} {s : Side} {c c' : Color} {t u a b d : ColorTree ι}
  {p : TreePath ι} {f : Frame ι} {q q' : Option ι} {x y z n : ι}

@[simp] theorem ptr_leaf : ptr z (.leaf : ColorTree ι) = z := rfl

@[simp] theorem ptr_join : ptr z (join s c t x u) = x := by cases s <;> rfl

@[simp] theorem ptr_paint : ptr z (t.paint c) = ptr z t := by cases t <;> rfl

/-- The pointer to a tree that is no leaf is one to a node of it. -/
theorem ptr_mem (h : t ≠ .leaf) : ptr z t ∈ t.toList := by
  cases t with
  | leaf => exact absurd rfl h
  | node c l x r => simp [ptr, ColorTree.toList]

@[simp] theorem subtree_leaf : m.Subtree q .leaf := trivial

theorem subtree_join : m.Subtree q (join s c t x u) ↔ m.parent x = q ∧
    m.red x = decide (c = .red) ∧ m.link s x = some (ptr m.sentinel t) ∧
    m.link s.other x = some (ptr m.sentinel u) ∧ m.Subtree (some x) t ∧ m.Subtree (some x) u := by
  cases s with
  | left => exact Iff.rfl
  | right =>
    constructor
    · rintro ⟨hq, hred, hl, hr, ht, hu⟩
      exact ⟨hq, hred, hr, hl, hu, ht⟩
    · rintro ⟨hq, hred, hl, hr, ht, hu⟩
      exact ⟨hq, hred, hr, hl, hu, ht⟩

/-- **A place in a tree**: what is above it, and what is below. -/
theorem subtree_fill :
    m.Subtree q (fill p t) ↔ m.PathAt q p (ptr m.sentinel t) ∧ m.Subtree (above q p) t := by
  induction p generalizing t with
  | nil => simp [PathAt, above]
  | cons f p ih =>
    rw [fill_cons, ih, Frame.fill, ptr_join, subtree_join]
    simp only [PathAt, above]
    tauto

/-- What is above a place, in two parts. -/
theorem pathAt_append {p₁ p₂ : TreePath ι} : m.PathAt q (p₁ ++ p₂) (ptr m.sentinel t) ↔
    m.PathAt (above q p₂) p₁ (ptr m.sentinel t) ∧ m.PathAt q p₂ (ptr m.sentinel (fill p₁ t)) := by
  induction p₁ generalizing t with
  | nil => simp [PathAt]
  | cons f p ih =>
    have habove : above q (p ++ p₂) = above (above q p₂) p := by cases p <;> rfl
    have hf := ih (t := f.fill t)
    rw [Frame.fill, ptr_join] at hf
    simp only [List.cons_append, PathAt, habove, hf, fill_cons, Frame.fill]
    tauto

theorem Agree.refl : m.Agree m n := ⟨rfl, rfl, fun _ => rfl⟩

theorem Agree.trans (h : m.Agree m' n) (h' : m'.Agree m'' n) : m.Agree m'' n :=
  ⟨h'.parent.trans h.parent, h'.red.trans h.red, fun s => (h'.link s).trans (h.link s)⟩

/-- A tree only depends on its nodes. -/
theorem Subtree.frame (h : m.Subtree q t) (hz : m'.sentinel = m.sentinel)
    (ha : ∀ n ∈ t.toList, m.Agree m' n) : m'.Subtree q t := by
  induction t generalizing q with
  | leaf => trivial
  | node c l x r ihl ihr =>
    obtain ⟨hq, hred, hl, hr, hsl, hsr⟩ := h
    have hx := ha x (by simp [ColorTree.toList])
    refine ⟨hx.parent.trans hq, hx.red.trans hred, ?_, ?_, ?_, ?_⟩
    · rw [hx.link, hl, hz]
    · rw [hx.link, hr, hz]
    · exact ihl hsl fun n hn => ha n (by simp [ColorTree.toList, hn])
    · exact ihr hsr fun n hn => ha n (by simp [ColorTree.toList, hn])

/-- A tree below another node: its root has another parent, and the rest is the same. -/
theorem Subtree.reparent (h : m.Subtree q t) (hz : m'.sentinel = m.sentinel) (hnd : t.toList.Nodup)
    (hroot : t ≠ .leaf → m'.parent (ptr m.sentinel t) = q')
    (hparent : ∀ n ∈ t.toList, n ≠ ptr m.sentinel t → m'.parent n = m.parent n)
    (hrest : ∀ n ∈ t.toList, m'.red n = m.red n ∧ ∀ s, m'.link s n = m.link s n) :
    m'.Subtree q' t := by
  cases t with
  | leaf => trivial
  | node c l x r =>
    obtain ⟨-, hred, hl, hr, hsl, hsr⟩ := h
    have hx := hrest x (by simp [ColorTree.toList])
    have hmem : ∀ n ∈ l.toList ++ r.toList, m.Agree m' n := by
      intro n hn
      have hn' : n ∈ (ColorTree.node c l x r).toList := by
        simp only [ColorTree.toList, List.mem_append, List.mem_cons] at hn ⊢
        tauto
      have hne : n ≠ x := by
        rintro rfl
        simp only [ColorTree.toList, List.nodup_append, List.nodup_cons, List.mem_cons] at hnd
        rcases List.mem_append.mp hn with hl | hr
        · exact hnd.2.2 n hl n (.inl rfl) rfl
        · exact hnd.2.1.1 hr
      exact ⟨hparent n hn' hne, (hrest n hn').1, (hrest n hn').2⟩
    refine ⟨hroot (by simp), hx.1.trans hred, ?_, ?_, ?_, ?_⟩
    · rw [hx.2, hl, hz]
    · rw [hx.2, hr, hz]
    · exact hsl.frame hz fun n hn => hmem n (List.mem_append_left _ hn)
    · exact hsr.frame hz fun n hn => hmem n (List.mem_append_right _ hn)

/-- What is above a place only depends on the nodes there. -/
theorem PathAt.frame (h : m.PathAt q p x) (hz : m'.sentinel = m.sentinel)
    (ha : ∀ n ∈ p.nodes, m.Agree m' n) : m'.PathAt q p x := by
  induction p generalizing x with
  | nil => trivial
  | cons f p ih =>
    obtain ⟨hq, hred, hl, hr, hs, hp⟩ := h
    have hx := ha f.val (by simp)
    refine ⟨hx.parent.trans hq, hx.red.trans hred, (hx.link _).trans hl, ?_, ?_, ?_⟩
    · rw [hx.link, hr, hz]
    · exact hs.frame hz fun n hn => ha n (by simp [hn])
    · exact ih hp fun n hn => ha n (by simp [hn])

/-- The pointer to the root above a place depends on what is there only when that is the root. -/
theorem ptr_fill (h : p = [] → ptr z t = ptr z u) : ptr z (fill p t) = ptr z (fill p u) := by
  induction p generalizing t u with
  | nil => exact h rfl
  | cons f p ih => exact ih fun _ => by simp [Frame.fill]

theorem ptr_fill_cons : ptr z (fill (f :: p) t) = ptr z (fill (f :: p) u) :=
  ptr_fill fun h => absurd h (List.cons_ne_nil _ _)

theorem ptr_fill_mem (h : p ≠ []) : ptr z (fill p t) ∈ p.nodes := by
  induction p generalizing t with
  | nil => exact absurd rfl h
  | cons f p ih =>
    cases p with
    | nil => simp [Frame.fill]
    | cons g p =>
      have hmem : ptr z (fill (g :: p) (f.fill t)) ∈ TreePath.nodes (g :: p) :=
        ih (List.cons_ne_nil _ _)
      exact List.mem_cons_of_mem _ (List.mem_append_right _ hmem)

/-- The nodes of the place, those around it and the sentinel are different. -/
theorem Holds.apart (h : m.Holds (fill p t)) : (m.sentinel :: (t.toList ++ p.nodes)).Nodup :=
  (perm_fill.cons m.sentinel).nodup_iff.mp h.nodup

/-- A place is the root when there is nothing above it. -/
theorem Holds.root_iff (h : m.Holds (fill p t)) : ptr m.sentinel t = m.root ↔ p = [] := by
  rw [h.root]
  constructor
  · intro heq
    by_contra hp
    have hmem : ptr m.sentinel t ∈ p.nodes := by
      rw [heq]
      exact ptr_fill_mem hp
    have hapart := List.nodup_cons.mp h.apart
    by_cases hleaf : t = .leaf
    · rw [hleaf] at hmem
      exact hapart.1 (List.mem_append_right _ hmem)
    · exact (List.nodup_append.mp hapart.2).2.2 _ (ptr_mem hleaf) _ hmem rfl
  · rintro rfl
    rfl

/-- What a rotation takes apart has no node twice. -/
theorem Holds.rotation (h : m.Holds (fill p (join s c a x (join s c' b y d)))) :
    (m.sentinel :: x :: y :: (a.toList ++ (b.toList ++ (d.toList ++ p.nodes)))).Nodup := by
  refine (List.Perm.nodup_iff ?_).mp h.apart
  refine ((perm_join.trans ((perm_join.append_left _).cons x)).append_right _).cons _ |>.trans ?_
  simp only [List.cons_append, List.append_assoc]
  exact (List.perm_middle.cons x).cons _

/-- A node that is in a tree or nowhere is the root of no other tree. -/
theorem ne_ptr (hz : n ≠ z) (hn : n ∉ t.toList) : n ≠ ptr z t := by
  rintro rfl
  by_cases hleaf : t = .leaf
  · exact hz (by rw [hleaf, ptr_leaf])
  · exact hn (ptr_mem hleaf)

/-- The color of a place; a leaf is the sentinel. -/
theorem Holds.red_eq (h : m.Holds (fill p t)) :
    m.red (ptr m.sentinel t) = decide (t.color = .red) := by
  obtain rfl | ⟨a, x, b, ht⟩ := leaf_or_join .left t
  · rw [ptr_leaf, h.black]
    rfl
  · obtain ⟨q, hq⟩ := h.nodes
    rw [ht] at hq ⊢
    rw [ptr_join, color_join]
    exact (subtree_join.mp (subtree_fill.mp hq).2).2.1

/-- The link of a node on side `s`. -/
theorem Holds.link_eq (h : m.Holds (fill p (join s c t x u))) :
    m.link s x = some (ptr m.sentinel t) := by
  obtain ⟨q, hq⟩ := h.nodes
  exact (subtree_join.mp (subtree_fill.mp hq).2).2.2.1

/-- The other one. -/
theorem Holds.link_other (h : m.Holds (fill p (join s c t x u))) :
    m.link s.other x = some (ptr m.sentinel u) := by
  rw [← join_other] at h
  exact h.link_eq

/-- The parent of a node that is not the root. -/
theorem Holds.parent_eq (h : m.Holds (fill (f :: p) t)) (ht : t ≠ .leaf) :
    m.parent (ptr m.sentinel t) = some f.val := by
  obtain ⟨q, hq⟩ := h.nodes
  obtain ⟨a, x, b, hjoin⟩ := (leaf_or_join .left t).resolve_left ht
  rw [hjoin] at hq ⊢
  rw [ptr_join]
  exact (subtree_join.mp (subtree_fill.mp hq).2).1

/-- Only leaves are the sentinel. -/
theorem Holds.ptr_eq_sentinel (h : m.Holds (fill p t)) :
    ptr m.sentinel t = m.sentinel ↔ t = .leaf := by
  constructor
  · intro heq
    by_contra hleaf
    refine (List.nodup_cons.mp h.apart).1 (List.mem_append_left _ ?_)
    have hmem := ptr_mem (z := m.sentinel) hleaf
    rwa [heq] at hmem
  · rintro rfl
    rfl

/-- The children of a node are different, unless both are leaves. -/
theorem Holds.ptr_ne (h : m.Holds (fill p (join s c t x u))) (ht : t ≠ .leaf) :
    ptr m.sentinel t ≠ ptr m.sentinel u := by
  have hnd := (List.nodup_cons.mp h.apart)
  have hperm : (join s c t x u).toList.Nodup := (List.nodup_append.mp hnd.2).1
  have hnd' := (List.nodup_cons.mp (perm_join.nodup_iff.mp hperm)).2
  refine ne_ptr (fun heq => hnd.1 ?_) fun hmem => ?_
  · rw [← heq]
    exact List.mem_append_left _ (perm_join.mem_iff.mpr
      (List.mem_cons_of_mem _ (List.mem_append_left _ (ptr_mem ht))))
  · exact (List.nodup_append.mp hnd').2.2 _ (ptr_mem ht) _ hmem rfl

/-- Which child a node is. -/
theorem Holds.left_iff (h : m.Holds (fill p (join s c t x u)))
    (hne : ptr m.sentinel t ≠ ptr m.sentinel u) :
    m.link .left x = some (ptr m.sentinel t) ↔ s = .left := by
  cases s with
  | left => exact iff_of_true h.link_eq rfl
  | right =>
    refine iff_of_false (fun heq => ?_) Side.right_ne_left
    have hother : m.link .left x = some (ptr m.sentinel u) := h.link_other
    exact hne (Option.some.inj (heq.symm.trans hother))

/-- What the functions keep besides the nodes of the tree. -/
structure Kept (m m' : Rbtree ι K) : Prop where
  sentinel : m'.sentinel = m.sentinel
  key : m'.key = m.key
  parent : m'.parent m.sentinel = m.parent m.sentinel

theorem Kept.trans (h : m.Kept m') (h' : m'.Kept m'') : m.Kept m'' :=
  ⟨h'.sentinel.trans h.sentinel, h'.key.trans h.key,
    (h.sentinel ▸ h'.parent).trans h.parent⟩

section Memory

variable [DecidableEq ι]

theorem agree_setLink (h : n ≠ x) (p : Option ι) : m.Agree (m.setLink s x p) n :=
  ⟨rfl, rfl, fun _ => if_neg fun hand => h hand.2⟩

theorem agree_setParent (h : n ≠ x) (p : Option ι) : m.Agree (m.setParent x p) n :=
  ⟨Function.update_of_ne h _ _, rfl, fun _ => rfl⟩

theorem agree_setRed (h : n ≠ x) (b : Bool) : m.Agree (m.setRed x b) n :=
  ⟨rfl, Function.update_of_ne h _ _, fun _ => rfl⟩

theorem agree_setKey (k : K) : m.Agree (m.setKey x k) n := ⟨rfl, rfl, fun _ => rfl⟩

@[simp] theorem adopt_sentinel : (m.adopt x y).sentinel = m.sentinel := by
  unfold adopt
  split <;> rfl

@[simp] theorem adopt_root : (m.adopt x y).root = m.root := by
  unfold adopt
  split <;> rfl

@[simp] theorem adopt_key : (m.adopt x y).key = m.key := by
  unfold adopt
  split <;> rfl

@[simp] theorem adopt_red : (m.adopt x y).red = m.red := by
  unfold adopt
  split <;> rfl

@[simp] theorem adopt_link : (m.adopt x y).link = m.link := by
  unfold adopt
  split <;> rfl

theorem adopt_parent_self (h : x ≠ m.sentinel) : (m.adopt x y).parent x = some y := by
  rw [adopt, if_pos h]
  exact Function.update_self _ _ _

/-- The sentinel is not adopted. -/
theorem adopt_parent_sentinel : (m.adopt x y).parent m.sentinel = m.parent m.sentinel := by
  unfold adopt
  split
  next hne => exact Function.update_of_ne (Ne.symm hne) _ _
  next => rfl

theorem agree_adopt (h : n ≠ x) : m.Agree (m.adopt x y) n := by
  unfold adopt
  split
  · exact agree_setParent h _
  · exact .refl

/-- The place of `p` is now that of `y`. -/
def hang (m : Rbtree ι K) (p : TreePath ι) (y : ι) : Rbtree ι K :=
  match p with
  | [] => m.setRoot y
  | f :: _ => m.setLink f.side f.val (some y)

@[simp] theorem hang_sentinel : (m.hang p y).sentinel = m.sentinel := by cases p <;> rfl

@[simp] theorem hang_parent : (m.hang p y).parent = m.parent := by cases p <;> rfl

@[simp] theorem hang_red : (m.hang p y).red = m.red := by cases p <;> rfl

@[simp] theorem hang_key : (m.hang p y).key = m.key := by cases p <;> rfl

theorem agree_hang (h : n ∉ p.nodes) : m.Agree (m.hang p y) n := by
  cases p with
  | nil => exact ⟨rfl, rfl, fun _ => rfl⟩
  | cons f p =>
    refine agree_setLink ?_ _
    rintro rfl
    exact h List.mem_cons_self

/-- Two links of a node that lead to different ones can be told apart. -/
theorem relink_eq (h : m.PathAt q (f :: p) x) (hne : x ≠ ptr m.sentinel f.sibling) :
    m.relink s f.val x y = m.setLink f.side f.val (some y) := by
  obtain ⟨-, -, hl, hr, -, -⟩ := h
  unfold relink
  by_cases hs : s = f.side
  · rw [hs, if_pos hl]
  · have hs : f.side = s.other := Side.eq_other_of_ne fun heq => hs heq.symm
    have hr' : m.link s f.val = some (ptr m.sentinel f.sibling) := by
      rw [← hr, hs, Side.other_other]
    rw [if_neg fun heq => hne (Option.some.inj (heq.symm.trans hr')), hs]

theorem PathAt.hang (h : m.PathAt q p x) (hnd : p.nodes.Nodup) : (m.hang p y).PathAt q p y := by
  cases p with
  | nil => trivial
  | cons f p =>
    obtain ⟨hq, hred, -, hr, hs, hp⟩ := h
    obtain ⟨hval, -⟩ := List.nodup_cons.mp hnd
    have hother : ¬ (f.side.other = f.side ∧ f.val = f.val) := fun hand => f.side.other_ne hand.1
    refine ⟨hq, hred, if_pos ⟨rfl, rfl⟩, (if_neg hother).trans hr, ?_, ?_⟩
    · refine hs.frame rfl fun n hn => agree_setLink ?_ _
      rintro rfl
      exact hval (List.mem_append_left _ hn)
    · refine hp.frame rfl fun n hn => agree_setLink ?_ _
      rintro rfl
      exact hval (List.mem_append_right _ hn)

/-- `temp` takes the place of a node, whichever of the two links is looked at first. -/
theorem rehang_eq (h : m.PathAt q p x) (hq : m.parent x = above q p) (hroot : x = m.root ↔ p = [])
    (hz : x ≠ m.sentinel) (hx : x ∉ p.nodes) : m.rehang s x y = some (m.hang p y) := by
  unfold rehang
  cases p with
  | nil => exact if_pos (hroot.mpr rfl)
  | cons f p =>
    have hne : x ≠ ptr m.sentinel f.sibling :=
      ne_ptr hz fun hmem => hx (List.mem_cons_of_mem _ (List.mem_append_left _ hmem))
    rw [if_neg fun heq => List.cons_ne_nil _ _ (hroot.mp heq), hq]
    exact congrArg some (relink_eq h hne)

/-! ## Rotations -/

/-- The memory in a rotation of `x` and `y`, before `y` takes the place of `x`; `i` gets another
parent. -/
def turned (m : Rbtree ι K) (s : Side) (x y i : ι) : Rbtree ι K :=
  let m := (m.setLink s.other x (some i)).adopt i x
  m.setParent y (m.parent x)

/-- The memory after it. -/
def rotated (m : Rbtree ι K) (p : TreePath ι) (s : Side) (x y i : ι) : Rbtree ι K :=
  (((m.turned s x y i).hang p y).setLink s y (some x)).setParent x (some y)

variable {i : ι}

theorem agree_turned (hx : n ≠ x) (hy : n ≠ y) (hi : n ≠ i) : m.Agree (m.turned s x y i) n :=
  ((agree_setLink hx _).trans (agree_adopt hi)).trans (agree_setParent hy _)

theorem turned_sentinel : (m.turned s x y i).sentinel = m.sentinel := adopt_sentinel

theorem turned_root : (m.turned s x y i).root = m.root := adopt_root

theorem turned_parent (hxy : x ≠ y) (hxi : x ≠ i) : (m.turned s x y i).parent x = m.parent x :=
  (Function.update_of_ne hxy _ _).trans (agree_adopt hxi).parent

@[simp] theorem rotated_sentinel : (m.rotated p s x y i).sentinel = m.sentinel :=
  hang_sentinel.trans turned_sentinel

@[simp] theorem rotated_red : (m.rotated p s x y i).red = m.red := hang_red.trans adopt_red

@[simp] theorem rotated_key : (m.rotated p s x y i).key = m.key := hang_key.trans adopt_key

theorem rotated_root : (m.rotated p s x y i).root = if p = [] then y else m.root := by
  cases p with
  | nil => rfl
  | cons f p => exact turned_root (y := y)

/-- The links of the nodes that are not rotated, and the one of `x` that stays. -/
theorem rotated_link {s' : Side} (hx : n = x → s' = s) (hy : n ≠ y) (hp : n ∉ p.nodes) :
    (m.rotated p s x y i).link s' n = m.link s' n := by
  refine (if_neg fun hand => hy hand.2).trans (((agree_hang hp).link s').trans ?_)
  show ((m.setLink s.other x (some i)).adopt i x).link s' n = _
  rw [adopt_link]
  exact if_neg fun hand => s.other_ne (hand.1.symm.trans (hx hand.2))

/-- The other link of `x`. -/
theorem rotated_link_other (hxy : x ≠ y) (hp : x ∉ p.nodes) :
    (m.rotated p s x y i).link s.other x = some i := by
  refine (if_neg fun hand => hxy hand.2).trans (((agree_hang hp).link s.other).trans ?_)
  show ((m.setLink s.other x (some i)).adopt i x).link s.other x = _
  rw [adopt_link]
  exact if_pos ⟨rfl, rfl⟩

/-- The links of `y`. -/
theorem rotated_link_top : (m.rotated p s x y i).link s y = some x := if_pos ⟨rfl, rfl⟩

theorem rotated_link_outer (hxy : x ≠ y) (hp : y ∉ p.nodes) :
    (m.rotated p s x y i).link s.other y = m.link s.other y := by
  refine (if_neg fun hand => s.other_ne hand.1).trans (((agree_hang hp).link s.other).trans ?_)
  show ((m.setLink s.other x (some i)).adopt i x).link s.other y = _
  rw [adopt_link]
  exact if_neg fun hand => hxy hand.2.symm

theorem rotated_parent (hx : n ≠ x) (hy : n ≠ y) (hi : n ≠ i) :
    (m.rotated p s x y i).parent n = m.parent n := by
  refine (Function.update_of_ne hx _ _).trans ((congrFun hang_parent n).trans ?_)
  exact (Function.update_of_ne hy _ _).trans ((agree_adopt hi).parent)

theorem rotated_parent_top (hxy : x ≠ y) (hxi : x ≠ i) :
    (m.rotated p s x y i).parent y = m.parent x := by
  refine (Function.update_of_ne hxy.symm _ _).trans ((congrFun hang_parent y).trans ?_)
  exact (Function.update_self _ _ _).trans ((agree_adopt hxi).parent)

theorem rotated_parent_bottom : (m.rotated p s x y i).parent x = some y :=
  Function.update_self _ _ _

theorem rotated_parent_inner (hx : i ≠ x) (hy : i ≠ y) (hz : i ≠ m.sentinel) :
    (m.rotated p s x y i).parent i = some x := by
  refine (Function.update_of_ne hx _ _).trans ((congrFun hang_parent i).trans ?_)
  refine (Function.update_of_ne hy _ _).trans ?_
  rw [adopt, if_pos (show i ≠ (m.setLink s.other x (some i)).sentinel from hz)]
  exact Function.update_self _ _ _

theorem rotated_parent_sentinel (hx : m.sentinel ≠ x) (hy : m.sentinel ≠ y) :
    (m.rotated p s x y i).parent m.sentinel = m.parent m.sentinel := by
  refine (Function.update_of_ne hx _ _).trans ((congrFun hang_parent m.sentinel).trans ?_)
  exact (Function.update_of_ne hy _ _).trans
    (adopt_parent_sentinel (m := m.setLink s.other x (some i)))

theorem agree_rotated (hx : n ≠ x) (hy : n ≠ y) (hi : n ≠ i) (hp : n ∉ p.nodes) :
    m.Agree (m.rotated p s x y i) n :=
  ⟨rotated_parent hx hy hi, congrFun rotated_red n,
    fun _ => rotated_link (fun heq => absurd heq hx) hy hp⟩

theorem PathAt.turned (h : m.PathAt q p x) (hx : x ∉ p.nodes) (hy : y ∉ p.nodes)
    (hi : ∀ n ∈ p.nodes, n ≠ i) : (m.turned s x y i).PathAt q p x :=
  h.frame turned_sentinel fun n hn =>
    agree_turned (fun heq => hx (heq ▸ hn)) (fun heq => hy (heq ▸ hn)) (hi n hn)

theorem PathAt.rotated (h : m.PathAt q p x) (hnd : p.nodes.Nodup) (hx : x ∉ p.nodes)
    (hy : y ∉ p.nodes) (hi : ∀ n ∈ p.nodes, n ≠ i) : (m.rotated p s x y i).PathAt q p y :=
  ((h.turned hx hy hi).hang hnd).frame rfl fun n hn => by
    have hnx : n ≠ x := fun heq => hx (heq ▸ hn)
    have hny : n ≠ y := fun heq => hy (heq ▸ hn)
    exact (agree_setLink hny _).trans (agree_setParent hnx _)

/-- **A rotation** of memory is one of the tree. -/
theorem rotate_spec (h : m.Holds (fill p (join s c a x (join s c' b y d)))) :
    ∃ m', m.rotate s x = some m' ∧ m'.Holds (fill p (join s c' (join s c a x b) y d)) ∧
      m.Kept m' ∧ m'.red = m.red := by
  have hnd := h.rotation
  simp only [List.nodup_cons, List.mem_cons, List.mem_append, List.nodup_append, not_or] at hnd
  obtain ⟨⟨hzx, hzy, hza, hzb, hzd, hzp⟩, ⟨hxy, hxa, hxb, hxd, hxp⟩, ⟨hya, hyb, hyd, hyp⟩, -,
    ⟨hndb, ⟨-, hndp, hdp⟩, hbdp⟩, habdp⟩ := hnd
  have hxi : x ≠ ptr m.sentinel b := ne_ptr (Ne.symm hzx) hxb
  have hyi : y ≠ ptr m.sentinel b := ne_ptr (Ne.symm hzy) hyb
  have hpi : ∀ n ∈ p.nodes, n ≠ ptr m.sentinel b := fun n hn =>
    ne_ptr (fun heq => hzp (heq ▸ hn)) fun hmem => hbdp _ hmem _ (.inr hn) rfl
  obtain ⟨q, hq⟩ := h.nodes
  obtain ⟨hpath, hsub⟩ := subtree_fill.mp hq
  rw [ptr_join] at hpath
  obtain ⟨hparent, hred, hlink, hlink', ha, hy⟩ := subtree_join.mp hsub
  rw [ptr_join] at hlink'
  obtain ⟨-, hredy, hlinky, hlinky', hb, hd⟩ := subtree_join.mp hy
  have hroot := h.root_iff
  rw [ptr_join] at hroot
  refine ⟨m.rotated p s x y (ptr m.sentinel b), ?_, ⟨?_, ?_, ?_, q, subtree_fill.mpr ⟨?_, ?_⟩⟩,
    ⟨rotated_sentinel, rotated_key, ?_⟩, rotated_red⟩
  · have hrehang : (m.turned s x y (ptr m.sentinel b)).rehang s x y
        = some ((m.turned s x y (ptr m.sentinel b)).hang p y) := by
      refine rehang_eq (hpath.turned hxp hyp hpi) ?_ ?_ ?_ hxp
      · rw [turned_parent hxy hxi, hparent]
      · rw [turned_root, hroot]
      · rw [turned_sentinel]
        exact Ne.symm hzx
    unfold rotate
    rw [hlink', Option.bind_eq_bind, Option.bind_some, hlinky, Option.bind_some]
    show ((m.turned s x y (ptr m.sentinel b)).rehang s x y).bind _ = _
    rw [hrehang]
    rfl
  · rw [rotated_sentinel, toList_fill_congr toList_rotate]
    exact h.nodup
  · rw [rotated_root, rotated_sentinel]
    cases p with
    | nil => simp
    | cons f p =>
      rw [if_neg (List.cons_ne_nil f p), h.root]
      exact ptr_fill_cons
  · rw [rotated_red, rotated_sentinel]
    exact h.black
  · rw [ptr_join]
    exact hpath.rotated hndp hxp hyp hpi
  · refine subtree_join.mpr ⟨?_, ?_, rotated_link_top.trans ?_, ?_, ?_, ?_⟩
    · rw [rotated_parent_top hxy hxi, hparent]
    · rw [rotated_red, hredy]
    · rw [ptr_join]
    · rw [rotated_link_outer hxy hyp, rotated_sentinel, hlinky']
    · refine subtree_join.mpr ⟨rotated_parent_bottom, ?_, ?_, ?_, ?_, ?_⟩
      · rw [rotated_red, hred]
      · rw [rotated_link (fun _ => rfl) hxy hxp, rotated_sentinel, hlink]
      · rw [rotated_link_other hxy hxp, rotated_sentinel]
      · refine ha.frame rotated_sentinel fun n hn => agree_rotated ?_ ?_ ?_ ?_
        · exact fun heq => hxa (heq ▸ hn)
        · exact fun heq => hya (heq ▸ hn)
        · exact ne_ptr (fun heq => hza (heq ▸ hn)) fun hmem => habdp n hn n (.inl hmem) rfl
        · exact fun hmem => habdp n hn n (.inr (.inr hmem)) rfl
      · have hb' : ∀ n ∈ b.toList, n ≠ x ∧ n ≠ y ∧ n ∉ p.nodes := fun n hn =>
          ⟨fun heq => hxb (heq ▸ hn), fun heq => hyb (heq ▸ hn),
            fun hmem => hbdp n hn n (.inr hmem) rfl⟩
        refine hb.reparent rotated_sentinel hndb (fun hleaf => ?_) (fun n hn hne => ?_)
          fun n hn => ⟨congrFun rotated_red n, fun s' => ?_⟩
        · obtain ⟨hx, hy, -⟩ := hb' _ (ptr_mem hleaf)
          exact rotated_parent_inner hx hy fun heq => hzb (heq ▸ ptr_mem hleaf)
        · obtain ⟨hx, hy, -⟩ := hb' n hn
          exact rotated_parent hx hy hne
        · obtain ⟨hx, hy, hp⟩ := hb' n hn
          exact rotated_link (fun heq => absurd heq hx) hy hp
    · refine hd.frame rotated_sentinel fun n hn => agree_rotated ?_ ?_ ?_ ?_
      · exact fun heq => hxd (heq ▸ hn)
      · exact fun heq => hyd (heq ▸ hn)
      · exact ne_ptr (fun heq => hzd (heq ▸ hn)) fun hmem => hbdp n hmem n (.inl hn) rfl
      · exact fun hmem => hdp n hn n hmem rfl
  · exact rotated_parent_sentinel hzx hzy

/-! ## Colors -/

theorem kept_setRed (b : Bool) : m.Kept (m.setRed x b) := ⟨rfl, rfl, rfl⟩

/-- **A change of color** in memory is one of the tree; leaves stay black. -/
theorem Holds.paint (h : m.Holds (fill p t)) (c : Color) (hc : t ≠ .leaf ∨ c = .black) :
    (m.setRed (ptr m.sentinel t) (decide (c = .red))).Holds (fill p (t.paint c)) := by
  have hnd := h.apart
  obtain ⟨q, hq⟩ := h.nodes
  obtain ⟨hpath, hsub⟩ := subtree_fill.mp hq
  rw [List.nodup_cons, List.mem_append, not_or, List.nodup_append] at hnd
  obtain ⟨⟨hzt, hzp⟩, hndt, -, htp⟩ := hnd
  refine ⟨?_, ?_, ?_, q, subtree_fill.mpr ⟨?_, ?_⟩⟩
  · rw [toList_fill_congr ColorTree.toList_paint]
    exact h.nodup
  · rw [ptr_fill fun _ => ptr_paint]
    exact h.root
  · show Function.update m.red _ _ m.sentinel = false
    obtain ht | rfl := hc
    · have hne : m.sentinel ≠ ptr m.sentinel t := fun heq => hzt (heq ▸ ptr_mem ht)
      rw [Function.update_of_ne hne]
      exact h.black
    · by_cases heq : m.sentinel = ptr m.sentinel t
      · rw [← heq, Function.update_self]
        rfl
      · rw [Function.update_of_ne heq]
        exact h.black
  · rw [ptr_paint]
    refine hpath.frame rfl fun n hn => agree_setRed ?_ _
    exact ne_ptr (fun heq => hzp (heq ▸ hn)) fun hmem => htp n hmem n hn rfl
  · obtain rfl | ⟨a, x, b, ht⟩ := leaf_or_join .left t
    · trivial
    · rw [ht] at hsub hndt ⊢
      have hx : x ∉ a.toList ++ b.toList := (List.nodup_cons.mp (perm_join.nodup_iff.mp hndt)).1
      have hmem : ∀ n ∈ a.toList ++ b.toList, m.Agree (m.setRed x (decide (c = .red))) n :=
        fun n hn => by
          have hne : n ≠ x := fun heq => hx (heq ▸ hn)
          exact agree_setRed hne _
      obtain ⟨hparent, -, hl, hr, ha, hb⟩ := subtree_join.mp hsub
      rw [ptr_join, paint_join]
      refine subtree_join.mpr ⟨hparent, Function.update_self _ _ _, hl, hr, ?_, ?_⟩
      · exact ha.frame rfl fun n hn => hmem n (List.mem_append_left _ hn)
      · exact hb.frame rfl fun n hn => hmem n (List.mem_append_right _ hn)

/-- `rbt_black`, for a leaf as well. -/
theorem Holds.paint_black (h : m.Holds (fill p t)) :
    (m.setRed (ptr m.sentinel t) false).Holds (fill p (t.paint .black)) := h.paint .black (.inr rfl)

/-- `rbt_black` and `rbt_red`, for a node. -/
theorem Holds.paint_join (h : m.Holds (fill p (join s c t x u))) (c' : Color) :
    (m.setRed x (decide (c' = .red))).Holds (fill p (join s c' t x u)) := by
  have hpaint := h.paint c' (.inl join_ne_leaf)
  rwa [ptr_join, RedBlack.paint_join] at hpaint

end Memory

end Rbtree

end Dungeon

import Dungeon.Rbtree

/-!
# Inserting into the red-black tree (`ds_rbtree.c`)

What `rbtree_insert` does to the tree that the memory holds.

- `insertBody_step`: a turn of its second loop is a step of the repair.
-/

namespace Dungeon

open RedBlack

namespace Rbtree

variable {ι K : Type} [DecidableEq ι] {m m' : Rbtree ι K} {s : Side} {c c' : Color}
  {t t' u v : ColorTree ι} {p p' : TreePath ι} {x y : ι}

theorem insertRotate_eq {node : ι} (hparent : m.parent node = some x)
    (hgrand : m.parent x = some y) : m.insertRotate s node
      = (((m.setRed x false).setRed y true).rotate s.other y).map (·, node) := by
  have hgrand' : (m.setRed x false).parent x = some y := hgrand
  simp only [insertRotate, hparent, hgrand', Option.bind_eq_bind, Option.bind_some,
    Option.map_eq_bind]
  rfl

/-- The parent of an outer node is rotated up. -/
theorem insertRotate_spec (h : m.Holds (fill (⟨s, c', x, u⟩ :: ⟨s, c, y, v⟩ :: p) t))
    (ht : t ≠ .leaf) : ∃ m', m.insertRotate s (ptr m.sentinel t) = some (m', ptr m.sentinel t) ∧
      m'.Holds (fill (⟨s, .black, x, join s .red u y v⟩ :: p) t) ∧ m.Kept m' := by
  have hparent := h.parent_eq ht
  have hx : m.Holds (fill (⟨s, c, y, v⟩ :: p) (join s c' t x u)) := h
  have hgrand := hx.parent_eq join_ne_leaf
  rw [ptr_join] at hgrand
  have hred := Holds.paint_join (t := join s .black t x u) (x := y) (u := v)
    (hx.paint_join .black) .red
  rw [← join_other, ← join_other (s := s) (c := .black)] at hred
  obtain ⟨m', hrotate, hm', hkept, -⟩ := rotate_spec hred
  refine ⟨m', ?_, ?_, ((kept_setRed false).trans (kept_setRed true)).trans hkept⟩
  · rw [insertRotate_eq hparent hgrand]
    exact congrArg (Option.map (·, ptr m.sentinel t)) hrotate
  · rw [join_other, join_other] at hm'
    exact hm'

/-- The branch is chosen by the side of the parent. -/
theorem insertBody_eq {f : Frame ι} (h : m.Holds (fill (f :: ⟨s, c, y, v⟩ :: p) t))
    (ht : t ≠ .leaf) : insertBody (m, ptr m.sentinel t) = insertSide s m (ptr m.sentinel t) := by
  have hparent := h.parent_eq ht
  have hx : m.Holds (fill (⟨s, c, y, v⟩ :: p) (f.fill t)) := h
  have hgrand := hx.parent_eq join_ne_leaf
  have hy : m.Holds (fill p (join s c (f.fill t) y v)) := h
  have hleft := hy.left_iff (hy.ptr_ne join_ne_leaf)
  rw [Frame.fill, ptr_join] at hgrand hleft
  simp only [insertBody, hparent, hgrand, Option.bind_eq_bind, Option.bind_some, hleft]
  cases s with
  | left => exact if_pos rfl
  | right => exact if_neg Side.right_ne_left

/-- What a turn looks at. -/
theorem insertSide_eq {f : Frame ι} (h : m.Holds (fill (f :: ⟨s, c, y, v⟩ :: p) t))
    (ht : t ≠ .leaf) : insertSide s m (ptr m.sentinel t) =
      if v.color = .red then some (((m.setRed f.val false).setRed (ptr m.sentinel v) false).setRed
        y true, y)
      else if m.link s.other f.val = some (ptr m.sentinel t) then
        (m.rotate s f.val).bind fun m => m.insertRotate s f.val
      else m.insertRotate s (ptr m.sentinel t) := by
  have hparent := h.parent_eq ht
  have hx : m.Holds (fill (⟨s, c, y, v⟩ :: p) (f.fill t)) := h
  have hgrand := hx.parent_eq join_ne_leaf
  have hy : m.Holds (fill p (join s c (f.fill t) y v)) := h
  have htemp := hy.link_other
  have hv : m.Holds (fill (⟨s.other, c, y, f.fill t⟩ :: p) v) := by
    rwa [fill_other]
  have hred := hv.red_eq
  rw [Frame.fill, ptr_join] at hgrand
  simp only [insertSide, hparent, hgrand, htemp, hred, Option.bind_eq_bind, Option.bind_some,
    decide_eq_true_eq]
  rfl

/-- A red uncle: colors change. -/
theorem insertSide_recolor {s' : Side}
    (h : m.Holds (fill (⟨s', .red, x, u⟩ :: ⟨s, c, y, v⟩ :: p) t)) (ht : t ≠ .leaf)
    (hv : v.color = .red) : ∃ m', insertSide s m (ptr m.sentinel t) = some (m', y) ∧
      m'.Holds (fill p (join s .red (join s' .black t x u) y (v.paint .black))) ∧ m.Kept m' := by
  refine ⟨_, (insertSide_eq h ht).trans (if_pos hv), ?_,
    ((kept_setRed false).trans (kept_setRed false)).trans (kept_setRed true)⟩
  have hx : m.Holds (fill (⟨s, c, y, v⟩ :: p) (join s' .red t x u)) := h
  have hparent : (m.setRed x false).Holds (fill p (join s.other c v y (join s' .black t x u))) := by
    rw [join_other]
    exact hx.paint_join .black
  have huncle : ((m.setRed x false).setRed (ptr m.sentinel v) false).Holds
      (fill p (join s.other c (v.paint .black) y (join s' .black t x u))) :=
    Holds.paint_black (p := ⟨s.other, c, y, join s' .black t x u⟩ :: p) hparent
  rw [join_other] at huncle
  exact huncle.paint_join .red

/-- A black uncle, and an outer node. -/
theorem insertSide_outer (h : m.Holds (fill (⟨s, .red, x, u⟩ :: ⟨s, c, y, v⟩ :: p) t))
    (ht : t ≠ .leaf) (hv : v.color = .black) : ∃ m', insertSide s m (ptr m.sentinel t)
      = some (m', ptr m.sentinel t) ∧
      m'.Holds (fill (⟨s, .black, x, join s .red u y v⟩ :: p) t) ∧ m.Kept m' := by
  have hx : m.Holds (fill (⟨s, c, y, v⟩ :: p) (join s .red t x u)) := h
  have hother : m.link s.other x ≠ some (ptr m.sentinel t) := fun heq =>
    hx.ptr_ne ht (Option.some.inj (heq.symm.trans hx.link_other))
  obtain ⟨m', hm', hspec⟩ := insertRotate_spec h ht
  exact ⟨m', ((insertSide_eq h ht).trans ((if_neg (by simp [hv])).trans (if_neg hother))).trans
    hm', hspec⟩

/-- A black uncle, and an inner node. -/
theorem insertSide_inner {a b : ColorTree ι} {z : ι}
    (h : m.Holds (fill (⟨s.other, .red, x, u⟩ :: ⟨s, c, y, v⟩ :: p) (join s c' a z b)))
    (hv : v.color = .black) : ∃ m', insertSide s m z = some (m', x) ∧
      m'.Holds (fill (⟨s, .black, z, join s .red b y v⟩ :: p) (join s .red u x a)) ∧
      m.Kept m' := by
  have hx : m.Holds (fill (⟨s, c, y, v⟩ :: p) (join s.other .red (join s c' a z b) x u)) := h
  have hlink := hx.link_eq
  rw [ptr_join] at hlink
  rw [join_other] at hx
  obtain ⟨m₁, hrotate, hm₁, hkept, -⟩ := rotate_spec hx
  obtain ⟨m', hm', hholds, hkept'⟩ := insertRotate_spec (t := join s .red u x a) hm₁ join_ne_leaf
  refine ⟨m', ?_, hholds, hkept.trans hkept'⟩
  have heq := insertSide_eq h join_ne_leaf
  rw [ptr_join] at heq hm'
  rw [heq, if_neg (by simp [hv]), if_pos hlink, hrotate]
  exact hm'

/-- **A turn of the loop** is a step of the repair. -/
theorem insertBody_step (h : m.Holds (fill p t)) (ht : t ≠ .leaf)
    (hstep : InsertStep p t p' t') : ∃ m', insertBody (m, ptr m.sentinel t)
      = some (m', ptr m.sentinel t') ∧ m'.Holds (fill p' t') ∧ m.Kept m' ∧ t' ≠ .leaf := by
  cases hstep with
  | recolor hv =>
    obtain ⟨m', hm', hholds, hkept⟩ := insertSide_recolor h ht hv
    exact ⟨m', by rw [insertBody_eq h ht, hm', ptr_join], hholds, hkept, join_ne_leaf⟩
  | outer hv =>
    obtain ⟨m', hm', hholds, hkept⟩ := insertSide_outer h ht hv
    exact ⟨m', by rw [insertBody_eq h ht, hm'], hholds, hkept, ht⟩
  | inner hv =>
    obtain ⟨m', hm', hholds, hkept⟩ := insertSide_inner h hv
    exact ⟨m', by rw [insertBody_eq h ht, ptr_join, hm', ptr_join], hholds, hkept, join_ne_leaf⟩

/-! ## The second loop -/

/-- The loop goes on exactly when there is something to repair. -/
theorem insertGoes_eq (h : m.Holds (fill p t)) (ht : t ≠ .leaf) :
    ∃ b, insertGoes (m, ptr m.sentinel t) = some b ∧ (b = false ↔ Settled p) := by
  have hroot := h.root_iff
  unfold insertGoes
  cases p with
  | nil => exact ⟨false, if_pos (hroot.mpr rfl), iff_of_true rfl settled_nil⟩
  | cons f p =>
    have hx : m.Holds (fill p (f.fill t)) := h
    have hred := hx.red_eq
    rw [Frame.fill, ptr_join, color_join] at hred
    refine ⟨decide (f.color = .red), ?_, ?_⟩
    · rw [if_neg fun heq => List.cons_ne_nil _ _ (hroot.mp heq)]
      show (m.parent (ptr m.sentinel t)).map m.red = _
      rw [h.parent_eq ht, Option.map_some, hred]
    · rw [decide_eq_false_iff_not]
      constructor
      · intro hne g hg
        obtain rfl := Option.some.inj hg
        cases hc : f.color with
        | red => exact absurd hc hne
        | black => rfl
      · intro hsettled
        simp [hsettled f rfl]

/-- **The loop** of `rbtree_insert` ends with nothing but the root to be made black. -/
theorem insertLoop {n k : ℕ} (h : m.Holds (fill p t)) (ht : t ≠ .leaf) (hok : InsertOk p t k)
    (hn : p.length < n) : ∃ m' T x, Loop.run (Turn.whileDo insertGoes insertBody) n
      (m, ptr m.sentinel t) = some (m', x) ∧ m'.Holds T ∧ T ≠ .leaf ∧
      (∃ j, Balanced (T.paint .black) .black j) ∧ T.toList = (fill p t).toList ∧ m.Kept m' := by
  induction n generalizing m p t k with
  | zero => cases hn
  | succ n ih =>
    obtain ⟨b, hgoes, hb⟩ := insertGoes_eq h ht
    by_cases hp : Settled p
    · obtain rfl := hb.mpr hp
      exact ⟨m, fill p t, _, Loop.run_whileDo_done hgoes, h, fill_ne_leaf ht, hok.settled hp, rfl,
        rfl, rfl, rfl⟩
    · obtain rfl : b = true := by
        cases b with
        | false => exact absurd (hb.mp rfl) hp
        | true => rfl
      obtain ⟨p', t', hstep⟩ := hok.step hp
      obtain ⟨m₁, hbody, hm₁, hkept, ht'⟩ := insertBody_step h ht hstep
      obtain ⟨j, hok'⟩ := hstep.ok hok
      have hlt := hstep.length_lt
      obtain ⟨m', T, x, hrun, hm', hT, hbal, hlist, hkept'⟩ := ih hm₁ ht' hok' (by omega)
      rw [hkept.sentinel] at hrun
      exact ⟨m', T, x, (Loop.run_whileDo hgoes hbody).trans hrun, hm', hT, hbal,
        hlist.trans hstep.toList_eq, hkept.trans hkept'⟩

/-! ## The place of a new node -/

section Descend

variable {less : K → K → Bool} {k : K} {n : ℕ} {f : Frame ι}

/-- The way down to a place is the one that the comparisons choose. -/
def Chosen (less : K → K → Bool) (m : Rbtree ι K) (k : K) (p : TreePath ι) : Prop :=
  ∀ f ∈ p, less k (m.key f.val) = true ↔ f.side = .left

omit [DecidableEq ι] in
theorem chosen_cons : Chosen less m k (f :: p) ↔
    (less k (m.key f.val) = true ↔ f.side = .left) ∧ Chosen less m k p :=
  List.forall_mem_cons

/-- A turn of the first loop, at the node above a place. -/
theorem descendTurn_eq (h : m.Holds (fill (f :: p) t))
    (hf : less k (m.key f.val) = true ↔ f.side = .left) :
    (t = .leaf → descendTurn less m k f.val = .done (f.val, f.side)) ∧
      (t ≠ .leaf → descendTurn less m k f.val = .next (ptr m.sentinel t)) := by
  have hx : m.Holds (fill p (join f.side f.color t f.val f.sibling)) := h
  have hside : (if less k (m.key f.val) then Side.left else Side.right) = f.side := by
    cases hs : f.side with
    | left => exact if_pos (hf.mpr hs)
    | right => exact if_neg fun hk => by cases hs.symm.trans (hf.mp hk)
  simp only [descendTurn, hside, hx.link_eq]
  exact ⟨fun ht => if_pos (h.ptr_eq_sentinel.mpr ht),
    fun ht => if_neg (h.ptr_eq_sentinel.not.mpr ht)⟩

/-- **The first loop** ends at the place of a leaf, whatever the comparison is. -/
theorem descend (h : m.Holds (fill p t)) (ht : t ≠ .leaf) (hn : t.height ≤ n)
    (hp : Chosen less m k p) :
    ∃ f q, Loop.run (descendTurn less m k) n (ptr m.sentinel t) = some (f.val, f.side) ∧
      fill (f :: q) .leaf = fill p t ∧ Chosen less m k (f :: q) := by
  induction t generalizing p n with
  | leaf => exact absurd rfl ht
  | node c a x b iha ihb =>
    obtain ⟨n, rfl⟩ : ∃ j, n = j + 1 := ⟨n - 1, by simp only [ColorTree.height] at hn; omega⟩
    simp only [ColorTree.height] at hn
    cases hk : less k (m.key x) with
    | true =>
      have hm : m.Holds (fill (⟨.left, c, x, b⟩ :: p) a) := h
      have hchosen : Chosen less m k (⟨.left, c, x, b⟩ :: p) :=
        chosen_cons.mpr ⟨iff_of_true hk rfl, hp⟩
      obtain ⟨hdone, hnext⟩ := descendTurn_eq hm (chosen_cons.mp hchosen).1
      by_cases ha : a = .leaf
      · subst ha
        exact ⟨_, _, Loop.run_done (hdone rfl), rfl, hchosen⟩
      · obtain ⟨f, q, hrun, hfill, hq⟩ := iha (n := n) hm ha (by omega) hchosen
        exact ⟨f, q, (Loop.run_next (hnext ha)).trans hrun, hfill, hq⟩
    | false =>
      have hm : m.Holds (fill (⟨.right, c, x, a⟩ :: p) b) := h
      have hchosen : Chosen less m k (⟨.right, c, x, a⟩ :: p) :=
        chosen_cons.mpr ⟨iff_of_false (by simp [hk]) Side.right_ne_left, hp⟩
      obtain ⟨hdone, hnext⟩ := descendTurn_eq hm (chosen_cons.mp hchosen).1
      by_cases hb : b = .leaf
      · subst hb
        exact ⟨_, _, Loop.run_done (hdone rfl), rfl, hchosen⟩
      · obtain ⟨f, q, hrun, hfill, hq⟩ := ihb (n := n) hm hb (by omega) hchosen
        exact ⟨f, q, (Loop.run_next (hnext hb)).trans hrun, hfill, hq⟩

omit [DecidableEq ι] in
/-- **In a tree that is ordered** that place is behind all nodes whose key is not greater. -/
theorem Chosen.ordered {rank : K → ℤ} (hp : Chosen less m k p)
    (hless : ∀ x ∈ p.before ++ p.after, less k (m.key x) = true ↔ rank k < rank (m.key x))
    (hsorted : (p.before ++ p.after).Pairwise fun x y => rank (m.key x) ≤ rank (m.key y)) :
    (∀ x ∈ p.before, less k (m.key x) = false) ∧ ∀ x ∈ p.after, less k (m.key x) = true := by
  induction p with
  | nil => simp [TreePath.before, TreePath.after]
  | cons f p ih =>
    obtain ⟨side, c, x, u⟩ := f
    obtain ⟨hf, hp⟩ := chosen_cons.mp hp
    have hsub : (TreePath.before p ++ TreePath.after p).Sublist
        (TreePath.before (⟨side, c, x, u⟩ :: p) ++ TreePath.after (⟨side, c, x, u⟩ :: p)) := by
      cases side with
      | left => exact (List.sublist_append_right _ _).append_left _
      | right => exact (List.sublist_append_left _ _).append_right _
    obtain ⟨hbefore, hafter⟩ := ih hp (fun y hy => hless y (hsub.mem hy)) (hsorted.sublist hsub)
    obtain ⟨hsb, hsa, hcross⟩ := List.pairwise_append.mp hsorted
    cases side with
    | left =>
      -- the node and what is on its right are behind the place
      have hx : less k (m.key x) = true := hf.mpr rfl
      have hmem : ∀ y ∈ x :: u.toList,
          y ∈ TreePath.before p ++ (x :: u.toList ++ TreePath.after p) := fun y hy =>
        List.mem_append_right _ (List.mem_append_left _ hy)
      refine ⟨hbefore, fun y hy => ?_⟩
      rcases List.mem_append.mp hy with hu | hy
      · have hlt := (hless x (hmem x List.mem_cons_self)).mp hx
        rcases List.mem_cons.mp hu with rfl | hu'
        · exact hx
        · refine (hless y (hmem y hu)).mpr (hlt.trans_le ?_)
          exact (List.pairwise_cons.mp hsa).1 y (List.mem_append_left _ hu')
      · exact hafter y hy
    | right =>
      have hx : less k (m.key x) = false := Bool.eq_false_iff.mpr fun hk => by cases hf.mp hk
      have hmem : ∀ y ∈ u.toList ++ [x],
          y ∈ (TreePath.before p ++ (u.toList ++ [x])) ++ TreePath.after p := fun y hy =>
        List.mem_append_left _ (List.mem_append_right _ hy)
      refine ⟨fun y hy => ?_, hafter⟩
      rcases List.mem_append.mp hy with hy | hu
      · exact hbefore y hy
      · have hnot := (hless x (hmem x (by simp))).not.mp (Bool.eq_false_iff.mp hx)
        rcases List.mem_append.mp hu with hu' | hu'
        · refine Bool.eq_false_iff.mpr ((hless y (hmem y hu)).not.mpr fun hlt => hnot ?_)
          refine hlt.trans_le ?_
          exact (List.pairwise_append.mp (List.pairwise_append.mp hsb).2.1).2.2 y hu' x
            List.mem_cons_self
        · exact List.mem_singleton.mp hu' ▸ hx

end Descend

/-- A new node in the place of a leaf. -/
theorem attach_spec {f : Frame ι} {q : TreePath ι} {node : ι} (h : m.Holds (fill (f :: q) .leaf))
    (hz : node ≠ m.sentinel) (hnew : node ∉ (fill (f :: q) .leaf).toList) :
    (m.attach f.side f.val node).Holds (fill (f :: q) (join .left .red .leaf node .leaf)) ∧
      m.Kept (m.attach f.side f.val node) := by
  have hnode : node ∉ TreePath.nodes (f :: q) := fun hmem => hnew (perm_fill.mem_iff.mpr hmem)
  have hval : node ≠ f.val := fun heq => hnode (heq ▸ List.mem_cons_self)
  have hnd := (List.nodup_cons.mp h.apart).2
  have hperm : (fill (f :: q) (join .left .red .leaf node .leaf)).toList.Perm
      (node :: (fill (f :: q) .leaf).toList) :=
    perm_fill.trans (perm_fill.symm.cons node)
  have hagree : ∀ n ∈ TreePath.nodes (f :: q),
      (m.hang (f :: q) node).Agree (m.attach f.side f.val node) n := by
    intro n hn
    have hne : n ≠ node := fun heq => hnode (heq ▸ hn)
    exact (((agree_setParent hne _).trans (agree_setLink hne _)).trans
      (agree_setLink hne _)).trans (agree_setRed hne _)
  obtain ⟨o, ho⟩ := h.nodes
  have hpath := (subtree_fill.mp ho).1
  refine ⟨⟨?_, ?_, ?_, o, subtree_fill.mpr ⟨?_, ?_⟩⟩, rfl, rfl, ?_⟩
  · show (m.sentinel :: _).Nodup
    have hcons := (hperm.cons m.sentinel).nodup_iff.mpr
    refine hcons (List.nodup_cons.mpr ⟨?_, List.nodup_cons.mpr ⟨hnew, ?_⟩⟩)
    · rw [List.mem_cons, not_or]
      exact ⟨Ne.symm hz, (List.nodup_cons.mp h.nodup).1⟩
    · exact (List.nodup_cons.mp h.nodup).2
  · exact h.root.trans (ptr_fill_cons)
  · exact (Function.update_of_ne (Ne.symm hz) _ _).trans h.black
  · rw [ptr_join]
    exact (hpath.hang hnd).frame rfl hagree
  · refine subtree_join.mpr ⟨Function.update_self _ _ _, Function.update_self _ _ _, ?_, ?_, ?_⟩
    · simp [attach, setRed, setLink, setParent]
    · simp [attach, setRed, setLink, setParent, Side.other]
    · exact ⟨trivial, trivial⟩
  · exact Function.update_of_ne (Ne.symm hz) _ _

/-- The first node. -/
theorem plant_spec {node : ι} (h : m.Holds .leaf) (hz : node ≠ m.sentinel) :
    (m.plant node).Holds (join .left .black .leaf node .leaf) ∧ (m.plant node).key = m.key := by
  refine ⟨⟨?_, rfl, ?_, none, subtree_join.mpr ⟨?_, ?_, ?_, ?_, ?_⟩⟩, rfl⟩
  · show [m.sentinel, node].Nodup
    simp [Ne.symm hz]
  · exact (Function.update_of_ne (Ne.symm hz) _ _).trans h.black
  · exact Function.update_self _ _ _
  · exact Function.update_self _ _ _
  · simp [plant, setRoot, setRed, setLink, setParent]
  · simp [plant, setRoot, setRed, setLink, setParent, Side.other]
  · exact ⟨trivial, trivial⟩

/-! ## The function -/

/-- **`rbtree_insert`** puts a node somewhere between the others, and the tree is a red-black tree
again. When the others are ordered, it comes behind all whose key is not greater. -/
theorem rbtreeInsert_spec (less : K → K → Bool) {node : ι} {nodes : List ι} {n : ℕ}
    (h : m.Stores nodes) (hz : node ≠ m.sentinel) (hnew : node ∉ nodes)
    (hn : 2 * Nat.log 2 (nodes.length + 1) < n) :
    ∃ m' l r, m.rbtreeInsert less n node = some m' ∧ nodes = l ++ r ∧ m'.Stores (l ++ node :: r) ∧
      m'.sentinel = m.sentinel ∧ m'.key = m.key ∧ ∀ rank : K → ℤ,
        (∀ x ∈ nodes, less (m.key node) (m.key x) = true ↔ rank (m.key node) < rank (m.key x)) →
        (nodes.Pairwise fun x y => rank (m.key x) ≤ rank (m.key y)) →
        (∀ x ∈ l, less (m.key node) (m.key x) = false) ∧
          ∀ x ∈ r, less (m.key node) (m.key x) = true := by
  obtain ⟨t, k, ht, hbal, rfl⟩ := h
  have hheight := hbal.height_le
  by_cases hleaf : t = .leaf
  · subst hleaf
    obtain ⟨hplant, hkey⟩ := plant_spec ht hz
    exact ⟨m.plant node, [], [], if_pos ht.root, rfl,
      ⟨_, _, hplant, .blackNode .leaf .leaf, rfl⟩, rfl, hkey, by simp⟩
  · have hroot : m.root ≠ m.sentinel := by
      rw [ht.root]
      exact (Holds.ptr_eq_sentinel (p := []) ht).not.mpr hleaf
    obtain ⟨f, q, hrun, hfill, hchosen⟩ := descend (p := []) (n := n) ht hleaf (by omega)
      (show Chosen less m (m.key node) [] by simp [Chosen])
    rw [fill_nil] at hfill
    subst hfill
    have hlength : (f :: q).length ≤ (fill (f :: q) (.leaf : ColorTree ι)).height :=
      Nat.le_of_add_right_le length_le_height
    obtain ⟨hattach, hkept⟩ := attach_spec ht hz hnew
    obtain ⟨e, j, hb, hfits⟩ := fits_of_fill (p := f :: q) (t := .leaf) hbal
    cases hb with
    | leaf =>
      obtain ⟨m', T, x, hloop, hm', hT, ⟨i, hbal'⟩, hlist', hkept'⟩ :=
        insertLoop (n := n) hattach join_ne_leaf ⟨.redNode .leaf .leaf, hfits⟩ (by omega)
      rw [ptr_join] at hloop
      have hpaint := Holds.paint_black (p := []) hm'
      have hnodes : (fill (f :: q) (.leaf : ColorTree ι)).toList
          = TreePath.before (f :: q) ++ TreePath.after (f :: q) := by
        rw [toList_fill, ColorTree.toList_leaf, List.append_nil]
      refine ⟨m'.setRed m'.root false, _, _, ?_, hnodes, ⟨_, _, ?_, hbal', ?_⟩, ?_, ?_, ?_⟩
      · rw [rbtreeInsert, if_neg hroot, insertValue, ht.root, hrun]
        show (Loop.run _ n (m.attach f.side f.val node, node)).bind _ = _
        rw [hloop]
        rfl
      · rw [hm'.root]
        exact hpaint
      · rw [ColorTree.toList_paint, hlist', toList_fill]
        simp [join, ColorTree.toList]
      · exact hkept'.sentinel.trans hkept.sentinel
      · exact hkept'.key.trans hkept.key
      · intro rank hless hsorted
        rw [hnodes] at hless hsorted
        exact hchosen.ordered hless hsorted

end Rbtree

end Dungeon

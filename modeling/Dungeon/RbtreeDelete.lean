import Dungeon.Rbtree

/-!
# Deleting from the red-black tree (`ds_rbtree.c`)

What `rbtree_delete` does to the tree that the memory holds.

- `Anchored`: the parent of a place is known there, even when the place is the sentinel.
- `deleteBody_step`: a turn of the loop is a step of the repair, after a red sibling is rotated up.
-/

namespace Dungeon

open RedBlack

namespace Rbtree

variable {ι K : Type} {m m' : Rbtree ι K} {s : Side} {c d : Color}
  {t t' a b u v : ColorTree ι} {p p' : TreePath ι} {f : Frame ι} {q : Option ι} {x y w z : ι}

/-- What is at a place knows the node above it. -/
def Anchored (m : Rbtree ι K) (p : TreePath ι) (t : ColorTree ι) : Prop :=
  ∀ f ∈ p.head?, m.parent (ptr m.sentinel t) = some f.val

/-- A node knows it anyway, and the sentinel keeps what it knows. -/
theorem Anchored.of_kept (hm' : m'.Holds (fill p t)) (hkept : m.Kept m')
    (h : t = .leaf → ∀ f ∈ p.head?, m.parent m.sentinel = some f.val) : m'.Anchored p t := by
  intro f hf
  cases p with
  | nil => cases hf
  | cons g p =>
    obtain rfl : g = f := Option.some.inj hf
    by_cases hleaf : t = .leaf
    · subst hleaf
      rw [ptr_leaf, hkept.sentinel, hkept.parent]
      exact h rfl g rfl
    · exact hm'.parent_eq hleaf

theorem Holds.anchored (h : m.Holds (fill p t)) (ht : t ≠ .leaf) : m.Anchored p t :=
  Anchored.of_kept h ⟨rfl, rfl, rfl⟩ fun hleaf => absurd hleaf ht

theorem Anchored.leaf (h : m.Anchored p t) (ht : t = .leaf) :
    ∀ f ∈ p.head?, m.parent m.sentinel = some f.val := by
  subst ht
  exact h

theorem perm_out {node : ι} : (fill p (join s c .leaf node t)).toList.Perm
    (node :: (fill p t).toList) :=
  perm_fill.trans ((perm_join.append_right _).trans (perm_fill.symm.cons node))

theorem Holds.nodup_out {node : ι} (h : m.Holds (fill p (join s c .leaf node t))) :
    (m.sentinel :: node :: (fill p t).toList).Nodup :=
  (perm_out.cons m.sentinel).nodup_iff.mp h.nodup

/-- Without its root, which has one child at most, a tree is that child. -/
theorem Holds.setRoot {node : ι} (h : m.Holds (join s c .leaf node t)) :
    (m.setRoot (ptr m.sentinel t)).Holds t := by
  obtain ⟨q, hq⟩ := h.nodes
  refine ⟨?_, rfl, h.black, some node, ?_⟩
  · exact (h.nodup_out (p := [])).sublist ((List.sublist_cons_self _ _).cons_cons _)
  · exact (subtree_join.mp hq).2.2.2.2.2.frame rfl fun _ _ => ⟨rfl, rfl, fun _ => rfl⟩

/-- The nodes around the first one behind a node. -/
theorem Holds.nodup_first {node : ι} {l : ColorTree ι}
    (h : m.Holds (fill (p' ++ ⟨.right, c, node, l⟩ :: p) (join .left d .leaf y u))) :
    (m.sentinel :: node :: y :: (l.toList ++ ((fill p' u).toList ++ p.nodes))).Nodup := by
  have hperm : (y :: (fill (p' ++ ⟨.right, c, node, l⟩ :: p) u).toList).Perm
      (node :: y :: (l.toList ++ ((fill p' u).toList ++ p.nodes))) := by
    rw [fill_append, fill_frame]
    refine ((perm_fill.trans (perm_join.append_right _)).cons y).trans ?_
    rw [List.cons_append, List.append_assoc]
    exact (List.Perm.swap _ _ _).trans (((List.perm_append_comm_assoc _ _ _).cons y).cons node)
  exact (hperm.cons m.sentinel).nodup_iff.mp h.nodup_out

/-- A node knows the one above it. -/
theorem Subtree.parent_eq (h : m.Subtree q (fill p t)) (ht : t ≠ .leaf) :
    m.parent (ptr m.sentinel t) = above q p := by
  obtain ⟨a, x, b, hjoin⟩ := (leaf_or_join .left t).resolve_left ht
  have hsub := (subtree_fill.mp h).2
  rw [hjoin] at hsub ⊢
  rw [ptr_join]
  exact (subtree_join.mp hsub).1

/-- It is not at the opposite side. -/
theorem Holds.ne_sibling (h : m.Holds (fill (f :: p) (join s c .leaf x t))) :
    x ≠ ptr m.sentinel f.sibling := by
  have hnd := h.nodup_out
  simp only [List.nodup_cons, List.mem_cons, not_or] at hnd
  obtain ⟨⟨hz, -⟩, hx, -⟩ := hnd
  refine ne_ptr (Ne.symm hz) fun hmem => hx (perm_fill.mem_iff.mpr ?_)
  exact List.mem_append_right _ (List.mem_cons_of_mem _ (List.mem_append_left _ hmem))

variable [DecidableEq ι]

/-! ## A turn of the loop -/

/-- A black sibling stays where it is. -/
theorem riseSide_black (h : m.Holds (fill (⟨s, c, x, u⟩ :: p) t))
    (hparent : m.parent (ptr m.sentinel t) = some x) (hu : u.color = .black) :
    m.riseSide s (ptr m.sentinel t) = some m := by
  have hx : m.Holds (fill p (join s c t x u)) := h
  have hu' : m.Holds (fill (⟨s.other, c, x, t⟩ :: p) u) := by
    rwa [fill_other]
  have hred := hu'.red_eq
  rw [hu] at hred
  simp [riseSide, hparent, hx.link_other, hred]

/-- A red one is rotated up. -/
theorem riseSide_red (h : m.Holds (fill (⟨s, c, x, join s .red a w b⟩ :: p) t))
    (hparent : m.parent (ptr m.sentinel t) = some x) :
    ∃ m', m.riseSide s (ptr m.sentinel t) = some m' ∧
      m'.Holds (fill (⟨s, .red, x, a⟩ :: ⟨s, .black, w, b⟩ :: p) t) ∧ m.Kept m' := by
  have hx : m.Holds (fill p (join s c t x (join s .red a w b))) := h
  have hw : m.Holds (fill (⟨s.other, c, x, t⟩ :: p) (join s .red a w b)) := by
    rwa [fill_other]
  have hlink := hx.link_other
  have hred := hw.red_eq
  rw [ptr_join] at hlink hred
  have hw' := hw.paint_join .black
  rw [fill_other] at hw'
  obtain ⟨m', hrotate, hm', hkept, -⟩ := rotate_spec (hw'.paint_join .red)
  refine ⟨m', ?_, hm', ((kept_setRed false).trans (kept_setRed true)).trans hkept⟩
  simp only [riseSide, hparent, hlink, hred, Option.bind_eq_bind, Option.bind_some, color_join,
    decide_true, if_true]
  exact hrotate

/-- The red child on the near side is rotated up. -/
theorem lendNear_spec
    (h : m.Holds (fill (⟨s, c, x, join s .black (join s .red a z t') w b⟩ :: p) t)) :
    ∃ m', m.lendNear s w = some m' ∧
      m'.Holds (fill (⟨s, c, x, join s .black a z (join s .red t' w b)⟩ :: p) t) ∧ m.Kept m' := by
  have hw : m.Holds (fill (⟨s.other, c, x, t⟩ :: p) (join s .black (join s .red a z t') w b)) := by
    rwa [fill_other]
  have hlink := hw.link_eq
  rw [ptr_join] at hlink
  have hz := Holds.paint_join (p := ⟨s, .black, w, b⟩ :: ⟨s.other, c, x, t⟩ :: p) hw .black
  have hred := Holds.paint_join (p := ⟨s.other, c, x, t⟩ :: p) (t := join s .black a z t') hz .red
  rw [← join_other, ← join_other (s := s) (c := .black)] at hred
  obtain ⟨m', hrotate, hm', hkept, -⟩ := rotate_spec hred
  refine ⟨m', ?_, ?_, ((kept_setRed false).trans (kept_setRed true)).trans hkept⟩
  · simp only [lendNear, hlink, Option.bind_eq_bind, Option.bind_some]
    exact hrotate
  · rwa [join_other, join_other, fill_other] at hm'

/-- The sibling is rotated up, with its child on the far side made black. -/
theorem lendFar_spec (h : m.Holds (fill (⟨s, c, x, join s d a w b⟩ :: p) t))
    (hparent : m.parent (ptr m.sentinel t) = some x) :
    ∃ m', m.lendFar s (ptr m.sentinel t) = some m' ∧
      m'.Holds (fill p (join s c (join s .black t x a) w (b.paint .black))) ∧ m.Kept m' := by
  have hx : m.Holds (fill p (join s c t x (join s d a w b))) := h
  have hw : m.Holds (fill (⟨s.other, c, x, t⟩ :: p) (join s d a w b)) := by
    rwa [fill_other]
  have hlink := hx.link_other
  have hred := hx.red_eq
  have hfar := hw.link_other
  rw [ptr_join] at hlink hred
  rw [color_join] at hred
  have hw' := hw.paint_join c
  rw [fill_other] at hw'
  have hx' := hw'.paint_join .black
  have hb : ((m.setRed w (decide (c = .red))).setRed x false).Holds
      (fill (⟨s.other, c, w, a⟩ :: ⟨s.other, .black, x, t⟩ :: p) b) := by
    rw [fill_other, fill_other]
    exact hx'
  have hb' := hb.paint_black
  rw [fill_other, fill_other] at hb'
  obtain ⟨m', hrotate, hm', hkept, -⟩ := rotate_spec hb'
  refine ⟨m', ?_, hm',
    (((kept_setRed _).trans (kept_setRed false)).trans (kept_setRed false)).trans hkept⟩
  simp only [lendFar, hparent, hlink, hred, Option.bind_eq_bind, Option.bind_some]
  show ((m.link s.other w).bind _) = _
  rw [hfar, Option.bind_some]
  exact hrotate

/-- What the rest of a turn looks at. -/
theorem lend_eq (h : m.Holds (fill (⟨s, c, x, join s d a w b⟩ :: p) t))
    (hparent : m.parent (ptr m.sentinel t) = some x) : m.lend s (ptr m.sentinel t) =
      if a.color = .black ∧ b.color = .black then some (m.setRed w true, x)
      else (if b.color = .black then m.lendNear s w else some m).bind fun m' =>
        (m'.lendFar s (ptr m.sentinel t)).map fun m => (m, m.root) := by
  have hx : m.Holds (fill p (join s c t x (join s d a w b))) := h
  have hw : m.Holds (fill (⟨s.other, c, x, t⟩ :: p) (join s d a w b)) := by rwa [fill_other]
  have hlink := hx.link_other
  rw [ptr_join] at hlink
  have hnear := Holds.red_eq (p := ⟨s, d, w, b⟩ :: ⟨s.other, c, x, t⟩ :: p) (t := a) hw
  have hfar : m.red (ptr m.sentinel b) = decide (b.color = .red) := by
    refine Holds.red_eq (p := ⟨s.other, d, w, a⟩ :: ⟨s.other, c, x, t⟩ :: p) ?_
    rwa [fill_other]
  have hblack : ∀ u : ColorTree ι, (!decide (u.color = .red)) = decide (u.color = .black) := by
    intro u
    cases u.color <;> rfl
  simp only [lend, hparent, hlink, hw.link_eq, hw.link_other, hnear, hfar, hblack,
    Option.bind_eq_bind, Option.bind_some, Option.map_eq_bind, Bool.and_eq_true, decide_eq_true_eq]
  refine if_congr Iff.rfl rfl ?_
  split <;> rfl

/-- **The rest of a turn** is a step of the repair. -/
theorem lend_step (h : m.Holds (fill (f :: p) t))
    (hparent : m.parent (ptr m.sentinel t) = some f.val) (hstep : DeleteStep (f :: p) t p' t') :
    ∃ m', m.lend f.side (ptr m.sentinel t) = some (m', ptr m.sentinel t') ∧
      m'.Holds (fill p' t') ∧ m.Kept m' := by
  cases hstep with
  | @lower s c x w t a b p ha hb =>
    have hw : m.Holds (fill (⟨s.other, c, x, t⟩ :: p) (join s .black a w b)) := by
      rw [fill_other]
      exact h
    have hred := hw.paint_join .red
    rw [fill_other] at hred
    refine ⟨m.setRed w true, ?_, hred, kept_setRed true⟩
    rw [lend_eq h hparent, if_pos ⟨ha, hb⟩, ptr_join]
  | @far s c x w t a b p hb =>
    have hb' : b.color ≠ .black := by simp [hb]
    obtain ⟨m', hfar, hm', hkept⟩ := lendFar_spec h hparent
    refine ⟨m', ?_, hm', hkept⟩
    rw [lend_eq h hparent, if_neg fun hand => hb' hand.2, if_neg hb', Option.bind_some, hfar,
      Option.map_some, hm'.root, hkept.sentinel]
  | @near s c x v w t a b d p hb =>
    obtain ⟨m₁, hnear, hm₁, hkept₁⟩ := lendNear_spec h
    have hparent₁ : m₁.parent (ptr m₁.sentinel t) = some x :=
      Anchored.of_kept hm₁ hkept₁ (Anchored.leaf fun g hg => Option.some.inj hg ▸ hparent) _ rfl
    obtain ⟨m', hfar, hm', hkept⟩ := lendFar_spec hm₁ hparent₁
    rw [paint_join] at hm'
    refine ⟨m', ?_, hm', hkept₁.trans hkept⟩
    rw [hkept₁.sentinel] at hfar
    rw [lend_eq h hparent, if_neg (by simp), if_pos hb, hnear, Option.bind_some, hfar,
      Option.map_some, hm'.root, hkept.sentinel, hkept₁.sentinel]

/-- The branch is chosen by the side of the place. -/
theorem deleteBody_eq (h : m.Holds (fill (f :: p) t)) (hsib : f.sibling ≠ .leaf)
    (hparent : m.parent (ptr m.sentinel t) = some f.val) :
    deleteBody (m, ptr m.sentinel t) = deleteSide f.side m (ptr m.sentinel t) := by
  have hx : m.Holds (fill p (join f.side f.color t f.val f.sibling)) := h
  have hne : ptr m.sentinel t ≠ ptr m.sentinel f.sibling := by
    have hx' := hx
    rw [← join_other] at hx'
    exact (hx'.ptr_ne hsib).symm
  have hleft := hx.left_iff hne
  simp only [deleteBody, hparent, Option.bind_eq_bind, Option.bind_some, hleft]
  cases f.side with
  | left => exact if_pos rfl
  | right => exact if_neg Side.right_ne_left

/-- **A turn of the loop** is a step of the repair, after a red sibling is rotated up. -/
theorem deleteBody_step {k : ℕ} (h : m.Holds (fill (f :: p) t)) (hanch : m.Anchored (f :: p) t)
    (hok : DeleteOk (f :: p) t k) (ht : t.color = .black) :
    ∃ m' p' t' j, deleteBody (m, ptr m.sentinel t) = some (m', ptr m.sentinel t') ∧
      m'.Holds (fill p' t') ∧ m.Kept m' ∧ DeleteOk p' t' j ∧
      (fill p' t').toList = (fill (f :: p) t).toList ∧ (Mended p' t' ∨ p'.length ≤ p.length) ∧
      t' ≠ .leaf := by
  have hparent := hanch f rfl
  obtain ⟨e, hsib⟩ := hok.path.sibling
  obtain ⟨a, w, b, hu⟩ := hsib.exists_join f.side
  have hbody := deleteBody_eq h (hu ▸ join_ne_leaf) hparent
  cases hcolor : f.sibling.color with
  | black =>
    obtain ⟨p', t', hstep⟩ := hok.step hcolor
    obtain ⟨m', hlend, hm', hkept⟩ := lend_step h hparent hstep
    obtain ⟨j, hok'⟩ := hstep.ok hok ht
    refine ⟨m', p', t', j, ?_, hm', hkept, hok', hstep.toList_eq, .inr hstep.length_le,
      hstep.ne_leaf⟩
    rw [hbody, deleteSide, riseSide_black h hparent hcolor]
    exact hlend
  | red =>
    obtain ⟨g, r, hrise, hred, hblack⟩ := hok.rise hcolor
    have hok₁ : DeleteOk (g :: r) t k := ⟨hok.tree, hrise.fits hok.path⟩
    obtain ⟨p', t', hstep⟩ := hok₁.step hblack
    obtain ⟨j, hok'⟩ := hstep.ok hok₁ ht
    have hlist := hstep.toList_eq.trans (hrise.fill_toList (t := t))
    have hmended := hstep.mended hred
    cases hrise with
    | @mk s c x w a b =>
      obtain ⟨m₁, hside, hm₁, hkept₁⟩ := riseSide_red h hparent
      have hparent₁ := Anchored.of_kept hm₁ hkept₁ (Anchored.leaf fun g hg =>
        Option.some.inj hg ▸ hparent) _ rfl
      obtain ⟨m', hlend, hm', hkept⟩ := lend_step hm₁ hparent₁ hstep
      refine ⟨m', p', t', j, ?_, hm', hkept₁.trans hkept, hok', hlist, .inl hmended,
        hstep.ne_leaf⟩
      rw [hkept₁.sentinel] at hlend
      rw [hbody, deleteSide, hside]
      exact hlend

/-- The loop goes on exactly when there is something to repair. -/
theorem deleteGoes_eq (h : m.Holds (fill p t)) :
    ∃ g, deleteGoes (m, ptr m.sentinel t) = some g ∧ (g = false ↔ Mended p t) := by
  refine ⟨_, rfl, ?_⟩
  have hroot := h.root_iff
  have hred := h.red_eq
  simp only [hred, Bool.and_eq_false_iff, Bool.not_eq_false', decide_eq_false_iff_not, not_not,
    decide_eq_true_eq, hroot]
  exact Iff.rfl

/-- **The loop** of `rbtree_delete` ends, and the tree is balanced when the last place is made
black. -/
theorem deleteLoop {n k : ℕ} (h : m.Holds (fill p t)) (hanch : m.Anchored p t)
    (hok : DeleteOk p t k) (hpos : 0 < n) (hn : Mended p t ∨ p.length < n) :
    ∃ m' x T, Loop.run (Turn.whileDo deleteGoes deleteBody) n (m, ptr m.sentinel t)
      = some (m', x) ∧ (m'.setRed x false).Holds T ∧ (∃ j, Balanced T .black j) ∧
      T.toList = (fill p t).toList ∧ m.Kept m' := by
  induction n generalizing m p t k with
  | zero => cases hpos
  | succ n ih =>
    obtain ⟨g, hgoes, hg⟩ := deleteGoes_eq h
    by_cases hmended : Mended p t
    · obtain rfl := hg.mpr hmended
      exact ⟨m, _, _, Loop.run_whileDo_done hgoes, h.paint_black, hok.mended hmended,
        toList_fill_congr ColorTree.toList_paint, rfl, rfl, rfl⟩
    · obtain rfl : g = true := by
        cases g with
        | false => exact absurd (hg.mp rfl) hmended
        | true => rfl
      obtain ⟨hp, ht⟩ := not_or.mp hmended
      obtain ⟨f, p, rfl⟩ := List.exists_cons_of_ne_nil hp
      have hlt := hn.resolve_left hmended
      have hblack : t.color = .black := by
        cases hc : t.color with
        | red => exact absurd hc ht
        | black => rfl
      obtain ⟨m₁, p', t', j, hbody, hm₁, hkept, hok', hlist, hle, ht'⟩ :=
        deleteBody_step h hanch hok hblack
      rw [List.length_cons] at hlt
      obtain ⟨m', x, T, hrun, hm', hbal, hlist', hkept'⟩ := ih hm₁ (hm₁.anchored ht') hok'
        (by omega) (hle.imp_right fun hle => by omega)
      rw [hkept.sentinel] at hrun
      exact ⟨m', x, T, (Loop.run_whileDo hgoes hbody).trans hrun, hm', hbal, hlist'.trans hlist,
        hkept.trans hkept'⟩

/-! ## Taking a node out -/

/-- What `rbtree_delete` leaves of the node does not matter to the others. -/
theorem clear_spec [OfNat K 0] {node : ι} (h : m.Holds t) (hnode : node ∉ t.toList)
    (hz : node ≠ m.sentinel) :
    (m.clear node).Holds t ∧ (m.clear node).parent m.sentinel = m.parent m.sentinel := by
  have hagree : ∀ n ≠ node, m.Agree (m.clear node) n := fun n hne =>
    (((agree_setLink hne _).trans (agree_setLink hne _)).trans (agree_setParent hne _)).trans
      (agree_setKey 0)
  obtain ⟨q, hq⟩ := h.nodes
  refine ⟨⟨h.nodup, h.root, h.black, q, hq.frame rfl fun n hn => hagree n ?_⟩, ?_⟩
  · exact fun heq => hnode (heq ▸ hn)
  · exact (hagree m.sentinel (Ne.symm hz)).parent

/-- A node with one child at most is out of the tree: what is above its place, and the child in
it, with `e` for its parent. -/
theorem unlink_spec {node : ι} (h : m.Holds (fill p (join s c .leaf node t)))
    (hq : m.Subtree q (fill p (join s c .leaf node t))) (e : ι) :
    ((m.hang p (ptr m.sentinel t)).setParent (ptr m.sentinel t) (some e)).PathAt q p
        (ptr m.sentinel t) ∧
      ((m.hang p (ptr m.sentinel t)).setParent (ptr m.sentinel t) (some e)).Subtree (some e) t := by
  have hapart := h.apart
  have hperm := perm_join (s := s) (c := c) (t := .leaf) (x := node) (u := t)
  rw [List.nodup_cons, List.mem_append, not_or, List.nodup_append] at hapart
  obtain ⟨⟨hzt, hzp⟩, hndt, hndp, htp⟩ := hapart
  have hmem : ∀ n ∈ t.toList, n ∈ (join s c .leaf node t).toList := fun n hn =>
    hperm.mem_iff.mpr (List.mem_cons_of_mem _ hn)
  obtain ⟨hpath, hsub⟩ := subtree_fill.mp hq
  rw [ptr_join] at hpath
  obtain ⟨-, -, -, -, -, ht⟩ := subtree_join.mp hsub
  constructor
  · refine (hpath.hang hndp).frame rfl fun n hn => agree_setParent ?_ _
    exact ne_ptr (fun heq => hzp (heq ▸ hn)) fun hmem' => htp n (hmem n hmem') n hn rfl
  · refine ht.reparent hang_sentinel (List.nodup_cons.mp (hperm.nodup_iff.mp hndt)).2
      (fun _ => Function.update_self _ _ _) (fun n _ hne => ?_) fun n hn => ⟨?_, fun s' => ?_⟩
    · refine (Function.update_of_ne hne _ _).trans ?_
      rw [hang_parent]
    · exact congrFun hang_red n
    · exact (agree_hang fun hmem' => htp n (hmem n hn) n hmem' rfl).link s'

/-- The memory without a node that has one child at most, which is in its place now. -/
theorem takeOut_spec {node : ι} (h : m.Holds (fill (f :: p) (join s c .leaf node t))) :
    let m' := (m.setLink f.side f.val (some (ptr m.sentinel t))).setParent (ptr m.sentinel t)
      (some f.val)
    m'.Holds (fill (f :: p) t) ∧ m'.Anchored (f :: p) t := by
  obtain ⟨q, hq⟩ := h.nodes
  obtain ⟨hpath, hsub⟩ := unlink_spec h hq f.val
  refine ⟨⟨?_, h.root.trans ptr_fill_cons, h.black, q, subtree_fill.mpr ⟨hpath, hsub⟩⟩,
    fun g hg => ?_⟩
  · exact h.nodup_out.sublist ((List.sublist_cons_self _ _).cons_cons _)
  · obtain rfl := Option.some.inj hg
    exact Function.update_self _ _ _

section Substitute

variable {node subst : ι} {l r : ColorTree ι} {ql qr : Option ι}

theorem agree_copyNode (h : x ≠ subst) : m.Agree (m.copyNode node subst) x :=
  (((agree_setLink h _).trans (agree_setLink h _)).trans (agree_setParent h _)).trans
    (agree_setRed h _)

theorem copyNode_link (h : node ≠ subst) (s : Side) :
    (m.copyNode node subst).link s subst = m.link s node := by
  cases s <;> simp [copyNode, setLink, setParent, setRed, h]

/-- The memory after a substitution. -/
def substituted (m : Rbtree ι K) (p : TreePath ι) (node subst : ι) (l r : ColorTree ι) :
    Rbtree ι K :=
  (((m.copyNode node subst).hang p subst).adopt (ptr m.sentinel l) subst).adopt (ptr m.sentinel r)
    subst

theorem substituted_sentinel : (m.substituted p node subst l r).sentinel = m.sentinel :=
  adopt_sentinel.trans (adopt_sentinel.trans hang_sentinel)

theorem substituted_red : (m.substituted p node subst l r).red = (m.copyNode node subst).red :=
  adopt_red.trans (adopt_red.trans hang_red)

theorem substituted_link :
    (m.substituted p node subst l r).link = ((m.copyNode node subst).hang p subst).link :=
  adopt_link.trans adopt_link

/-- **`subst` in the place of a node**: the memory holds the tree with it. -/
theorem substitute_spec
    (hnd : (m.sentinel :: node :: subst :: (l.toList ++ (r.toList ++ p.nodes))).Nodup)
    (hroot : m.root = ptr m.sentinel (fill p (join .left c l node r)))
    (hblack : m.red m.sentinel = false) (hpath : m.PathAt q p node)
    (hparent : m.parent node = above q p) (hred : m.red node = decide (c = .red))
    (hl : m.link .left node = some (ptr m.sentinel l))
    (hr : m.link .right node = some (ptr m.sentinel r)) (hsl : m.Subtree ql l)
    (hsr : m.Subtree qr r) :
    ∃ m', m.substitute node subst = some m' ∧ m'.Holds (fill p (join .left c l subst r)) ∧
      m.Kept m' := by
  have hnew : (m.sentinel :: (fill p (join .left c l subst r)).toList).Nodup := by
    have hperm : (fill p (join .left c l subst r)).toList.Perm
        (subst :: (l.toList ++ (r.toList ++ p.nodes))) := by
      refine perm_fill.trans ((perm_join.append_right _).trans ?_)
      rw [List.cons_append, List.append_assoc]
    refine (hperm.cons m.sentinel).nodup_iff.mpr (hnd.sublist ?_)
    exact (List.sublist_cons_self _ _).cons_cons _
  simp only [List.nodup_cons, List.mem_cons, List.mem_append, List.nodup_append, not_or] at hnd
  obtain ⟨⟨hzn, hzs, hzl, hzr, hzp⟩, ⟨hns, hnl, hnr, hnp⟩, ⟨hsubl, hsubr, hsubp⟩, hndl,
    ⟨hndr, hndp, hrp⟩, hlrp⟩ := hnd
  -- a node that is not in a tree is not its root
  have hsl' : subst ≠ ptr m.sentinel l := ne_ptr (Ne.symm hzs) hsubl
  have hsr' : subst ≠ ptr m.sentinel r := ne_ptr (Ne.symm hzs) hsubr
  have hlr' : ∀ n ∈ l.toList, n ≠ ptr m.sentinel r := fun n hn =>
    ne_ptr (fun heq => hzl (heq ▸ hn)) fun hmem => hlrp n hn n (.inl hmem) rfl
  have hrl' : ∀ n ∈ r.toList, n ≠ ptr m.sentinel l := fun n hn =>
    ne_ptr (fun heq => hzr (heq ▸ hn)) fun hmem => hlrp n hmem n (.inl hn) rfl
  have hpl' : ∀ n ∈ p.nodes, n ≠ ptr m.sentinel l := fun n hn =>
    ne_ptr (fun heq => hzp (heq ▸ hn)) fun hmem => hlrp n hmem n (.inr hn) rfl
  have hpr' : ∀ n ∈ p.nodes, n ≠ ptr m.sentinel r := fun n hn =>
    ne_ptr (fun heq => hzp (heq ▸ hn)) fun hmem => hrp n hmem n hn rfl
  have hpath₁ : (m.copyNode node subst).PathAt q p node := hpath.frame rfl fun n hn =>
    agree_copyNode fun heq => hsubp (heq ▸ hn)
  have hrehang : (m.copyNode node subst).rehang .left node subst
      = some ((m.copyNode node subst).hang p subst) := by
    refine rehang_eq hpath₁ ((agree_copyNode hns).parent.trans hparent) ?_ (Ne.symm hzn) hnp
    show node = m.root ↔ p = []
    rw [hroot]
    constructor
    · intro heq
      by_contra hp
      have hmem := ptr_fill_mem (z := m.sentinel) (t := join .left c l node r) hp
      exact hnp (heq ▸ hmem)
    · rintro rfl
      rw [fill_nil, ptr_join]
  have hlink : ∀ s, ((m.copyNode node subst).hang p subst).link s subst = m.link s node :=
    fun s => ((agree_hang hsubp).link s).trans (copyNode_link hns s)
  -- what is adopted keeps its color and its links
  have hrest : ∀ n, n ≠ subst → n ∉ p.nodes → (m.substituted p node subst l r).red n = m.red n ∧
      ∀ s, (m.substituted p node subst l r).link s n = m.link s n := by
    intro n hne hn
    refine ⟨?_, fun s => ?_⟩
    · rw [substituted_red]
      exact (agree_copyNode hne).red
    · rw [substituted_link]
      exact ((agree_hang hn).link s).trans ((agree_copyNode hne).link s)
  have hkeep : ∀ n, n ≠ subst → n ≠ ptr m.sentinel l → n ≠ ptr m.sentinel r →
      (m.substituted p node subst l r).parent n = m.parent n := by
    intro n hne hnl hnr
    refine (agree_adopt hnr).parent.trans ((agree_adopt hnl).parent.trans ?_)
    rw [hang_parent]
    exact (agree_copyNode hne).parent
  refine ⟨m.substituted p node subst l r, ?_, ⟨?_, ?_, ?_, q, subtree_fill.mpr ⟨?_, ?_⟩⟩, ?_⟩
  · show ((m.copyNode node subst).rehang .left node subst).bind _ = _
    rw [hrehang, Option.bind_some]
    show (Rbtree.link _ Side.left subst).bind _ = _
    rw [hlink, hl, Option.bind_some]
    show (Rbtree.link (Rbtree.adopt _ _ _) Side.right subst).bind _ = _
    rw [adopt_link, hlink, hr]
    rfl
  · rw [substituted_sentinel]
    exact hnew
  · rw [substituted_sentinel]
    refine (adopt_root.trans adopt_root).trans ?_
    cases p with
    | nil => exact ptr_join.symm
    | cons f p => exact hroot.trans ptr_fill_cons
  · rw [substituted_red, substituted_sentinel, (agree_copyNode hzs).red, hblack]
  · rw [ptr_join]
    have hz : (m.substituted p node subst l r).sentinel
        = ((m.copyNode node subst).hang p subst).sentinel := adopt_sentinel.trans adopt_sentinel
    refine (hpath₁.hang hndp).frame hz fun n hn => ?_
    exact (agree_adopt (hpl' n hn)).trans (agree_adopt (hpr' n hn))
  · refine subtree_join.mpr ⟨?_, ?_, ?_, ?_, ?_, ?_⟩
    · refine (agree_adopt hsr').parent.trans ((agree_adopt hsl').parent.trans ?_)
      rw [hang_parent, ← hparent]
      exact Function.update_self _ _ _
    · rw [substituted_red, ← hred]
      exact Function.update_self _ _ _
    · rw [substituted_link, substituted_sentinel, hlink, hl]
    · rw [substituted_link, substituted_sentinel, hlink]
      exact hr
    · refine hsl.reparent substituted_sentinel hndl (fun hleaf => ?_) (fun n hn hne => ?_)
        fun n hn => hrest n (fun heq => hsubl (heq ▸ hn)) fun hmem => hlrp n hn n (.inr hmem) rfl
      · have hmem := ptr_mem (z := m.sentinel) hleaf
        refine (agree_adopt (hlr' _ hmem)).parent.trans (adopt_parent_self fun heq => hzl ?_)
        rw [hang_sentinel] at heq
        exact heq ▸ hmem
      · exact hkeep n (fun heq => hsubl (heq ▸ hn)) hne (hlr' n hn)
    · refine hsr.reparent substituted_sentinel hndr (fun hleaf => ?_) (fun n hn hne => ?_)
        fun n hn => hrest n (fun heq => hsubr (heq ▸ hn)) fun hmem => hrp n hn n hmem rfl
      · have hmem := ptr_mem (z := m.sentinel) hleaf
        refine adopt_parent_self fun heq => hzr ?_
        rw [adopt_sentinel, hang_sentinel] at heq
        exact heq ▸ hmem
      · exact hkeep n (fun heq => hsubr (heq ▸ hn)) (hrl' n hn) hne
  · refine ⟨substituted_sentinel, adopt_key.trans (adopt_key.trans hang_key), ?_⟩
    have hz₂ : ((m.copyNode node subst).hang p subst).sentinel = m.sentinel := hang_sentinel
    have hz₃ := adopt_parent_sentinel (m := (m.copyNode node subst).hang p subst)
      (x := ptr m.sentinel l) (y := subst)
    have hz₄ := adopt_parent_sentinel
      (m := ((m.copyNode node subst).hang p subst).adopt (ptr m.sentinel l) subst)
      (x := ptr m.sentinel r) (y := subst)
    rw [adopt_sentinel, hz₂] at hz₄
    rw [hz₂] at hz₃
    refine hz₄.trans (hz₃.trans ?_)
    rw [hang_parent]
    exact (agree_copyNode hzs).parent

end Substitute

/-! ## The function -/

/-- **`rbtree_min`** gives the first node. -/
theorem min_spec {n : ℕ} (h : m.Holds (fill p t)) (ht : t ≠ .leaf) (hn : t.height ≤ n) :
    ∃ q c x u, m.rbtreeMin n (ptr m.sentinel t) = some x ∧ t = fill q (join .left c .leaf x u) ∧
      TreePath.before q = [] := by
  induction t generalizing p n with
  | leaf => exact absurd rfl ht
  | node c l x r ihl ihr =>
    obtain ⟨n, rfl⟩ : ∃ j, n = j + 1 := ⟨n - 1, by simp only [ColorTree.height] at hn; omega⟩
    simp only [ColorTree.height] at hn
    have hx : m.Holds (fill p (join .left c l x r)) := h
    have hlink := hx.link_eq
    by_cases hl : l = .leaf
    · subst hl
      refine ⟨[], c, x, r, Loop.run_done ?_, rfl, rfl⟩
      show m.minTurn x = _
      simp [minTurn, hlink]
    · have hm : m.Holds (fill (⟨.left, c, x, r⟩ :: p) l) := h
      obtain ⟨q, d, y, u, hrun, hfill, hbefore⟩ := ihl (n := n) hm hl (by omega)
      have hne : ptr m.sentinel l ≠ m.sentinel := hm.ptr_eq_sentinel.not.mpr hl
      refine ⟨q ++ [⟨.left, c, x, r⟩], d, y, u, (Loop.run_next ?_).trans hrun, ?_, ?_⟩
      · show m.minTurn x = _
        simp [minTurn, hlink, hne]
      · rw [fill_append, ← hfill]
        rfl
      · simp [before_append, hbefore, TreePath.before]

/-- A node with one child at most is taken out itself. -/
theorem substOf_one {n : ℕ} {node : ι} (h : m.Holds (fill p (join s c .leaf node t))) :
    m.substOf n node = some (node, ptr m.sentinel t) := by
  have hlink := h.link_eq
  have hother := h.link_other
  cases s with
  | left => simp [substOf, hlink, show m.link .right node = _ from hother]
  | right =>
    have hl : m.link .left node = some (ptr m.sentinel t) := hother
    by_cases hleaf : ptr m.sentinel t = m.sentinel
    · simp [substOf, hlink, hl, hleaf]
    · simp [substOf, hlink, hl, hleaf]

/-- Otherwise it is the first node behind it. -/
theorem substOf_two {n : ℕ} {node : ι} {l r : ColorTree ι}
    (h : m.Holds (fill p (join .left c l node r))) (hl : l ≠ .leaf) (hr : r ≠ .leaf)
    (hn : r.height ≤ n) : ∃ q d y u, r = fill q (join .left d .leaf y u) ∧ TreePath.before q = [] ∧
      m.substOf n node = some (y, ptr m.sentinel u) := by
  have hlink := h.link_eq
  have hother : m.link .right node = some (ptr m.sentinel r) := h.link_other
  have hml : m.Holds (fill (⟨.left, c, node, r⟩ :: p) l) := h
  have hmr : m.Holds (fill (⟨.right, c, node, l⟩ :: p) r) := h
  have hnel : ptr m.sentinel l ≠ m.sentinel := hml.ptr_eq_sentinel.not.mpr hl
  have hner : ptr m.sentinel r ≠ m.sentinel := hmr.ptr_eq_sentinel.not.mpr hr
  obtain ⟨q, d, y, u, hmin, hfill, hbefore⟩ := min_spec hmr hr hn
  refine ⟨q, d, y, u, hfill, hbefore, ?_⟩
  have hy : m.Holds (fill (q ++ ⟨.right, c, node, l⟩ :: p) (join .left d .leaf y u)) := by
    rw [fill_append, ← hfill]
    exact hmr
  have hyr : m.link .right y = some (ptr m.sentinel u) := hy.link_other
  simp [substOf, hlink, hother, hnel, hner, hmin, hy.link_eq, hyr]

/-- **The first node behind a node** is taken out and comes in its place. -/
theorem substitute_first {node : ι} {l : ColorTree ι} {e : ι}
    (h : m.Holds (fill (p' ++ ⟨.right, c, node, l⟩ :: p) (join .left d .leaf y u)))
    (he : above (some y) p' = some e) :
    ∃ m', ((m.hang (p' ++ ⟨.right, c, node, l⟩ :: p) (ptr m.sentinel u)).setParent
        (ptr m.sentinel u) (some e)).substitute node y = some m' ∧
      m'.Holds (fill (p' ++ ⟨.right, c, y, l⟩ :: p) u) ∧
      m'.Anchored (p' ++ ⟨.right, c, y, l⟩ :: p) u ∧ m'.sentinel = m.sentinel ∧
      m'.key = m.key := by
  obtain ⟨q, hq⟩ := h.nodes
  obtain ⟨hpath, hsub⟩ := unlink_spec h hq e
  set m₁ := (m.hang (p' ++ ⟨.right, c, node, l⟩ :: p) (ptr m.sentinel u)).setParent
    (ptr m.sentinel u) (some e) with hm₁
  have hz : m₁.sentinel = m.sentinel := hang_sentinel
  have hkey : m₁.key = m.key := hang_key
  rw [← hz] at hpath
  obtain ⟨hin, hq₁, hred₁, hr₁, hl₁, hsl, hout⟩ := pathAt_append.mp hpath
  have hright : ∃ qr, m₁.Subtree qr (fill p' u) := by
    cases p' with
    | nil => exact ⟨_, hsub⟩
    | cons f p' =>
      have hval : f.val = e := Option.some.inj he
      exact ⟨_, subtree_fill.mpr ⟨hin, show m₁.Subtree (some f.val) u from hval ▸ hsub⟩⟩
  obtain ⟨qr, hsr⟩ := hright
  have hroot : m₁.root = ptr m₁.sentinel (fill p (join .left c l node (fill p' u))) := by
    have hm₁root : m₁.root = m.root := by
      cases p' <;> rfl
    rw [hm₁root, h.root, hz, fill_append, fill_frame]
    exact ptr_fill fun _ => by simp
  have hblack : m₁.red m₁.sentinel = false := by
    rw [hz, ← h.black]
    exact congrFun hang_red _
  obtain ⟨m', hsubst, hm', hkept⟩ := substitute_spec (hz ▸ h.nodup_first) hroot hblack hout hq₁
    hred₁ hl₁ hr₁ hsl hsr
  have hheld : m'.Holds (fill (p' ++ ⟨.right, c, y, l⟩ :: p) u) := by
    rw [fill_append]
    exact hm'
  refine ⟨m', hsubst, hheld, Anchored.of_kept hheld hkept ?_, hkept.sentinel.trans hz,
    hkept.key.trans hkey⟩
  rintro rfl f hf
  rw [hz]
  refine (Function.update_self _ _ _).trans (he.symm.trans ?_)
  cases p' with
  | nil => exact congrArg (Option.map Frame.val) (show some _ = some f from hf)
  | cons g p' => exact congrArg (Option.map Frame.val) (show some _ = some f from hf)

variable [OfNat K 0] {n : ℕ} {node : ι}

/-- The memory after the node is unlinked, and before the repair. -/
theorem rbtreeDelete_eq {up : ι} (hsubst : m.substOf n node = some (x, w)) (hroot : x ≠ m.root)
    (hparent : m.parent x = some up) : m.rbtreeDelete n node =
      (if x = node then
          some ((m.relink .left up x w).setParent w ((m.relink .left up x w).parent x))
        else if (m.relink .left up x w).parent x = some node then
          ((m.relink .left up x w).setParent w (some x)).substitute node x
        else ((m.relink .left up x w).setParent w ((m.relink .left up x w).parent x)).substitute
          node x).bind fun m' =>
        if m.red x then some (m'.clear node)
        else (Loop.run (Turn.whileDo deleteGoes deleteBody) n (m'.clear node, w)).map fun r =>
          r.1.setRed r.2 false := by
  simp only [rbtreeDelete, hsubst, hparent, if_neg hroot, Option.bind_eq_bind, Option.bind_some,
    Option.map_eq_bind]
  -- the branches of the source go on with the rest, and are taken together here
  split
  · rfl
  · split <;> rfl

/-- **The repair**, and what is done to the node before it. -/
theorem rbtreeDelete_end (h : m.Holds (fill p t)) (hanch : m.Anchored p t)
    (hnode : node ∉ (fill p t).toList) (hz : node ≠ m.sentinel)
    (hred : c = .red → ∃ k, Balanced (fill p t) .black k) (hblack : c = .black → DeleteOk p t 0)
    (hn : p.length < n) :
    ∃ m', (if decide (c = .red) then some (m.clear node)
        else (Loop.run (Turn.whileDo deleteGoes deleteBody) n
          (m.clear node, ptr m.sentinel t)).map fun r => r.1.setRed r.2 false) = some m' ∧
      m'.Stores (fill p t).toList ∧ m'.sentinel = m.sentinel ∧
      m'.key = Function.update m.key node 0 := by
  obtain ⟨hclear, hsentinel⟩ := clear_spec h hnode hz
  cases c with
  | red =>
    obtain ⟨k, hk⟩ := hred rfl
    exact ⟨_, rfl, ⟨_, k, hclear, hk, rfl⟩, rfl, rfl⟩
  | black =>
    have hanch' : (m.clear node).Anchored p t := by
      intro f hf
      by_cases hleaf : t = .leaf
      · subst hleaf
        exact hsentinel.trans (hanch f hf)
      · exact hclear.anchored hleaf f hf
    obtain ⟨m', v, T, hrun, hm', ⟨j, hbal⟩, hlist, hkept⟩ := deleteLoop hclear hanch' (hblack rfl)
      (Nat.zero_lt_of_lt hn) (.inr hn)
    refine ⟨m'.setRed v false, ?_, ⟨T, j, hm', hbal, hlist⟩, hkept.sentinel, hkept.key⟩
    have hrun' : Loop.run (Turn.whileDo deleteGoes deleteBody) n
        (m.clear node, ptr m.sentinel t) = some (m', v) := hrun
    simp [hrun']

/-- The list without a node. -/
theorem erase_eq {l l' : List ι} (h : (l ++ node :: l').Nodup) :
    (l ++ node :: l').erase node = l ++ l' := by
  have hnode : node ∉ l := fun hmem =>
    (List.nodup_append.mp h).2.2 node hmem node List.mem_cons_self rfl
  rw [List.erase_append_right _ hnode, List.erase_cons_head]

/-- A node with one child at most. -/
theorem rbtreeDelete_one {k : ℕ} (h : m.Holds (fill p (join s c .leaf node t)))
    (hbal : Balanced (fill p (join s c .leaf node t)) .black k) (hn : p.length < n) :
    ∃ m', m.rbtreeDelete n node = some m' ∧ m'.Stores (fill p t).toList ∧
      m'.sentinel = m.sentinel ∧ m'.key = Function.update m.key node 0 := by
  have hsubst := substOf_one h (n := n)
  have hnd := h.nodup_out
  simp only [List.nodup_cons, List.mem_cons, not_or] at hnd
  obtain ⟨⟨hz, -⟩, hnode, -⟩ := hnd
  have hroot := h.root_iff
  rw [ptr_join] at hroot
  obtain ⟨htake, hmiss⟩ := hbal.take
  cases p with
  | nil =>
    have hc : c = .black := color_join.symm.trans hbal.color_eq
    obtain ⟨j, hj⟩ := (hmiss hc).mended (.inl rfl)
    have hheld := Holds.paint_black (p := []) (Holds.setRoot h)
    obtain ⟨hclear, -⟩ := clear_spec hheld (by rwa [fill_nil, ColorTree.toList_paint]) (Ne.symm hz)
    refine ⟨_, ?_, ⟨_, j, hclear, hj, ColorTree.toList_paint⟩, rfl, rfl⟩
    simp only [rbtreeDelete, hsubst, Option.bind_eq_bind, Option.bind_some, if_pos (hroot.mpr rfl)]
    rfl
  | cons f p =>
    obtain ⟨q, hq⟩ := h.nodes
    have hpath := (subtree_fill.mp hq).1
    have hparent := h.parent_eq join_ne_leaf
    rw [ptr_join] at hpath hparent
    obtain ⟨hheld, hanch⟩ := takeOut_spec h
    obtain ⟨m', hrun, hm', hsentinel, hkey⟩ :=
      rbtreeDelete_end hheld hanch hnode (Ne.symm hz) htake hmiss hn
    refine ⟨m', ?_, hm', hsentinel, hkey⟩
    have hred := h.red_eq
    rw [ptr_join, color_join] at hred
    rw [rbtreeDelete_eq hsubst (hroot.not.mpr (List.cons_ne_nil _ _)) hparent,
      relink_eq hpath h.ne_sibling, if_pos rfl, hred, ← hrun]
    show Option.bind (some ((m.setLink f.side f.val (some (ptr m.sentinel t))).setParent
      (ptr m.sentinel t) (m.parent node))) _ = _
    rw [hparent]
    rfl

/-- The branches for a node with two children. -/
theorem rbtreeDelete_subst {l : ColorTree ι} {e : ι}
    (h : m.Holds (fill (p' ++ ⟨.right, c, node, l⟩ :: p) (join .left d .leaf y u)))
    (hsubst : m.substOf n node = some (y, ptr m.sentinel u)) (he : above (some y) p' = some e) :
    m.rbtreeDelete n node = (((m.hang (p' ++ ⟨.right, c, node, l⟩ :: p)
        (ptr m.sentinel u)).setParent (ptr m.sentinel u) (some e)).substitute node y).bind fun m' =>
      if decide (d = .red) then some (m'.clear node)
      else (Loop.run (Turn.whileDo deleteGoes deleteBody) n
        (m'.clear node, ptr m.sentinel u)).map fun r => r.1.setRed r.2 false := by
  have hapart := h.nodup_first
  have hne : y ≠ node := by
    rintro rfl
    simp at hapart
  obtain ⟨g, p₁, hcons⟩ : ∃ g p₁, p' ++ ⟨.right, c, node, l⟩ :: p = g :: p₁ := by
    cases p' <;> exact ⟨_, _, rfl⟩
  obtain ⟨q, hq⟩ := h.nodes
  have habove : above q (p' ++ ⟨.right, c, node, l⟩ :: p) = above (some node) p' := by
    cases p' <;> rfl
  rw [hcons] at h hq habove ⊢
  have hroot := h.root_iff
  have hred := h.red_eq
  have hpath := (subtree_fill.mp hq).1
  have hparent := hq.parent_eq join_ne_leaf
  rw [ptr_join] at hroot hred hpath hparent
  rw [color_join] at hred
  rw [rbtreeDelete_eq hsubst (hroot.not.mpr (List.cons_ne_nil _ _)) hparent,
    relink_eq hpath h.ne_sibling, if_neg hne, hred]
  refine congrArg (Option.bind · _) ?_
  show (if m.parent y = some node then _ else
    ((m.hang (g :: p₁) (ptr m.sentinel u)).setParent (ptr m.sentinel u) (m.parent y)).substitute
      node y) = _
  rw [hparent, habove]
  cases p' with
  | nil =>
    obtain rfl : y = e := Option.some.inj he
    exact if_pos rfl
  | cons f p' =>
    obtain rfl : f.val = e := Option.some.inj he
    refine (if_neg fun heq => ?_).trans rfl
    have hval : f.val ∈ (fill (f :: p') u).toList :=
      perm_fill.mem_iff.mpr (List.mem_append_right _ List.mem_cons_self)
    rw [show f.val = node from Option.some.inj heq] at hval
    simp only [List.nodup_cons, List.mem_cons, List.mem_append, not_or] at hapart
    exact hapart.2.1.2.2.1 hval

/-- A node with two children: the first one behind it takes its place. -/
theorem rbtreeDelete_two {k : ℕ} {l r : ColorTree ι} (h : m.Holds (fill p (join .left c l node r)))
    (hbal : Balanced (fill p (join .left c l node r)) .black k) (hl : l ≠ .leaf) (hr : r ≠ .leaf)
    (hn : (fill p (join .left c l node r)).height < n) :
    ∃ m', m.rbtreeDelete n node = some m' ∧
      m'.Stores ((fill p (join .left c l node r)).toList.erase node) ∧
      m'.sentinel = m.sentinel ∧ m'.key = Function.update m.key node 0 := by
  have hlen := length_le_height (p := ⟨.right, c, node, l⟩ :: p) (t := r)
  have hfill := fill_other (s := .left) (c := c) (x := node) (u := l) (p := p) (t := r)
  rw [List.length_cons] at hlen
  have hr' : fill (⟨.right, c, node, l⟩ :: p) r = fill p (join .left c l node r) := hfill
  rw [hr'] at hlen
  obtain ⟨p', d, y, u, hfirst, hbefore, hsubst⟩ := substOf_two (n := n) h hl hr (by omega)
  have hplace : fill p (join .left c l node r)
      = fill (p' ++ ⟨.right, c, node, l⟩ :: p) (join .left d .leaf y u) := by
    rw [fill_append, ← hfirst, hr']
  rw [hplace] at h hbal hn ⊢
  have hlen' := length_le_height (p := p' ++ ⟨.right, c, node, l⟩ :: p)
    (t := join .left d .leaf y u)
  obtain ⟨e, he⟩ : ∃ e, above (some y) p' = some e := by cases p' <;> exact ⟨_, rfl⟩
  obtain ⟨m₁, hrun₁, hm₁, hanch, hz, hkey⟩ := substitute_first h he
  obtain ⟨j, hreplace⟩ := hbal.replace (y := y)
  obtain ⟨htake, hmiss⟩ := hreplace.take
  have hlist : (fill (p' ++ ⟨.right, c, node, l⟩ :: p) (join .left d .leaf y u)).toList.erase node
      = (fill (p' ++ ⟨.right, c, y, l⟩ :: p) u).toList := by
    have hsplit : (fill (p' ++ ⟨.right, c, node, l⟩ :: p) (join .left d .leaf y u)).toList
        = (TreePath.before p ++ l.toList) ++
          node :: (y :: u.toList ++ TreePath.after p' ++ TreePath.after p) := by
      simp [toList_fill, before_append, after_append, hbefore, TreePath.before, TreePath.after,
        join, ColorTree.toList]
    have hnd := (List.nodup_cons.mp h.nodup).2
    rw [hsplit] at hnd ⊢
    rw [erase_eq hnd]
    simp [toList_fill, before_append, after_append, hbefore, TreePath.before, TreePath.after]
  have hnode : node ∉ (fill (p' ++ ⟨.right, c, y, l⟩ :: p) u).toList := by
    rw [← hlist]
    exact fun hmem => ((List.nodup_cons.mp h.nodup).2.mem_erase_iff.mp hmem).1 rfl
  have hapart := h.nodup_first
  simp only [List.nodup_cons, List.mem_cons, not_or] at hapart
  have hlt : (p' ++ ⟨.right, c, y, l⟩ :: p).length < n := by
    simp only [List.length_append, List.length_cons] at hlen' ⊢
    omega
  obtain ⟨m', hrun, hm', hz', hkey'⟩ := rbtreeDelete_end hm₁ hanch hnode
    (hz ▸ Ne.symm hapart.1.1) htake hmiss hlt
  refine ⟨m', ?_, ?_, hz'.trans hz, by rw [hkey', hkey]⟩
  · rw [rbtreeDelete_subst h hsubst he, hrun₁, Option.bind_some, ← hrun, hz]
  · rw [hlist]
    exact hm'

/-- **`rbtree_delete`** takes the node out of the tree, and keeps the order of the others. The
node is left without links and with another key. -/
theorem rbtreeDelete_spec {nodes : List ι} (h : m.Stores nodes) (hnode : node ∈ nodes)
    (hn : 2 * Nat.log 2 (nodes.length + 1) < n) :
    ∃ m', m.rbtreeDelete n node = some m' ∧ m'.Stores (nodes.erase node) ∧
      m'.sentinel = m.sentinel ∧ m'.key = Function.update m.key node 0 := by
  obtain ⟨t, k, hheld, hbal, rfl⟩ := h
  have hheight := hbal.height_le.trans_lt hn
  obtain ⟨p, c, l, r, rfl⟩ := exists_fill_of_mem hnode
  have hlen := length_le_height (p := p) (t := .node c l node r)
  have hlt : p.length < n := by
    simp only [ColorTree.height] at hlen
    omega
  have hnd := (List.nodup_cons.mp hheld.nodup).2
  have hone : ∀ t : ColorTree ι, (ColorTree.node c l node r).toList = l.toList ++ node :: r.toList →
      t.toList = l.toList ++ r.toList →
      (fill p (.node c l node r)).toList.erase node = (fill p t).toList := by
    intro t hlist ht
    have hsplit : (fill p (.node c l node r)).toList
        = (TreePath.before p ++ l.toList) ++ node :: (r.toList ++ TreePath.after p) := by
      simp [toList_fill, hlist]
    rw [hsplit] at hnd ⊢
    rw [erase_eq hnd]
    simp [toList_fill, ht]
  by_cases hl : l = .leaf
  · subst hl
    rw [hone r rfl rfl]
    exact rbtreeDelete_one (s := .left) hheld hbal hlt
  · by_cases hr : r = .leaf
    · subst hr
      rw [hone l rfl (by simp)]
      exact rbtreeDelete_one (s := .right) hheld hbal hlt
    · exact rbtreeDelete_two hheld hbal hl hr hheight

end Rbtree

end Dungeon

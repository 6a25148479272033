import Mathlib.Data.List.Chain
import Mathlib.Data.Nat.Notation

/-!
# Doubly linked rings

Nodes that point at each other, forward and back, in a circle that starts and ends at a node of
its own, the sentinel.

- `Links`: the two pointers of every node.
- `Links.Path`: from one node along others to another one, with every step undone by the
  pointer back. `Path.frame`: it only depends on the pointers along it.
- `Links.Ring`: a path from the sentinel to itself that meets no node twice. `Ring.follow`: a
  walk along the forward pointers meets its nodes in order and comes back, so there is one ring
  at most (`Ring.unique`).
- `Ring.link`: a node is put before the sentinel; `Ring.unlink`: the first node is taken out,
  and `Ring.cut`: any node, with the ones before it. These are the assignments that programs
  make, with the cases of an empty ring included.
-/

variable {ι : Type*}

/-- The pointers of every node; `none` for a null pointer. -/
structure Links (ι : Type*) where
  next : ι → Option ι
  prev : ι → Option ι

namespace Links

/-- `b` follows `a`, and `a` precedes `b`. -/
def Joined (L : Links ι) (a b : ι) : Prop := L.next a = some b ∧ L.prev b = some a

/-- From `a` along `l` to `b`. -/
def Path (L : Links ι) (a : ι) (l : List ι) (b : ι) : Prop := (a :: l ++ [b]).IsChain L.Joined

variable {L L' : Links ι} {a b c d x : ι} {l l' : List ι}

theorem path_nil : L.Path a [] b ↔ L.Joined a b := List.isChain_pair

theorem path_cons : L.Path a (c :: l) b ↔ L.Joined a c ∧ L.Path c l b :=
  List.isChain_cons_cons

theorem path_append : L.Path a (l ++ c :: l') b ↔ L.Path a l c ∧ L.Path c l' b := by
  unfold Path
  rw [show a :: (l ++ c :: l') ++ [b] = (a :: l) ++ c :: (l' ++ [b]) by simp, List.isChain_split]
  rfl

/-- A path only depends on the forward pointers of the nodes it leaves and on the backward
pointers of those it enters. -/
theorem Path.frame (h : L.Path a l b) (hnext : ∀ c ∈ a :: l, L'.next c = L.next c)
    (hprev : ∀ c ∈ l ++ [b], L'.prev c = L.prev c) : L'.Path a l b := by
  induction l generalizing a with
  | nil =>
    obtain ⟨hn, hp⟩ := path_nil.mp h
    refine path_nil.mpr ⟨?_, ?_⟩
    · rw [hnext a List.mem_cons_self, hn]
    · rw [hprev b (List.mem_append_right _ List.mem_cons_self), hp]
  | cons c l ih =>
    obtain ⟨⟨hn, hp⟩, hrest⟩ := path_cons.mp h
    refine path_cons.mpr ⟨⟨?_, ?_⟩, ?_⟩
    · rw [hnext a List.mem_cons_self, hn]
    · rw [hprev c List.mem_cons_self, hp]
    · exact ih hrest (fun e he => hnext e (List.mem_cons_of_mem _ he))
        fun e he => hprev e (List.mem_cons_of_mem _ he)

/-- The forward pointers lead along the path. -/
theorem Path.next_eq (h : L.Path a l b) : L.next a = some ((l ++ [b]).head (by simp)) := by
  cases l with
  | nil => exact (path_nil.mp h).1
  | cons c l => exact (path_cons.mp h).1.1

/-- The nodes of a ring, after the sentinel. -/
structure Ring (L : Links ι) (d : ι) (l : List ι) : Prop where
  nodup : (d :: l).Nodup
  path : L.Path d l d

/-- The sentinel's backward pointer names the last node. -/
theorem Ring.prev_sentinel (h : L.Ring d l) :
    L.prev d = some ((d :: l).getLast (List.cons_ne_nil _ _)) := by
  rcases List.eq_nil_or_concat' l with rfl | ⟨l, p, rfl⟩
  · exact (path_nil.mp h.path).2
  · obtain ⟨-, hlast⟩ := path_append.mp h.path
    rw [(path_nil.mp hlast).2]
    simp

variable [DecidableEq ι]

/-- The nodes met from a pointer on, along the forward pointers, until the sentinel; at most
`n` pointers are looked at. -/
def follow (L : Links ι) (d : ι) : ℕ → Option ι → Option (List ι)
  | n + 1, some a => if a = d then some [] else (L.follow d n (L.next a)).map (a :: ·)
  | _, _ => none

theorem Path.follow (h : L.Path a l d) (hd : d ∉ l) {n : ℕ} (hn : l.length < n) :
    L.follow d n (L.next a) = some l := by
  induction l generalizing a n with
  | nil =>
    obtain ⟨n, rfl⟩ := Nat.exists_eq_succ_of_ne_zero (Nat.ne_of_gt hn)
    rw [(path_nil.mp h).1]
    exact if_pos rfl
  | cons c l ih =>
    obtain ⟨n, rfl⟩ := Nat.exists_eq_succ_of_ne_zero (Nat.ne_of_gt (Nat.zero_lt_of_lt hn))
    obtain ⟨hjoined, hrest⟩ := path_cons.mp h
    have hcd : c ≠ d := fun heq => hd (heq ▸ List.mem_cons_self)
    rw [hjoined.1, Links.follow, if_neg hcd,
      ih hrest (fun hmem => hd (List.mem_cons_of_mem _ hmem)) (Nat.lt_of_succ_lt_succ hn)]
    rfl

/-- **Walking a ring** meets its nodes and comes back. -/
theorem Ring.follow (h : L.Ring d l) {n : ℕ} (hn : l.length < n) :
    L.follow d n (L.next d) = some l :=
  h.path.follow (List.nodup_cons.mp h.nodup).1 hn

/-- The pointers say which nodes the ring has. -/
theorem Ring.unique (h : L.Ring d l) (h' : L.Ring d l') : l = l' := by
  have hl := h.follow (Nat.lt_succ_of_le (Nat.le_max_left l.length l'.length))
  have hl' := h'.follow (Nat.lt_succ_of_le (Nat.le_max_right l.length l'.length))
  exact Option.some.inj (hl.symm.trans hl')

/-- An assignment to a forward pointer. -/
def setNext (L : Links ι) (a : ι) (p : Option ι) : Links ι :=
  { L with next := Function.update L.next a p }

/-- An assignment to a backward pointer. -/
def setPrev (L : Links ι) (a : ι) (p : Option ι) : Links ι :=
  { L with prev := Function.update L.prev a p }

theorem setPrev_prev_of_ne (h : c ≠ a) (p : Option ι) : (L.setPrev a p).prev c = L.prev c := by
  show Function.update L.prev a p c = L.prev c
  rw [Function.update_of_ne h]

/-! ## A node more -/

/-- `x` between `p`, the last node, and the sentinel. -/
def link (L : Links ι) (d p x : ι) : Links ι :=
  (((L.setPrev x (some p)).setNext x (some d)).setNext p (some x)).setPrev d (some x)

variable {p : ι}

theorem link_next_last : (L.link d p x).next p = some x := by
  show Function.update (Function.update L.next x (some d)) p (some x) p = some x
  rw [Function.update_self]

theorem link_next_new (h : x ≠ p) : (L.link d p x).next x = some d := by
  show Function.update (Function.update L.next x (some d)) p (some x) x = some d
  rw [Function.update_of_ne h, Function.update_self]

theorem link_next_of_ne (hp : c ≠ p) (hx : c ≠ x) : (L.link d p x).next c = L.next c := by
  show Function.update (Function.update L.next x (some d)) p (some x) c = L.next c
  rw [Function.update_of_ne hp, Function.update_of_ne hx]

theorem link_prev_sentinel : (L.link d p x).prev d = some x := by
  show Function.update (Function.update L.prev x (some p)) d (some x) d = some x
  rw [Function.update_self]

theorem link_prev_new (h : x ≠ d) : (L.link d p x).prev x = some p := by
  show Function.update (Function.update L.prev x (some p)) d (some x) x = some p
  rw [Function.update_of_ne h, Function.update_self]

theorem link_prev_of_ne (hd : c ≠ d) (hx : c ≠ x) : (L.link d p x).prev c = L.prev c := by
  show Function.update (Function.update L.prev x (some p)) d (some x) c = L.prev c
  rw [Function.update_of_ne hd, Function.update_of_ne hx]

/-- **Putting a node at the end** of a ring that does not have it. -/
theorem Ring.link (h : L.Ring d l) (hx : x ∉ d :: l) :
    (L.link d ((d :: l).getLast (List.cons_ne_nil _ _)) x).Ring d (l ++ [x]) := by
  have hxd : x ≠ d := fun heq => hx (heq ▸ List.mem_cons_self)
  constructor
  · rw [← List.cons_append, List.nodup_append]
    refine ⟨h.nodup, List.nodup_cons.mpr ⟨List.not_mem_nil, List.nodup_nil⟩, fun c hc e he => ?_⟩
    rw [List.mem_singleton.mp he]
    exact fun heq => hx (heq ▸ hc)
  · rcases List.eq_nil_or_concat' l with rfl | ⟨l, p, rfl⟩
    · -- the sentinel is the last node
      exact path_cons.mpr ⟨⟨link_next_last, link_prev_new hxd⟩,
        path_nil.mpr ⟨link_next_new hxd, link_prev_sentinel⟩⟩
    · have hlast : (d :: (l ++ [p])).getLast (List.cons_ne_nil _ _) = p := by simp
      rw [hlast]
      obtain ⟨hfront, -⟩ := path_append.mp h.path
      have hnodup : (d :: l ++ [p]).Nodup := h.nodup
      obtain ⟨hdl, -, hdisj⟩ := List.nodup_append.mp hnodup
      have hxl : ∀ c ∈ d :: l ++ [p], c ≠ x := fun c hc heq => hx (heq ▸ hc)
      have hxp : x ≠ p := (hxl p (by simp)).symm
      rw [List.append_assoc, List.singleton_append]
      refine path_append.mpr ⟨?_, path_cons.mpr ⟨⟨link_next_last, link_prev_new hxd⟩,
        path_nil.mpr ⟨link_next_new hxp, link_prev_sentinel⟩⟩⟩
      -- the rest of the ring is as it was
      refine hfront.frame (fun c hc => ?_) fun c hc => ?_
      · exact link_next_of_ne (hdisj c hc p (List.mem_singleton_self p))
          (hxl c (List.mem_append_left _ hc))
      · have hcd : c ≠ d := by
          rintro rfl
          exact (List.nodup_cons.mp hnodup).1 hc
        exact link_prev_of_ne hcd (hxl c (List.mem_cons_of_mem _ hc))

/-! ## A node less -/

/-- `a`, the first node, out of the ring; `c` is the node after it. -/
def unlink (L : Links ι) (d a c : ι) : Links ι :=
  (((L.setNext d (some c)).setPrev c (some d)).setPrev a none).setNext a none

theorem unlink_next_sentinel (h : d ≠ a) : (L.unlink d a c).next d = some c := by
  show Function.update (Function.update L.next d (some c)) a none d = some c
  rw [Function.update_of_ne h, Function.update_self]

theorem unlink_next_of_ne (hd : x ≠ d) (ha : x ≠ a) : (L.unlink d a c).next x = L.next x := by
  show Function.update (Function.update L.next d (some c)) a none x = L.next x
  rw [Function.update_of_ne ha, Function.update_of_ne hd]

theorem unlink_prev_first (h : c ≠ a) : (L.unlink d a c).prev c = some d := by
  show Function.update (Function.update L.prev c (some d)) a none c = some d
  rw [Function.update_of_ne h, Function.update_self]

theorem unlink_prev_of_ne (hc : x ≠ c) (ha : x ≠ a) : (L.unlink d a c).prev x = L.prev x := by
  show Function.update (Function.update L.prev c (some d)) a none x = L.prev x
  rw [Function.update_of_ne ha, Function.update_of_ne hc]

/-- **Taking a node out** together with all the nodes before it. -/
theorem Ring.cut {m : List ι} (h : L.Ring d (m ++ a :: l)) :
    (L.unlink d a ((l ++ [d]).head (by simp))).Ring d l := by
  have hnodup := List.nodup_cons.mp h.nodup
  obtain ⟨ha, hl⟩ := List.nodup_cons.mp (List.nodup_append.mp hnodup.2).2.1
  have hda : d ≠ a := fun heq => hnodup.1 (heq ▸ List.mem_append_right _ List.mem_cons_self)
  have hdl : d ∉ l := fun hmem =>
    hnodup.1 (List.mem_append_right _ (List.mem_cons_of_mem _ hmem))
  refine ⟨List.nodup_cons.mpr ⟨hdl, hl⟩, ?_⟩
  cases l with
  | nil => exact path_nil.mpr ⟨unlink_next_sentinel hda, unlink_prev_first hda⟩
  | cons c l =>
    obtain ⟨-, hrest⟩ := path_cons.mp (path_append.mp h.path).2
    have hca : c ≠ a := fun heq => ha (heq ▸ List.mem_cons_self)
    refine path_cons.mpr ⟨⟨unlink_next_sentinel hda, unlink_prev_first hca⟩, ?_⟩
    -- the rest of the ring is as it was
    refine hrest.frame (fun x hx => ?_) fun x hx => ?_
    · exact unlink_next_of_ne (fun heq => hdl (heq ▸ hx)) fun heq => ha (heq ▸ hx)
    · rcases List.mem_append.mp hx with hx | hx
      · have hxc : x ≠ c := fun heq => (List.nodup_cons.mp hl).1 (heq ▸ hx)
        exact unlink_prev_of_ne hxc fun heq => ha (heq ▸ List.mem_cons_of_mem _ hx)
      · rw [List.mem_singleton.mp hx]
        exact unlink_prev_of_ne (fun heq => hdl (heq ▸ List.mem_cons_self)) hda

/-- **Taking the first node out.** -/
theorem Ring.unlink (h : L.Ring d (a :: l)) :
    (L.unlink d a ((l ++ [d]).head (by simp))).Ring d l :=
  (show L.Ring d ([] ++ a :: l) from h).cut

end Links

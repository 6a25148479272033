import Mathlib.Algebra.Group.Nat.Defs
import Dungeon.RbtreeInsert
import Dungeon.RbtreeDelete

/-!
# Runs of the red-black tree (`ds_rbtree.c`)

Any requests to a tree, one after the other: a node is inserted with a key, or deleted.

- `Ranked`: the keys are compared by their places on a line. `rbtree_insert_value` always does,
  `rbtree_insert_timer_value` does while the keys lie in one half of the range.
- `requests`: the machine, with the nodes that are in the tree in the order they came.
- `represents_reach`: whatever the comparison is, the memory holds a red-black tree with these
  nodes, and each request is done.
- `values_inOrder`, `timers_inOrder`: they are in the order of their keys.
- `timers_min`: the first one is the timer that expires next.
-/

namespace Dungeon

open RedBlack

namespace Rbtree

/-! ## Keys -/

/-- `node->key < temp->key`, in `rbtree_insert_value`. -/
def valueLess (k temp : UInt64) : Bool := decide (k < temp)

/-- `(rbtree_key_int_t) (node->key - temp->key) < 0`, in `rbtree_insert_timer_value`. -/
def timerLess (k temp : UInt64) : Bool := decide ((k - temp).toBitVec.toInt < 0)

/-- The keys are compared by their places on a line. -/
def Ranked {K : Type} (less : K → K → Bool) (keys : List K) : Prop :=
  ∃ rank : K → ℤ, ∀ a ∈ keys, ∀ b ∈ keys, less a b = true ↔ rank a < rank b

/-- The keys are less than half the range behind `lo`, which may wrap around. -/
def Near (lo : UInt64) (keys : List UInt64) : Prop := ∀ k ∈ keys, (k - lo).toNat < 2 ^ 63

theorem near_of_all {lo : UInt64} {keys : List UInt64}
    (h : keys.all (fun k => decide ((k - lo).toNat < 2 ^ 63)) = true) : Near lo keys :=
  fun k hk => of_decide_eq_true (List.all_eq_true.mp h k hk)

theorem ranked_value (keys : List UInt64) : Ranked valueLess keys := by
  refine ⟨fun k => k.toNat, fun a _ b _ => ?_⟩
  simp [valueLess, UInt64.lt_iff_toNat_lt]

/-- The difference of two keys that are behind `lo` does not overflow. -/
theorem timerLess_iff {lo a b : UInt64} (ha : (a - lo).toNat < 2 ^ 63)
    (hb : (b - lo).toNat < 2 ^ 63) :
    timerLess a b = true ↔ (a - lo).toNat < (b - lo).toNat := by
  have hlo := lo.toNat_lt
  have hat := a.toNat_lt
  have hbt := b.toNat_lt
  rw [timerLess, decide_eq_true_eq, BitVec.toInt_eq_toNat_cond]
  simp only [UInt64.toNat_toBitVec, UInt64.toNat_sub] at *
  split <;> omega

theorem timerLess_eq_false {lo a b : UInt64} (ha : (a - lo).toNat < 2 ^ 63)
    (hb : (b - lo).toNat < 2 ^ 63) (h : timerLess b a = false) : a - lo ≤ b - lo := by
  have hnot := (timerLess_iff hb ha).not.mp (Bool.eq_false_iff.mp h)
  exact UInt64.le_iff_toNat_le.mpr (not_lt.mp hnot)

theorem ranked_timer {lo : UInt64} {keys : List UInt64} (h : Near lo keys) :
    Ranked timerLess keys := by
  refine ⟨fun k => (k - lo).toNat, fun a ha b hb => ?_⟩
  rw [timerLess_iff (h a ha) (h b hb), Int.ofNat_lt]

variable {ι K : Type}

/-! ## What the memory has to do with the nodes -/

/-- The nodes of the tree with their keys, in the order of the tree. -/
structure Represents (m : Rbtree ι K) (es : List (ι × K)) : Prop where
  stores : m.Stores (es.map Prod.fst)
  key : ∀ e ∈ es, m.key e.1 = e.2

/-- The nodes are ordered by their keys, and those with one key in the order they came. -/
structure InOrder [DecidableEq K] (less : K → K → Bool) (live es : List (ι × K)) : Prop where
  sorted : es.Pairwise fun e e' => less e'.2 e.2 = false
  stable : ∀ k, es.filter (fun e => decide (e.2 = k)) = live.filter fun e => decide (e.2 = k)

variable {m m' : Rbtree ι K} {less : K → K → Bool} {live es : List (ι × K)} {node : ι} {k : K}

theorem Stores.nodup {nodes : List ι} (h : m.Stores nodes) : (m.sentinel :: nodes).Nodup := by
  obtain ⟨t, n, ht, -, rfl⟩ := h
  exact ht.nodup

/-- A node that comes in behind all whose key is not greater. -/
theorem InOrder.insert [DecidableEq K] {l r : List (ι × K)} (h : InOrder less live (l ++ r))
    (hrank : Ranked less (k :: (l ++ r).map Prod.snd)) (hl : ∀ e ∈ l, less k e.2 = false)
    (hr : ∀ e ∈ r, less k e.2 = true) :
    InOrder less (live ++ [(node, k)]) (l ++ (node, k) :: r) := by
  obtain ⟨rank, hrank⟩ := hrank
  have hk := hrank k List.mem_cons_self
  have hmem : ∀ e ∈ r, e.2 ∈ k :: (l ++ r).map Prod.snd := fun e he =>
    List.mem_cons_of_mem _ (List.mem_map_of_mem (List.mem_append_right _ he))
  obtain ⟨hsl, hsr, hcross⟩ := List.pairwise_append.mp h.sorted
  constructor
  · refine List.pairwise_append.mpr ⟨hsl, List.pairwise_cons.mpr ⟨fun e he => ?_, hsr⟩, ?_⟩
    · have hlt := (hk e.2 (hmem e he)).mp (hr e he)
      exact Bool.eq_false_iff.mpr fun hless =>
        hlt.asymm ((hrank e.2 (hmem e he) k List.mem_cons_self).mp hless)
    · intro e he e' he'
      rcases List.mem_cons.mp he' with rfl | hin
      · exact hl e he
      · exact hcross e he e' hin
  · intro k'
    have hstable := h.stable k'
    rw [List.filter_append] at hstable
    rw [List.filter_append, List.filter_append, ← hstable]
    by_cases heq : k = k'
    · subst heq
      have hnone : r.filter (fun e => decide (e.2 = k)) = [] := by
        refine List.filter_eq_nil_iff.mpr fun e he => ?_
        have hlt := (hk e.2 (hmem e he)).mp (hr e he)
        intro hsame
        rw [of_decide_eq_true hsame] at hlt
        exact lt_irrefl _ hlt
      simp [hnone]
    · simp [heq]

variable [DecidableEq ι]

theorem InOrder.delete [DecidableEq K] (h : InOrder less live es) :
    InOrder less (live.filter fun e => decide (e.1 ≠ node))
      (es.filter fun e => decide (e.1 ≠ node)) := by
  refine ⟨h.sorted.filter _, fun k => ?_⟩
  rw [List.filter_comm, h.stable k, List.filter_comm]

/-- Another key of a node that is not in the tree. -/
theorem Stores.setKey {nodes : List ι} (h : m.Stores nodes) (node : ι) (k : K) :
    (m.setKey node k).Stores nodes := by
  obtain ⟨t, n, ⟨hnd, hroot, hblack, q, hq⟩, hbal, hlist⟩ := h
  exact ⟨t, n, ⟨hnd, hroot, hblack, q, hq.frame rfl fun _ _ => agree_setKey k⟩, hbal, hlist⟩

/-! ## Requests -/

/-- A call from the program. -/
inductive Request (ι K : Type) where
  | insert (node : ι) (key : K)
  | delete (node : ι)

/-- The nodes in the tree with their keys, in the order they came: what a request does to them. -/
def Request.after (live : List (ι × K)) : Request ι K → List (ι × K)
  | .insert node key => live ++ [(node, key)]
  | .delete node => live.filter fun e => decide (e.1 ≠ node)

/-- The program sets the key, and calls `rbtree_insert` or `rbtree_delete`. -/
def perform [OfNat K 0] (less : K → K → Bool) (m : Rbtree ι K) (n : ℕ) :
    Request ι K → Option (Rbtree ι K)
  | .insert node key => (m.setKey node key).rbtreeInsert less n node
  | .delete node => m.rbtreeDelete n node

/-- Only nodes that are not in the tree are inserted, and only those that are in it are deleted. -/
def Request.Proper (z : ι) (live : List (ι × K)) : Request ι K → Prop
  | .insert node _ => node ≠ z ∧ node ∉ live.map Prod.fst
  | .delete node => node ∈ live.map Prod.fst

/-- The keys that a request compares. -/
def Request.keys (live : List (ι × K)) : Request ι K → List K
  | .insert _ key => key :: live.map Prod.snd
  | .delete _ => []

/-- Requests to a tree, each with a bound on the turns of the loops. -/
def requests [OfNat K 0] (less : K → K → Bool) :
    Machine (Rbtree ι K × List (ι × K)) (Request ι K × ℕ) where
  init s := ∃ m z, s = (rbtreeInit m z, [])
  step s a := (perform less s.1 a.2 a.1).map fun m => (m, a.1.after s.2)

/-- A proper request, for keys that meet `P`, with turns for twice the logarithm of the number of
nodes. -/
def Legal (P : List K → Prop) (s : Rbtree ι K × List (ι × K)) (a : Request ι K × ℕ) : Prop :=
  a.1.Proper s.1.sentinel s.2 ∧ P (a.1.keys s.2) ∧ 2 * Nat.log 2 (s.2.length + 1) < a.2

/-- An empty tree. -/
theorem represents_init {z : ι} : (rbtreeInit m z).Represents ([] : List (ι × K)) :=
  ⟨⟨.leaf, 0, ⟨by simp, rfl, Function.update_self _ _ _, none, trivial⟩, .leaf, rfl⟩, by simp⟩

variable [OfNat K 0] {n : ℕ}

theorem insert_spec (less : K → K → Bool) (k : K) (h : m.Represents es) (hz : node ≠ m.sentinel)
    (hnew : node ∉ es.map Prod.fst) (hn : 2 * Nat.log 2 (es.length + 1) < n) :
    ∃ m' l r, perform less m n (.insert node k) = some m' ∧ es = l ++ r ∧
      m'.Represents (l ++ (node, k) :: r) ∧ m'.sentinel = m.sentinel ∧
      (Ranked less (k :: es.map Prod.snd) →
        (es.Pairwise fun e e' => less e'.2 e.2 = false) →
        (∀ e ∈ l, less k e.2 = false) ∧ ∀ e ∈ r, less k e.2 = true) := by
  have hself : (m.setKey node k).key node = k := Function.update_self _ _ _
  have hkey : ∀ e ∈ es, (m.setKey node k).key e.1 = e.2 := fun e he => by
    have hne : e.1 ≠ node := fun heq => hnew (heq ▸ List.mem_map_of_mem he)
    exact (Function.update_of_ne hne _ _).trans (h.key e he)
  obtain ⟨m', nl, nr, hrun, hsplit, hstores, hz', hkey', hordered⟩ :=
    rbtreeInsert_spec less (h.stores.setKey node k) hz hnew (n := n) (by rwa [List.length_map])
  obtain ⟨l, r, rfl, rfl, rfl⟩ := List.map_eq_append_iff.mp hsplit
  refine ⟨m', l, r, hrun, rfl, ⟨by simpa using hstores, fun e he => ?_⟩, hz', ?_⟩
  · rw [hkey']
    rcases List.mem_append.mp he with hin | hin
    · exact hkey e (List.mem_append_left _ hin)
    · rcases List.mem_cons.mp hin with rfl | hin
      · exact hself
      · exact hkey e (List.mem_append_right _ hin)
  · rintro ⟨rank, hrank⟩ hsorted
    have hmem : ∀ e ∈ l ++ r, e.2 ∈ k :: (l ++ r).map Prod.snd := fun e he =>
      List.mem_cons_of_mem _ (List.mem_map_of_mem he)
    rw [hself] at hordered
    have hless : ∀ x ∈ (l ++ r).map Prod.fst,
        less k ((m.setKey node k).key x) = true ↔ rank k < rank ((m.setKey node k).key x) := by
      intro x hx
      obtain ⟨e, he, rfl⟩ := List.mem_map.mp hx
      rw [hkey e he]
      exact hrank k List.mem_cons_self e.2 (hmem e he)
    have hsorted' : ((l ++ r).map Prod.fst).Pairwise fun x y =>
        rank ((m.setKey node k).key x) ≤ rank ((m.setKey node k).key y) := by
      refine List.pairwise_map.mpr (hsorted.imp_of_mem fun {e e'} he he' hnot => ?_)
      rw [hkey e he, hkey e' he']
      exact not_lt.mp ((hrank _ (hmem e' he') _ (hmem e he)).not.mp (Bool.eq_false_iff.mp hnot))
    obtain ⟨hl, hr⟩ := hordered rank hless hsorted'
    refine ⟨fun e he => ?_, fun e he => ?_⟩
    · rw [← hkey e (List.mem_append_left _ he)]
      exact hl e.1 (List.mem_map_of_mem he)
    · rw [← hkey e (List.mem_append_right _ he)]
      exact hr e.1 (List.mem_map_of_mem he)

theorem delete_spec (h : m.Represents es) (hnode : node ∈ es.map Prod.fst)
    (hn : 2 * Nat.log 2 (es.length + 1) < n) :
    ∃ m', perform less m n (.delete node) = some m' ∧
      m'.Represents (es.filter fun e => decide (e.1 ≠ node)) ∧ m'.sentinel = m.sentinel := by
  obtain ⟨m', hrun, hstores, hz, hkey⟩ := rbtreeDelete_spec h.stores hnode
    (by rwa [List.length_map])
  refine ⟨m', hrun, ⟨?_, fun e he => ?_⟩, hz⟩
  · rw [(List.nodup_cons.mp h.stores.nodup).2.erase_eq_filter, List.filter_map] at hstores
    simpa [Function.comp_def, bne, beq_eq_decide] using hstores
  · obtain ⟨hin, hne⟩ := List.mem_filter.mp he
    rw [hkey]
    exact (Function.update_of_ne (of_decide_eq_true hne) _ _).trans (h.key e hin)

/-- **A legal request** is done within the turns that it has. When the keys can be ordered, the
nodes stay in order. -/
theorem perform_spec (less : K → K → Bool) {P : List K → Prop} {req : Request ι K}
    (h : m.Represents es)
    (hperm : es.Perm live) (hlegal : Legal P (m, live) (req, n)) :
    ∃ m' es', perform less m n req = some m' ∧ m'.Represents es' ∧
      es'.Perm (req.after live) ∧ m'.sentinel = m.sentinel ∧
      ∀ [DecidableEq K], Ranked less (req.keys live) → InOrder less live es →
        InOrder less (req.after live) es' := by
  obtain ⟨hproper, hkeys, hn⟩ := hlegal
  rw [← hperm.length_eq] at hn
  cases req with
  | insert node k =>
    obtain ⟨hz, hnew⟩ := hproper
    have hnew' : node ∉ es.map Prod.fst := fun hmem => hnew ((hperm.map _).mem_iff.mp hmem)
    obtain ⟨m', l, r, hrun, rfl, hm', hz', hordered⟩ := insert_spec less k h hz hnew' hn
    refine ⟨m', _, hrun, hm', ?_, hz', fun hrank hin => ?_⟩
    · exact List.perm_middle.trans ((hperm.cons _).trans (List.perm_append_singleton _ _).symm)
    · obtain ⟨rank, hrank⟩ := hrank
      have hmem : ∀ a, a ∈ k :: (l ++ r).map Prod.snd ↔ a ∈ k :: live.map Prod.snd := fun a =>
        ((hperm.map _).cons k).mem_iff
      have hrank' : Ranked less (k :: (l ++ r).map Prod.snd) :=
        ⟨rank, fun a ha b hb => hrank a ((hmem a).mp ha) b ((hmem b).mp hb)⟩
      obtain ⟨hl, hr⟩ := hordered hrank' hin.sorted
      exact hin.insert hrank' hl hr
  | delete node =>
    obtain ⟨m', hrun, hm', hz⟩ := delete_spec h ((hperm.map _).mem_iff.mpr hproper) hn
    exact ⟨m', _, hrun, hm', hperm.filter _, hz, fun _ hin => hin.delete⟩

section Runs

variable {P : List K → Prop} {s : Rbtree ι K × List (ι × K)}

/-- What holds in every run; with an order, the nodes are ordered. -/
theorem requests_invariant (h : (requests less).Reach (Legal P) s) :
    ∃ es, s.1.Represents es ∧ es.Perm s.2 ∧
      ∀ [DecidableEq K], (∀ keys, P keys → Ranked less keys) → InOrder less s.2 es := by
  refine h.invariant (I := fun s => ∃ es, s.1.Represents es ∧ es.Perm s.2 ∧
    ∀ [DecidableEq K], (∀ keys, P keys → Ranked less keys) → InOrder less s.2 es) ?_ ?_
  · rintro s ⟨m, z, rfl⟩
    exact ⟨[], represents_init, .nil, fun _ => ⟨.nil, fun k => rfl⟩⟩
  · rintro ⟨m, live⟩ ⟨req, n⟩ s' - ⟨es, hm, hperm, hin⟩ hlegal hstep
    obtain ⟨m', es', hrun, hm', hperm', -, hin'⟩ := perform_spec less hm hperm hlegal
    obtain rfl : (m', req.after live) = s' := by
      simpa [requests, hrun] using hstep
    exact ⟨es', hm', hperm', fun hP => hin' (hP _ hlegal.2.1) (hin hP)⟩

/-- The next request is done within the turns that it has. -/
theorem exists_step (h : (requests less).Reach (Legal P) s) {a : Request ι K × ℕ}
    (ha : Legal P s a) :
    ∃ m', (requests less).step s a = some (m', a.1.after s.2) ∧ m'.sentinel = s.1.sentinel := by
  obtain ⟨es, hm, hperm, -⟩ := requests_invariant h
  obtain ⟨m', es', hrun, -, -, hz, -⟩ := perform_spec less hm hperm ha
  exact ⟨m', by simp [requests, hrun], hz⟩

/-- Each request of a list is legal when its turn comes; `z` is the sentinel. -/
def Lawful (P : List K → Prop) (z : ι) : List (ι × K) → List (Request ι K × ℕ) → Prop
  | _, [] => True
  | live, a :: as => a.1.Proper z live ∧ P (a.1.keys live) ∧
      2 * Nat.log 2 (live.length + 1) < a.2 ∧ Lawful P z (a.1.after live) as

/-- **Any such list** of requests is done. -/
theorem exists_run {as : List (Request ι K × ℕ)}
    (h : (requests less).Reach (Legal P) s) (has : Lawful P s.1.sentinel s.2 as) :
    ∃ m', (requests less).Reach (Legal P) (m', as.foldl (fun live a => a.1.after live) s.2) := by
  induction as generalizing s with
  | nil => exact ⟨s.1, h⟩
  | cons a as ih =>
    obtain ⟨hproper, hkeys, hn, hrest⟩ := has
    have ha : Legal P s a := ⟨hproper, hkeys, hn⟩
    obtain ⟨m', hstep, hz⟩ := exists_step h ha
    exact ih (h.next ha hstep) (hz ▸ hrest)

/-- **`rbtree_min`** of the whole tree: no key is less, and of those with that key the node came
first. -/
theorem min_reach [DecidableEq K] (hP : ∀ keys, P keys → Ranked less keys)
    (h : (requests less).Reach (Legal P) s) (hs : s.2 ≠ [])
    (hn : 2 * Nat.log 2 (s.2.length + 1) ≤ n) :
    ∃ node k l r, s.1.rbtreeMin n s.1.root = some node ∧ s.2 = l ++ (node, k) :: r ∧
      (∀ e ∈ l, e.2 ≠ k) ∧ ∀ e ∈ l ++ r, less e.2 k = false := by
  obtain ⟨m, live⟩ := s
  obtain ⟨es, ⟨⟨t, i, ht, hbal, hlist⟩, hkey⟩, hperm, hin⟩ := requests_invariant h
  have hin := hin hP
  have hleaf : t ≠ .leaf := by
    rintro rfl
    obtain rfl : es = [] := List.map_eq_nil_iff.mp hlist.symm
    exact hs hperm.symm.eq_nil
  have hheight := hbal.height_le
  rw [hlist, List.length_map, hperm.length_eq] at hheight
  obtain ⟨q, c, x, u, hmin, rfl, hbefore⟩ := min_spec (p := []) ht hleaf (hheight.trans hn)
  rw [toList_fill, hbefore] at hlist
  cases es with
  | nil => simp [join, ColorTree.toList] at hlist
  | cons e es =>
    obtain ⟨node, k⟩ := e
    have hnode : x = node := by
      simp only [join, ColorTree.toList, List.nil_append, List.cons_append, List.map_cons,
        List.cons.injEq] at hlist
      exact hlist.1
    subst hnode
    have hstable := hin.stable k
    rw [List.filter_cons_of_pos (by simp)] at hstable
    obtain ⟨l, r, rfl, hl, -, -⟩ := List.filter_eq_cons_iff.mp hstable.symm
    refine ⟨x, k, l, r, ?_, rfl, fun e he heq => hl e he (decide_eq_true heq), fun e he => ?_⟩
    · rw [ht.root]
      exact hmin
    · have hmem := (hperm.trans List.perm_middle).cons_inv.mem_iff.mpr he
      exact (List.pairwise_cons.mp hin.sorted).1 e hmem

/-! ## Results -/

/-- **Whatever the comparison is**, in every run the memory holds a red-black tree with the nodes
that came and are not deleted, and each request is done within its turns. -/
theorem represents_reach (h : (requests less).Reach (Legal fun _ => True) s) :
    (∃ es, s.1.Represents es ∧ es.Perm s.2) ∧
      ∀ a, Legal (fun _ => True) s a →
        ∃ m', (requests less).step s a = some (m', a.1.after s.2) := by
  obtain ⟨es, hm, hperm, -⟩ := requests_invariant h
  refine ⟨⟨es, hm, hperm⟩, fun a ha => ?_⟩
  obtain ⟨m', hstep, -⟩ := exists_step h ha
  exact ⟨m', hstep⟩

end Runs

/-- Memory of a tree before `rbtree_init`. -/
def blank : Rbtree ℕ UInt64 where
  root := 0
  sentinel := 0
  key _ := 0
  link _ _ := none
  parent _ := none
  red _ := false

/-- Three nodes, of which one is deleted. -/
theorem lawful_values : Lawful (fun _ => True) (0 : ℕ) []
    [(.insert 1 (7 : UInt64), 9), (.insert 2 3, 9), (.insert 3 7, 9), (.delete 2, 9)] :=
  ⟨⟨by decide, by decide⟩, trivial, by decide, ⟨by decide, by decide⟩, trivial, by decide,
    ⟨by decide, by decide⟩, trivial, by decide, (show 2 ∈ [1, 2, 3] by decide), trivial, by decide,
    trivial⟩

theorem reach_values : ∃ m, (requests valueLess).Reach (Legal fun _ => True)
    (m, [((1 : ℕ), 7), (3, 7)]) :=
  exists_run (Machine.Reach.start ⟨blank, 0, rfl⟩) lawful_values

theorem represents_reach_three : ∃ m : Rbtree ℕ UInt64,
    (requests valueLess).Reach (Legal fun _ => True) (m, [(1, 7), (3, 7)]) ∧
      (∃ es, m.Represents es ∧ es.Perm [((1 : ℕ), (7 : UInt64)), (3, 7)]) ∧
      ∃ m', (requests valueLess).step (m, [(1, 7), (3, 7)]) (.delete 3, 9) =
        some (m', [(1, 7)]) := by
  obtain ⟨m, hm⟩ := reach_values
  obtain ⟨hes, hstep⟩ := represents_reach hm
  exact ⟨m, hm, hes, hstep (.delete 3, 9) ⟨show 3 ∈ [1, 3] by decide, trivial,
    show 2 * Nat.log 2 3 < 9 by decide⟩⟩

section Words

variable {s : Rbtree ι UInt64 × List (ι × UInt64)}

/-- **With `rbtree_insert_value`** the nodes are in the order of their keys, and those with one key
in the order they came. -/
theorem values_inOrder (h : (requests valueLess).Reach (Legal fun _ => True) s) :
    ∃ es, s.1.Represents es ∧ es.Pairwise (fun e e' => e.2 ≤ e'.2) ∧
      ∀ k, es.filter (fun e => decide (e.2 = k)) = s.2.filter fun e => decide (e.2 = k) := by
  obtain ⟨es, hm, -, hin⟩ := requests_invariant h
  have hin := hin fun keys _ => ranked_value keys
  refine ⟨es, hm, hin.sorted.imp fun {e e'} hless => ?_, hin.stable⟩
  exact UInt64.not_lt.mp (of_decide_eq_false hless)

theorem values_inOrder_three : ∃ m es, (requests valueLess).Reach (Legal fun _ => True)
    (m, [(1, 7), (3, 7)]) ∧ m.Represents es ∧ es.Pairwise (fun e e' => e.2 ≤ e'.2) ∧
      ∀ k, es.filter (fun e => decide (e.2 = k))
        = [((1 : ℕ), (7 : UInt64)), (3, 7)].filter fun e => decide (e.2 = k) := by
  obtain ⟨m, hm⟩ := reach_values
  obtain ⟨es, hes⟩ := values_inOrder hm
  exact ⟨m, es, hm, hes⟩

/-- Timers around the end of the range. -/
theorem lawful_timers : Lawful (fun keys => ∃ lo, Near lo keys) (0 : ℕ) []
    [(.insert 1 (3 : UInt64), 9), (.insert 2 (-2), 9), (.insert 3 (-2), 9)] :=
  ⟨⟨by decide, by decide⟩, ⟨-2, near_of_all (by decide)⟩, by decide,
    ⟨by decide, by decide⟩, ⟨-2, near_of_all (by decide)⟩, by decide,
    ⟨by decide, by decide⟩, ⟨-2, near_of_all (by decide)⟩, by decide, trivial⟩

theorem reach_timers : ∃ m, (requests timerLess).Reach (Legal fun keys => ∃ lo, Near lo keys)
    (m, [((1 : ℕ), 3), (2, -2), (3, -2)]) :=
  exists_run (Machine.Reach.start ⟨blank, 0, rfl⟩) lawful_timers

/-- **With `rbtree_insert_timer_value`**, while the keys lie in some half of the range whenever a
node is inserted, they are in the order in which they expire. -/
theorem timers_inOrder (h : (requests timerLess).Reach (Legal fun keys => ∃ lo, Near lo keys) s) :
    ∃ es, s.1.Represents es ∧
      (∀ lo, Near lo (s.2.map Prod.snd) → es.Pairwise fun e e' => e.2 - lo ≤ e'.2 - lo) ∧
      ∀ k, es.filter (fun e => decide (e.2 = k)) = s.2.filter fun e => decide (e.2 = k) := by
  obtain ⟨es, hm, hperm, hin⟩ := requests_invariant h
  have hin := hin fun keys hkeys => hkeys.elim fun lo hlo => ranked_timer hlo
  refine ⟨es, hm, fun lo hlo => hin.sorted.imp_of_mem fun {e e'} he he' hless => ?_, hin.stable⟩
  have hmem : ∀ e ∈ es, (e.2 - lo).toNat < 2 ^ 63 := fun e he =>
    hlo e.2 (List.mem_map_of_mem (hperm.mem_iff.mp he))
  exact timerLess_eq_false (hmem e he) (hmem e' he') hless

theorem timers_inOrder_three : ∃ (m : Rbtree ℕ UInt64) (es : List (ℕ × UInt64)),
    (requests timerLess).Reach (Legal fun keys => ∃ lo, Near lo keys)
      (m, [(1, 3), (2, -2), (3, -2)]) ∧ m.Represents es ∧
    (∀ lo, Near lo [3, -2, -2] → es.Pairwise fun e e' => e.2 - lo ≤ e'.2 - lo) ∧
    ∀ k, es.filter (fun e => decide (e.2 = k))
      = [((1 : ℕ), (3 : UInt64)), (2, -2), (3, -2)].filter fun e => decide (e.2 = k) := by
  obtain ⟨m, hm⟩ := reach_timers
  obtain ⟨es, hes⟩ := timers_inOrder hm
  exact ⟨m, es, hm, hes⟩

/-- **The first timer** is one that expires next, and of those with its key it came first. -/
theorem timers_min {n : ℕ}
    (h : (requests timerLess).Reach (Legal fun keys => ∃ lo, Near lo keys) s) (hs : s.2 ≠ [])
    (hn : 2 * Nat.log 2 (s.2.length + 1) ≤ n) :
    ∃ node k l r, s.1.rbtreeMin n s.1.root = some node ∧ s.2 = l ++ (node, k) :: r ∧
      (∀ e ∈ l, e.2 ≠ k) ∧
      ∀ lo, Near lo (s.2.map Prod.snd) → ∀ e ∈ s.2, k - lo ≤ e.2 - lo := by
  obtain ⟨node, k, l, r, hmin, hlive, hfirst, hless⟩ :=
    min_reach (fun keys hkeys => hkeys.elim fun lo hlo => ranked_timer hlo) h hs hn
  refine ⟨node, k, l, r, hmin, hlive, hfirst, fun lo hlo e he => ?_⟩
  have hmem : ∀ e ∈ s.2, (e.2 - lo).toNat < 2 ^ 63 := fun e he =>
    hlo e.2 (List.mem_map_of_mem he)
  have hk := hmem (node, k) (by simp [hlive])
  rw [hlive, List.mem_append, List.mem_cons] at he
  by_cases heq : e = (node, k)
  · subst heq
    exact UInt64.le_refl _
  · refine timerLess_eq_false hk (hmem e ?_) (hless e ?_)
    · rw [hlive, List.mem_append, List.mem_cons]
      exact he
    · rw [List.mem_append]
      exact he.imp_right fun hin => hin.resolve_left heq

/-- The timer of the key `-2` that came first. -/
theorem timers_min_three : ∃ m : Rbtree ℕ UInt64,
    (requests timerLess).Reach (Legal fun keys => ∃ lo, Near lo keys)
      (m, [(1, 3), (2, -2), (3, -2)]) ∧ m.rbtreeMin 9 m.root = some 2 := by
  obtain ⟨m, hm⟩ := reach_timers
  obtain ⟨node, k, l, r, hmin, hlive, hfirst, hle⟩ :=
    timers_min (n := 9) hm (List.cons_ne_nil _ _) (show 2 * Nat.log 2 4 ≤ 9 by decide)
  have hk : k - -2 ≤ -2 - -2 :=
    hle (-2) (show Near (-2) [3, -2, -2] from near_of_all (by decide)) (2, -2)
      (List.mem_cons_of_mem _ (.head _))
  refine ⟨m, hm, hmin.trans (congrArg some ?_)⟩
  rcases l with _ | ⟨a, _ | ⟨b, l⟩⟩
  · -- the timer of the key `3` expires later
    have hk' : (3 : UInt64) = k := congrArg (fun e => e.2) (List.cons.inj hlive).1
    rw [← hk'] at hk
    exact absurd hk (by decide)
  · exact (congrArg (fun e => e.1) (List.cons.inj (List.cons.inj hlive).2).1).symm
  · -- the other one of this key came later
    have hb : (2, -2) = b := (List.cons.inj (List.cons.inj hlive).2).1
    have hkey := hfirst b (List.mem_cons_of_mem _ (.head _))
    have hrest := (List.cons.inj (List.cons.inj hlive).2).2
    rcases l with _ | ⟨c, l⟩
    · have hk' : (-2 : UInt64) = k := congrArg (fun e => e.2) (List.cons.inj hrest).1
      rw [← hb, ← hk'] at hkey
      exact absurd rfl hkey
    · simp at hrest

end Words

end Rbtree

end Dungeon

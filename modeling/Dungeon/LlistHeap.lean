import Dungeon.Lib.Links
import Dungeon.Lib.Machine
import Dungeon.Llist

/-!
# The ring behind the linked list (`ds_llist.c`)

The linked list again, with its nodes and their pointers. A look at memory that is not a node
of the list is a fault, and so is one at `NULL`.

- `Addr`, `LlistMem`: the addresses of nodes, and `struct llist_st` with the nodes in memory,
  one map for each field.
- `LlistHeap.llistAppendUnlocked` and so on: the functions, assignment by assignment; `none` is
  a fault. An allocation is answered with a free address, or fails.
- `Linked`: the nodes make a ring around the dumb node and can be looked at. `Holds`: and no
  other nodes are allocated, and `nr_nodes` counts them.
- `append_refines`, `fetchHead_refines` and so on: on such memory each function does to the
  elements what its counterpart in `Dungeon.Llist` does, and keeps it so.
- `llistRuns`: all call sequences of one thread. `llist_fifo`: the whole contract, in every
  state they reach.
-/

namespace Dungeon

/-- Where a node lies: in the list itself, or where `malloc` put it. -/
inductive Addr where
  | dumb
  | heap (k : ℕ)
  deriving DecidableEq

/-- `struct llist_st` without its lock, and the nodes in memory. -/
structure LlistMem (α : Type) where
  nrNodes : ℤ
  volume : ℤ
  live : ℕ → Bool
  links : Links Addr
  ptr : Addr → α

namespace LlistHeap

variable {α : Type}

/-- The node a pointer points to. -/
def deref (ll : LlistMem α) : Option Addr → Option Addr
  | some .dumb => some .dumb
  | some (.heap k) => if ll.live k then some (.heap k) else none
  | none => none

/-- `a->next = p`. -/
def setNext (ll : LlistMem α) (a : Addr) (p : Option Addr) : LlistMem α :=
  { ll with links := ll.links.setNext a p }

/-- `a->prev = p`. -/
def setPrev (ll : LlistMem α) (a : Addr) (p : Option Addr) : LlistMem α :=
  { ll with links := ll.links.setPrev a p }

/-- `a->ptr = data`. -/
def setPtr (ll : LlistMem α) (a : Addr) (data : α) : LlistMem α :=
  { ll with ptr := Function.update ll.ptr a data }

/-- `free`, of a node from `malloc`. -/
def free (ll : LlistMem α) : Addr → LlistMem α
  | .dumb => ll
  | .heap k => { ll with live := Function.update ll.live k false }

/-- `llist_new`. -/
def llistNew [Zero α] (max : ℤ) : LlistMem α where
  nrNodes := 0
  volume := max
  live _ := false
  links := ((⟨fun _ => none, fun _ => none⟩ : Links Addr).setPrev .dumb (some .dumb)).setNext
    .dumb (some .dumb)
  ptr _ := 0

/-- `llist_new_node`, with the answer of `malloc`. -/
def llistNewNode [Zero α] (ll : LlistMem α) (malloc : Option ℕ) : Option (Addr × LlistMem α) :=
  malloc.map fun k =>
    let ll := { ll with live := Function.update ll.live k true }
    let ll := setPtr ll (.heap k) 0
    (.heap k, setNext (setPrev ll (.heap k) none) (.heap k) none)

/-- `llist_append_unlocked`: the return code and the memory. -/
def llistAppendUnlocked [Zero α] (ll : LlistMem α) (data : α) (malloc : Option ℕ) :
    Option (ℤ × LlistMem α) :=
  if ll.nrNodes < ll.volume then
    match llistNewNode ll malloc with
    | none => some (-1, ll)
    | some (lnode, ll) => do
      let ll := setPtr ll lnode data
      let ll := setPrev ll lnode (ll.links.prev .dumb)
      let ll := setNext ll lnode (some .dumb)
      let last ← deref ll (ll.links.prev .dumb)
      let ll := setNext ll last (some lnode)
      let ll := setPrev ll .dumb (some lnode)
      return (0, { ll with nrNodes := ll.nrNodes + 1 })
  else some (-1, ll)

/-- `llist_get_next_unlocked`. -/
def llistGetNextUnlocked (ll : LlistMem α) (ptr : Option Addr) : Option (Option Addr) := do
  let ln ← deref ll ptr
  if ll.links.next ln = some .dumb then return none
  else return ll.links.next ln

/-- `llist_get_head_unlocked`. -/
def llistGetHeadUnlocked (ll : LlistMem α) : Option (Except ℤ α) :=
  if ll.nrNodes ≤ 0 then some (.error (-1))
  else if ll.links.next .dumb ≠ some .dumb then do
    let ln ← deref ll (ll.links.next .dumb)
    return .ok (ll.ptr ln)
  else some (.error (-1))

/-- `llist_get_head_node_unlocked`. -/
def llistGetHeadNodeUnlocked (ll : LlistMem α) : Except ℤ (Option Addr) :=
  if ll.nrNodes ≤ 0 then .error (-1)
  else if ll.links.next .dumb ≠ some .dumb then .ok (ll.links.next .dumb)
  else .error (-1)

/-- `llist_fetch_head_unlocked`. -/
def llistFetchHeadUnlocked (ll : LlistMem α) : Option (Except ℤ (α × LlistMem α)) :=
  if ll.nrNodes ≤ 0 then some (.error (-1))
  else if ll.links.next .dumb ≠ some .dumb then do
    let ln ← deref ll (ll.links.next .dumb)
    let data := ll.ptr ln
    let ll := setNext ll .dumb (ll.links.next ln)
    let next ← deref ll (ll.links.next ln)
    let ll := setPrev ll next (some .dumb)
    let ll := setNext (setPrev ll ln none) ln none
    let ll := free ll ln
    return .ok (data, { ll with nrNodes := ll.nrNodes - 1 })
  else some (.error (-1))

/-- The loop of `llist_travel`, for at most `n` turns: the arguments of the calls of `func`. -/
def travelLoop [Zero α] [DecidableEq α] (ll : LlistMem α) : ℕ → Option Addr → Option (List α)
  | 0, _ => none
  | n + 1, p =>
    if p = some .dumb then some []
    else do
      let ln ← deref ll p
      let calls ← travelLoop ll n (ll.links.next ln)
      return if ll.ptr ln ≠ 0 then ll.ptr ln :: calls else calls

/-- `llist_travel`, where `func` tells whether there is a function: the return code and the
arguments it is called with. -/
def llistTravel [Zero α] [DecidableEq α] (ll : LlistMem α) (n : ℕ) (func : Bool) :
    Option (ℤ × List α) :=
  if func then (travelLoop ll n (ll.links.next .dumb)).map (Prod.mk 0) else some (-1, [])

/-- A caller's walk over the nodes with `llist_get_next_nb`, of at most `n` turns. -/
def iterate (ll : LlistMem α) : ℕ → Option Addr → Option (List Addr)
  | 0, _ => none
  | _ + 1, none => some []
  | n + 1, some a => do
    let next ← llistGetNextUnlocked ll (some a)
    let rest ← iterate ll n next
    return a :: rest

/-- The nodes `l` are the ring around the dumb node, in this order. More may be allocated than
these, and `nr_nodes` may count more. -/
structure Linked (ll : LlistMem α) (l : List Addr) : Prop where
  ring : ll.links.Ring .dumb l
  live : ∀ k, .heap k ∈ l → ll.live k = true
  length_le : (l.length : ℤ) ≤ ll.nrNodes

/-- The nodes `l` make the list, in this order: they are the ring around the dumb node and all
that is allocated, and `nr_nodes` counts them. -/
structure Holds (ll : LlistMem α) (l : List Addr) : Prop where
  ring : ll.links.Ring .dumb l
  live_iff : ∀ k, ll.live k = true ↔ .heap k ∈ l
  length_eq : (l.length : ℤ) = ll.nrNodes
  le_volume : ll.nrNodes ≤ max ll.volume 0

/-- The list of elements that is held. -/
def elements (ll : LlistMem α) (l : List Addr) : Llist α where
  nrNodes := ll.nrNodes
  volume := ll.volume
  nodes := l.map ll.ptr

variable {ll : LlistMem α} {l : List Addr} {a : Addr}

theorem Holds.linked (h : Holds ll l) : Linked ll l :=
  ⟨h.ring, fun k => (h.live_iff k).mpr, h.length_eq.le⟩

theorem holds_new [Zero α] (max : ℤ) : Holds (llistNew max : LlistMem α) [] := by
  have hring : (llistNew max : LlistMem α).links.Ring .dumb [] :=
    ⟨List.nodup_cons.mpr ⟨List.not_mem_nil, List.nodup_nil⟩, Links.path_nil.mpr ⟨rfl, rfl⟩⟩
  refine ⟨hring, fun k => ?_, rfl, ?_⟩
  · exact iff_of_false Bool.false_ne_true List.not_mem_nil
  · exact le_max_right _ _

/-- The nodes of the list can be looked at. -/
theorem Linked.deref_eq (h : Linked ll l) {a : Addr} (ha : a ∈ Addr.dumb :: l) :
    deref ll (some a) = some a := by
  cases a with
  | dumb => rfl
  | heap k =>
    have hk : Addr.heap k ∈ l := (List.mem_cons.mp ha).resolve_left nofun
    exact if_pos (h.live k hk)

/-! ## Appending -/

/-- The memory with a node at `k` after the others. -/
def appended (ll : LlistMem α) (l : List Addr) (k : ℕ) (data : α) : LlistMem α where
  nrNodes := ll.nrNodes + 1
  volume := ll.volume
  live := Function.update ll.live k true
  links := ll.links.link .dumb ((Addr.dumb :: l).getLast (List.cons_ne_nil _ _)) (.heap k)
  ptr := Function.update ll.ptr (.heap k) data

theorem Linked.fresh (h : Linked ll l) {k : ℕ} (hk : ll.live k = false) :
    Addr.heap k ∉ Addr.dumb :: l := by
  intro hmem
  have hlive := h.live k ((List.mem_cons.mp hmem).resolve_left nofun)
  rw [hk] at hlive
  cases hlive

/-- The pointers of a new node. -/
def newNodeLinks (L : Links Addr) (k : ℕ) : Links Addr :=
  (L.setPrev (.heap k) none).setNext (.heap k) none

/-- The assignments to pointers in an append. -/
theorem link_newNode {L : Links Addr} {p : Addr} (hp : L.prev .dumb = some p) (k : ℕ) :
    (((((newNodeLinks L k).setPrev (.heap k) ((newNodeLinks L k).prev .dumb)).setNext
      (.heap k) (some .dumb)).setNext p (some (.heap k))).setPrev .dumb (some (.heap k)))
      = L.link .dumb p (.heap k) := by
  have hne : Addr.dumb ≠ Addr.heap k := nofun
  have hold : (newNodeLinks L k).prev .dumb = some p :=
    (Links.setPrev_prev_of_ne hne none).trans hp
  rw [hold]
  unfold newNodeLinks Links.link Links.setNext Links.setPrev
  dsimp only
  rw [Function.update_idem, Function.update_idem]

/-- What can be looked at can be looked at while a node is being made. -/
theorem Linked.deref_newNode {ll' : LlistMem α} {p : Addr} {k : ℕ} (h : Linked ll l)
    (hp : p ∈ Addr.dumb :: l) (hk : ll.live k = false)
    (hlive : ll'.live = Function.update ll.live k true) : deref ll' (some p) = some p := by
  cases p with
  | dumb => rfl
  | heap j =>
    have hj : ll.live j = true := h.live j ((List.mem_cons.mp hp).resolve_left nofun)
    have hjk : j ≠ k := fun heq => by
      rw [heq, hk] at hj
      cases hj
    show (if ll'.live j then some (Addr.heap j) else none) = some (Addr.heap j)
    rw [hlive, Function.update_of_ne hjk, if_pos hj]

/-- The assignments of an append put the node at the end. -/
theorem Linked.append_eq [Zero α] (h : Linked ll l) (hroom : ll.nrNodes < ll.volume) {k : ℕ}
    (hk : ll.live k = false) (data : α) :
    llistAppendUnlocked ll data (some k) = some (0, appended ll l k data) := by
  have hprev := h.ring.prev_sentinel
  have hmem : (Addr.dumb :: l).getLast (List.cons_ne_nil _ _) ∈ Addr.dumb :: l :=
    List.getLast_mem _
  unfold appended
  generalize (Addr.dumb :: l).getLast (List.cons_ne_nil _ _) = p at hprev hmem ⊢
  have hderef : ∀ ll' : LlistMem α, ll'.live = Function.update ll.live k true →
      deref ll' (some p) = some p := fun ll' => h.deref_newNode hmem hk
  -- the new node's own pointers do not change what is behind the dumb node
  have hlast : (((newNodeLinks ll.links k).setPrev (.heap k)
      ((newNodeLinks ll.links k).prev .dumb)).setNext (.heap k) (some .dumb)).prev .dumb
        = some p := hprev
  unfold llistAppendUnlocked llistNewNode
  rw [if_pos hroom, Option.map_some]
  dsimp only [setPtr, setPrev, setNext]
  rw [← link_newNode hprev k]
  unfold newNodeLinks at hlast ⊢
  rw [hlast, hderef _ rfl, Function.update_idem]
  rfl

theorem Linked.appended (h : Linked ll l) {k : ℕ} (hk : ll.live k = false) (data : α) :
    Linked (appended ll l k data) (l ++ [.heap k]) := by
  have hlen := h.length_le
  refine ⟨h.ring.link (h.fresh hk), fun j hj => ?_, ?_⟩
  · show Function.update ll.live k true j = true
    rcases List.mem_append.mp hj with hj | hj
    · by_cases hjk : j = k
      · rw [hjk, Function.update_self]
      · rw [Function.update_of_ne hjk]
        exact h.live j hj
    · obtain rfl := Addr.heap.inj (List.mem_singleton.mp hj)
      rw [Function.update_self]
  · show ((l ++ [Addr.heap k]).length : ℤ) ≤ ll.nrNodes + 1
    rw [List.length_append, List.length_singleton]
    push_cast
    omega

theorem Holds.appended (h : Holds ll l) (hroom : ll.nrNodes < ll.volume) {k : ℕ}
    (hk : ll.live k = false) (data : α) :
    Holds (appended ll l k data) (l ++ [.heap k]) := by
  have hlen := h.length_eq
  refine ⟨(h.linked.appended hk data).ring, fun j => ?_, ?_, ?_⟩
  · show Function.update ll.live k true j = true ↔ _
    rw [List.mem_append, List.mem_singleton, Addr.heap.injEq]
    by_cases hj : j = k
    · rw [hj, Function.update_self]
      exact iff_of_true rfl (.inr rfl)
    · rw [Function.update_of_ne hj, h.live_iff j]
      exact (or_iff_left hj).symm
  · show ((l ++ [Addr.heap k]).length : ℤ) = ll.nrNodes + 1
    rw [List.length_append, List.length_singleton]
    push_cast
    omega
  · show ll.nrNodes + 1 ≤ max ll.volume 0
    omega

theorem Linked.elements_appended (h : Linked ll l) {k : ℕ} (hk : ll.live k = false) (data : α) :
    (l ++ [Addr.heap k]).map (LlistHeap.appended ll l k data).ptr = l.map ll.ptr ++ [data] := by
  have hfresh := h.fresh hk
  rw [List.map_append, List.map_singleton]
  congr 1
  · refine List.map_congr_left fun a ha => ?_
    have hne : a ≠ Addr.heap k := fun heq => hfresh (heq ▸ List.mem_cons_of_mem _ ha)
    show Function.update ll.ptr (.heap k) data a = ll.ptr a
    rw [Function.update_of_ne hne]
  · show [Function.update ll.ptr (.heap k) data (.heap k)] = [data]
    rw [Function.update_self]

/-- The address that `malloc` answers with is free. -/
def Fresh (ll : LlistMem α) (malloc : Option ℕ) : Prop := ∀ k ∈ malloc, ll.live k = false

/-- An append puts its node at the end, or fails and changes nothing. -/
theorem Linked.append_cases [Zero α] (h : Linked ll l) (data : α) {malloc : Option ℕ}
    (hfresh : Fresh ll malloc) :
    (∃ k, malloc = some k ∧ ll.nrNodes < ll.volume ∧ ll.live k = false ∧
      llistAppendUnlocked ll data malloc = some (0, LlistHeap.appended ll l k data)) ∨
    ((ll.nrNodes < ll.volume → malloc = none) ∧
      llistAppendUnlocked ll data malloc = some (-1, ll)) := by
  by_cases hroom : ll.nrNodes < ll.volume
  · cases malloc with
    | none =>
      refine .inr ⟨fun _ => rfl, ?_⟩
      unfold llistAppendUnlocked
      rw [if_pos hroom]
      rfl
    | some k =>
      have hk := hfresh k rfl
      exact .inl ⟨k, rfl, hroom, hk, h.append_eq hroom hk data⟩
  · exact .inr ⟨fun h => absurd h hroom, if_neg hroom⟩

/-- **Appending** to the ring is appending to the list. -/
theorem append_refines [Zero α] (h : Holds ll l) (data : α) {malloc : Option ℕ}
    (hfresh : Fresh ll malloc) :
    ∃ r ll' l', llistAppendUnlocked ll data malloc = some (r, ll') ∧ Holds ll' l' ∧
      Dungeon.llistAppendUnlocked (elements ll l) data malloc.isSome = (r, elements ll' l') := by
  rcases h.linked.append_cases data hfresh with ⟨k, rfl, hroom, hk, heq⟩ | ⟨hfail, heq⟩
  · refine ⟨_, _, _, heq, h.appended hroom hk data, ?_⟩
    have hlist : (elements ll l).nrNodes < (elements ll l).volume := hroom
    rw [Option.isSome_some, Llist.appendUnlocked_of_room hlist]
    unfold elements
    rw [h.linked.elements_appended hk]
    rfl
  · refine ⟨_, _, _, heq, h, ?_⟩
    rcases Llist.appendUnlocked_cases (elements ll l) data malloc.isSome with
      ⟨hroom, hsome, -⟩ | ⟨-, habs⟩
    · rw [hfail hroom] at hsome
      cases hsome
    · exact habs

/-! ## The head -/

theorem Linked.nrNodes_pos (h : Linked ll l) (hl : l ≠ []) : ¬ ll.nrNodes ≤ 0 := by
  have hlen := h.length_le
  have hpos := List.length_pos_iff.mpr hl
  omega

/-- The dumb node points at the first node, which is not itself. -/
theorem Linked.next_dumb (h : Linked ll (a :: l)) :
    ll.links.next .dumb = some a ∧ a ≠ .dumb := by
  refine ⟨(Links.path_cons.mp h.ring.path).1.1, ?_⟩
  rintro rfl
  exact (List.nodup_cons.mp h.ring.nodup).1 List.mem_cons_self

/-- An empty list has nothing to give. -/
theorem Holds.head_nil (h : Holds ll []) :
    llistGetHeadUnlocked ll = some (.error (-1)) ∧
      llistGetHeadNodeUnlocked ll = .error (-1) ∧
      llistFetchHeadUnlocked ll = some (.error (-1)) := by
  have hnone : ll.nrNodes ≤ 0 := by
    have hlen := h.length_eq
    rw [List.length_nil] at hlen
    omega
  exact ⟨if_pos hnone, if_pos hnone, if_pos hnone⟩

theorem Linked.getHead_cons (h : Linked ll (a :: l)) :
    llistGetHeadUnlocked ll = some (.ok (ll.ptr a)) := by
  obtain ⟨hnext, hne⟩ := h.next_dumb
  unfold llistGetHeadUnlocked
  rw [if_neg (h.nrNodes_pos (List.cons_ne_nil _ _)), hnext, if_pos (by simpa using hne),
    h.deref_eq (List.mem_cons_of_mem _ List.mem_cons_self)]
  rfl

theorem Linked.getHeadNode_cons (h : Linked ll (a :: l)) :
    llistGetHeadNodeUnlocked ll = .ok (some a) := by
  obtain ⟨hnext, hne⟩ := h.next_dumb
  unfold llistGetHeadNodeUnlocked
  rw [if_neg (h.nrNodes_pos (List.cons_ne_nil _ _)), hnext, if_pos (by simpa using hne)]

/-- The memory without its first node, at `k`. -/
def fetched (ll : LlistMem α) (l : List Addr) (k : ℕ) : LlistMem α where
  nrNodes := ll.nrNodes - 1
  volume := ll.volume
  live := Function.update ll.live k false
  links := ll.links.unlink .dumb (.heap k) ((l ++ [Addr.dumb]).head (by simp))
  ptr := ll.ptr

/-- The assignments of a fetch take the first node out. -/
theorem Linked.fetchHead_cons {k : ℕ} (h : Linked ll (.heap k :: l)) :
    llistFetchHeadUnlocked ll = some (.ok (ll.ptr (.heap k), fetched ll l k)) := by
  obtain ⟨hnext, hne⟩ := h.next_dumb
  have hsecond : ll.links.next (.heap k) = some ((l ++ [Addr.dumb]).head (by simp)) :=
    (Links.path_cons.mp h.ring.path).2.next_eq
  have hderef : deref ll (some ((l ++ [Addr.dumb]).head (by simp)))
      = some ((l ++ [Addr.dumb]).head (by simp)) := by
    refine h.deref_eq ?_
    cases l with
    | nil => exact List.mem_cons_self
    | cons b l => exact List.mem_cons_of_mem _ (List.mem_cons_of_mem _ List.mem_cons_self)
  unfold fetched
  generalize (l ++ [Addr.dumb]).head (by simp) = c at hsecond hderef ⊢
  unfold llistFetchHeadUnlocked
  rw [if_neg (h.nrNodes_pos (List.cons_ne_nil _ _)), hnext, if_pos (by simp),
    h.deref_eq (List.mem_cons_of_mem _ List.mem_cons_self)]
  show (deref ll (ll.links.next (.heap k))).bind _ = _
  rw [hsecond, hderef]
  rfl

theorem Linked.fetched {k : ℕ} (h : Linked ll (.heap k :: l)) : Linked (fetched ll l k) l := by
  have hlen := h.length_le
  have hk := (List.nodup_cons.mp (List.nodup_cons.mp h.ring.nodup).2).1
  rw [List.length_cons] at hlen
  refine ⟨h.ring.unlink, fun j hj => ?_, ?_⟩
  · have hjk : j ≠ k := fun heq => hk (heq ▸ hj)
    show Function.update ll.live k false j = true
    rw [Function.update_of_ne hjk]
    exact h.live j (List.mem_cons_of_mem _ hj)
  · show (l.length : ℤ) ≤ ll.nrNodes - 1
    omega

theorem Holds.fetched {k : ℕ} (h : Holds ll (.heap k :: l)) : Holds (fetched ll l k) l := by
  have hlen := h.length_eq
  have hle := h.le_volume
  have hk := (List.nodup_cons.mp (List.nodup_cons.mp h.ring.nodup).2).1
  rw [List.length_cons] at hlen
  refine ⟨h.linked.fetched.ring, fun j => ?_, ?_, ?_⟩
  · show Function.update ll.live k false j = true ↔ _
    by_cases hj : j = k
    · rw [hj, Function.update_self]
      exact iff_of_false Bool.false_ne_true hk
    · rw [Function.update_of_ne hj, h.live_iff j, List.mem_cons, Addr.heap.injEq]
      exact or_iff_right hj
  · show (l.length : ℤ) = ll.nrNodes - 1
    omega
  · show ll.nrNodes - 1 ≤ max ll.volume 0
    omega

/-- The nodes of the list come from `malloc`. -/
theorem Linked.heap_of_mem (h : Linked ll l) (ha : a ∈ l) : ∃ k, a = .heap k := by
  cases a with
  | dumb => exact absurd ha (List.nodup_cons.mp h.ring.nodup).1
  | heap k => exact ⟨k, rfl⟩

/-- **Looking at the head** of the ring is looking at the head of the list. -/
theorem getHead_refines (h : Holds ll l) :
    llistGetHeadUnlocked ll = some (Dungeon.llistGetHeadUnlocked (elements ll l)) := by
  cases l with
  | nil => rw [h.head_nil.1, Llist.getHeadUnlocked_nil rfl]
  | cons a l =>
    have hpos : 0 < (elements ll (a :: l)).nrNodes :=
      not_le.mp (h.linked.nrNodes_pos (List.cons_ne_nil _ _))
    rw [h.linked.getHead_cons, Llist.getHeadUnlocked_cons hpos rfl]

/-- **Fetching the head** of the ring is fetching the head of the list. -/
theorem fetchHead_refines (h : Holds ll l) :
    (llistFetchHeadUnlocked ll = some (.error (-1)) ∧
      Dungeon.llistFetchHeadUnlocked (elements ll l) = .error (-1)) ∨
    ∃ data ll' l', llistFetchHeadUnlocked ll = some (.ok (data, ll')) ∧ Holds ll' l' ∧
      Dungeon.llistFetchHeadUnlocked (elements ll l) = .ok (data, elements ll' l') := by
  cases l with
  | nil => exact .inl ⟨h.head_nil.2.2, Llist.fetchHeadUnlocked_nil rfl⟩
  | cons a l =>
    obtain ⟨k, rfl⟩ := h.linked.heap_of_mem List.mem_cons_self
    have hpos : 0 < (elements ll (.heap k :: l)).nrNodes :=
      not_le.mp (h.linked.nrNodes_pos (List.cons_ne_nil _ _))
    exact .inr ⟨_, _, _, h.linked.fetchHead_cons, h.fetched, Llist.fetchHeadUnlocked_cons hpos rfl⟩

/-! ## Walks -/

/-- `llist_get_next_nb` names the node that follows, if one does. -/
theorem Holds.getNext {pre : List Addr} (h : Holds ll (pre ++ a :: l)) :
    llistGetNextUnlocked ll (some a) = some l.head? := by
  have hpath := (Links.path_append.mp h.ring.path).2
  have hderef : deref ll (some a) = some a := h.linked.deref_eq (by simp)
  unfold llistGetNextUnlocked
  rw [hderef]
  show (if ll.links.next a = some .dumb then some none else some (ll.links.next a)) = _
  cases l with
  | nil => rw [if_pos (Links.path_nil.mp hpath).1, List.head?_nil]
  | cons b l =>
    have hb : b ≠ .dumb := by
      rintro rfl
      exact (List.nodup_cons.mp h.ring.nodup).1 (by simp)
    rw [(Links.path_cons.mp hpath).1.1, if_neg (by simpa using hb), List.head?_cons]

/-- **Iterating** over the nodes yields each of them once, in order. -/
theorem Holds.iterate (h : Holds ll l) {n : ℕ} (hn : l.length < n) :
    iterate ll n l.head? = some l := by
  have hwalk : ∀ pre rest, l = pre ++ rest → ∀ n, rest.length < n →
      LlistHeap.iterate ll n rest.head? = some rest := by
    intro pre rest hl n hn
    -- the nodes before the current one have been met
    induction rest generalizing pre n with
    | nil =>
      obtain ⟨n, rfl⟩ := Nat.exists_eq_succ_of_ne_zero (Nat.ne_of_gt hn)
      rfl
    | cons a rest ih =>
      obtain ⟨n, rfl⟩ := Nat.exists_eq_succ_of_ne_zero (Nat.ne_of_gt (Nat.zero_lt_of_lt hn))
      rw [hl] at h
      have hrest := ih (pre ++ [a]) (by rw [hl, List.append_assoc]; rfl) n
        (Nat.lt_of_succ_lt_succ hn)
      rw [List.head?_cons, LlistHeap.iterate, h.getNext]
      show (LlistHeap.iterate ll n rest.head?).bind _ = _
      rw [hrest]
      rfl
  exact hwalk [] l rfl n hn

/-- The loop of `llist_travel` along a path of nodes that can be looked at. -/
theorem travelLoop_path [Zero α] [DecidableEq α]
    (hlive : ∀ b ∈ l, b ≠ .dumb ∧ deref ll (some b) = some b) (hpath : ll.links.Path a l .dumb)
    {n : ℕ} (hn : l.length < n) :
    travelLoop ll n (ll.links.next a) = some ((l.map ll.ptr).filter (· ≠ 0)) := by
  induction l generalizing a n with
  | nil =>
    obtain ⟨n, rfl⟩ := Nat.exists_eq_succ_of_ne_zero (Nat.ne_of_gt hn)
    rw [(Links.path_nil.mp hpath).1]
    exact if_pos rfl
  | cons b l ih =>
    obtain ⟨n, rfl⟩ := Nat.exists_eq_succ_of_ne_zero (Nat.ne_of_gt (Nat.zero_lt_of_lt hn))
    obtain ⟨hjoined, hrest⟩ := Links.path_cons.mp hpath
    obtain ⟨hb, hderef⟩ := hlive b List.mem_cons_self
    have hloop := ih (fun c hc => hlive c (List.mem_cons_of_mem _ hc)) hrest
      (Nat.lt_of_succ_lt_succ hn)
    rw [hjoined.1, travelLoop, if_neg (by simpa using hb), hderef]
    show (travelLoop ll n (ll.links.next b)).bind _ = _
    rw [hloop, List.map_cons, List.filter_cons]
    show some (if ll.ptr b ≠ 0 then _ else _) = _
    by_cases hzero : ll.ptr b = 0
    · rw [if_neg (not_not.mpr hzero), if_neg (by simpa using hzero)]
    · rw [if_pos hzero, if_pos (by simpa using hzero)]

/-- **Travelling** calls the function on the elements that are not zero, in order. -/
theorem Holds.travel [Zero α] [DecidableEq α] (h : Holds ll l) {n : ℕ} (hn : l.length < n) :
    llistTravel ll n true = some (0, (l.map ll.ptr).filter (· ≠ 0)) := by
  have hlive : ∀ b ∈ l, b ≠ .dumb ∧ deref ll (some b) = some b := by
    intro b hb
    refine ⟨?_, h.linked.deref_eq (List.mem_cons_of_mem _ hb)⟩
    rintro rfl
    exact (List.nodup_cons.mp h.ring.nodup).1 hb
  unfold llistTravel
  rw [if_pos rfl, travelLoop_path hlive h.ring.path hn]
  rfl

/-! ## All call sequences of one thread -/

/-- A call. The first of each pair waits until it is enabled; nobody else has the lock. -/
inductive LlistCall (α : Type) where
  | append (data : α) (malloc : Option ℕ)
  | appendNb (data : α) (malloc : Option ℕ)
  | getHead
  | getHeadNb
  | getHeadNodeNb
  | getNextNb (k : ℕ)
  | fetchHead
  | fetchHeadNb
  | travel (func : Bool)

/-- A list, with what has been put into it and what has been taken out. -/
structure Recorded (α : Type) where
  ll : LlistMem α
  appended : List α
  fetched : List α

/-- The call does not wait, `malloc` answers with a free address, and a node that is named is
one of the list. -/
def LlistCall.Enabled (ll : LlistMem α) : LlistCall α → Prop
  | .append _ malloc => ll.nrNodes < ll.volume ∧ Fresh ll malloc
  | .appendNb _ malloc => Fresh ll malloc
  | .getHead | .fetchHead => 0 < ll.nrNodes
  | .getNextNb k => ll.live k = true
  | .getHeadNb | .getHeadNodeNb | .fetchHeadNb | .travel _ => True

instance (ll : LlistMem α) (malloc : Option ℕ) : Decidable (Fresh ll malloc) :=
  inferInstanceAs (Decidable (∀ k ∈ malloc, ll.live k = false))

instance (ll : LlistMem α) : (c : LlistCall α) → Decidable (c.Enabled ll)
  | .append _ _ => inferInstanceAs (Decidable (_ ∧ Fresh _ _))
  | .appendNb _ _ => inferInstanceAs (Decidable (Fresh _ _))
  | .getHead | .fetchHead => inferInstanceAs (Decidable (0 < _))
  | .getNextNb _ => inferInstanceAs (Decidable (_ = true))
  | .getHeadNb | .getHeadNodeNb | .fetchHeadNb | .travel _ => isTrue trivial

/-- What an append leaves. -/
def Recorded.append (s : Recorded α) (data : α) (r : ℤ × LlistMem α) : Recorded α :=
  if r.1 = 0 then { s with ll := r.2, appended := s.appended ++ [data] } else { s with ll := r.2 }

/-- What a fetch leaves. -/
def Recorded.fetch (s : Recorded α) : Except ℤ (α × LlistMem α) → Recorded α
  | .ok r => { s with ll := r.2, fetched := s.fetched ++ [r.1] }
  | .error _ => s

/-- What a call leaves, unless it faults. -/
def LlistCall.run [Zero α] [DecidableEq α] (s : Recorded α) : LlistCall α → Option (Recorded α)
  | .append data malloc | .appendNb data malloc =>
    (llistAppendUnlocked s.ll data malloc).map (s.append data)
  | .getHead | .getHeadNb => (llistGetHeadUnlocked s.ll).map fun _ => s
  | .getHeadNodeNb => some s
  | .getNextNb k => (llistGetNextUnlocked s.ll (some (.heap k))).map fun _ => s
  | .fetchHead | .fetchHeadNb => (llistFetchHeadUnlocked s.ll).map s.fetch
  | .travel func => (llistTravel s.ll (s.ll.nrNodes.toNat + 1) func).map fun _ => s

/-- The call sequences on a list made by `llist_new`. -/
def llistRuns (α : Type) [Zero α] [DecidableEq α] : Machine (Recorded α) (LlistCall α) where
  init s := ∃ max : ℤ, s = ⟨llistNew max, [], []⟩
  step s c := if c.Enabled s.ll then c.run s else none

/-- The list is held by some nodes, and has what was put into it and not taken out yet. -/
def Intact (s : Recorded α) (l : List Addr) : Prop :=
  Holds s.ll l ∧ s.appended = s.fetched ++ l.map s.ll.ptr

section Run

variable {s s' : Recorded α}

theorem Intact.append [Zero α] (h : Intact s l) (data : α) {malloc : Option ℕ}
    (hfresh : Fresh s.ll malloc) :
    ∃ s' l', (llistAppendUnlocked s.ll data malloc).map (s.append data) = some s' ∧
      Intact s' l' := by
  obtain ⟨hh, hcontent⟩ := h
  rcases hh.linked.append_cases data hfresh with ⟨k, rfl, hroom, hk, heq⟩ | ⟨-, heq⟩ <;> rw [heq]
  · refine ⟨_, _, rfl, hh.appended hroom hk data, ?_⟩
    show s.appended ++ [data] = s.fetched ++ _
    rw [hcontent, List.append_assoc]
    exact congrArg _ (hh.linked.elements_appended hk data).symm
  · exact ⟨_, l, rfl, hh, hcontent⟩

theorem Intact.fetch (h : Intact s l) :
    ∃ s' l', (llistFetchHeadUnlocked s.ll).map s.fetch = some s' ∧ Intact s' l' := by
  obtain ⟨hh, hcontent⟩ := h
  cases l with
  | nil =>
    rw [hh.head_nil.2.2]
    exact ⟨s, [], rfl, hh, hcontent⟩
  | cons a l =>
    obtain ⟨k, rfl⟩ := hh.linked.heap_of_mem List.mem_cons_self
    rw [hh.linked.fetchHead_cons]
    refine ⟨_, l, rfl, hh.fetched, ?_⟩
    show s.appended = s.fetched ++ [s.ll.ptr (.heap k)] ++ l.map s.ll.ptr
    rw [hcontent, List.append_assoc]
    rfl

variable [Zero α] [DecidableEq α]

/-- **No call faults**, and every call keeps the list intact. -/
theorem Intact.run (h : Intact s l) {c : LlistCall α} (hc : c.Enabled s.ll) :
    ∃ s' l', c.run s = some s' ∧ Intact s' l' := by
  have hlen := h.1.length_eq
  cases c with
  | append data malloc => exact h.append data hc.2
  | appendNb data malloc => exact h.append data hc
  | fetchHead | fetchHeadNb => exact h.fetch
  | getHead | getHeadNb =>
    refine ⟨s, l, ?_, h⟩
    show (llistGetHeadUnlocked s.ll).map _ = some s
    rw [getHead_refines h.1]
    rfl
  | getHeadNodeNb => exact ⟨s, l, rfl, h⟩
  | getNextNb k =>
    obtain ⟨pre, post, rfl⟩ := List.append_of_mem ((h.1.live_iff k).mp hc)
    refine ⟨s, _, ?_, h⟩
    show (llistGetNextUnlocked s.ll (some (.heap k))).map _ = some s
    rw [h.1.getNext]
    rfl
  | travel func =>
    refine ⟨s, l, ?_, h⟩
    show (llistTravel s.ll (s.ll.nrNodes.toNat + 1) func).map _ = some s
    cases func with
    | false => rfl
    | true =>
      rw [h.1.travel (by omega)]
      rfl

theorem llistRuns_intact (h : (llistRuns α).Reach Machine.Always s) : ∃ l, Intact s l := by
  refine h.invariant (I := fun s => ∃ l, Intact s l) ?_ ?_
  · rintro s ⟨max, rfl⟩
    exact ⟨[], holds_new max, rfl⟩
  · rintro s c s' - ⟨l, hl⟩ - hstep
    obtain ⟨hc, hrun⟩ := Option.ite_none_right_eq_some.mp hstep
    obtain ⟨t, l', ht, hl'⟩ := hl.run hc
    obtain rfl := Option.some.inj (hrun.symm.trans ht)
    exact ⟨l', hl'⟩

/-- What the calls return and do, for a list of the nodes `l`. -/
structure Fifo (ll : LlistMem α) (l : List Addr) : Prop where
  append_room : ll.nrNodes < ll.volume → ∀ data k, ll.live k = false → ∃ ll',
    llistAppendUnlocked ll data (some k) = some (0, ll') ∧ ll'.links.Ring .dumb (l ++ [.heap k]) ∧
    (l ++ [Addr.heap k]).map ll'.ptr = l.map ll.ptr ++ [data] ∧ ll'.volume = ll.volume
  append_full : ll.volume ≤ ll.nrNodes → ∀ data malloc,
    llistAppendUnlocked ll data malloc = some (-1, ll)
  append_refused : ∀ data, llistAppendUnlocked ll data none = some (-1, ll)
  getHead : llistGetHeadUnlocked ll
    = some (match l.map ll.ptr with
      | [] => .error (-1)
      | data :: _ => .ok data)
  getHeadNode : (llistGetHeadNodeUnlocked ll).toOption = l.head?.map some
  getNext : ∀ pre a rest, l = pre ++ a :: rest →
    llistGetNextUnlocked ll (some a) = some rest.head?
  fetch_nil : l = [] → llistFetchHeadUnlocked ll = some (.error (-1))
  fetch_cons : ∀ a rest, l = a :: rest → ∃ ll',
    llistFetchHeadUnlocked ll = some (.ok (ll.ptr a, ll')) ∧ ll'.links.Ring .dumb rest ∧
    rest.map ll'.ptr = rest.map ll.ptr ∧ ll'.volume = ll.volume
  iterate : ∀ n, l.length < n → LlistHeap.iterate ll n l.head? = some l
  travel : ∀ n, l.length < n → llistTravel ll n true = some (0, (l.map ll.ptr).filter (· ≠ 0))

theorem Holds.fifo (h : Holds ll l) : Fifo ll l where
  append_room hroom data k hk :=
    ⟨_, h.linked.append_eq hroom hk data, (h.appended hroom hk data).ring,
      h.linked.elements_appended hk data, rfl⟩
  append_full hfull data malloc := if_neg (not_lt.mpr hfull)
  append_refused data := by
    unfold llistAppendUnlocked
    split <;> rfl
  getHead := by
    cases l with
    | nil => exact h.head_nil.1
    | cons a l => exact h.linked.getHead_cons
  getHeadNode := by
    cases l with
    | nil =>
      rw [h.head_nil.2.1]
      rfl
    | cons a l =>
      rw [h.linked.getHeadNode_cons]
      rfl
  getNext := by
    rintro pre a rest rfl
    exact h.getNext
  fetch_nil := by
    rintro rfl
    exact h.head_nil.2.2
  fetch_cons := by
    rintro a rest rfl
    obtain ⟨k, rfl⟩ := h.linked.heap_of_mem List.mem_cons_self
    exact ⟨_, h.linked.fetchHead_cons, h.fetched.ring, rfl, rfl⟩
  iterate n hn := h.iterate hn
  travel n hn := h.travel hn

/-- **The linked list is a bounded FIFO with an intact ring.** After any calls, on a list of any
volume, there are nodes `l` such that walking along `next` from the dumb node meets exactly
these and comes back, and `prev` undoes each step; they are `nr_nodes` many, no more than the
volume, and have what was appended and not fetched yet, oldest first. An append is refused just
when the list is full, or when there is no memory, and then changes nothing; the head is the
oldest element; both walks meet every element. No enabled call faults. -/
theorem llist_fifo (h : (llistRuns α).Reach Machine.Always s) :
    ∃ l : List Addr, s.ll.links.Ring .dumb l ∧
      (∀ n, l.length < n → s.ll.links.follow .dumb n (s.ll.links.next .dumb) = some l) ∧
      (l.length : ℤ) = s.ll.nrNodes ∧ s.ll.nrNodes ≤ max s.ll.volume 0 ∧
      s.appended = s.fetched ++ l.map s.ll.ptr ∧ Fifo s.ll l ∧
      ∀ c : LlistCall α, c.Enabled s.ll → ∃ s', (llistRuns α).step s c = some s' := by
  obtain ⟨l, hl⟩ := llistRuns_intact h
  refine ⟨l, hl.1.ring, fun n hn => hl.1.ring.follow hn, hl.1.length_eq, hl.1.le_volume, hl.2,
    hl.1.fifo, fun c hc => ?_⟩
  obtain ⟨s', -, hrun, -⟩ := hl.run hc
  exact ⟨s', (if_pos hc).trans hrun⟩

end Run

/-- Two elements through a list of volume one: the second append is refused at first. -/
theorem llist_fifo_secondRefused :
    ∃ s : Recorded ℤ, (llistRuns ℤ).Reach Machine.Always s ∧ s.appended = [5, 7] ∧
      s.fetched = [5] ∧ ∃ l : List Addr, l.map s.ll.ptr = [7] := by
  obtain ⟨s, hreach, hs⟩ := Machine.exec_reach (M := llistRuns ℤ)
    (show (llistRuns ℤ).init ⟨llistNew 1, [], []⟩ from ⟨1, rfl⟩)
    (show ((llistRuns ℤ).exec Machine.Always ⟨llistNew 1, [], []⟩
      [.append 5 (some 0), .appendNb 6 (some 1), .getNextNb 0, .fetchHead, .append 7 (some 0),
        .travel true]).map
      (fun s => decide (s.appended = [5, 7] ∧ s.fetched = [5])) = some true by decide +kernel)
  obtain ⟨happended, hfetched⟩ := of_decide_eq_true hs
  obtain ⟨l, -, -, -, -, hcontent, -⟩ := llist_fifo hreach
  refine ⟨s, hreach, happended, hfetched, l, ?_⟩
  rw [happended, hfetched] at hcontent
  have htail : [7] = l.map s.ll.ptr := by
    simpa only [List.singleton_append, List.cons.injEq, true_and] using hcontent
  exact htail.symm

end LlistHeap

end Dungeon

import Dungeon.Cjson
import Dungeon.Mixed

/-!
# Dumping a hash table (`hasht_info_cjson`)

A report on a table as a JSON tree, whose buckets list their nodes. What an item looks like is
left to a callback, which may have a state of its own.

- `HashStats`: the statistics of a table, which nothing but the dump reads.
- `hashtInfoCjson`: the dump. A free slot is handed to the callback as `none`, for `NULL`.
- `logged`: a callback that notes what it is called with.
- `dumpCalls_eq`: the calls of a dump, bucket by bucket; `dump_entries`: it has as many entries
  as the table has items.
- `dump_lists_iff`: each item is listed once, and no free slot is, just when the items of every
  bucket stand in its first slots.
-/

namespace Dungeon

variable {P σ : Type}

/-- The counters of `struct hasht_st` and, by bucket and slot, of `struct node_st`. -/
structure HashStats where
  lookupCount : ℤ
  hitCount : ℤ
  nodeUpdateCount : ℕ → ℕ → ℤ
  nodeLookupCount : ℕ → ℕ → ℤ

/-- The object for slot `j` of bucket `i`. Adding `NULL` to an object does nothing. -/
def infoNode (stats : HashStats) (contentSerialize : Option (Option P → StateM σ (Option Json)))
    (i j : ℕ) (value : Option P) : StateM σ Json := do
  let counts := [("UpdateCount", Json.number (stats.nodeUpdateCount i j)),
    ("LookupCount", Json.number (stats.nodeLookupCount i j))]
  match contentSerialize with
  | some f =>
    let content ← f value
    pure (.object (counts ++ (content.map (Prod.mk "Content")).toList))
  | none => pure (.object (counts ++ [("Content", .string "content_serializer not defined!")]))

/-- The object for bucket `i`: its nodes are the slots from the first on, `nr_nodes` of them. -/
def infoBucket (h : Hasht P) (stats : HashStats)
    (contentSerialize : Option (Option P → StateM σ (Option Json))) (i : ℕ) : StateM σ Json := do
  let b := h.bucket i
  let nodes ← (List.range b.nrNodes.toNat).mapM fun j =>
    infoNode stats contentSerialize i j (b.node[j]?.join.map HashNode.value)
  pure (.object [("BucketSize", .number b.node.length), ("NumOfNodes", .number b.nrNodes),
    ("Nodes", .array nodes)])

/-- `hasht_info_cjson`. -/
def hashtInfoCjson (h : Hasht P) (stats : HashStats)
    (contentSerialize : Option (Option P → StateM σ (Option Json))) : StateM σ Json := do
  let buckets ← ((List.range h.nrBuckets).filter fun i => (h.bucket i).nrNodes > 0).mapM
    (infoBucket h stats contentSerialize)
  pure (.object [("Volume", .number h.volume), ("Used", .number h.nrNodes),
    ("Rate", .number (h.nrNodes.tdiv h.volume)), ("LookupCount", .number stats.lookupCount),
    ("LookupHit", .number stats.hitCount), ("Buckets", .array buckets)])

/-! ## Entries and calls -/

/-- The items of an array that an object has under a name. -/
def itemsUnder (name : String) (j : Json) : List Json :=
  match cjsonGetObjectItem j name with
  | some (.array items) => items
  | _ => []

/-- The entries of all `Nodes` arrays of a dump. -/
def nodesEntries (j : Json) : List Json := (itemsUnder "Buckets" j).flatMap (itemsUnder "Nodes")

/-- A callback that notes its arguments. -/
def logged (f : Option P → StateM σ (Option Json)) (value : Option P) :
    StateM (σ × List (Option P)) (Option Json) :=
  fun s => let r := (f value).run s.1; (r.1, (r.2, s.2 ++ [value]))

/-- What the callback is called with, in order. -/
def dumpCalls (h : Hasht P) (stats : HashStats) (f : Option P → StateM σ (Option Json)) (s : σ) :
    List (Option P) :=
  ((hashtInfoCjson h stats (some (logged f))).run (s, [])).2.2

section Traversal

variable {α β γ : Type}

theorem run_mapM_cons (g : α → StateM σ β) (a : α) (l : List α) (s : σ) :
    ((a :: l).mapM g).run s = (((g a).run s).1 :: ((l.mapM g).run ((g a).run s).2).1,
      ((l.mapM g).run ((g a).run s).2).2) := by
  rw [List.mapM_cons]
  rfl

/-- What a traversal notes, when each step notes what it should. -/
theorem mapM_log {g : α → StateM (σ × List γ) β} {c : α → List γ} {l : List α}
    (hg : ∀ a ∈ l, ∀ s, ((g a).run s).2.2 = s.2 ++ c a) (s : σ × List γ) :
    ((l.mapM g).run s).2.2 = s.2 ++ l.flatMap c := by
  induction l generalizing s with
  | nil =>
    rw [List.flatMap_nil, List.append_nil]
    rfl
  | cons a l ih =>
    rw [run_mapM_cons, List.flatMap_cons, ← List.append_assoc, ← hg a List.mem_cons_self s]
    exact ih (fun b hb => hg b (List.mem_cons_of_mem a hb)) _

/-- The size of what a traversal returns, when each step returns as much as it should. -/
theorem mapM_flatMap_length {g : α → StateM σ β} {out : β → List β} {c : α → List γ} {l : List α}
    (hg : ∀ a ∈ l, ∀ s, (out ((g a).run s).1).length = (c a).length) (s : σ) :
    (((l.mapM g).run s).1.flatMap out).length = (l.flatMap c).length := by
  induction l generalizing s with
  | nil => rfl
  | cons a l ih =>
    rw [run_mapM_cons, List.flatMap_cons, List.flatMap_cons, List.length_append,
      List.length_append, hg a List.mem_cons_self s]
    congr 1
    exact ih (fun b hb => hg b (List.mem_cons_of_mem a hb)) _

theorem mapM_length (g : α → StateM σ β) (l : List α) (s : σ) :
    ((l.mapM g).run s).1.length = l.length := by
  induction l generalizing s with
  | nil => rfl
  | cons a l ih => rw [run_mapM_cons, List.length_cons, List.length_cons, ih]

theorem coe_flatMap_range (c : ℕ → List γ) (n : ℕ) :
    (((List.range n).flatMap c : List γ) : Multiset γ)
      = ∑ i ∈ Finset.range n, (c i : Multiset γ) := by
  induction n with
  | zero => rfl
  | succ n ih =>
    rw [List.range_succ, List.flatMap_append, List.flatMap_singleton, ← Multiset.coe_add, ih,
      Finset.sum_range_succ]

/-- Elements that yield nothing may be left out. -/
theorem flatMap_filter_of_nil {p : α → Bool} {c : α → List γ} {l : List α}
    (hc : ∀ a ∈ l, p a = false → c a = []) : (l.filter p).flatMap c = l.flatMap c := by
  induction l with
  | nil => rfl
  | cons a l ih =>
    have hrest := ih fun b hb => hc b (List.mem_cons_of_mem a hb)
    cases hp : p a with
    | true => rw [List.filter_cons_of_pos hp, List.flatMap_cons, List.flatMap_cons, hrest]
    | false =>
      rw [List.filter_cons_of_neg (Bool.not_eq_true _ ▸ hp), List.flatMap_cons,
        hc a List.mem_cons_self hp, List.nil_append, hrest]

end Traversal

/-- The slots of bucket `i` that are dumped, as the callback sees them. -/
def dumpedSlots (h : Hasht P) (i : ℕ) : List (Option P) :=
  ((h.bucket i).node.take (h.bucket i).nrNodes.toNat).map (Option.map HashNode.value)

section Calls

variable {h : Hasht P} (stats : HashStats) (f : Option P → StateM σ (Option Json))

theorem infoNode_calls (i j : ℕ) (value : Option P) (s : σ × List (Option P)) :
    ((infoNode stats (some (logged f)) i j value).run s).2.2 = s.2 ++ [value] := rfl

theorem Hasht.Counted.toNat_nrNodes (hc : h.Counted) {i : ℕ} (hi : i < h.nrBuckets) :
    (h.bucket i).nrNodes.toNat = (h.nodes i).length ∧
      (h.bucket i).nrNodes.toNat ≤ (h.bucket i).node.length := by
  have hlen : (h.nodes i).length ≤ (h.bucket i).node.length := List.reduceOption_length_le _
  rw [hc.bucket_count i hi, Int.toNat_natCast]
  exact ⟨rfl, hlen⟩

theorem infoBucket_calls (hc : h.Counted) {i : ℕ} (hi : i < h.nrBuckets)
    (s : σ × List (Option P)) :
    ((infoBucket h stats (some (logged f)) i).run s).2.2 = s.2 ++ dumpedSlots h i := by
  have hlog := mapM_log (l := List.range (h.bucket i).nrNodes.toNat)
    (fun j _ s => infoNode_calls stats f i j ((h.bucket i).node[j]?.join.map HashNode.value) s) s
  refine hlog.trans ?_
  congr 1
  -- slot by slot
  unfold dumpedSlots
  obtain ⟨-, hle⟩ := hc.toNat_nrNodes hi
  rw [← List.map_eq_flatMap]
  refine List.ext_getElem ?_ fun j hj hj' => ?_
  · rw [List.length_map, List.length_range, List.length_map, List.length_take, Nat.min_eq_left hle]
  · rw [List.length_map, List.length_range] at hj
    rw [List.getElem_map, List.getElem_map, List.getElem_range, List.getElem_take,
      List.getElem?_eq_getElem (hj.trans_le hle)]
    rfl

/-- The buckets a dump passes over have no slots to dump. -/
theorem dumpedSlots_filter (h : Hasht P) :
    ((List.range h.nrBuckets).filter fun i => (h.bucket i).nrNodes > 0).flatMap (dumpedSlots h)
      = (List.range h.nrBuckets).flatMap (dumpedSlots h) := by
  refine flatMap_filter_of_nil fun i _ hi => ?_
  have hnone : (h.bucket i).nrNodes.toNat = 0 := by
    have hle := of_decide_eq_false hi
    omega
  unfold dumpedSlots
  rw [hnone, List.take_zero, List.map_nil]

/-- **The calls of a dump**: for every bucket its first slots, as many as it has items. -/
theorem dumpCalls_eq (hc : h.Counted) (s : σ) :
    dumpCalls h stats f s = (List.range h.nrBuckets).flatMap (dumpedSlots h) := by
  have hlog := mapM_log (l := (List.range h.nrBuckets).filter fun i => (h.bucket i).nrNodes > 0)
    (fun i hi s => infoBucket_calls stats f hc (List.mem_range.mp (List.mem_of_mem_filter hi)) s)
    (s, [])
  exact hlog.trans (dumpedSlots_filter h)

theorem itemsUnder_nodes (size n : Json) (nodes : List Json) :
    itemsUnder "Nodes" (.object [("BucketSize", size), ("NumOfNodes", n), ("Nodes", .array nodes)])
      = nodes := by
  have h₁ : sameName "BucketSize" "Nodes" = false := by decide
  have h₂ : sameName "NumOfNodes" "Nodes" = false := by decide
  have h₃ : sameName "Nodes" "Nodes" = true := by decide
  unfold itemsUnder cjsonGetObjectItem
  simp only [List.find?_cons, h₁, h₂, h₃, Option.map_some]

theorem itemsUnder_buckets (volume used rate lookups hits : Json) (buckets : List Json) :
    itemsUnder "Buckets" (.object [("Volume", volume), ("Used", used), ("Rate", rate),
      ("LookupCount", lookups), ("LookupHit", hits), ("Buckets", .array buckets)]) = buckets := by
  have h₁ : sameName "Volume" "Buckets" = false := by decide
  have h₂ : sameName "Used" "Buckets" = false := by decide
  have h₃ : sameName "Rate" "Buckets" = false := by decide
  have h₄ : sameName "LookupCount" "Buckets" = false := by decide
  have h₅ : sameName "LookupHit" "Buckets" = false := by decide
  have h₆ : sameName "Buckets" "Buckets" = true := by decide
  unfold itemsUnder cjsonGetObjectItem
  simp only [List.find?_cons, h₁, h₂, h₃, h₄, h₅, h₆, Option.map_some]

theorem length_dumpedSlots (hc : h.Counted) {i : ℕ} (hi : i < h.nrBuckets) :
    (dumpedSlots h i).length = (h.bucket i).nrNodes.toNat := by
  unfold dumpedSlots
  rw [List.length_map, List.length_take, Nat.min_eq_left (hc.toNat_nrNodes hi).2]

/-- The first slots of the buckets are as many as the items. -/
theorem Hasht.Counted.length_dumped (hc : h.Counted) :
    ((List.range h.nrBuckets).flatMap (dumpedSlots h)).length = h.items.card := by
  rw [← Multiset.coe_card, coe_flatMap_range, Hasht.items, Multiset.card_sum, Multiset.card_sum]
  refine Finset.sum_congr rfl fun i hi => ?_
  rw [Multiset.coe_card, length_dumpedSlots hc (Finset.mem_range.mp hi),
    (hc.toNat_nrNodes (Finset.mem_range.mp hi)).1, Hasht.bucketItems_card]
  rfl

theorem infoBucket_entries (hc : h.Counted) (cs : Option (Option P → StateM σ (Option Json)))
    {i : ℕ} (hi : i < h.nrBuckets) (s : σ) :
    (itemsUnder "Nodes" ((infoBucket h stats cs i).run s).1).length
      = (dumpedSlots h i).length := by
  have hlen := mapM_length (fun j => infoNode stats cs i j
    ((h.bucket i).node[j]?.join.map HashNode.value)) (List.range (h.bucket i).nrNodes.toNat) s
  refine (congrArg List.length (itemsUnder_nodes _ _ _)).trans (hlen.trans ?_)
  rw [List.length_range, length_dumpedSlots hc hi]

/-- **The entries of a dump** are as many as the items of the table. -/
theorem dump_entries (hc : h.Counted) (cs : Option (Option P → StateM σ (Option Json))) (s : σ) :
    (nodesEntries ((hashtInfoCjson h stats cs).run s).1).length = h.items.card := by
  have hlen := mapM_flatMap_length
    (l := (List.range h.nrBuckets).filter fun i => (h.bucket i).nrNodes > 0)
    (fun i hi s =>
      infoBucket_entries stats hc cs (List.mem_range.mp (List.mem_of_mem_filter hi)) s) s
  rw [dumpedSlots_filter, hc.length_dumped] at hlen
  refine Eq.trans ?_ hlen
  unfold nodesEntries
  exact congrArg (fun bs => (bs.flatMap (itemsUnder "Nodes")).length)
    (itemsUnder_buckets _ _ _ _ _ _)

end Calls

/-! ## What is listed -/

/-- In every bucket the first slots are taken, as many as it has items. -/
def Dense (h : Hasht P) : Prop :=
  ∀ i < h.nrBuckets, ∀ slot ∈ (h.bucket i).node.take (h.bucket i).nrNodes.toNat, slot.isSome

instance (h : Hasht P) : Decidable (Dense h) :=
  inferInstanceAs (Decidable (∀ i < h.nrBuckets,
    ∀ slot ∈ (h.bucket i).node.take (h.bucket i).nrNodes.toNat, slot.isSome = true))

/-- The callback is handed every item once, and nothing else. -/
def ListsItems (h : Hasht P) (stats : HashStats) (f : Option P → StateM σ (Option Json)) (s : σ) :
    Prop :=
  (dumpCalls h stats f s : Multiset (Option P)) = h.items.map some

theorem dumpedSlots_of_dense {h : Hasht P} (hc : h.Counted) {i : ℕ} (hi : i < h.nrBuckets)
    (hdense : ∀ slot ∈ (h.bucket i).node.take (h.bucket i).nrNodes.toNat, slot.isSome) :
    (dumpedSlots h i : Multiset (Option P)) = (Hasht.bucketItems (h.bucket i)).map some := by
  have hcount : (h.bucket i).nrNodes.toNat = (Slots.entries (h.bucket i).node).length :=
    (hc.toNat_nrNodes hi).1
  unfold dumpedSlots
  rw [hcount] at hdense ⊢
  rw [Slots.take_entries fun hfree => Bool.false_ne_true (hdense none hfree), List.map_map]
  show _ = Multiset.map some ((List.map HashNode.value (Slots.entries (h.bucket i).node) : List P)
    : Multiset P)
  rw [Multiset.map_coe, List.map_map]
  rfl

/-- **When a dump lists the table.** It always has as many entries as the table has items. They
are the items, each once, just when no free slot stands before the last item of a bucket. -/
theorem dump_lists_iff {s : Store P} (h : (tableRuns P).Reach Machine.Always s)
    (stats : HashStats) (f : Option P → StateM σ (Option Json)) (st : σ) :
    (nodesEntries ((hashtInfoCjson s.table stats (some f)).run st).1).length
        = s.table.items.card ∧
    (ListsItems s.table stats f st ↔ Dense s.table) := by
  have hc := tableRuns_counted h
  refine ⟨dump_entries stats hc (some f) st, ?_⟩
  unfold ListsItems
  rw [dumpCalls_eq stats f hc st, coe_flatMap_range]
  constructor
  · intro heq i hi slot hslot
    by_contra hfree
    obtain rfl : slot = none := Option.not_isSome_iff_eq_none.mp hfree
    -- the callback is handed `NULL`
    have hnull : (none : Option P) ∈ ∑ i ∈ Finset.range s.table.nrBuckets,
        (dumpedSlots s.table i : Multiset (Option P)) := by
      refine Multiset.mem_sum.mpr ⟨i, Finset.mem_range.mpr hi, ?_⟩
      exact Multiset.mem_coe.mpr (List.mem_map_of_mem hslot)
    rw [heq] at hnull
    obtain ⟨p, -, hp⟩ := Multiset.mem_map.mp hnull
    cases hp
  · intro hdense
    rw [Hasht.items, ← Multiset.coe_mapAddMonoidHom, map_sum]
    exact Finset.sum_congr rfl fun i hi =>
      dumpedSlots_of_dense hc (Finset.mem_range.mp hi) (hdense i (Finset.mem_range.mp hi))

/-- A callback for items that are numbers, which shows `NULL` as nothing. -/
def showNumber (value : Option ℕ) : StateM Unit (Option Json) :=
  pure (value.map fun n => .number n)

/-- A table with nothing counted. -/
def noStats : HashStats := ⟨0, 0, fun _ _ => 0, fun _ _ => 0⟩

/-- Two items in one bucket, of which the second was deleted. -/
theorem dump_lists_iff_lastDeleted :
    ∃ s : Store ℕ, (tableRuns ℕ).Reach Machine.Always s ∧ s.table.nrNodes = 1 ∧
      ListsItems s.table noStats showNumber () := by
  obtain ⟨s, hreach, hs⟩ := Machine.exec_reach smallTable_init
    (show ((tableRuns ℕ).exec Machine.Always smallTable
      [.add ⟨0, 1⟩ 3 true, .add ⟨0, 1⟩ 4 true, .delete ⟨0, 1⟩ 4]).map
      (fun s => decide (s.table.nrNodes = 1 ∧ Dense s.table)) = some true by decide +kernel)
  obtain ⟨hnr, hdense⟩ := of_decide_eq_true hs
  exact ⟨s, hreach, hnr, (dump_lists_iff hreach noStats showNumber ()).2.mpr hdense⟩

/-- When the first of them is deleted, the callback gets `NULL` and the second item is left
out. -/
theorem dump_passes_null :
    ∃ s : Store ℕ, (tableRuns ℕ).Reach Machine.Always s ∧ s.table.items = {4} ∧
      dumpCalls s.table noStats showNumber () = [none] ∧
      ¬ ListsItems s.table noStats showNumber () := by
  obtain ⟨s, hreach, hs⟩ := Machine.exec_reach smallTable_init
    (show ((tableRuns ℕ).exec Machine.Always smallTable
      [.add ⟨0, 1⟩ 3 true, .add ⟨0, 1⟩ 4 true, .delete ⟨0, 1⟩ 3]).map
      (fun s => decide (s.table.items = {4} ∧
        dumpCalls s.table noStats showNumber () = [none])) = some true by decide +kernel)
  obtain ⟨hitems, hcalls⟩ := of_decide_eq_true hs
  refine ⟨s, hreach, hitems, hcalls, ?_⟩
  unfold ListsItems
  rw [hitems, hcalls]
  decide

end Dungeon

import Mathlib.Data.List.Basic
import Mathlib.Data.Nat.Notation

/-!
# Allocations, and how often they are freed

A record of a heap for counting calls of `free`.

- `Alloc`: one allocation: its address, what was written to it, how many times it was freed.
  An address can be allocated again once it was freed, so an address alone names no allocation.
- `Allocs`: all allocations, the newest first, and the calls of `free` that were given something
  else.
- `Allocs.Sound`: none is freed twice, and of those at one address only the newest can be live.
  `Sound.malloc`, `Sound.free`: kept by an allocation at an address where nothing is live, and by
  freeing what is live.
- `Allocs.FreedOnce`: every allocation was freed once, and nothing else was.
- `Allocs.freeAll`: `free` of one address after another. `Sound.freeAll_isSome`: all of them are
  live when their turn comes just when they are distinct and live before.
-/

/-- An allocation. -/
structure Alloc (A D : Type*) where
  addr : A
  data : D
  frees : ℕ
deriving DecidableEq

/-- The allocations so far, and the stray arguments of `free`. -/
structure Allocs (A D : Type*) where
  blocks : List (Alloc A D)
  wild : List A
deriving DecidableEq

namespace Allocs

variable {A D : Type*}

/-- Nothing allocated. -/
def empty : Allocs A D := ⟨[], []⟩

/-- `malloc` returns `addr`, and `data` is written there. -/
def malloc (h : Allocs A D) (addr : A) (data : D) : Allocs A D :=
  { h with blocks := ⟨addr, data, 0⟩ :: h.blocks }

/-- The newest allocation at `addr` is freed; `none` when there is none. -/
def freeNewest [DecidableEq A] (addr : A) : List (Alloc A D) → Option (List (Alloc A D))
  | [] => none
  | b :: bs =>
    if b.addr = addr then some ({ b with frees := b.frees + 1 } :: bs)
    else (freeNewest addr bs).map (b :: ·)

/-- `free(addr)`. -/
def free [DecidableEq A] (h : Allocs A D) (addr : A) : Allocs A D :=
  match freeNewest addr h.blocks with
  | some blocks => { h with blocks := blocks }
  | none => { h with wild := addr :: h.wild }

/-- What is at `addr`: the data of the newest allocation there. -/
def read [DecidableEq A] (h : Allocs A D) (addr : A) : Option D :=
  (h.blocks.find? fun b => b.addr = addr).map Alloc.data

/-- An allocation at `addr` is not freed yet. -/
def Live (h : Allocs A D) (addr : A) : Prop := ∃ b ∈ h.blocks, b.addr = addr ∧ b.frees = 0

instance [DecidableEq A] (h : Allocs A D) (addr : A) : Decidable (h.Live addr) :=
  inferInstanceAs (Decidable (∃ _ ∈ _, _))

/-- None is freed twice; what is older than another one at the same address was freed. -/
structure Sound (h : Allocs A D) : Prop where
  frees_le : ∀ b ∈ h.blocks, b.frees ≤ 1
  newest : h.blocks.Pairwise fun b old => old.frees = 0 → b.addr ≠ old.addr

/-- Every allocation was freed once, and nothing else. -/
structure FreedOnce (h : Allocs A D) : Prop where
  wild : h.wild = []
  frees : ∀ b ∈ h.blocks, b.frees = 1

variable {h : Allocs A D} {addr a : A} {data : D}

theorem sound_empty : Sound (empty : Allocs A D) := ⟨nofun, .nil⟩

/-! ## Allocating -/

theorem live_malloc : (h.malloc addr data).Live a ↔ a = addr ∨ h.Live a := by
  constructor
  · rintro ⟨b, hb, haddr, hfrees⟩
    rcases List.mem_cons.mp hb with rfl | hb
    · exact .inl haddr.symm
    · exact .inr ⟨b, hb, haddr, hfrees⟩
  · rintro (rfl | ⟨b, hb, haddr, hfrees⟩)
    · exact ⟨_, List.mem_cons_self, rfl, rfl⟩
    · exact ⟨b, List.mem_cons_of_mem _ hb, haddr, hfrees⟩

theorem Sound.malloc (hs : h.Sound) (hfresh : ¬ h.Live addr) : (h.malloc addr data).Sound where
  frees_le := List.forall_mem_cons.mpr ⟨Nat.zero_le _, hs.frees_le⟩
  newest := by
    refine List.pairwise_cons.mpr ⟨fun old hmem hlive heq => hfresh ?_, hs.newest⟩
    exact ⟨old, hmem, heq.symm, hlive⟩

section

variable [DecidableEq A]

/-- What is live can be read. -/
theorem Live.read (hlive : h.Live a) : (h.read a).isSome := by
  obtain ⟨b, hb, haddr, -⟩ := hlive
  unfold Allocs.read
  rw [Option.isSome_map, List.find?_isSome]
  exact ⟨b, hb, decide_eq_true haddr⟩

theorem read_malloc_self : (h.malloc addr data).read addr = some data := by
  simp [read, malloc]

theorem read_malloc_of_ne (hne : a ≠ addr) : (h.malloc addr data).read a = h.read a := by
  simp [read, malloc, Ne.symm hne]

/-! ## Freeing -/

/-- `free` allocates nothing. -/
theorem free_addrs (h : Allocs A D) (addr : A) :
    (h.free addr).blocks.map Alloc.addr = h.blocks.map Alloc.addr := by
  have hnewest : ∀ blocks blocks' : List (Alloc A D), freeNewest addr blocks = some blocks' →
      blocks'.map Alloc.addr = blocks.map Alloc.addr := by
    intro blocks
    induction blocks with
    | nil => exact nofun
    | cons b bs ih =>
      intro blocks' heq
      rw [freeNewest] at heq
      split at heq
      next => cases heq; rfl
      next =>
        obtain ⟨bs', hbs, rfl⟩ := Option.map_eq_some_iff.mp heq
        rw [List.map_cons, List.map_cons, ih bs' hbs]
  unfold free
  cases heq : freeNewest addr h.blocks with
  | none => rfl
  | some blocks => exact hnewest _ _ heq

/-- Nothing was ever allocated there: the call is stray. -/
theorem free_unknown (hno : ∀ b ∈ h.blocks, b.addr ≠ addr) :
    h.free addr = { h with wild := addr :: h.wild } := by
  have hnone : freeNewest addr h.blocks = none := by
    generalize h.blocks = blocks at hno
    induction blocks with
    | nil => rfl
    | cons b bs ih =>
      obtain ⟨hne, hrest⟩ := List.forall_mem_cons.mp hno
      rw [freeNewest, if_neg hne, ih hrest]
      rfl
  unfold free
  rw [hnone]

/-- The newest allocation at an address where something is live, between the others: it is the
live one, and it is the one that is freed. -/
theorem Sound.split (hs : h.Sound) (hlive : h.Live addr) :
    ∃ bs b bs', h.blocks = bs ++ b :: bs' ∧ b.addr = addr ∧ b.frees = 0 ∧
      (∀ b' ∈ bs, b'.addr ≠ addr) ∧ (∀ b' ∈ bs', b'.frees = 0 → b'.addr ≠ addr) ∧
      h.free addr = { h with blocks := bs ++ { b with frees := 1 } :: bs' } := by
  obtain ⟨b, hb, haddr, hzero⟩ := hlive
  obtain ⟨bs, bs', hblocks⟩ := List.append_of_mem hb
  have hpair := hs.newest
  rw [hblocks, List.pairwise_append, List.pairwise_cons] at hpair
  obtain ⟨-, ⟨hold, -⟩, hnew⟩ := hpair
  have hne : ∀ b' ∈ bs, b'.addr ≠ addr := fun b' hmem => by
    rw [← haddr]
    exact hnew b' hmem b List.mem_cons_self hzero
  have hfree : freeNewest addr h.blocks = some (bs ++ { b with frees := 1 } :: bs') := by
    rw [hblocks]
    clear hnew hblocks
    induction bs with
    | nil =>
      rw [List.nil_append, freeNewest, if_pos haddr, hzero]
      rfl
    | cons b' bs ih =>
      obtain ⟨hhead, hrest⟩ := List.forall_mem_cons.mp hne
      rw [List.cons_append, freeNewest, if_neg hhead, ih hrest]
      rfl
  refine ⟨bs, b, bs', hblocks, haddr, hzero, hne, fun b' hmem hlive heq => ?_, ?_⟩
  · exact hold b' hmem hlive (haddr.trans heq.symm)
  · unfold free
    rw [hfree]

/-- Freeing what is live. -/
theorem Sound.free (hs : h.Sound) (hlive : h.Live addr) :
    (h.free addr).Sound ∧ (h.free addr).wild = h.wild ∧
      (∀ a, (h.free addr).Live a ↔ h.Live a ∧ a ≠ addr) ∧
      (∀ a, (h.free addr).read a = h.read a) := by
  obtain ⟨bs, b, bs', hblocks, haddr, hzero, hne, hold, hfree⟩ := hs.split hlive
  rw [hfree]
  obtain ⟨hle, hpair⟩ := hs
  rw [hblocks, List.forall_mem_append, List.forall_mem_cons] at hle
  rw [hblocks, List.pairwise_append, List.pairwise_cons] at hpair
  refine ⟨⟨?_, ?_⟩, rfl, fun a => ?_, fun a => ?_⟩
  · exact List.forall_mem_append.mpr ⟨hle.1, List.forall_mem_cons.mpr ⟨Nat.le_refl 1, hle.2.2⟩⟩
  · refine List.pairwise_append.mpr ⟨hpair.1, List.pairwise_cons.mpr hpair.2.1, ?_⟩
    intro b' hmem old hold' hlive'
    rcases List.mem_cons.mp hold' with rfl | hold'
    · cases hlive'
    · exact hpair.2.2 b' hmem old (List.mem_cons_of_mem _ hold') hlive'
  · unfold Live
    rw [hblocks]
    simp only [List.mem_append, List.mem_cons]
    constructor
    · rintro ⟨b', hmem | rfl | hmem, ha, hfrees⟩
      · exact ⟨⟨b', .inl hmem, ha, hfrees⟩, ha ▸ hne b' hmem⟩
      · cases hfrees
      · exact ⟨⟨b', .inr (.inr hmem), ha, hfrees⟩, ha ▸ hold b' hmem hfrees⟩
    · rintro ⟨⟨b', hmem | rfl | hmem, ha, hfrees⟩, hother⟩
      · exact ⟨b', .inl hmem, ha, hfrees⟩
      · exact absurd (ha.symm.trans haddr) hother
      · exact ⟨b', .inr (.inr hmem), ha, hfrees⟩
  · unfold read
    rw [hblocks, List.find?_append, List.find?_append, List.find?_cons, List.find?_cons]
    cases List.find? (fun b => decide (b.addr = a)) bs with
    | some b' => rfl
    | none =>
      by_cases ha : b.addr = a
      · simp [ha]
      · simp [ha]

/-- `free` of one address after another; `none` at the first one that is not live. -/
def freeAll : Allocs A D → List A → Option (Allocs A D)
  | h, [] => some h
  | h, addr :: addrs => if h.Live addr then freeAll (h.free addr) addrs else none

/-- What is left live. -/
theorem Sound.freeAll {h' : Allocs A D} {addrs : List A} (hs : h.Sound)
    (heq : h.freeAll addrs = some h') : h'.Sound ∧ ∀ a, h'.Live a ↔ h.Live a ∧ a ∉ addrs := by
  induction addrs generalizing h with
  | nil =>
    obtain rfl := Option.some.inj heq
    exact ⟨hs, fun a => (and_iff_left List.not_mem_nil).symm⟩
  | cons addr addrs ih =>
    obtain ⟨hlive, heq⟩ := Option.ite_none_right_eq_some.mp heq
    obtain ⟨hs', -, hothers, -⟩ := hs.free hlive
    obtain ⟨hsound, hrest⟩ := ih hs' heq
    refine ⟨hsound, fun a => (hrest a).trans ?_⟩
    rw [hothers, List.mem_cons, not_or, and_assoc]

/-- All are freed exactly when they are live and no two of them are one. -/
theorem Sound.freeAll_isSome {addrs : List A} (hs : h.Sound) :
    (h.freeAll addrs).isSome ↔ addrs.Nodup ∧ ∀ a ∈ addrs, h.Live a := by
  induction addrs generalizing h with
  | nil => exact iff_of_true rfl ⟨.nil, nofun⟩
  | cons addr addrs ih =>
    rw [Allocs.freeAll, List.nodup_cons, List.forall_mem_cons]
    split
    next hlive =>
      obtain ⟨hs', -, hothers, -⟩ := hs.free hlive
      rw [ih hs']
      constructor
      · rintro ⟨hnodup, hall⟩
        refine ⟨⟨fun hmem => ?_, hnodup⟩, hlive, fun a hmem => ((hothers a).mp (hall a hmem)).1⟩
        exact ((hothers addr).mp (hall addr hmem)).2 rfl
      · rintro ⟨⟨hnot, hnodup⟩, -, hall⟩
        refine ⟨hnodup, fun a hmem => (hothers a).mpr ⟨hall a hmem, ?_⟩⟩
        rintro rfl
        exact hnot hmem
    next hdead => exact iff_of_false nofun fun hall => hdead hall.2.1

end

/-! ## Once each -/

/-- For a sound record: nothing stray, and nothing live. -/
theorem Sound.once_iff (hs : h.Sound) :
    h.FreedOnce ↔ h.wild = [] ∧ ∀ a, ¬ h.Live a := by
  constructor
  · rintro ⟨hwild, hfrees⟩
    refine ⟨hwild, fun a hlive => ?_⟩
    obtain ⟨b, hb, -, hzero⟩ := hlive
    exact absurd (hzero.symm.trans (hfrees b hb)) Nat.zero_ne_one
  · rintro ⟨hwild, hlive⟩
    refine ⟨hwild, fun b hb => ?_⟩
    have hle := hs.frees_le b hb
    have hne : b.frees ≠ 0 := fun hzero => hlive b.addr ⟨b, hb, rfl, hzero⟩
    omega

end Allocs

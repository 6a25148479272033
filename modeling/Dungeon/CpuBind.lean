import Mathlib.Data.List.Basic
import Mathlib.Data.Nat.Notation

/-!
# Binding workers to processors (`thr_worker.c`)

`thr_worker_create` walks through the processors of the process with one cursor and gives each
worker the next one.

- `searchCpu`, `bindTurn`, `bindAll`: the two loops. A worker that is given none keeps what
  `malloc` left (`none`).
- `cpusFrom`: the processors of the process from the cursor on, in order; a search finds the first
  of them (`searchCpu_of_cons`).
- `cpus_bound_iff`: each worker has a processor of the process exactly when there are enough of
  them, or the last one there can be is one of them, where the cursor stays.
- `getNrcpu_eq`: `get_nrcpu` counts enough of them.
-/

namespace Dungeon

/-- `CPU_SETSIZE`. -/
def cpuSetsize : ℕ := 1024

/-- `cpu_set_t`. -/
abbrev CpuSet := Fin cpuSetsize → Bool

/-- `CPU_ISSET`: nothing outside is in a set. -/
def cpuIsset (c : ℕ) (set : CpuSet) : Bool :=
  if h : c < cpuSetsize then set ⟨c, h⟩ else false

/-- `get_nrcpu`: the loop over the bits of the set. -/
def getNrcpu (set : CpuSet) : ℕ :=
  (List.range cpuSetsize).foldl (fun num i => num + (cpuIsset i set).toNat) 0

/-- The search for the next processor. -/
def searchCpu (set : CpuSet) (c : ℕ) : ℕ :=
  if c < cpuSetsize ∧ cpuIsset c set = false then searchCpu set (c + 1) else c
termination_by cpuSetsize - c

/-- One turn of the loop over the workers: the worker's `cpubind`, if it is assigned, and the
cursor. -/
def bindTurn (set : CpuSet) (c : ℕ) : Option ℕ × ℕ :=
  let c := searchCpu set c
  let cpubind := if cpuIsset c set then some c else none
  let c := c + 1
  (cpubind, if c = cpuSetsize then cpuSetsize - 1 else c)

/-- The loop over the workers: the array `info_thr`, as far as `cpubind`. -/
def bindAll (set : CpuSet) : ℕ → ℕ → List (Option ℕ)
  | 0, _ => []
  | num + 1, c => (bindTurn set c).1 :: bindAll set num (bindTurn set c).2

/-- What `thr_worker_create` binds `num` workers to. -/
def cpuBinds (num : ℕ) (set : CpuSet) : List (Option ℕ) := bindAll set num 0

/-- Each of the workers is given a processor of the set. -/
def AllBound (num : ℕ) (set : CpuSet) : Prop :=
  ∀ i < num, ∃ c, (cpuBinds num set)[i]? = some (some c) ∧ cpuIsset c set = true

/-- The processors of the set from `c` on. -/
def cpusFrom (set : CpuSet) (c : ℕ) : List ℕ :=
  (List.range' c (cpuSetsize - c)).filter fun c => cpuIsset c set

variable {set : CpuSet} {c m num : ℕ} {rest : List ℕ}

/-! ## The search -/

theorem cpuIsset_lt (h : cpuIsset c set = true) : c < cpuSetsize := by
  by_contra hge
  rw [cpuIsset, dif_neg hge] at h
  cases h

theorem cpusFrom_of_ge (hge : cpuSetsize ≤ c) : cpusFrom set c = [] := by
  rw [cpusFrom, Nat.sub_eq_zero_of_le hge]
  rfl

theorem cpusFrom_of_lt (hlt : c < cpuSetsize) : cpusFrom set c
    = if cpuIsset c set = true then c :: cpusFrom set (c + 1) else cpusFrom set (c + 1) := by
  have hrange : List.range' c (cpuSetsize - c)
      = c :: List.range' (c + 1) (cpuSetsize - (c + 1)) := by
    rw [← List.range'_succ, Nat.sub_add_eq, Nat.sub_add_cancel (Nat.sub_pos_of_lt hlt)]
  rw [cpusFrom, hrange, List.filter_cons]
  rfl

/-- The search finds the first processor from the cursor on. -/
theorem searchCpu_of_cons (h : cpusFrom set c = m :: rest) :
    searchCpu set c = m ∧ cpuIsset m set = true ∧ rest = cpusFrom set (m + 1) := by
  fun_induction searchCpu set c with
  | case1 c hskip ih =>
    rw [cpusFrom_of_lt hskip.1, hskip.2] at h
    exact ih h
  | case2 c hstop =>
    rcases Nat.lt_or_ge c cpuSetsize with hlt | hge
    · have hset : cpuIsset c set = true := by
        by_contra hnot
        exact hstop ⟨hlt, Bool.eq_false_iff.mpr hnot⟩
      rw [cpusFrom_of_lt hlt, if_pos hset] at h
      obtain ⟨rfl, rfl⟩ := List.cons.inj h
      exact ⟨rfl, hset, rfl⟩
    · rw [cpusFrom_of_ge hge] at h
      cases h

/-- Where there is none, it runs out of the set. -/
theorem searchCpu_of_nil (h : cpusFrom set c = []) : cpuIsset (searchCpu set c) set = false := by
  fun_induction searchCpu set c with
  | case1 c hskip ih =>
    rw [cpusFrom_of_lt hskip.1, hskip.2] at h
    exact ih h
  | case2 c hstop =>
    by_contra hset
    have hset := Bool.not_eq_false _ ▸ hset
    rw [cpusFrom_of_lt (cpuIsset_lt hset), if_pos hset] at h
    cases h

/-! ## The workers -/

theorem length_bindAll (set : CpuSet) (num c : ℕ) : (bindAll set num c).length = num := by
  induction num generalizing c with
  | zero => rfl
  | succ num ih => rw [bindAll, List.length_cons, ih]

/-- **The loop over the workers**: from any place of the cursor on there are processors for all of
them, or the last one is reached, where the cursor is held. -/
theorem bindAll_bound_iff :
    (∀ cpubind ∈ bindAll set num c, ∃ m, cpubind = some m ∧ cpuIsset m set = true) ↔
      num ≤ (cpusFrom set c).length ∨ cpuSetsize - 1 ∈ cpusFrom set c := by
  induction num generalizing c with
  | zero => exact iff_of_true nofun (.inl (Nat.zero_le _))
  | succ num ih =>
    rw [bindAll, List.forall_mem_cons, ih]
    cases hcpus : cpusFrom set c with
    | nil =>
      -- the search has run out, and this worker goes without
      refine iff_of_false (fun hall => ?_) (by simp)
      obtain ⟨m, hm, -⟩ := hall.1
      rw [bindTurn, searchCpu_of_nil hcpus] at hm
      cases hm
    | cons m rest =>
      obtain ⟨hsearch, hset, rfl⟩ := searchCpu_of_cons hcpus
      have hturn : bindTurn set c
          = (some m, if m + 1 = cpuSetsize then cpuSetsize - 1 else m + 1) := by
        rw [bindTurn, hsearch, if_pos hset]
      rw [hturn, and_iff_right ⟨m, rfl, hset⟩, List.length_cons, List.mem_cons]
      show num ≤ (cpusFrom set (if _ then _ else _)).length ∨ _ ↔ _
      by_cases hlast : m + 1 = cpuSetsize
      · -- the last processor there can be is found again and again
        have hself : m ∈ cpusFrom set m := by
          rw [cpusFrom_of_lt (cpuIsset_lt hset), if_pos hset]
          exact List.mem_cons_self
        obtain rfl : cpuSetsize - 1 = m := by omega
        rw [if_pos hlast]
        exact iff_of_true (.inr hself) (.inr (.inl rfl))
      · have hlt := cpuIsset_lt hset
        have hne : cpuSetsize - 1 ≠ m := by omega
        rw [if_neg hlast, Nat.succ_le_succ_iff, or_iff_right hne]

theorem allBound_iff : AllBound num set ↔
    ∀ cpubind ∈ cpuBinds num set, ∃ m, cpubind = some m ∧ cpuIsset m set = true := by
  have hlen : (cpuBinds num set).length = num := length_bindAll set num 0
  constructor
  · intro hall cpubind hmem
    obtain ⟨i, hi, rfl⟩ := List.getElem_of_mem hmem
    obtain ⟨m, hm, hset⟩ := hall i (hlen ▸ hi)
    rw [List.getElem?_eq_getElem hi] at hm
    exact ⟨m, Option.some.inj hm, hset⟩
  · intro hall i hi
    have hi : i < (cpuBinds num set).length := hlen.symm ▸ hi
    obtain ⟨m, hm, hset⟩ := hall _ (List.getElem_mem hi)
    exact ⟨m, (List.getElem?_eq_getElem hi).trans (congrArg some hm), hset⟩

/-- **Where every worker is bound to a processor of the process.** For every set and every number
of workers: exactly when the set has as many processors, or `CPU_SETSIZE-1` is one of them. -/
theorem cpus_bound_iff (num : ℕ) (set : CpuSet) :
    AllBound num set ↔
      num ≤ (cpusFrom set 0).length ∨ cpuIsset (cpuSetsize - 1) set = true := by
  have hlast : cpuSetsize - 1 ∈ cpusFrom set 0 ↔ cpuIsset (cpuSetsize - 1) set = true := by
    rw [cpusFrom, List.mem_filter, List.mem_range'_1]
    exact and_iff_right ⟨Nat.zero_le _, by decide⟩
  rw [← hlast, ← bindAll_bound_iff, allBound_iff]
  rfl

/-- A process on one processor, the first one, with two workers: the second worker gets none. -/
theorem second_worker_unbound :
    cpuIsset 0 (fun c => c.val = 0) = true ∧ ¬ AllBound 2 fun c => c.val = 0 := by
  refine ⟨rfl, fun hall => ?_⟩
  have hnone : ∀ c, 0 < c → cpuIsset c (fun c => c.val = 0) = false := by
    intro c hc
    rw [cpuIsset]
    split
    next => exact decide_eq_false (Nat.ne_of_gt hc)
    next => rfl
  have hcpus : cpusFrom (fun c => c.val = 0) 1 = [] := by
    refine List.filter_eq_nil_iff.mpr fun c hc => ?_
    rw [hnone c (List.mem_range'_1.mp hc).1]
    exact Bool.false_ne_true
  rcases bindAll_bound_iff.mp (allBound_iff.mp hall) with henough | hlast
  · rw [cpusFrom_of_lt (by decide), Nat.zero_add, hcpus] at henough
    exact absurd henough (by decide)
  · rw [cpusFrom_of_lt (by decide), Nat.zero_add, hcpus] at hlast
    exact absurd hlast (by decide)

/-! ## As many workers as processors -/

/-- `get_nrcpu` counts the processors of the set. -/
theorem getNrcpu_eq (set : CpuSet) : getNrcpu set = (cpusFrom set 0).length := by
  have hcount (l : List ℕ) (n : ℕ) : l.foldl (fun num i => num + (cpuIsset i set).toNat) n
      = n + (l.filter fun i => cpuIsset i set).length := by
    induction l generalizing n with
    | nil => rfl
    | cons i l ih =>
      rw [List.foldl_cons, ih, List.filter_cons]
      cases cpuIsset i set <;> simp [Nat.add_assoc, Nat.add_comm 1]
  rw [getNrcpu, hcount, Nat.zero_add, List.range_eq_range']
  rfl

/-- So that many workers are bound, if the set has not changed. -/
theorem nrcpu_bound (set : CpuSet) : AllBound (getNrcpu set) set :=
  allBound_iff.mpr (bindAll_bound_iff.mpr (.inl (Nat.le_of_eq (getNrcpu_eq set))))

end Dungeon

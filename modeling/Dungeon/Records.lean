import Dungeon.Imp
import Dungeon.Llist
import Dungeon.Lib.Machine
import Dungeon.Lib.Frees

/-!
# The records of requested events (`imp.c`)

The list `requested_events` of one imp holds pointers to `struct epoll_data_st` between the
integers `EV_MASK_TIMER`, and three places take entries out of it or fail to put them in: the
driver's `switch`, `imp_dismiss`, and an append that is refused.

- `Records`: the list, the allocated records, and what the driver handed to `set_poll_action`.
- `life`: the life of an imp as a machine: calls of `imp_driver` with any calls of the soul in
  them and any return code, then `imp_dismiss`. No lock is contended. `malloc` returns any aligned
  address where no record is live; a node of the list may not be allocated.
- `Tracked`: each entry is a mark or a live record, and no record is in the list twice. It holds
  in every run, so no record is freed twice.
- `freedOnce_iff`: at the end every record was freed once and nothing else was, just when no
  record was refused by the list, and no mark was left in it for `imp_dismiss`.
- `requests_impSetIoev`, `requests_impSetTimer`: the entries stand for the requests of
  `Dungeon.Imp`.
-/

namespace Dungeon

/-- `struct epoll_data_st`, as far as it is read. -/
structure EpollDataSt where
  events : BitVec 32
  fd : ℕ
deriving DecidableEq

/-- Where an imp is in its life. -/
inductive Phase where
  /-- between two calls of `imp_driver` -/
  | ready
  /-- in `fsm_driver` -/
  | soul
  | dismissed
deriving DecidableEq

/-- The requests of one imp. -/
structure Records where
  requestedEvents : Llist (BitVec 64)
  heap : Allocs (BitVec 64) EpollDataSt
  /-- what was handed to `set_poll_action` -/
  armed : List EpollJob
  phase : Phase
deriving DecidableEq

/-- One event in the life of an imp. -/
inductive RecordAct where
  /-- a call of `imp_driver`, with what `imp_reduct_event_mask` reads -/
  | drive (timeout event : Bool)
  /-- a call of `imp_set_ioev`: what `malloc` returns, and whether a node is allocated -/
  | setIoev (fd : ℕ) (ev : BitVec 32) (info : BitVec 64) (node : Bool)
  /-- a call of `imp_set_timer` -/
  | setTimer (node : Bool)
  /-- `fsm_driver` returns -/
  | ret (code : BitVec 32)
  /-- a call of `imp_dismiss` -/
  | dismiss

namespace Records

/-- `imp_new`. -/
def impNew : Records where
  requestedEvents := llistNew requestedVolume
  heap := .empty
  armed := []
  phase := .ready

/-- `llist_append_nb(current_imp_->requested_events, job)`. -/
def append (r : Records) (job : BitVec 64) (node : Bool) : Records :=
  { r with requestedEvents := (llistAppendNb r.requestedEvents job true node).2 }

/-- `imp_set_ioev`. -/
def impSetIoev (r : Records) (fd : ℕ) (ev : BitVec 32) (info : BitVec 64) (node : Bool) :
    Records :=
  append { r with heap := r.heap.malloc info ⟨ev, fd⟩ } info node

/-- `imp_set_timer`, without the setting of the timer. -/
def impSetTimer (r : Records) (node : Bool) : Records := append r evMaskTimer node

/-- What an entry asks for: `switch ((int)epoll_job)`. -/
def jobOf (heap : Allocs (BitVec 64) EpollDataSt) (job : BitVec 64) : Option EpollJob :=
  if job.setWidth 32 = evMaskTimer.setWidth 32 then some .timer
  else if job.setWidth 32 = evMaskEvent.setWidth 32 then some .event
  else (heap.read job).map fun info => .user info.fd info.events

/-- The body of the driver's loop. -/
def switchJob (r : Records) (job : BitVec 64) : Records :=
  let r := { r with armed := r.armed ++ (jobOf r.heap job).toList }
  if job.setWidth 32 = evMaskTimer.setWidth 32 then r
  else if job.setWidth 32 = evMaskEvent.setWidth 32 then r
  else { r with heap := r.heap.free job }

/-- `free(msg)`. -/
def freeMsg (r : Records) (msg : BitVec 64) : Records := { r with heap := r.heap.free msg }

/-- `while (llist_fetch_head_nb(imp->requested_events, &job)==0)`, for at most `n` turns. -/
def fetchLoop (body : Records → BitVec 64 → Records) : ℕ → Records → Records
  | 0, r => r
  | n + 1, r =>
    match llistFetchHeadNb r.requestedEvents true with
    | .ok (job, ll) => fetchLoop body n (body { r with requestedEvents := ll } job)
    | .error _ => r

/-- The loop, with as many turns as there are entries. -/
def fetchAll (body : Records → BitVec 64 → Records) (r : Records) : Records :=
  fetchLoop body r.requestedEvents.nodes.length r

/-- `imp_driver` up to the call of `fsm_driver`. -/
def beginDriver (r : Records) (timeout event : Bool) : Records :=
  if reductMask timeout event &&& evMaskKill ≠ 0 then r
  else if reductMask timeout event &&& evMaskGlobalAlert ≠ 0 then r
  else { r with phase := .soul }

/-- `imp_driver` from the return of `fsm_driver` on. -/
def endDriver (r : Records) (ret : BitVec 32) : Records :=
  if ret = toTerm then { r with phase := .ready }
  else { fetchAll switchJob r with phase := .ready }

/-- `imp_dismiss`. -/
def impDismiss (r : Records) : Records := { fetchAll freeMsg r with phase := .dismissed }

/-- What `malloc` can return for a record. -/
def Allocatable (r : Records) (info : BitVec 64) : Prop :=
  info ≠ 0 ∧ info.toNat % 8 = 0 ∧ ¬ r.heap.Live info

instance (r : Records) (info : BitVec 64) : Decidable (r.Allocatable info) :=
  inferInstanceAs (Decidable (_ ∧ _ ∧ ¬ _))

/-- One event, where it can happen. -/
def step (r : Records) : RecordAct → Option Records
  | .drive timeout event => if r.phase = .ready then some (beginDriver r timeout event) else none
  | .setIoev fd ev info node =>
    if r.phase = .soul ∧ r.Allocatable info then some (impSetIoev r fd ev info node) else none
  | .setTimer node => if r.phase = .soul then some (impSetTimer r node) else none
  | .ret code => if r.phase = .soul then some (endDriver r code) else none
  | .dismiss => if r.phase = .ready then some (impDismiss r) else none

/-- The lives of an imp. -/
def life : Machine Records RecordAct where
  init r := r = impNew
  step := step

/-- The steps after which every record can still be freed once: the list takes the record, and
`imp_dismiss` finds no mark. -/
def Careful (r : Records) : RecordAct → Prop
  | .setIoev _ _ _ node =>
    r.requestedEvents.nrNodes < r.requestedEvents.volume ∧ node = true
  | .dismiss => evMaskTimer ∉ r.requestedEvents.nodes
  | .drive _ _ | .setTimer _ | .ret _ => True

instance (r : Records) (act : RecordAct) : Decidable (Careful r act) :=
  match act with
  | .setIoev _ _ _ _ => inferInstanceAs (Decidable (_ ∧ _))
  | .dismiss => inferInstanceAs (Decidable (¬ _))
  | .drive _ _ | .setTimer _ | .ret _ => isTrue trivial

variable {r r' : Records} {job info : BitVec 64} {jobs : List (BitVec 64)}

/-! ## Entries and records -/

/-- The entries are marks, and live records that are in the list once. -/
structure Tracked (r : Records) : Prop where
  exact : r.requestedEvents.Exact
  volume : r.requestedEvents.volume = requestedVolume
  sound : r.heap.Sound
  aligned : ∀ b ∈ r.heap.blocks, b.addr.toNat % 8 = 0
  entries : ∀ job ∈ r.requestedEvents.nodes, job = evMaskTimer ∨ r.heap.Live job
  once : r.requestedEvents.nodes.Pairwise fun job job' => job = job' → job = evMaskTimer
  gone : r.phase = .dismissed → r.requestedEvents.nodes = []

/-- Nothing was freed by mistake, and what is live is in the list. -/
structure Tidy (r : Records) : Prop where
  wild : r.heap.wild = []
  listed : ∀ info, r.heap.Live info → info ∈ r.requestedEvents.nodes

/-- An aligned address is no mark, and its low half is none either. -/
theorem aligned_ne_mark (haligned : info.toNat % 8 = 0) :
    info.setWidth 32 ≠ evMaskTimer.setWidth 32 ∧ info.setWidth 32 ≠ evMaskEvent.setWidth 32 := by
  constructor
  · intro heq
    have hlow : info.toNat % 4294967296 = 2 := congrArg BitVec.toNat heq
    omega
  · intro heq
    have hlow : info.toNat % 4294967296 = 4 := congrArg BitVec.toNat heq
    omega

theorem Tracked.live_aligned (ht : Tracked r) (hlive : r.heap.Live info) :
    info.toNat % 8 = 0 := by
  obtain ⟨b, hb, rfl, -⟩ := hlive
  exact ht.aligned b hb

theorem Tracked.live_ne_mark (ht : Tracked r) (hlive : r.heap.Live info) : info ≠ evMaskTimer := by
  rintro rfl
  exact (aligned_ne_mark (ht.live_aligned hlive)).1 rfl

theorem tracked_impNew : Tracked impNew where
  exact := Llist.exact_new (by decide)
  volume := rfl
  sound := Allocs.sound_empty
  aligned := nofun
  entries := nofun
  once := .nil
  gone := nofun

theorem tidy_impNew : Tidy impNew := ⟨rfl, by rintro info ⟨b, hb, -⟩; cases hb⟩

/-! ## Appending -/

/-- An append to the list adds the entry, when there is room and memory for a node, or changes
nothing. -/
theorem append_cases (r : Records) (job : BitVec 64) (node : Bool) :
    (r.requestedEvents.nrNodes < r.requestedEvents.volume ∧ node = true ∧
      append r job node = { r with
        requestedEvents := { r.requestedEvents with
          nodes := r.requestedEvents.nodes ++ [job], nrNodes := r.requestedEvents.nrNodes + 1 } }) ∨
    ((r.requestedEvents.nrNodes < r.requestedEvents.volume → node = false) ∧
      append r job node = r) := by
  have heq : append r job node
      = { r with requestedEvents := (llistAppendUnlocked r.requestedEvents job node).2 } := rfl
  rw [heq]
  obtain ⟨hroom, hnode, hadd⟩ | ⟨hno, hsame⟩ :=
    Llist.appendUnlocked_cases r.requestedEvents job node
  · rw [hadd]
    exact .inl ⟨hroom, hnode, rfl⟩
  · rw [hsame]
    exact .inr ⟨hno, rfl⟩

/-- A mark or a live record that is not in the list joins it. -/
theorem Tracked.append (ht : Tracked r) (hphase : r.phase = .soul) (node : Bool)
    (hjob : job = evMaskTimer ∨ r.heap.Live job ∧ job ∉ r.requestedEvents.nodes) :
    Tracked (append r job node) := by
  obtain ⟨hroom, -, heq⟩ | ⟨-, heq⟩ := append_cases r job node
  · rw [heq]
    refine ⟨?_, ht.volume, ht.sound, ht.aligned, ?_, ?_, fun hgone => ?_⟩
    · obtain ⟨hlen, hvol⟩ := ht.exact
      constructor
      · show ((r.requestedEvents.nodes ++ [job]).length : ℤ) = r.requestedEvents.nrNodes + 1
        rw [List.length_append, List.length_singleton, ← hlen]
        rfl
      · exact hroom
    · exact List.forall_mem_append.mpr
        ⟨ht.entries, List.forall_mem_singleton.mpr (hjob.imp_right And.left)⟩
    · refine List.pairwise_append.mpr ⟨ht.once, List.pairwise_singleton _ _, ?_⟩
      intro job' hmem job'' hlast heq'
      obtain rfl := List.mem_singleton.mp hlast
      subst heq'
      exact hjob.resolve_right fun hnew => hnew.2 hmem
    · cases hphase.symm.trans hgone
  · rw [heq]
    exact ht

/-- `imp_set_timer` keeps order. -/
theorem Tracked.impSetTimer (ht : Tracked r) (hphase : r.phase = .soul) (node : Bool) :
    Tracked (impSetTimer r node) ∧ (Tidy (impSetTimer r node) ↔ Tidy r) := by
  refine ⟨ht.append hphase node (.inl rfl), ?_⟩
  unfold Records.impSetTimer
  obtain ⟨-, -, heq⟩ | ⟨-, heq⟩ := append_cases r evMaskTimer node
  · rw [heq]
    constructor
    · rintro ⟨hwild, hlisted⟩
      refine ⟨hwild, fun info hlive => ?_⟩
      exact (List.mem_append.mp (hlisted info hlive)).resolve_right fun hmark =>
        ht.live_ne_mark hlive (List.mem_singleton.mp hmark)
    · rintro ⟨hwild, hlisted⟩
      exact ⟨hwild, fun info hlive => List.mem_append_left _ (hlisted info hlive)⟩
  · rw [heq]

/-- A record is allocated, and not in the list yet. -/
theorem Tracked.malloc (ht : Tracked r) (haligned : info.toNat % 8 = 0)
    (hfresh : ¬ r.heap.Live info) (fd : ℕ) (ev : BitVec 32) :
    Tracked { r with heap := r.heap.malloc info ⟨ev, fd⟩ } := by
  refine ⟨ht.exact, ht.volume, ht.sound.malloc hfresh, ?_, ?_, ht.once, ht.gone⟩
  · exact List.forall_mem_cons.mpr ⟨haligned, ht.aligned⟩
  · exact fun job hmem => (ht.entries job hmem).imp_right fun hlive =>
      Allocs.live_malloc.mpr (.inr hlive)

/-- `imp_set_ioev` keeps order when the list takes the record; else nothing refers to it. -/
theorem Tracked.impSetIoev (ht : Tracked r) (hphase : r.phase = .soul)
    (hnew : r.Allocatable info) (fd : ℕ) (ev : BitVec 32) (node : Bool) :
    Tracked (impSetIoev r fd ev info node) ∧
      (Tidy (impSetIoev r fd ev info node) ↔
        Tidy r ∧ r.requestedEvents.nrNodes < r.requestedEvents.volume ∧ node = true) := by
  obtain ⟨-, haligned, hfresh⟩ := hnew
  have hout : info ∉ r.requestedEvents.nodes := by
    intro hmem
    obtain rfl | hlive := ht.entries info hmem
    · exact (aligned_ne_mark haligned).1 rfl
    · exact hfresh hlive
  have halloc := ht.malloc haligned hfresh fd ev
  refine ⟨halloc.append hphase node (.inr ⟨Allocs.live_malloc.mpr (.inl rfl), hout⟩), ?_⟩
  unfold Records.impSetIoev
  obtain ⟨hroom, hnode, heq⟩ | ⟨hno, heq⟩ :=
    append_cases { r with heap := r.heap.malloc info ⟨ev, fd⟩ } info node
  · rw [heq, and_iff_left ⟨hroom, hnode⟩]
    constructor
    · rintro ⟨hwild, hlisted⟩
      refine ⟨hwild, fun job hlive => ?_⟩
      refine (List.mem_append.mp (hlisted job (Allocs.live_malloc.mpr (.inr hlive)))).resolve_right
        fun hlast => ?_
      rw [List.mem_singleton.mp hlast] at hlive
      exact hfresh hlive
    · rintro ⟨hwild, hlisted⟩
      refine ⟨hwild, fun job hlive => List.mem_append.mpr ?_⟩
      obtain rfl | hlive := Allocs.live_malloc.mp hlive
      · exact .inr List.mem_cons_self
      · exact .inl (hlisted job hlive)
  · rw [heq]
    constructor
    · rintro ⟨-, hlisted⟩
      exact absurd (hlisted info (Allocs.live_malloc.mpr (.inl rfl))) hout
    · rintro ⟨-, hroom, hnode⟩
      rw [hno hroom] at hnode
      cases hnode

/-! ## Fetching -/

/-- The list without its first entry. -/
def fetched (r : Records) (jobs : List (BitVec 64)) : Records :=
  { r with requestedEvents :=
      { r.requestedEvents with nodes := jobs, nrNodes := r.requestedEvents.nrNodes - 1 } }

/-- One turn of a loop. -/
theorem fetchLoop_cons (hexact : r.requestedEvents.Exact)
    (hnodes : r.requestedEvents.nodes = job :: jobs) (body : Records → BitVec 64 → Records)
    (n : ℕ) : fetchLoop body (n + 1) r = fetchLoop body n (body (fetched r jobs) job) := by
  have hfetch : llistFetchHeadNb r.requestedEvents true
      = .ok (job, { r.requestedEvents with
          nodes := jobs, nrNodes := r.requestedEvents.nrNodes - 1 }) :=
    Llist.fetchHeadUnlocked_cons (hexact.bounded.pos hnodes) hnodes
  rw [fetchLoop, hfetch]
  rfl

/-- A turn takes its entry out of the list. -/
structure Took (r r' : Records) (jobs : List (BitVec 64)) : Prop where
  list : r'.requestedEvents = (fetched r jobs).requestedEvents
  phase : r'.phase = r.phase

/-- What stays in the list. -/
theorem Tracked.rest (ht : Tracked r) (hnodes : r.requestedEvents.nodes = job :: jobs)
    (htook : Took r r' jobs) :
    r'.requestedEvents.Exact ∧ r'.requestedEvents.volume = requestedVolume ∧
      (r'.requestedEvents.nodes.Pairwise fun job job' => job = job' → job = evMaskTimer) ∧
      (r'.phase = .dismissed → r'.requestedEvents.nodes = []) ∧
      r'.requestedEvents.nodes = jobs := by
  obtain ⟨hlen, hvol⟩ := ht.exact
  have honce := ht.once
  rw [hnodes] at hlen honce
  rw [List.length_cons] at hlen
  push_cast at hlen
  rw [htook.list, htook.phase]
  refine ⟨⟨?_, ?_⟩, ht.volume, (List.pairwise_cons.mp honce).2, fun hgone => ?_, rfl⟩
  · show (jobs.length : ℤ) = r.requestedEvents.nrNodes - 1
    omega
  · show r.requestedEvents.nrNodes - 1 ≤ r.requestedEvents.volume
    omega
  · cases hnodes.symm.trans (ht.gone hgone)

/-- **The driver takes a mark**, and leaves the heap alone. -/
theorem Tracked.skip (ht : Tracked r) (hnodes : r.requestedEvents.nodes = evMaskTimer :: jobs)
    (htook : Took r r' jobs) (hheap : r'.heap = r.heap) : Tracked r' ∧ (Tidy r' ↔ Tidy r) := by
  obtain ⟨hexact, hvolume, honce, hgone, hjobs⟩ := ht.rest hnodes htook
  have hentries := ht.entries
  rw [hnodes] at hentries
  refine ⟨⟨hexact, hvolume, hheap ▸ ht.sound, hheap ▸ ht.aligned, ?_, honce, hgone⟩, ?_⟩
  · rw [hjobs, hheap]
    exact fun job hmem => hentries job (List.mem_cons_of_mem _ hmem)
  · constructor
    · rintro ⟨hwild, hlisted⟩
      rw [hheap] at hwild hlisted
      refine ⟨hwild, fun info hlive => ?_⟩
      rw [hnodes, ← hjobs]
      exact List.mem_cons_of_mem _ (hlisted info hlive)
    · rintro ⟨hwild, hlisted⟩
      rw [← hheap] at hwild hlisted
      refine ⟨hwild, fun info hlive => ?_⟩
      have hmem := hlisted info hlive
      rw [hnodes, List.mem_cons, ← hjobs] at hmem
      exact hmem.resolve_left (ht.live_ne_mark (hheap ▸ hlive))

/-- **A record is taken and freed.** -/
theorem Tracked.free (ht : Tracked r) (hnodes : r.requestedEvents.nodes = job :: jobs)
    (hjob : job ≠ evMaskTimer) (htook : Took r r' jobs) (hheap : r'.heap = r.heap.free job) :
    Tracked r' ∧ (Tidy r' ↔ Tidy r) := by
  obtain ⟨hexact, hvolume, honce, hgone, hjobs⟩ := ht.rest hnodes htook
  have hentries := ht.entries
  have hfirst := ht.once
  rw [hnodes] at hentries hfirst
  have hlive : r.heap.Live job := (hentries job List.mem_cons_self).resolve_left hjob
  have hout : job ∉ jobs := fun hmem =>
    hjob ((List.pairwise_cons.mp hfirst).1 job hmem rfl)
  obtain ⟨hsound, hwild', hlive', -⟩ := ht.sound.free hlive
  rw [← hheap] at hsound hwild' hlive'
  refine ⟨⟨hexact, hvolume, hsound, ?_, ?_, honce, hgone⟩, ?_⟩
  · have haligned : ∀ addr ∈ r.heap.blocks.map Alloc.addr, addr.toNat % 8 = 0 :=
      List.forall_mem_map.mpr ht.aligned
    rw [← Allocs.free_addrs r.heap job, ← hheap] at haligned
    exact List.forall_mem_map.mp haligned
  · rw [hjobs]
    intro job' hmem
    refine (hentries job' (List.mem_cons_of_mem _ hmem)).imp_right fun hrec => ?_
    exact (hlive' job').mpr ⟨hrec, fun heq => hout (heq ▸ hmem)⟩
  · constructor
    · rintro ⟨hwild, hlisted⟩
      refine ⟨hwild'.symm.trans hwild, fun info hrec => ?_⟩
      rw [hnodes, List.mem_cons, ← hjobs, or_iff_not_imp_left]
      exact fun hne => hlisted info ((hlive' info).mpr ⟨hrec, hne⟩)
    · rintro ⟨hwild, hlisted⟩
      refine ⟨hwild'.trans hwild, fun info hrec => ?_⟩
      obtain ⟨hrec, hne⟩ := (hlive' info).mp hrec
      have hmem := hlisted info hrec
      rw [hnodes, List.mem_cons, ← hjobs] at hmem
      exact hmem.resolve_left hne

/-- **A mark is freed**: that is no address of a record. -/
theorem Tracked.free_mark (ht : Tracked r) (hnodes : r.requestedEvents.nodes = evMaskTimer :: jobs)
    (htook : Took r r' jobs) (hheap : r'.heap = r.heap.free evMaskTimer) :
    Tracked r' ∧ r'.heap.wild ≠ [] := by
  have hno : ∀ b ∈ r.heap.blocks, b.addr ≠ evMaskTimer := fun b hb heq =>
    (aligned_ne_mark (ht.aligned b hb)).1 (heq ▸ rfl)
  rw [Allocs.free_unknown hno] at hheap
  obtain ⟨hexact, hvolume, honce, hgone, hjobs⟩ := ht.rest hnodes htook
  have hentries := ht.entries
  rw [hnodes] at hentries
  rw [hheap]
  refine ⟨⟨hexact, hvolume, ?_, ?_, ?_, honce, hgone⟩, List.cons_ne_nil _ _⟩
  · rw [hheap]
    exact ⟨ht.sound.frees_le, ht.sound.newest⟩
  · rw [hheap]
    exact ht.aligned
  · rw [hjobs, hheap]
    exact fun job hmem => hentries job (List.mem_cons_of_mem _ hmem)

/-- **A turn of the driver's loop** arms what its entry asks for, and frees a record. -/
theorem Tracked.switch (ht : Tracked r) (hnodes : r.requestedEvents.nodes = job :: jobs) :
    Tracked (switchJob (fetched r jobs) job) ∧
      (Tidy (switchJob (fetched r jobs) job) ↔ Tidy r) ∧
      Took r (switchJob (fetched r jobs) job) jobs ∧
      (switchJob (fetched r jobs) job).armed = r.armed ++ (jobOf r.heap job).toList ∧
      ∀ job', jobOf (switchJob (fetched r jobs) job).heap job' = jobOf r.heap job' := by
  have hentry := ht.entries
  rw [hnodes] at hentry
  by_cases hmark : job = evMaskTimer
  · subst hmark
    have htook : Took r (switchJob (fetched r jobs) evMaskTimer) jobs := ⟨rfl, rfl⟩
    obtain ⟨ht', htidy⟩ := ht.skip hnodes htook rfl
    exact ⟨ht', htidy, htook, rfl, fun _ => rfl⟩
  · have hlive := (hentry job List.mem_cons_self).resolve_left hmark
    obtain ⟨htimer, hevent⟩ := aligned_ne_mark (ht.live_aligned hlive)
    have heq : switchJob (fetched r jobs) job
        = { fetched r jobs with
            armed := r.armed ++ (jobOf r.heap job).toList, heap := r.heap.free job } := by
      unfold switchJob
      dsimp only
      rw [if_neg htimer, if_neg hevent]
      rfl
    rw [heq]
    have htook : Took r { fetched r jobs with
        armed := r.armed ++ (jobOf r.heap job).toList, heap := r.heap.free job } jobs := ⟨rfl, rfl⟩
    obtain ⟨ht', htidy⟩ := ht.free hnodes hmark htook rfl
    obtain ⟨-, -, -, hread⟩ := ht.sound.free hlive
    refine ⟨ht', htidy, htook, rfl, fun job' => ?_⟩
    unfold jobOf
    rw [hread]

/-- The driver's loop empties the list and keeps order. -/
theorem Tracked.switchAll (ht : Tracked r) :
    Tracked (fetchAll switchJob r) ∧ (fetchAll switchJob r).requestedEvents.nodes = [] ∧
      (Tidy (fetchAll switchJob r) ↔ Tidy r) := by
  unfold fetchAll
  generalize hjobs : r.requestedEvents.nodes = jobs
  induction jobs generalizing r with
  | nil => exact ⟨ht, hjobs, Iff.rfl⟩
  | cons job jobs ih =>
    obtain ⟨ht', htidy, htook, -⟩ := ht.switch hjobs
    rw [List.length_cons, fetchLoop_cons ht.exact hjobs]
    obtain ⟨hall, hnil, htidy'⟩ := ih ht' (by rw [htook.list]; rfl)
    exact ⟨hall, hnil, htidy'.trans htidy⟩

/-- The loop of `imp_dismiss` empties the list, and keeps order when there is no mark in it. -/
theorem Tracked.freeAll (ht : Tracked r) :
    Tracked (fetchAll freeMsg r) ∧ (fetchAll freeMsg r).requestedEvents.nodes = [] ∧
      (Tidy (fetchAll freeMsg r) ↔ Tidy r ∧ evMaskTimer ∉ r.requestedEvents.nodes) := by
  unfold fetchAll
  generalize hjobs : r.requestedEvents.nodes = jobs
  induction jobs generalizing r with
  | nil => exact ⟨ht, hjobs, (and_iff_left List.not_mem_nil).symm⟩
  | cons job jobs ih =>
    rw [List.length_cons, fetchLoop_cons ht.exact hjobs]
    by_cases hmark : job = evMaskTimer
    · subst hmark
      have htook : Took r (freeMsg (fetched r jobs) evMaskTimer) jobs := ⟨rfl, rfl⟩
      obtain ⟨ht', hwild⟩ := ht.free_mark hjobs htook rfl
      obtain ⟨hall, hnil, htidy⟩ := ih ht' rfl
      refine ⟨hall, hnil, iff_of_false (fun hafter => ?_) fun hbefore => ?_⟩
      · exact hwild (htidy.mp hafter).1.wild
      · exact hbefore.2 List.mem_cons_self
    · have htook : Took r (freeMsg (fetched r jobs) job) jobs := ⟨rfl, rfl⟩
      obtain ⟨ht', htidy⟩ := ht.free hjobs hmark htook rfl
      obtain ⟨hall, hnil, htidy'⟩ := ih ht' rfl
      refine ⟨hall, hnil, htidy'.trans ?_⟩
      rw [htidy, List.mem_cons, not_or, and_iff_right (Ne.symm hmark)]

/-! ## Lives -/

/-- `imp_driver` always gets to `fsm_driver`. -/
theorem beginDriver_eq (r : Records) (timeout event : Bool) :
    beginDriver r timeout event = { r with phase := .soul } := by
  have hkill : reductMask timeout event &&& evMaskKill = 0 := by
    cases timeout <;> cases event <;> rfl
  have halert : reductMask timeout event &&& evMaskGlobalAlert = 0 := by
    cases timeout <;> cases event <;> rfl
  unfold beginDriver
  rw [if_neg (not_not.mpr hkill), if_neg (not_not.mpr halert)]

/-- The phase matters for order only when the imp is gone. -/
theorem Tracked.moved (ht : Tracked r) (phase : Phase)
    (hgone : phase = .dismissed → r.requestedEvents.nodes = []) :
    Tracked { r with phase := phase } ∧ (Tidy { r with phase := phase } ↔ Tidy r) := by
  obtain ⟨hexact, hvolume, hsound, haligned, hentries, honce, -⟩ := ht
  refine ⟨⟨hexact, hvolume, hsound, haligned, hentries, honce, hgone⟩, ?_⟩
  exact ⟨fun ⟨hwild, hlisted⟩ => ⟨hwild, hlisted⟩, fun ⟨hwild, hlisted⟩ => ⟨hwild, hlisted⟩⟩

/-- **One event**: the entries stay tracked, and order is kept just by a careful event. -/
theorem Tracked.step {act : RecordAct} (ht : Tracked r) (hstep : step r act = some r') :
    Tracked r' ∧ (Tidy r' ↔ Tidy r ∧ Careful r act) := by
  cases act with
  | drive timeout event =>
    obtain ⟨-, heq⟩ := Option.ite_none_right_eq_some.mp hstep
    obtain rfl := Option.some.inj heq
    rw [beginDriver_eq]
    obtain ⟨ht', htidy⟩ := ht.moved .soul nofun
    exact ⟨ht', htidy.trans (and_iff_left trivial).symm⟩
  | setIoev fd ev info node =>
    obtain ⟨⟨hphase, hnew⟩, heq⟩ := Option.ite_none_right_eq_some.mp hstep
    obtain rfl := Option.some.inj heq
    exact ht.impSetIoev hphase hnew fd ev node
  | setTimer node =>
    obtain ⟨hphase, heq⟩ := Option.ite_none_right_eq_some.mp hstep
    obtain rfl := Option.some.inj heq
    obtain ⟨ht', htidy⟩ := ht.impSetTimer hphase node
    exact ⟨ht', htidy.trans (and_iff_left trivial).symm⟩
  | ret code =>
    obtain ⟨-, heq⟩ := Option.ite_none_right_eq_some.mp hstep
    obtain rfl := Option.some.inj heq
    unfold endDriver
    split
    next =>
      obtain ⟨ht', htidy⟩ := ht.moved .ready nofun
      exact ⟨ht', htidy.trans (and_iff_left trivial).symm⟩
    next =>
      obtain ⟨ht', -, htidy⟩ := ht.switchAll
      obtain ⟨ht'', htidy'⟩ := ht'.moved .ready nofun
      exact ⟨ht'', (htidy'.trans htidy).trans (and_iff_left trivial).symm⟩
  | dismiss =>
    obtain ⟨-, heq⟩ := Option.ite_none_right_eq_some.mp hstep
    obtain rfl := Option.some.inj heq
    obtain ⟨ht', hnil, htidy⟩ := ht.freeAll
    obtain ⟨ht'', htidy'⟩ := ht'.moved .dismissed fun _ => hnil
    exact ⟨ht'', htidy'.trans htidy⟩

/-- **Runs**: whatever happens the entries stay tracked, and order is kept just when all events
were careful. -/
theorem Tracked.exec {acts : List RecordAct} (ht : Tracked r)
    (hrun : life.exec Machine.Always r acts = some r') :
    Tracked r' ∧ (Tidy r' ↔ Tidy r ∧ life.exec Careful r acts = some r') := by
  induction acts generalizing r with
  | nil =>
    obtain rfl := Option.some.inj hrun
    exact ⟨ht, (and_iff_left rfl).symm⟩
  | cons act acts ih =>
    rw [Machine.exec, if_pos (show Machine.Always r act from trivial)] at hrun
    split at hrun
    next => cases hrun
    next r₁ hstep =>
      obtain ⟨ht₁, htidy₁⟩ := ht.step hstep
      obtain ⟨ht', htidy'⟩ := ih ht₁ hrun
      refine ⟨ht', htidy'.trans ?_⟩
      rw [htidy₁, Machine.exec]
      by_cases hcareful : Careful r act
      · rw [if_pos hcareful, hstep, and_iff_left hcareful]
      · rw [if_neg hcareful]
        exact iff_of_false (fun hboth => hcareful hboth.1.2) fun hboth =>
          Option.some_ne_none r' hboth.2.symm

/-- **Every life of an imp**: no record is ever freed twice; and when the imp has been dismissed,
every record was freed once and nothing else was, just when the list took every record and
`imp_dismiss` found no mark in it. -/
theorem freedOnce_iff {acts : List RecordAct}
    (hrun : life.exec Machine.Always impNew acts = some r) :
    (∀ b ∈ r.heap.blocks, b.frees ≤ 1) ∧
      (r.phase = .dismissed →
        (r.heap.FreedOnce ↔ life.exec Careful impNew acts = some r)) := by
  obtain ⟨ht, htidy⟩ := tracked_impNew.exec hrun
  refine ⟨ht.sound.frees_le, fun hgone => ?_⟩
  rw [and_iff_right tidy_impNew] at htidy
  rw [ht.sound.once_iff, ← htidy]
  constructor
  · rintro ⟨hwild, hlive⟩
    exact ⟨hwild, fun info hrec => absurd hrec (hlive info)⟩
  · rintro ⟨hwild, hlisted⟩
    refine ⟨hwild, fun info hrec => ?_⟩
    have hmem := hlisted info hrec
    rw [ht.gone hgone] at hmem
    cases hmem

/-- A life with a timer and two records, the second at the address of the first, that ends without
requests. -/
def twoRecords : List RecordAct :=
  [.drive false false, .setTimer true, .setIoev 5 1 0x1000 true, .ret toBlock, .drive true false,
    .setIoev 5 1 0x1000 true, .ret toBlock, .drive false false, .ret toTerm, .dismiss]

theorem freedOnce_twoRecords :
    ∃ r, life.exec Machine.Always impNew twoRecords = some r ∧ r.heap.blocks.length = 2 ∧
      r.heap.FreedOnce := by
  refine ⟨_, rfl, rfl, ?_⟩
  have hrun : life.exec Machine.Always impNew twoRecords = some _ := rfl
  exact ((freedOnce_iff hrun).2 (by decide)).mpr (by decide)

/-- An imp that asks for a timer in its last run: `imp_dismiss` calls `free` on the mark. And one
whose record finds no memory for a node: the record is never freed. -/
theorem free_mark_or_leak :
    (∃ acts r, life.exec Machine.Always impNew acts = some r ∧ r.phase = .dismissed ∧
      r.heap.wild = [evMaskTimer] ∧ ¬ r.heap.FreedOnce) ∧
    ∃ acts r, life.exec Machine.Always impNew acts = some r ∧ r.phase = .dismissed ∧
      r.heap.wild = [] ∧ ¬ r.heap.FreedOnce := by
  constructor
  · refine ⟨[.drive false false, .setTimer true, .ret toTerm, .dismiss], _, rfl, rfl, rfl, ?_⟩
    rintro ⟨hwild, -⟩
    cases hwild
  · refine ⟨[.drive false false, .setIoev 5 1 0x1000 false, .ret toTerm, .dismiss], _, rfl, rfl,
      rfl, ?_⟩
    rintro ⟨-, hfrees⟩
    cases hfrees _ List.mem_cons_self

/-! ## The requests of `Dungeon.Imp` -/

/-- What the entries ask for. -/
def requests (r : Records) : List EpollJob := r.requestedEvents.nodes.filterMap (jobOf r.heap)

theorem jobOf_mark (heap : Allocs (BitVec 64) EpollDataSt) :
    jobOf heap evMaskTimer = some .timer := if_pos rfl

theorem jobOf_record (heap : Allocs (BitVec 64) EpollDataSt) (haligned : info.toNat % 8 = 0) :
    jobOf heap info = (heap.read info).map fun info => .user info.fd info.events := by
  obtain ⟨htimer, hevent⟩ := aligned_ne_mark haligned
  unfold jobOf
  rw [if_neg htimer, if_neg hevent]

/-- Each entry asks for something. -/
theorem Tracked.requests_length (ht : Tracked r) :
    (r.requests.length : ℤ) = r.requestedEvents.nrNodes := by
  rw [← ht.exact.length_eq]
  unfold requests
  rw [List.filterMap_length_eq_length.mpr]
  intro job hmem
  obtain rfl | hlive := ht.entries job hmem
  · rfl
  · rw [jobOf_record _ (ht.live_aligned hlive), Option.isSome_map]
    exact hlive.read

/-- An entry joins the list as its request joins the list of the imp. -/
theorem Tracked.requests_append (ht : Tracked r) {h : Heart} {imp : ImpId} {request : EpollJob}
    (hreq : (h.imps imp).requestedEvents = r.requests) (hjob : jobOf r.heap job = some request) :
    ((appendJob h imp request).imps imp).requestedEvents = (r.append job true).requests := by
  have hlen := ht.requests_length
  have hvol := ht.volume
  unfold appendJob
  rw [modifyImp_self, hreq]
  obtain ⟨hroom, -, heq⟩ | ⟨hno, heq⟩ := append_cases r job true
  · rw [if_pos (by omega), heq]
    show r.requests ++ [request] = (r.requestedEvents.nodes ++ [job]).filterMap (jobOf r.heap)
    rw [List.filterMap_append, List.filterMap_cons_some hjob]
    rfl
  · have hfull : ¬ r.requestedEvents.nrNodes < r.requestedEvents.volume := fun hroom =>
      Bool.noConfusion (hno hroom)
    rw [if_neg (by omega), heq, hreq]

/-- `imp_set_timer` here and there. -/
theorem Tracked.requests_impSetTimer (ht : Tracked r) {h : Heart} {imp : ImpId} (ms : ℤ)
    (hreq : (h.imps imp).requestedEvents = r.requests) :
    ((Dungeon.impSetTimer h imp ms).imps imp).requestedEvents = (r.impSetTimer true).requests := by
  refine ht.requests_append (h := askTimer h imp ms) ?_ (jobOf_mark _)
  unfold askTimer
  rw [modifyImp_self]
  exact hreq

/-- `imp_set_ioev` here and there. -/
theorem Tracked.requests_impSetIoev (ht : Tracked r) {h : Heart} {imp : ImpId}
    (hnew : r.Allocatable info) (fd : ℕ) (ev : BitVec 32)
    (hreq : (h.imps imp).requestedEvents = r.requests) :
    ((Dungeon.impSetIoev h imp fd ev).imps imp).requestedEvents
      = (r.impSetIoev fd ev info true).requests := by
  obtain ⟨-, haligned, hfresh⟩ := hnew
  have hnew : jobOf (r.heap.malloc info ⟨ev, fd⟩) info = some (.user fd ev) := by
    rw [jobOf_record _ haligned, Allocs.read_malloc_self]
    rfl
  have hold : requests { r with heap := r.heap.malloc info ⟨ev, fd⟩ } = r.requests := by
    refine List.filterMap_congr fun job hmem => ?_
    obtain rfl | hlive := ht.entries job hmem
    · rfl
    · have hne : job ≠ info := fun heq => hfresh (heq ▸ hlive)
      rw [jobOf_record _ (ht.live_aligned hlive), jobOf_record _ (ht.live_aligned hlive),
        Allocs.read_malloc_of_ne hne]
  exact (ht.malloc haligned hfresh fd ev).requests_append (hreq.trans hold.symm) hnew

/-- The driver hands the requests of the list to `set_poll_action`, in order. -/
theorem Tracked.armed_switchAll (ht : Tracked r) :
    (fetchAll switchJob r).armed = r.armed ++ r.requests := by
  unfold fetchAll requests
  generalize hjobs : r.requestedEvents.nodes = jobs
  induction jobs generalizing r with
  | nil => exact (List.append_nil _).symm
  | cons job jobs ih =>
    obtain ⟨ht', -, htook, harmed, hsame⟩ := ht.switch hjobs
    rw [List.length_cons, fetchLoop_cons ht.exact hjobs, ih ht' (by rw [htook.list]; rfl), harmed,
      List.append_assoc]
    refine congrArg (r.armed ++ ·) ?_
    rw [List.filterMap_congr fun job' _ => hsame job']
    cases hjob : jobOf r.heap job with
    | none => exact (List.filterMap_cons_none hjob).symm
    | some request => exact (List.filterMap_cons_some hjob).symm

end Records

end Dungeon

import Dungeon.Iteration

/-!
# What wakes a sleeping imp (`imp.c`)

An imp sleeps when its soul has requested something, however many of the requests could be
armed: a failure of `epoll_ctl` is logged and forgotten.

- `SoulRun.requests`: what a run of the soul asks for.
- `HasWakeSource`: the imp is in a queue, or the kernel has it as the data of a descriptor it
  asked for.
- `armLoop_registered`: which descriptors the driver's loop registers.
- `driver_wakeSource_iff`: after a call of `imp_driver`, with any outcomes of `epoll_ctl`, there
  is a source just when one of the calls succeeded, apart from what was so before and from an
  imp that ends.
-/

namespace Dungeon

/-- The request an act of the soul makes. -/
def SoulAct.request : SoulAct → Option EpollJob
  | .setIoev fd events => some (.user fd events)
  | .setTimer _ => some .timer
  | .closeFd _ | .summon _ => none

/-- The requests of a run, in order. -/
def SoulRun.requests (run : SoulRun) : List EpollJob := run.acts.filterMap SoulAct.request

/-- The kernel reports events on `fd` with the imp as their data. -/
def RegisteredFor (h : Heart) (imp : ImpId) (fd : Fd) : Prop :=
  (h.epoll fd).map Reg.data = some imp

instance (h : Heart) (imp : ImpId) (fd : Fd) : Decidable (RegisteredFor h imp fd) :=
  inferInstanceAs (Decidable (_ = _))

/-- The imp is in a queue, or a descriptor of the requests is registered for it. -/
def HasWakeSource (h : Heart) (imp : ImpId) (requests : List EpollJob) : Prop :=
  imp ∈ h.found ∨ ∃ job ∈ requests, RegisteredFor h imp (job.fd imp)

instance (h : Heart) (imp : ImpId) (requests : List EpollJob) :
    Decidable (HasWakeSource h imp requests) :=
  inferInstanceAs (Decidable (_ ∨ _))

/-- For one of the requested descriptors a pair of `epoll_ctl` calls succeeds, when the pair for
the `i`-th of the `jobs` does if `ctl i`. -/
def Armed (imp : ImpId) (requests jobs : List EpollJob) (ctl : ℕ → Bool) : Prop :=
  ∃ i job, jobs[i]? = some job ∧ ctl i = true ∧ ∃ r ∈ requests, r.fd imp = job.fd imp

/-- The requests in the list when the soul returns: what was there, and the requests of the run
as long as there is room. -/
def queued (h : Heart) (imp : ImpId) (run : SoulRun) : List EpollJob :=
  (h.imps imp).requestedEvents ++
    run.requests.take (requestedVolume - (h.imps imp).requestedEvents.length)

/-- The soul closes a descriptor itself. -/
def SoulAct.Closes (act : SoulAct) (fd : Fd) : Prop := ∃ n, fd = .user n ∧ act = .closeFd n

/-- A descriptor the imp has registered already, and that the run of its soul does not close. -/
def StaysRegistered (h : Heart) (imp : ImpId) (run : SoulRun) (fd : Fd) : Prop :=
  RegisteredFor h imp fd ∧ ∀ act ∈ run.acts, ¬ act.Closes fd

variable {h : Heart} {imp : ImpId} {run : SoulRun} {fd : Fd} {ctl : ℕ → Bool}

/-! ## What the soul leaves -/

/-- A new imp is put into the run queue, if anywhere. -/
theorem found_impRun {imp' : ImpId} (hne : imp ≠ imp') :
    imp ∈ (impRun h imp').found ↔ imp ∈ h.found := by
  obtain ⟨-, -, hlist | hlist⟩ := h.runQueue.queueEnqueueUniqNb_bound imp'
  · show imp ∈ (h.runQueue.queueEnqueueUniqNb imp').2.toList ++ h.terminatedQueue.toList ↔ _
    rw [hlist]
    exact Iff.rfl
  · show imp ∈ (h.runQueue.queueEnqueueUniqNb imp').2.toList ++ h.terminatedQueue.toList ↔ _
    rw [hlist]
    simp [Heart.found, hne]

/-- What `imp_summon` leaves of another imp. -/
structure Untouched (h h' : Heart) (imp : ImpId) : Prop where
  nextId_le : h.nextId ≤ h'.nextId
  imps : h'.imps imp = h.imps imp
  found : imp ∈ h'.found ↔ imp ∈ h.found
  terminatedQueue : h'.terminatedQueue = h.terminatedQueue
  registered : ∀ job : EpollJob,
    RegisteredFor h' imp (job.fd imp) ↔ RegisteredFor h imp (job.fd imp)

theorem Untouched.impNew (hlt : imp < h.nextId) : Untouched h (impNew h) imp where
  nextId_le := Nat.le_succ _
  imps := Function.update_of_ne hlt.ne _ _
  found := Iff.rfl
  terminatedQueue := rfl
  registered := by
    intro job
    have htimer : job.fd imp ≠ .timerFd h.nextId := by
      cases job with
      | timer => exact fun heq => hlt.ne (Fd.timerFd.inj heq)
      | event | user => exact nofun
    have hevent : job.fd imp ≠ .eventFd h.nextId := by
      cases job with
      | event => exact fun heq => hlt.ne (Fd.eventFd.inj heq)
      | timer | user => exact nofun
    show (Function.update (Function.update h.epoll _ _) _ _ (job.fd imp)).map Reg.data = _ ↔ _
    rw [Function.update_of_ne hevent, Function.update_of_ne htimer]
    exact Iff.rfl

/-- `imp_summon` is about its own imp. -/
theorem Untouched.impSummon (hlt : imp < h.nextId) (ok : Bool) :
    Untouched h (impSummon h ok) imp := by
  have hne : imp ≠ h.nextId := hlt.ne
  unfold Dungeon.impSummon
  split
  next => exact ⟨le_rfl, rfl, Iff.rfl, rfl, fun _ => Iff.rfl⟩
  next =>
    split
    next =>
      obtain ⟨hle, himps, hfound, hterm, hreg⟩ := Untouched.impNew hlt
      have himps' : (beginImp (countImp (Dungeon.impNew h) h.nextId) h.nextId).imps imp
          = h.imps imp := by
        unfold beginImp
        rw [modifyImp_of_ne _ _ _ _ hne]
        exact (Function.update_of_ne hne _ (Dungeon.impNew h).imps).trans himps
      exact ⟨hle, himps', (found_impRun hne).trans hfound, hterm, hreg⟩
    next => exact ⟨Nat.le_succ _, rfl, Iff.rfl, rfl, fun _ => Iff.rfl⟩

/-- What the acts of a soul do to its imp. -/
structure Acted (h h' : Heart) (imp : ImpId) (acts : List SoulAct) : Prop where
  nextId_le : h.nextId ≤ h'.nextId
  requested : (h'.imps imp).requestedEvents = (h.imps imp).requestedEvents ++
    (acts.filterMap SoulAct.request).take
      (requestedVolume - (h.imps imp).requestedEvents.length)
  found : imp ∈ h'.found ↔ imp ∈ h.found
  terminatedQueue : h'.terminatedQueue = h.terminatedQueue
  registered : ∀ job : EpollJob, RegisteredFor h' imp (job.fd imp) ↔
    RegisteredFor h imp (job.fd imp) ∧ ∀ act ∈ acts, ¬ act.Closes (job.fd imp)

/-- A request joins the list while there is room. -/
theorem requested_appendJob (h : Heart) (imp : ImpId) (job : EpollJob) :
    ((appendJob h imp job).imps imp).requestedEvents = (h.imps imp).requestedEvents ++
      [job].take (requestedVolume - (h.imps imp).requestedEvents.length) := by
  unfold appendJob
  rw [modifyImp_self]
  split
  next hroom =>
    rw [List.take_of_length_le]
    exact Nat.sub_pos_of_lt hroom
  next hfull =>
    rw [Nat.sub_eq_zero_of_le (Nat.le_of_not_lt hfull), List.take_zero, List.append_nil]

/-- One act. -/
theorem Acted.one (hlt : imp < h.nextId) (act : SoulAct) :
    Acted h (soulAct imp h act) imp [act] := by
  cases act with
  | setIoev fd events =>
    refine ⟨le_rfl, requested_appendJob h imp _, Iff.rfl, rfl, fun job => ?_⟩
    simp [soulAct, impSetIoev, appendJob, RegisteredFor, SoulAct.Closes]
  | setTimer ms =>
    refine ⟨le_rfl, ?_, Iff.rfl, rfl, fun job => ?_⟩
    · have hask : ((askTimer h imp ms).imps imp).requestedEvents
          = (h.imps imp).requestedEvents := by
        unfold askTimer
        rw [modifyImp_self]
      show ((appendJob (askTimer h imp ms) imp .timer).imps imp).requestedEvents = _
      rw [requested_appendJob, hask]
      rfl
    · simp [soulAct, impSetTimer, askTimer, appendJob, RegisteredFor, SoulAct.Closes]
  | closeFd fd =>
    refine ⟨le_rfl, ?_, Iff.rfl, rfl, fun job => ?_⟩
    · show (h.imps imp).requestedEvents = _
      simp [SoulAct.request]
    show (Function.update h.epoll (.user fd) none (job.fd imp)).map Reg.data = some imp ↔ _
    by_cases heq : job.fd imp = .user fd
    · rw [heq, Function.update_self]
      simp [SoulAct.Closes]
    · have hopen : ¬ (SoulAct.closeFd fd).Closes (job.fd imp) := by
        rintro ⟨n, hfd, hclose⟩
        exact heq (hfd.trans (congrArg Fd.user (SoulAct.closeFd.inj hclose).symm))
      rw [Function.update_of_ne heq, List.forall_mem_singleton, and_iff_left hopen]
      exact Iff.rfl
  | summon ok =>
    obtain ⟨hle, himps, hfound, hterm, hreg⟩ := Untouched.impSummon hlt ok
    refine ⟨hle, ?_, hfound, hterm, fun job => (hreg job).trans ?_⟩
    · show ((impSummon h ok).imps imp).requestedEvents = _
      rw [himps]
      simp [SoulAct.request]
    · simp [SoulAct.Closes]

/-- One after the other. -/
theorem Acted.trans {h' h'' : Heart} {acts acts' : List SoulAct} (ha : Acted h h' imp acts)
    (ha' : Acted h' h'' imp acts') : Acted h h'' imp (acts ++ acts') where
  nextId_le := ha.nextId_le.trans ha'.nextId_le
  requested := by
    have hroom : requestedVolume - (h'.imps imp).requestedEvents.length =
        requestedVolume - (h.imps imp).requestedEvents.length -
          (acts.filterMap SoulAct.request).length := by
      rw [ha.requested, List.length_append, List.length_take]
      omega
    rw [ha'.requested, hroom, ha.requested, List.append_assoc, List.filterMap_append,
      List.take_append]
  found := ha'.found.trans ha.found
  terminatedQueue := ha'.terminatedQueue.trans ha.terminatedQueue
  registered := by
    intro job
    rw [ha'.registered, ha.registered, List.forall_mem_append, and_assoc]

/-- Nothing the soul did. -/
theorem Acted.of_eq {h' : Heart} (hid : h'.nextId = h.nextId)
    (hreq : (h'.imps imp).requestedEvents = (h.imps imp).requestedEvents)
    (hrun : h'.runQueue = h.runQueue) (hterm : h'.terminatedQueue = h.terminatedQueue)
    (hepoll : h'.epoll = h.epoll) : Acted h h' imp [] where
  nextId_le := hid.ge
  requested := by simp [hreq]
  found := by
    unfold Heart.found
    rw [hrun, hterm]
  terminatedQueue := hterm
  registered := by simp [RegisteredFor, hepoll]

/-- **A list of acts**, by induction on it. -/
theorem Acted.all (hlt : imp < h.nextId) (acts : List SoulAct) :
    Acted h (acts.foldl (soulAct imp) h) imp acts := by
  induction acts generalizing h with
  | nil => exact Acted.of_eq rfl rfl rfl rfl rfl
  | cons act acts ih =>
    have hone := Acted.one hlt act
    exact hone.trans (ih (hlt.trans_le hone.nextId_le))

/-- **A run of the soul** in `imp_driver`. -/
theorem Acted.fsmDriver (hlt : imp < h.nextId) :
    Acted h (fsmDriver (reducted h imp) imp run) imp run.acts := by
  have hmask : Acted h (impReductEventMask h imp).2 imp [] := by
    unfold impReductEventMask
    dsimp only
    split
    all_goals
      exact Acted.of_eq rfl (by simp [cleanupTimer, cleanupEvent, impCancelTimer]) rfl rfl rfl
  have hstart : Acted (impReductEventMask h imp).2 (beginSoul (reducted h imp) imp) imp [] :=
    Acted.of_eq rfl (by simp [beginSoul, reducted, storeEventMask]) rfl rfl rfl
  have hbegun := hmask.trans hstart
  exact hbegun.trans (Acted.all (hlt.trans_le hbegun.nextId_le) run.acts)

/-! ## What the driver's loop arms -/

/-- Arming one request. -/
theorem armJob_registered (job : EpollJob) (ok : Bool) :
    RegisteredFor (armJob (fetchJob h imp) imp job ok) imp fd ↔
      RegisteredFor h imp fd ∨ (job.fd imp = fd ∧ ok = true) := by
  cases ok with
  | false =>
    show RegisteredFor h imp fd ↔ _
    rw [iff_self_or]
    exact fun hbad => absurd hbad.2 Bool.false_ne_true
  | true =>
    show (Function.update h.epoll (job.fd imp) (some _) fd).map Reg.data = some imp ↔ _
    by_cases hfd : fd = job.fd imp
    · rw [hfd, Function.update_self]
      exact iff_of_true rfl (.inr ⟨rfl, rfl⟩)
    · rw [Function.update_of_ne hfd]
      exact (or_iff_left fun hbad => hfd hbad.1.symm).symm

/-- **The loop** registers what was registered before, and the requests whose calls succeed. -/
theorem armLoop_registered (count : ℕ) (jobs : List EpollJob) :
    RegisteredFor (armLoop imp ctl h count jobs).1 imp fd ↔
      RegisteredFor h imp fd ∨
        ∃ i job, jobs[i]? = some job ∧ job.fd imp = fd ∧ ctl (count + i) = true := by
  induction jobs generalizing h count with
  | nil =>
    show RegisteredFor h imp fd ↔ _
    rw [iff_self_or]
    rintro ⟨i, job, hjob, -⟩
    cases hjob
  | cons job jobs ih =>
    show RegisteredFor (armLoop imp ctl (armJob (fetchJob h imp) imp job (ctl count)) (count + 1)
      jobs).1 imp fd ↔ _
    rw [ih, armJob_registered, or_assoc]
    refine or_congr_right ⟨?_, ?_⟩
    · rintro (⟨hfd, hok⟩ | ⟨i, job', hjob, hfd, hok⟩)
      · exact ⟨0, job, rfl, hfd, hok⟩
      · refine ⟨i + 1, job', hjob, hfd, ?_⟩
        rwa [Nat.add_right_comm] at hok
    · rintro ⟨i, job', hjob, hfd, hok⟩
      cases i with
      | zero =>
        obtain rfl := Option.some.inj hjob
        exact .inl ⟨hfd, hok⟩
      | succ i =>
        refine .inr ⟨i, job', hjob, hfd, ?_⟩
        rwa [Nat.add_right_comm]

/-- The loop moves no imp, and counts the requests. -/
theorem armLoop_found (count : ℕ) (jobs : List EpollJob) :
    (armLoop imp ctl h count jobs).1.found = h.found ∧
      (armLoop imp ctl h count jobs).2 = count + jobs.length := by
  induction jobs generalizing h count with
  | nil => exact ⟨rfl, rfl⟩
  | cons job jobs ih =>
    obtain ⟨hfound, hcount⟩ :=
      ih (h := armJob (fetchJob h imp) imp job (ctl count)) (count + 1)
    refine ⟨hfound.trans ?_, hcount.trans ?_⟩
    · unfold armJob setPollAction
      split <;> rfl
    · rw [List.length_cons]
      omega

/-! ## Calls of `imp_driver` -/

/-- Ending an imp puts it into its queue when there is room. -/
theorem found_impTerm (h : Heart) (imp : ImpId) :
    imp ∈ (impTerm h imp).found ↔
      imp ∈ h.found ∨ h.terminatedQueue.toList.length < h.terminatedQueue.max := by
  show imp ∈ h.runQueue.toList ++ (h.terminatedQueue.queueEnqueueNb imp).2.toList ↔ _
  rcases Nat.lt_or_ge h.terminatedQueue.toList.length h.terminatedQueue.max with hroom | hfull
  · rw [(Queue.queueEnqueueNb_of_room hroom imp).2]
    simp [hroom]
  · have hsame : (h.terminatedQueue.queueEnqueueNb imp).2.toList = h.terminatedQueue.toList := by
      have hfull' : h.terminatedQueue.raw.max ≤ h.terminatedQueue.raw.nr := by
        rw [← RawQueue.toList_length (q := h.terminatedQueue.raw)]
        exact hfull
      show (h.terminatedQueue.raw.queueEnqueueNb imp).2.toList = h.terminatedQueue.raw.toList
      rw [RawQueue.queueEnqueueNb_of_full hfull']
    rw [hsame, or_iff_left (Nat.not_lt.mpr hfull)]
    exact Iff.rfl

/-- A soul that asks for something leaves a request. -/
theorem queued_ne_nil (hask : run.requests ≠ []) : queued h imp run ≠ [] := by
  intro hnil
  obtain ⟨hold, hnew⟩ := List.append_eq_nil_iff.mp hnil
  rw [hold] at hnew
  exact (List.take_eq_nil_iff.mp hnew).elim (by decide) hask

/-- The loop's end when something was requested: the imp sleeps. -/
theorem settle_requested {count : ℕ} (hpos : 0 < count) :
    (settle h imp count).found = h.found ∧ (settle h imp count).epoll = h.epoll := by
  unfold settle
  rw [if_pos hpos]
  exact ⟨rfl, rfl⟩

/-- **A call of `imp_driver`** whose soul asks for something leaves a source of wake-ups just when
the imp is in a queue anyway, or it ends and there is room for it, or a descriptor it asked for
was registered for it before and is still open, or the calls succeed for one it asked for. -/
theorem driver_wakeSource_iff (hlt : imp < h.nextId) (hask : run.requests ≠ [])
    (mod add : ℕ → Bool) :
    HasWakeSource (impDriver h imp run fun n => mod n || add n) imp run.requests ↔
      imp ∈ h.found ∨
      (run.ret = toTerm ∧ h.terminatedQueue.toList.length < h.terminatedQueue.max) ∨
      (∃ job ∈ run.requests, StaysRegistered h imp run (job.fd imp)) ∨
      (run.ret ≠ toTerm ∧
        Armed imp run.requests (queued h imp run) fun n => mod n || add n) := by
  generalize (fun n => mod n || add n) = ctl
  have hacted : Acted h (fsmDriver (reducted h imp) imp run) imp run.acts := Acted.fsmDriver hlt
  have hqueued : ((fsmDriver (reducted h imp) imp run).imps imp).requestedEvents
      = queued h imp run := hacted.requested
  have hstays : ∀ job : EpollJob,
      RegisteredFor (fsmDriver (reducted h imp) imp run) imp (job.fd imp)
        ↔ StaysRegistered h imp run (job.fd imp) := hacted.registered
  rw [impDriver_eq]
  by_cases hterm : run.ret = toTerm
  · rw [if_pos hterm]
    unfold HasWakeSource
    rw [found_impTerm, hacted.found, hacted.terminatedQueue]
    have hreg : (∃ job ∈ run.requests, RegisteredFor (impTerm (fsmDriver (reducted h imp) imp run)
        imp) imp (job.fd imp)) ↔ ∃ job ∈ run.requests, StaysRegistered h imp run (job.fd imp) :=
      exists_congr fun job => and_congr_right fun _ => hstays job
    rw [hreg, or_assoc]
    simp [hterm]
  · rw [if_neg hterm, hqueued]
    generalize fsmDriver (reducted h imp) imp run = h₁ at hacted hstays
    obtain ⟨hfound, hcount⟩ :
        (armLoop imp ctl h₁ 0 (queued h imp run)).1.found = h₁.found ∧
          (armLoop imp ctl h₁ 0 (queued h imp run)).2 = 0 + (queued h imp run).length :=
      armLoop_found 0 _
    have harmed : ∀ fd, RegisteredFor (armLoop imp ctl h₁ 0 (queued h imp run)).1 imp fd ↔
        RegisteredFor h₁ imp fd ∨
          ∃ i job, (queued h imp run)[i]? = some job ∧ job.fd imp = fd ∧ ctl (0 + i) = true :=
      fun fd => armLoop_registered 0 _
    generalize armLoop imp ctl h₁ 0 (queued h imp run) = loop at hfound hcount harmed
    have hpos : 0 < loop.2 := by
      rw [hcount, Nat.zero_add]
      exact List.length_pos_of_ne_nil (queued_ne_nil hask)
    obtain ⟨hfound', hepoll⟩ : (settle loop.1 imp loop.2).found = loop.1.found ∧
        (settle loop.1 imp loop.2).epoll = loop.1.epoll := settle_requested hpos
    show (imp ∈ (settle loop.1 imp loop.2).found ∨ ∃ job ∈ run.requests,
      ((settle loop.1 imp loop.2).epoll (job.fd imp)).map Reg.data = some imp) ↔ _
    rw [hfound', hfound, hacted.found, hepoll]
    refine or_congr_right ?_
    rw [or_iff_right fun hend => hterm hend.1, and_iff_right hterm]
    constructor
    · rintro ⟨job, hjob, hreg⟩
      rcases (harmed _).mp hreg with hstay | ⟨i, job', hget, hfd, hok⟩
      · exact .inl ⟨job, hjob, (hstays job).mp hstay⟩
      · rw [Nat.zero_add] at hok
        exact .inr ⟨i, job', hget, hok, job, hjob, hfd.symm⟩
    · rintro (⟨job, hjob, hstay⟩ | ⟨i, job', hget, hok, job, hjob, hfd⟩)
      · exact ⟨job, hjob, (harmed _).mpr (.inl ((hstays job).mpr hstay))⟩
      · rw [← Nat.zero_add i] at hok
        refine ⟨job, hjob, (harmed _).mpr (.inr ⟨i, job', hget, hfd.symm, hok⟩)⟩

/-- A heart whose only imp has just been taken out of the run queue. -/
def loneImp : Heart :=
  let h := impSummon (dungeonInit Nat.one_pos (fun _ => 0) (fun _ => 0) (fun _ => 0) fun _ => 0)
    true
  { h with runQueue := (h.runQueue.queueDequeueNb.map Prod.snd).getD h.runQueue }

/-- The only imp waits for descriptor 5, and `EPOLL_CTL_ADD` succeeds. -/
theorem driver_wakeSource_five :
    HasWakeSource (impDriver loneImp 1 ⟨[.setIoev 5 1], 1⟩ fun n => n != 0 || n == 0) 1
      [.user 5 1] :=
  (@driver_wakeSource_iff loneImp 1 ⟨[.setIoev 5 1], 1⟩ (by decide) (by decide)
    (fun n => n != 0) fun n => n == 0).mpr
    (.inr (.inr (.inr ⟨by decide, 0, .user 5 1, rfl, rfl, .user 5 1, List.mem_cons_self, rfl⟩)))

/-- Both calls fail: the imp sleeps, and is counted as sleeping, but nothing can wake it. -/
theorem driver_sleeps_for_ever :
    ∃ (h : Heart) (imp : ImpId) (run : SoulRun) (mod add : ℕ → Bool),
      imp < h.nextId ∧ run.requests ≠ [] ∧
      ¬ HasWakeSource (impDriver h imp run fun n => mod n || add n) imp run.requests ∧
      (impDriver h imp run fun n => mod n || add n).nrWaitio = 1 := by
  refine ⟨loneImp, 1, ⟨[.setIoev 5 1], 1⟩, fun _ => false, fun _ => false, by decide, by decide,
    ?_, by decide⟩
  decide

end Dungeon

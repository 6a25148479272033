import Dungeon.Tokens

/-!
# Accounting of sleeping imps

`nr_waitio` is raised once per sleep, after all descriptors are armed, and lowered once
per successful compare-and-swap. The two pair up through two debts: a worker past its
first `waitio = TRUE` owes an increment, and the epoll thread between its
compare-and-swap and `nr_waitio--` owes a decrement.

- `Waits`: `nr_waitio`, the debts and the raised flags of summoned imps agree.
- `nrWaitio_eq`: with no debts left, `nr_waitio` is the number of sleeping imps, in every
  run in which no imp is woken while its driver is still arming its descriptors.
- `nrWaitio_drifts`: a wake-up between two arms of one sleep breaks the count for good.
-/

namespace Dungeon

open Tally Few

variable {W R : ℕ}

/-- The imp is live and its `waitio` is `TRUE`. -/
def Imp.asleep (i : Imp) : Bool := i.life = .summoned ∧ i.waitio = some true

/-- The number of live imps whose `waitio` is `TRUE`, as a sum over all serial numbers. -/
def sleepers (h : Heart) : ℤ :=
  tally (Finset.range h.nextId) (fun i : Imp => flag i.asleep) h.imps

/-- A worker that has raised a flag and not yet counted it. -/
def WorkerPc.owes (pc : WorkerPc) : ℤ := flag (pc.published true).isSome

/-- The epoll thread has lowered a flag and not yet counted it. -/
def EpollerPc.owes : EpollerPc → ℤ
  | .woken _ _ => 1
  | _ => 0

/-- `nr_waitio`, the debts and the flags agree. -/
def Waits (s : Sys W R) : Prop :=
  s.heart.nrWaitio + tally Finset.univ WorkerPc.owes s.worker
    = sleepers s.heart + s.epoller.owes

section Hearts

variable {h h' : Heart} {imp : ImpId}

/-- Overwriting fields of an imp other than `waitio` and `life` wakes nobody. -/
theorem sleepers_modifyImp {f : Imp → Imp} (hf : ∀ i, (f i).asleep = i.asleep) :
    sleepers (h.modifyImp imp f) = sleepers h :=
  tally_congr fun q _ => congrArg flag (modifyImp_field h imp q f Imp.asleep hf)

/-- Writing one imp changes the number of sleepers by that imp's share. -/
theorem sleepers_modifyImp_of_lt {f : Imp → Imp} (hlt : imp < h.nextId) :
    sleepers (h.modifyImp imp f)
      = sleepers h - flag (h.imps imp).asleep + flag (f (h.imps imp)).asleep :=
  tally_update (Finset.mem_range.mpr hlt) _

theorem sleepers_appendJob (job : EpollJob) : sleepers (appendJob h imp job) = sleepers h :=
  sleepers_modifyImp fun i => by split <;> rfl

theorem asleep_of (hl : (h.imps imp).life = .summoned) (hw : (h.imps imp).waitio = some true) :
    (h.imps imp).asleep = true := by
  unfold Imp.asleep
  simp [hl, hw]

theorem not_asleep (hw : (h.imps imp).waitio ≠ some true) : (h.imps imp).asleep = false := by
  unfold Imp.asleep
  simp [hw]

/-- The set of sleeping imps has as many elements as `sleepers` says. -/
theorem sleepers_eq_ncard (hfresh : ∀ imp, h.nextId ≤ imp → (h.imps imp).life = .unborn) :
    sleepers h = ({imp | (h.imps imp).life = .summoned ∧ (h.imps imp).waitio = some true} :
      Set ImpId).ncard := by
  have hset : ({imp | (h.imps imp).life = .summoned ∧ (h.imps imp).waitio = some true} : Set ImpId)
      = {imp | (h.imps imp).asleep = true} :=
    Set.ext fun imp => ⟨fun hs => asleep_of hs.1 hs.2, fun hs => of_decide_eq_true hs⟩
  rw [hset]
  refine tally_flag_eq_ncard fun imp hs => Finset.mem_range.mpr ?_
  by_contra hge
  have hlive := (of_decide_eq_true hs).1
  rw [hfresh imp (Nat.le_of_not_lt hge)] at hlive
  cases hlive

end Hearts

/-! ## Steps -/

section Steps

variable {h h' : Heart} {created counted dismissing : ImpId → ℤ} {due : ℤ}

/-- A step of `imp_summon` puts nobody to sleep and wakes nobody. -/
theorem summonStep_sleepers (hl : Ledger h created counted dismissing due) {pc : SummonPc}
    (hcr : ∀ q, atCreated q (some pc) ≤ created q) (hco : ∀ q, atCounted q (some pc) ≤ counted q) :
    (summonStep h pc).1.nrWaitio = h.nrWaitio ∧ sleepers (summonStep h pc).1 = sleepers h := by
  cases pc with
  | checked ok =>
    refine ⟨by cases ok <;> rfl, ?_⟩
    cases ok with
    | false =>
      show tally (Finset.range (h.nextId + 1)) _ h.imps = _
      rw [tally_range_succ]
      have hun : (h.imps h.nextId).asleep = false := by
        unfold Imp.asleep
        simp [hl.fresh h.nextId (Nat.le_refl _)]
      rw [hun, flag_false, add_zero]
      rfl
    | true =>
      show tally (Finset.range (h.nextId + 1)) _ (Function.update h.imps h.nextId _) = _
      rw [tally_range_succ, tally_update_notMem Finset.notMem_range_self, Function.update_self]
      show sleepers h + flag false = _
      rw [flag_false, add_zero]
  | created imp =>
    refine ⟨rfl, ?_⟩
    have hlife := hl.life_of_created ((flag_eq_one rfl).symm.trans_le (hcr imp))
    have hlt : imp < h.nextId := hl.lt_next (by rw [hlife]; simp)
    show sleepers (h.modifyImp imp fun i => { i with life := .counted }) = _
    rw [sleepers_modifyImp_of_lt hlt]
    simp [Imp.asleep, hlife]
  | counted imp =>
    refine ⟨rfl, ?_⟩
    have hlife := hl.life_of_counted ((flag_eq_one rfl).symm.trans_le (hco imp))
    have hlt : imp < h.nextId := hl.lt_next (by rw [hlife]; simp)
    show sleepers (h.modifyImp imp fun i => { i with waitio := some false, life := .summoned }) = _
    rw [sleepers_modifyImp_of_lt hlt]
    simp [Imp.asleep, hlife]
  | ready imp => exact ⟨rfl, rfl⟩

/-- A step of a worker outside `imp_summon` keeps the account: what it raises it owes, and
what it counts it owed. -/
theorem WorkerMove.waits {pc pc' : WorkerPc} {act : WorkerAct} (hm : WorkerMove h pc act h' pc')
    (hout : pc.summoning = none)
    (hpub : ∀ imp, pc.published false = some imp → (h.imps imp).waitio = some true)
    (hun : ∀ imp, pc.unpublished = some imp → imp < h.nextId ∧
      (h.imps imp).life = .summoned ∧ (h.imps imp).waitio ≠ some true) :
    h'.nrWaitio + pc'.owes - sleepers h' = h.nrWaitio + pc.owes - sleepers h := by
  cases hm with
  | timeout | noTimeout | cancel | reduct | store | enter | setTimer =>
    dsimp only [cleanupTimer, impCancelTimer, cleanupEvent, storeEventMask, beginSoul, askTimer]
    rw [sleepers_modifyImp]
    · rfl
    · exact fun _ => rfl
  | setIoev =>
    dsimp only [impSetIoev]
    rw [sleepers_appendJob]
    rfl
  | mark =>
    rw [sleepers_appendJob]
    rfl
  | @fetchJob imp count =>
    dsimp only [Dungeon.fetchJob]
    rw [sleepers_modifyImp]
    · cases count <;> rfl
    · exact fun _ => rfl
  | @clear imp =>
    obtain ⟨hlt, -, hdown⟩ := hun imp rfl
    dsimp only [setWaitio]
    rw [sleepers_modifyImp_of_lt hlt, not_asleep hdown]
    simp [Imp.asleep, WorkerPc.owes, WorkerPc.published]
  | nested => cases hout
  | @doneSleep imp count _ hc =>
    obtain ⟨n, rfl⟩ : ∃ n, count = n + 1 := ⟨count - 1, by omega⟩
    rfl
  | @publish imp count job =>
    dsimp only [setWaitio]
    cases count with
    | zero =>
      -- the flag goes up, and its increment is owed
      obtain ⟨hlt, hlife, hdown⟩ := hun imp rfl
      rw [sleepers_modifyImp_of_lt hlt, not_asleep hdown]
      simp [Imp.asleep, hlife, WorkerPc.owes, WorkerPc.published]
    | succ n =>
      have hup := hpub imp rfl
      have hsame : sleepers (h.modifyImp imp fun i => { i with waitio := some true })
          = sleepers h := by
        refine tally_congr fun q _ => ?_
        by_cases hq : q = imp
        · rw [hq, modifyImp_self]
          simp [Imp.asleep, hup]
        · rw [modifyImp_of_ne h imp q _ hq]
      rw [hsame]
      rfl
  | arm =>
    unfold setPollAction
    split <;> rfl
  | sleep =>
    show h.nrWaitio + 1 + flag false - sleepers h = h.nrWaitio + flag true - sleepers h
    rw [flag_false, flag_true, add_zero]
  | summon | fetch | kill | alert | retTerm | ret | doneRun | closeFd | term | wakeup | rerun
  | leave => rfl

/-- A step of the epoll thread keeps the account. -/
theorem EpollerMove.waits {pc pc' : EpollerPc} (hm : EpollerMove h pc h' pc')
    (hup : ∀ imp, (h.imps imp).waitio = some true → imp < h.nextId ∧
      (h.imps imp).life = .summoned) :
    h'.nrWaitio - pc'.owes - sleepers h' = h.nrWaitio - pc.owes - sleepers h := by
  have hnext : ∀ batch : List ImpId, (nextEntry batch).owes = 0 := by
    intro batch
    cases batch <;> rfl
  cases hm with
  | wait hb =>
    obtain ⟨epoll, rfl⟩ := hb.frame
    rw [hnext]
    rfl
  | cancel =>
    dsimp only [impCancelTimer]
    rw [sleepers_modifyImp]
    · rfl
    · exact fun _ => rfl
  | @wake imp rest hw =>
    obtain ⟨hlt, hlife⟩ := hup imp hw
    dsimp only [setWaitio]
    rw [sleepers_modifyImp_of_lt hlt, asleep_of hlife hw]
    simp [Imp.asleep, EpollerPc.owes]
  | awake => rfl
  | uncount =>
    show h.nrWaitio - 1 - 0 - sleepers h = h.nrWaitio - 1 - sleepers h
    rw [sub_zero]
  | run => rfl
  | log =>
    rw [hnext]
    rfl

/-- A step of the maintainer wakes nobody: an imp it frees is not asleep. -/
theorem MaintainerMove.waits {pc pc' : MaintainerPc} {closing : Closing}
    (hm : MaintainerMove h pc closing h' pc')
    (hdown : ∀ imp ∈ pc.touches, (h.imps imp).waitio ≠ some true) :
    h'.nrWaitio = h.nrWaitio ∧ sleepers h' = sleepers h := by
  cases hm with
  | take => exact ⟨rfl, sleepers_modifyImp fun _ => rfl⟩
  | drop => exact ⟨rfl, sleepers_modifyImp fun _ => rfl⟩
  | @free imp =>
    refine ⟨rfl, tally_congr fun q _ => ?_⟩
    unfold freeImp
    by_cases hq : q = imp
    · rw [hq, modifyImp_self, not_asleep (hdown imp rfl)]
      simp [Imp.asleep]
    · rw [modifyImp_of_ne h imp q _ hq]
  | body =>
    refine ⟨rfl, tally_congr fun q _ => congrArg flag ?_⟩
    exact impBodyDelete_field h _ q Imp.asleep fun _ => rfl
  | idle | delete | uncount => exact ⟨rfl, rfl⟩

theorem EnvMove.waits {act : EnvAct} (hm : EnvMove h act h') :
    h'.nrWaitio = h.nrWaitio ∧ sleepers h' = sleepers h := by
  cases hm with
  | expire => exact ⟨rfl, sleepers_modifyImp fun _ => rfl⟩
  | post => exact ⟨rfl, sleepers_modifyImp fun _ => rfl⟩
  | kill => exact ⟨rfl, sleepers_modifyImp fun _ => rfl⟩
  | scribble => exact ⟨rfl, rfl⟩

end Steps

/-! ## Runs -/

variable {s s' : Sys W R} {a : Act W R} {debug : Bool}

theorem Waits.move (hb : Books s) (hh : Held .custody false s) (hw : Waits s)
    (hlive : s.useAfterFree debug a = false) (hm : s.Move a s') : Waits s' := by
  unfold Waits at hw ⊢
  cases hm with
  | @worker w act shared pc hm =>
    have hworker : tally Finset.univ WorkerPc.owes (Function.update s.worker w pc)
        = tally Finset.univ WorkerPc.owes s.worker - (s.worker w).owes + pc.owes :=
      tally_update (Finset.mem_univ w) pc
    show shared.heart.nrWaitio + tally _ _ (Function.update s.worker w pc)
      = sleepers shared.heart + s.epoller.owes
    rw [hworker]
    cases hsum : (s.worker w).summoning with
    | none =>
      have hstep := hm.waits hsum (fun _ hp => hh.flag_of_published hp) fun imp hp =>
        ⟨hb.ledger.lt_next (by rw [hh.summoned_of_unpublished hp]; simp),
          hh.summoned_of_unpublished hp, hh.flag_of_unpublished hp⟩
      omega
    | some spc =>
      obtain ⟨imp, hpc, hheart, rfl⟩ := hm.of_nested hsum
      obtain ⟨hcr, hco⟩ := births_worker s w
      rw [hsum] at hcr hco
      obtain ⟨hn, hs⟩ := summonStep_sleepers hb.ledger hcr hco
      rw [hheart, hn, hs, hpc]
      have howes : ∀ nested, (WorkerPc.soul imp nested).owes = 0 := fun _ => rfl
      rw [howes, howes]
      omega
  | initerCheck => exact hw
  | @initer r ok pc hpc =>
    obtain ⟨hcr, hco⟩ := births_initer hpc
    obtain ⟨hn, hs⟩ := summonStep_sleepers hb.ledger hcr hco
    show (summonStep s.heart pc).1.nrWaitio + _ = sleepers (summonStep s.heart pc).1 + _
    rw [hn, hs]
    exact hw
  | @epoller fds h' pc hm =>
    have hstep := hm.waits fun imp hup =>
      ⟨hb.ledger.lt_next (by rw [hh.summoned_of_flag hup]; simp), hh.summoned_of_flag hup⟩
    show h'.nrWaitio + tally _ _ s.worker = sleepers h' + pc.owes
    omega
  | @maintainer fds shared pc hm =>
    obtain ⟨hn, hs⟩ := hm.waits fun imp hi => hh.flag_of_dismissed hi
    show shared.heart.nrWaitio + _ = sleepers shared.heart + _
    rw [hn, hs]
    exact hw
  | @destroyer shared pc hheart =>
    show shared.heart.nrWaitio + _ = sleepers shared.heart + _
    rw [hheart]
    exact hw
  | @env act h' hm =>
    obtain ⟨hn, hs⟩ := hm.waits
    show h'.nrWaitio + _ = sleepers h' + _
    rw [hn, hs]
    exact hw

theorem waits_boot {h : Heart} (hi : h.Initial) : Waits (Sys.boot W R h) := by
  obtain ⟨nrImpMax, hmax, run, runBelow, term, termBelow, -, rfl⟩ := hi
  have hw : tally Finset.univ WorkerPc.owes (fun _ : Fin W => WorkerPc.idle) = 0 :=
    tally_eq_zero fun _ _ => rfl
  show 0 + tally _ _ (fun _ : Fin W => WorkerPc.idle) = 0 + 0
  rw [hw]

theorem waits_reach (hr : (dungeon debug).Reach (WakeOk false) s) : Waits s := by
  refine hr.invariant ?_ ?_
  · rintro s ⟨h, hi, rfl⟩
    exact waits_boot hi
  · intro s a s' hreach hw hok hs
    obtain ⟨-, ⟨-, rfl⟩ | ⟨hlive, hm⟩⟩ := step_move hs
    · exact hw
    · exact hw.move (books_reach hreach) (held_reach hreach) hlive (move_move hm)

/-- The epoll thread is in `imp_wake`. -/
def EpollerPc.inWake : EpollerPc → Bool
  | .waiting => false
  | .entry _ _ => false
  | _ => true

/-- **Accounting.** In every run in which no imp is woken while its driver is arming its
descriptors: whenever no thread is in `imp_driver` or `imp_wake`, `nr_waitio` is the number
of live imps whose `waitio` is `TRUE`. -/
theorem nrWaitio_eq (hr : (dungeon debug).Reach (WakeOk false) s)
    (hdriver : ∀ w, (s.worker w).driving = none) (hwake : s.epoller.inWake = false) :
    s.heart.nrWaitio = ({imp | (s.heart.imps imp).life = .summoned ∧
      (s.heart.imps imp).waitio = some true} : Set ImpId).ncard := by
  have hw := waits_reach hr
  have hworker : tally Finset.univ WorkerPc.owes s.worker = 0 := by
    refine tally_eq_zero fun w _ => ?_
    have hw := hdriver w
    generalize s.worker w = pc at hw
    cases pc <;> first | rfl | cases hw
  have hepoller : s.epoller.owes = 0 := by
    generalize s.epoller = pc at hwake
    cases pc <;> first | rfl | cases hwake
  rw [← sleepers_eq_ncard (books_reach hr).ledger.fresh]
  unfold Waits at hw
  omega

/-- The imp waits for one descriptor, and its driver returns. -/
def oneSleep : List (Act 1 1) := summons 0 ++ enters 0 ++ blocks 0 5 ++ goes 0 3

theorem nrWaitio_eq_oneSleep : ∃ s : Sys 1 1, (dungeon false).Reach (WakeOk false) s ∧
    s.heart.nrWaitio = 1 ∧ ({imp | (s.heart.imps imp).life = .summoned ∧
      (s.heart.imps imp).waitio = some true} : Set ImpId).ncard = 1 := by
  obtain ⟨s, hr, hp⟩ : ∃ s : Sys 1 1, (dungeon false).Reach (WakeOk false) s ∧
      decide (s.heart.nrWaitio = 1 ∧ (∀ w, (s.worker w).driving = none) ∧
        s.epoller.inWake = false) = true :=
    Machine.exec_reach (init_blank false Nat.one_pos (by decide))
      (show ((dungeon false).exec (WakeOk false) _ oneSleep).map _ = some true by decide +kernel)
  obtain ⟨hone, hdriver, hwake⟩ := of_decide_eq_true hp
  have heq := nrWaitio_eq hr hdriver hwake
  exact ⟨s, hr, hone, by exact_mod_cast heq.symm.trans hone⟩

/-- The imp waits for two descriptors. The first one's event arrives between the two
arms: the epoll thread lowers the flag and the counter, and the driver raises the flag
again for the second one. -/
def wakeBetweenArms : List (Act 1 1) :=
  summons 0 ++ enters 0 ++ [.worker 0 (.soul (.setIoev 6 epollIn))] ++ blocks 0 5
    ++ [.epoller [.user 6]] ++ epolls 5 ++ goes 0 2 ++ [.worker 0 (.ctl true)] ++ goes 0 3

/-- Without the condition the counter and the flags part: here the driver has returned,
the flag is up, and the counter is zero. -/
theorem nrWaitio_drifts : ¬ ∀ s : Sys 1 1, (dungeon false).Reach Machine.Always s →
    (∀ w, (s.worker w).driving = none) → s.epoller.inWake = false →
    s.heart.nrWaitio = ({imp | (s.heart.imps imp).life = .summoned ∧
      (s.heart.imps imp).waitio = some true} : Set ImpId).ncard := by
  intro hall
  obtain ⟨s, hr, hp⟩ : ∃ s : Sys 1 1, (dungeon false).Reach Machine.Always s ∧
      decide (s.heart.nrWaitio = 0 ∧ sleepers s.heart = 1 ∧ (∀ w, (s.worker w).driving = none) ∧
        s.epoller.inWake = false) = true :=
    Machine.exec_reach (init_blank false Nat.one_pos (by decide))
      (show ((dungeon false).exec Machine.Always _ wakeBetweenArms).map _ = some true
        by decide +kernel)
  obtain ⟨hzero, hone, hdriver, hwake⟩ := of_decide_eq_true hp
  have heq := hall s hr hdriver hwake
  rw [← sleepers_eq_ncard (books_reach hr).ledger.fresh, hzero, hone] at heq
  exact absurd heq (by decide)

end Dungeon

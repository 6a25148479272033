import Mathlib.Data.List.Perm.Basic
import Dungeon.Signals
import Dungeon.Sleepers

/-!
# Where an imp is, between whole iterations

The scheduler with one worker iteration (a dequeue and a whole call of `imp_driver`), one
delivered event (`imp_cancel_timer` and `imp_wake`), one dismissal and one call of
`imp_summon` as single steps. Between two such steps no thread holds an imp, so every live
imp is in a queue or asleep.

- `rounds`: the machine. `epoll_ctl` always succeeds, and `fsm_delete` closes what its imp
  has armed.
- `RoundOk`: what the steps may assume of the souls (they share no descriptor) and of the
  word past the run queue (it is no live imp).
- `Placed hand h`: every live imp is in hand, queued or asleep, and once. `hand` lists the
  imps that the current step has taken out of a queue.
- `Settled hand due h`: the whole invariant, with the counters; `due` is 1 between an imp's
  first `waitio = TRUE` and `nr_waitio++`.
- `location_accounting`: every reachable heart is settled.
-/

namespace Dungeon

open Tally

/-! ## Whole iterations -/

/-- One step: a worker's iteration with the soul's run, an event on a descriptor, a
dismissal, a call of `imp_summon` from outside, or something outside the threads. -/
inductive RoundAct where
  | iterate (run : SoulRun)
  | deliver (fd : Fd)
  | dismiss
  | summon (ok : Bool)
  | env (act : EnvAct)

/-- The step of `act`; `none` where a thread would wait. -/
def roundStep (h : Heart) : RoundAct → Option Heart
  | .iterate run =>
    h.runQueue.queueDequeueNb.map fun r =>
      impDriver { h with runQueue := r.2 } r.1 run fun _ => true
  | .deliver fd => (report h fd).map fun r => impWake (impCancelTimer r.1 r.2) r.2
  | .dismiss =>
    h.terminatedQueue.queueDequeueNb.bind fun r =>
      impDismiss { h with terminatedQueue := r.2 } r.1 .armed
  | .summon ok => some (impSummon h ok)
  | .env act => envStep h act

/-- The dungeon in whole iterations. -/
def rounds : Machine Heart RoundAct where
  init := Heart.Initial
  step := roundStep

/-- The word past the run queue is no live imp. -/
def NoAlias (h : Heart) : Prop := (h.imps h.runQueue.past).life ≠ .summoned

instance (h : Heart) : Decidable (NoAlias h) := inferInstanceAs (Decidable (_ ≠ _))

/-- `imp_run` leaves the word past the ring alone. -/
theorem noAlias_impRun {h : Heart} {imp : ImpId} : NoAlias (impRun h imp) ↔ NoAlias h := by
  unfold NoAlias
  rw [show (impRun h imp).runQueue.past = _ from (h.runQueue.queueEnqueueUniqNb_bound imp).2.1]
  exact Iff.rfl

/-- No other imp has armed `fd`. -/
def OwnFd (h : Heart) (imp : ImpId) (fd : Fd) : Prop :=
  ∀ reg ∈ h.epoll fd, reg.armed = true → reg.data = imp

instance (h : Heart) (imp : ImpId) (fd : Fd) : Decidable (OwnFd h imp fd) :=
  inferInstanceAs (Decidable (∀ reg ∈ h.epoll fd, reg.armed = true → reg.data = imp))

/-- The soul of `imp` closes no descriptor that another imp has armed. -/
def ActOk (h : Heart) (imp : ImpId) : SoulAct → Prop
  | .closeFd fd => OwnFd h imp (.user fd)
  | _ => True

/-- The driver of `imp` arms no descriptor that another imp has armed. -/
def JobOk (h : Heart) (imp : ImpId) : EpollJob → Prop
  | .user fd _ => OwnFd h imp (.user fd)
  | _ => True

instance (h : Heart) (imp : ImpId) (act : SoulAct) : Decidable (ActOk h imp act) := by
  cases act <;> unfold ActOk <;> infer_instance

instance (h : Heart) (imp : ImpId) (job : EpollJob) : Decidable (JobOk h imp job) := by
  cases job <;> unfold JobOk <;> infer_instance

/-- A run of the soul of `imp` in which every act is allowed and no new imp is the word past
the run queue. -/
def ActsOk (imp : ImpId) : Heart → List SoulAct → Prop
  | _, [] => True
  | h, act :: acts =>
    ActOk h imp act ∧ NoAlias (soulAct imp h act) ∧ ActsOk imp (soulAct imp h act) acts

instance ActsOk.decide (imp : ImpId) : ∀ (h : Heart) (acts : List SoulAct),
    Decidable (ActsOk imp h acts)
  | _, [] => inferInstanceAs (Decidable True)
  | h, act :: acts =>
    have := ActsOk.decide imp (soulAct imp h act) acts
    inferInstanceAs (Decidable (_ ∧ _ ∧ _))

/-- The heart with which `imp_driver` enters the soul. -/
def reducted (h : Heart) (imp : ImpId) : Heart :=
  storeEventMask (impReductEventMask h imp).2 imp (impReductEventMask h imp).1

/-- What an iteration on `imp` may assume. -/
def IterateOk (h : Heart) (imp : ImpId) (run : SoulRun) : Prop :=
  ActsOk imp (beginSoul (reducted h imp) imp) run.acts ∧
    (run.ret ≠ toTerm → ∀ job ∈ ((fsmDriver (reducted h imp) imp run).imps imp).requestedEvents,
      JobOk (fsmDriver (reducted h imp) imp run) imp job)

instance (h : Heart) (imp : ImpId) (run : SoulRun) : Decidable (IterateOk h imp run) :=
  inferInstanceAs (Decidable (_ ∧ _))

/-- What a step may assume. -/
def RoundOk (h : Heart) : RoundAct → Prop
  | .iterate run => ∀ r ∈ h.runQueue.queueDequeueNb, IterateOk { h with runQueue := r.2 } r.1 run
  | .summon ok => NoAlias (impSummon h ok)
  | .env (.scribble word) => (h.imps word).life ≠ .summoned
  | _ => True

instance (h : Heart) (act : RoundAct) : Decidable (RoundOk h act) := by
  cases act with
  | iterate run =>
    exact inferInstanceAs (Decidable (∀ r ∈ h.runQueue.queueDequeueNb, IterateOk _ _ _))
  | summon ok => exact inferInstanceAs (Decidable (NoAlias _))
  | env act => cases act <;> unfold RoundOk <;> infer_instance
  | _ => exact inferInstanceAs (Decidable True)

/-- The two tests of `event_mask` never succeed at this grain: the mask was stored just
before them. -/
theorem impDriver_eq (h : Heart) (imp : ImpId) (run : SoulRun) (ctl : ℕ → Bool) :
    impDriver h imp run ctl =
      if run.ret = toTerm then impTerm (fsmDriver (reducted h imp) imp run) imp
      else
        let loop := armLoop imp ctl (fsmDriver (reducted h imp) imp run) 0
          ((fsmDriver (reducted h imp) imp run).imps imp).requestedEvents
        settle loop.1 imp loop.2 := by
  obtain ⟨timeout, event, hmask⟩ : ∃ timeout event,
      (impReductEventMask h imp).1 = reductMask timeout event := ⟨_, _, rfl⟩
  have hstored : ((reducted h imp).imps imp).eventMask = reductMask timeout event := by
    rw [reducted, storeEventMask, modifyImp_self]
    exact hmask
  have hkill : ((reducted h imp).imps imp).eventMask &&& evMaskKill = 0 :=
    hstored ▸ reductMask_kill timeout event
  have halert : ((reducted h imp).imps imp).eventMask &&& evMaskGlobalAlert = 0 :=
    hstored ▸ and_globalAlert (reductMask_kill timeout event) (reductMask_globalMask timeout event)
  show (if ((reducted h imp).imps imp).eventMask &&& evMaskKill ≠ 0 then
      impTerm (setWaitio (reducted h imp) imp false) imp
    else if ((reducted h imp).imps imp).eventMask &&& evMaskGlobalAlert ≠ 0 then
      impTerm (reducted h imp) imp
    else _) = _
  rw [if_neg (not_not.mpr hkill), if_neg (not_not.mpr halert)]
  rfl

theorem impWake_eq (h : Heart) (imp : ImpId) :
    impWake h imp = if (h.imps imp).waitio = some true then
      impRun { setWaitio h imp false with nrWaitio := h.nrWaitio - 1 } imp else h := by
  unfold impWake casWaitio
  by_cases hw : (h.imps imp).waitio = some true
  · rw [if_pos hw, if_pos hw]
    rfl
  · rw [if_neg hw, if_neg hw]

/-- `imp_wake` does not look at epoll. -/
theorem impWake_epoll (h : Heart) (epoll : Fd → Option Reg) (imp : ImpId) :
    impWake { h with epoll := epoll } imp = { impWake h imp with epoll := epoll } := by
  rw [impWake_eq, impWake_eq]
  by_cases hw : (h.imps imp).waitio = some true
  · rw [if_pos hw, if_pos hw]
    rfl
  · rw [if_neg hw, if_neg hw]

/-! ## Where every imp is -/

/-- The imp waits: its flag is up, and a descriptor is armed that will wake it. -/
def Heart.Sleeps (h : Heart) (imp : ImpId) : Prop :=
  (h.imps imp).waitio = some true ∧
    ∃ fd reg, h.epoll fd = some reg ∧ reg.armed = true ∧ reg.data = imp

/-- Every live imp is at one place: in hand, in a queue, or asleep. An armed registration is
of a live imp, and a body's descriptor only ever carries its own. -/
structure Placed (hand : List ImpId) (h : Heart) : Prop where
  nodup : (hand ++ h.found).Nodup
  awake : ∀ imp ∈ hand ++ h.found,
    (h.imps imp).life = .summoned ∧ (h.imps imp).waitio = some false
  placed : ∀ imp, (h.imps imp).life = .summoned → imp ∈ hand ++ h.found ∨ h.Sleeps imp
  owner : ∀ fd reg, h.epoll fd = some reg → reg.armed = true →
    (h.imps reg.data).life = .summoned ∧ fd.Carries reg.data

namespace Placed

variable {hand hand' : List ImpId} {h h' : Heart} {imp : ImpId}

/-- What keeps the flags, the lives and epoll may move imps between the hand and the queues. -/
theorem moved (hp : Placed hand h) (hperm : (hand' ++ h'.found).Perm (hand ++ h.found))
    (hlife : ∀ q, (h'.imps q).life = (h.imps q).life)
    (hwaitio : ∀ q, (h'.imps q).waitio = (h.imps q).waitio) (hepoll : h'.epoll = h.epoll) :
    Placed hand' h' where
  nodup := hperm.nodup_iff.mpr hp.nodup
  awake q hq := by
    rw [hlife, hwaitio]
    exact hp.awake q (hperm.mem_iff.mp hq)
  placed q hq := by
    rw [hlife] at hq
    rcases hp.placed q hq with hmem | ⟨hw, hreg⟩
    · exact .inl (hperm.mem_iff.mpr hmem)
    · exact .inr ⟨(hwaitio q).trans hw, hepoll ▸ hreg⟩
  owner fd reg hreg harmed := by
    rw [hlife]
    exact hp.owner fd reg (hepoll ▸ hreg) harmed

/-- An imp in hand or queued does not sleep. -/
theorem not_asleep (hp : Placed hand h) (hmem : imp ∈ hand ++ h.found) :
    (h.imps imp).waitio ≠ some true := by
  rw [(hp.awake imp hmem).2]
  simp

/-- Epoll may forget or disarm the registrations of imps that do not sleep. -/
theorem forget (hp : Placed hand h) {epoll : Fd → Option Reg}
    (hold : ∀ fd reg, epoll fd = some reg → reg.armed = true → h.epoll fd = some reg)
    (hkeep : ∀ fd reg, h.epoll fd = some reg → reg.armed = true →
      (h.imps reg.data).waitio = some true → epoll fd = some reg) :
    Placed hand { h with epoll := epoll } where
  nodup := hp.nodup
  awake := hp.awake
  placed q hq := by
    rcases hp.placed q hq with hmem | ⟨hw, fd, reg, hreg, harmed, rfl⟩
    · exact .inl hmem
    · exact .inr ⟨hw, fd, reg, hkeep fd reg hreg harmed hw, harmed, rfl⟩
  owner fd reg hreg harmed := hp.owner fd reg (hold fd reg hreg harmed) harmed

/-- The driver arms a descriptor that nobody else has armed. -/
theorem arm (hp : Placed hand h) (hlive : (h.imps imp).life = .summoned) {job : EpollJob}
    (hown : OwnFd h imp (job.fd imp)) :
    Placed hand (setPollAction h (job.fd imp) job.events imp true) where
  nodup := hp.nodup
  awake := hp.awake
  placed q hq := by
    rcases hp.placed q hq with hmem | ⟨hw, fd, reg, hreg, harmed, rfl⟩
    · exact .inl hmem
    · refine .inr ⟨hw, fd, ?_⟩
      by_cases hfd : fd = job.fd imp
      · subst hfd
        exact ⟨_, Function.update_self .., rfl, (hown reg hreg harmed).symm⟩
      · exact ⟨reg, (Function.update_of_ne hfd ..).trans hreg, harmed, rfl⟩
  owner fd reg hreg harmed := by
    by_cases hfd : fd = job.fd imp
    · subst hfd
      change Function.update h.epoll (job.fd imp) _ (job.fd imp) = some reg at hreg
      rw [Function.update_self] at hreg
      obtain rfl := Option.some.inj hreg
      refine ⟨hlive, ?_⟩
      cases job with
      | user fd events => trivial
      | _ => exact .inr rfl
    · exact hp.owner fd reg ((Function.update_of_ne hfd ..).symm.trans hreg) harmed

/-- An imp in hand with an armed descriptor goes to sleep. -/
theorem doze (hp : Placed (imp :: hand) h) (harmed : ∃ fd reg, h.epoll fd = some reg ∧
    reg.armed = true ∧ reg.data = imp) : Placed hand (setWaitio h imp true) := by
  have hlife : ∀ q, ((setWaitio h imp true).imps q).life = (h.imps q).life := fun q =>
    modifyImp_field h imp q _ Imp.life fun _ => rfl
  obtain ⟨hnew, hnd⟩ := List.nodup_cons.mp hp.nodup
  refine ⟨hnd, fun q hq => ?_, fun q hq => ?_, fun fd reg hreg ha => ?_⟩
  · have hne : q ≠ imp := fun heq => hnew (heq ▸ hq)
    rw [setWaitio, modifyImp_of_ne h imp q _ hne]
    exact hp.awake q (List.mem_cons_of_mem imp hq)
  · rw [hlife] at hq
    by_cases hqi : q = imp
    · subst hqi
      exact .inr ⟨congrArg Imp.waitio (modifyImp_self ..), harmed⟩
    · rcases hp.placed q hq with hmem | ⟨hw, hreg⟩
      · exact .inl ((List.mem_cons.mp hmem).resolve_left hqi)
      · exact .inr ⟨(congrArg Imp.waitio (modifyImp_of_ne h imp q _ hqi)).trans hw, hreg⟩
  · rw [hlife]
    exact hp.owner fd reg hreg ha

/-- A sleeping imp is taken in hand. -/
theorem rouse (hp : Placed hand h) (hlive : (h.imps imp).life = .summoned)
    (hw : (h.imps imp).waitio = some true) : Placed (imp :: hand) (setWaitio h imp false) := by
  have hlife : ∀ q, ((setWaitio h imp false).imps q).life = (h.imps q).life := fun q =>
    modifyImp_field h imp q _ Imp.life fun _ => rfl
  have hnew : imp ∉ hand ++ h.found := fun hmem => hp.not_asleep hmem hw
  refine ⟨List.nodup_cons.mpr ⟨hnew, hp.nodup⟩, fun q hq => ?_, fun q hq => ?_,
    fun fd reg hreg ha => ?_⟩
  · rcases List.mem_cons.mp hq with rfl | hq
    · exact ⟨(hlife q).trans hlive, congrArg Imp.waitio (modifyImp_self ..)⟩
    · have hne : q ≠ imp := fun heq => hnew (heq ▸ hq)
      rw [setWaitio, modifyImp_of_ne h imp q _ hne]
      exact hp.awake q hq
  · rw [hlife] at hq
    by_cases hqi : q = imp
    · exact .inl (hqi ▸ List.mem_cons_self)
    · rcases hp.placed q hq with hmem | ⟨hw, hreg⟩
      · exact .inl (List.mem_cons_of_mem imp hmem)
      · exact .inr ⟨(congrArg Imp.waitio (modifyImp_of_ne h imp q _ hqi)).trans hw, hreg⟩
  · rw [hlife]
    exact hp.owner fd reg hreg ha

/-- A new imp is in hand: its serial number was nobody's. -/
theorem born (hp : Placed hand h) (hnull : (h.imps 0).life = .unborn)
    (hfresh : (h.imps h.nextId).life = .unborn) :
    Placed (h.nextId :: hand) (beginImp (countImp (impNew h) h.nextId) h.nextId) := by
  have himps : ∀ q, q ≠ h.nextId →
      (beginImp (countImp (impNew h) h.nextId) h.nextId).imps q = h.imps q := fun q hq =>
    (Function.update_of_ne hq ..).trans
      ((Function.update_of_ne hq ..).trans (Function.update_of_ne hq ..))
  have hself : ((beginImp (countImp (impNew h) h.nextId) h.nextId).imps h.nextId).life = .summoned ∧
      ((beginImp (countImp (impNew h) h.nextId) h.nextId).imps h.nextId).waitio = some false := by
    rw [beginImp, modifyImp_self]
    exact ⟨rfl, rfl⟩
  have hne : ∀ q, (h.imps q).life = .summoned → q ≠ h.nextId := by
    rintro q hq rfl
    rw [hfresh] at hq
    cases hq
  have hdead : ∀ data, data = 0 ∨ data = h.nextId → (h.imps data).life ≠ .summoned := by
    rintro _ (rfl | rfl)
    · rw [hnull]
      simp
    · rw [hfresh]
      simp
  -- the body's registrations report nothing, and no live imp has one in their place
  have hepoll : ∀ fd reg, reg.armed = true →
      ((beginImp (countImp (impNew h) h.nextId) h.nextId).epoll fd = some reg ↔
        h.epoll fd = some reg) := by
    intro fd reg harmed
    have hidle : some idleReg ≠ some reg := by
      intro heq
      rw [← Option.some.inj heq] at harmed
      cases harmed
    change Function.update (Function.update h.epoll (.timerFd h.nextId) (some idleReg))
      (.eventFd h.nextId) (some idleReg) fd = some reg ↔ _
    by_cases he : fd = .eventFd h.nextId
    · rw [he, Function.update_self]
      exact ⟨fun heq => absurd heq hidle, fun hr =>
        absurd (hp.owner _ _ hr harmed).1 (hdead _ (hp.owner _ _ hr harmed).2)⟩
    rw [Function.update_of_ne he]
    by_cases ht : fd = .timerFd h.nextId
    · rw [ht, Function.update_self]
      exact ⟨fun heq => absurd heq hidle, fun hr =>
        absurd (hp.owner _ _ hr harmed).1 (hdead _ (hp.owner _ _ hr harmed).2)⟩
    rw [Function.update_of_ne ht]
  refine ⟨List.nodup_cons.mpr ⟨fun hmem => hne _ (hp.awake _ hmem).1 rfl, hp.nodup⟩,
    fun q hq => ?_, fun q hq => ?_, fun fd reg hreg ha => ?_⟩
  · rcases List.mem_cons.mp hq with rfl | hq
    · exact hself
    · rw [himps q (hne q (hp.awake q hq).1)]
      exact hp.awake q hq
  · by_cases hqi : q = h.nextId
    · exact .inl (hqi ▸ List.mem_cons_self)
    · rw [himps q hqi] at hq
      rcases hp.placed q hq with hmem | ⟨hw, fd, reg, hreg, ha, rfl⟩
      · exact .inl (List.mem_cons_of_mem _ hmem)
      · refine .inr ⟨?_, fd, reg, (hepoll fd reg ha).mpr hreg, ha, rfl⟩
        rw [himps _ hqi]
        exact hw
  · have hold := hp.owner fd reg ((hepoll fd reg ha).mp hreg) ha
    rw [himps _ (hne _ hold.1)]
    exact hold

/-- An imp in hand, with nothing armed, is freed. -/
theorem free (hp : Placed (imp :: hand) h)
    (hreg : ∀ fd reg, h.epoll fd = some reg → reg.armed = true → reg.data ≠ imp) :
    Placed hand (freeImp h imp) := by
  obtain ⟨hnew, hnd⟩ := List.nodup_cons.mp hp.nodup
  have himps : ∀ q, q ≠ imp → (freeImp h imp).imps q = h.imps q := fun q hq =>
    modifyImp_of_ne h imp q _ hq
  refine ⟨hnd, fun q hq => ?_, fun q hq => ?_, fun fd reg hr ha => ?_⟩
  · rw [himps q fun heq => hnew (heq ▸ hq)]
    exact hp.awake q (List.mem_cons_of_mem imp hq)
  · have hqi : q ≠ imp := by
      rintro rfl
      rw [freeImp, modifyImp_self] at hq
      cases hq
    rw [himps q hqi] at hq
    rcases hp.placed q hq with hmem | ⟨hw, hr⟩
    · exact .inl ((List.mem_cons.mp hmem).resolve_left hqi)
    · exact .inr ⟨by rw [himps q hqi]; exact hw, hr⟩
  · rw [himps _ (hreg fd reg hr ha)]
    exact hp.owner fd reg hr ha

end Placed

/-! ## The whole invariant -/

/-- The ledger with nobody inside `imp_summon` or `imp_dismiss`. -/
def Calm (h : Heart) : Prop := Ledger h (fun _ => 0) (fun _ => 0) (fun _ => 0) 0

/-- Every imp is placed and the counters are right, but for `hand` and for `due`
sleepers that `nr_waitio` does not count yet. -/
structure Settled (hand : List ImpId) (due : ℤ) (h : Heart) : Prop where
  ledger : Calm h
  placed : Placed hand h
  waits : h.nrWaitio + due = sleepers h
  total_le : h.nrTotal ≤ h.nrMax
  past : NoAlias h

namespace Settled

variable {hand hand' : List ImpId} {due due' : ℤ} {h h' : Heart} {imp : ImpId}

/-- A routine change keeps the ledger; it is left to say where the imps are and who sleeps. -/
theorem routine (hs : Settled hand due h) {ps : List ImpId} (hr : Routine ps h h')
    (hpast : h'.runQueue.past = h.runQueue.past) (hp : Placed hand' h')
    (hw : h'.nrWaitio + due' = sleepers h') : Settled hand' due' h' where
  ledger := hr.ledger hs.ledger
  placed := hp
  waits := hw
  total_le := by
    rw [hr.nrTotal, hr.nrMax]
    exact hs.total_le
  past := by
    unfold NoAlias
    rw [hpast, hr.life]
    exact hs.past

/-- Writing other fields of an imp. -/
theorem modifyImp (hs : Settled hand due h) {f : Imp → Imp} (hlife : ∀ i, (f i).life = i.life)
    (hwaitio : ∀ i, (f i).waitio = i.waitio) (hdis : ∀ i, (f i).dismissals = i.dismissals) :
    Settled hand due (h.modifyImp imp f) := by
  have hr : Routine [] h (h.modifyImp imp f) := .modifyImp hlife hdis
  refine hs.routine hr rfl ?_ ?_
  · exact hs.placed.moved (.refl _) (fun q => modifyImp_field h imp q f Imp.life hlife)
      (fun q => modifyImp_field h imp q f Imp.waitio hwaitio) rfl
  · rw [sleepers_modifyImp fun i => by rw [Imp.asleep, hlife, hwaitio, Imp.asleep]]
    exact hs.waits

/-- Epoll forgets or disarms registrations of imps that do not sleep. -/
theorem forget (hs : Settled hand due h) {epoll : Fd → Option Reg}
    (hold : ∀ fd reg, epoll fd = some reg → reg.armed = true → h.epoll fd = some reg)
    (hkeep : ∀ fd reg, h.epoll fd = some reg → reg.armed = true →
      (h.imps reg.data).waitio = some true → epoll fd = some reg) :
    Settled hand due { h with epoll := epoll } where
  ledger := { hs.ledger with }
  placed := hs.placed.forget hold hkeep
  waits := hs.waits
  total_le := hs.total_le
  past := hs.past

theorem arm (hs : Settled hand due h) (hlive : (h.imps imp).life = .summoned) {job : EpollJob}
    (hown : OwnFd h imp (job.fd imp)) :
    Settled hand due (setPollAction h (job.fd imp) job.events imp true) :=
  hs.routine (.setPollAction (List.mem_singleton_self imp) job true) rfl
    (hs.placed.arm hlive hown) hs.waits

/-- A worker takes an imp off the run queue. -/
theorem fetch (hs : Settled [] due h) {q : Queue ImpId}
    (hq : h.runQueue.queueDequeueNb = some (imp, q)) :
    Settled [imp] due { h with runQueue := q } := by
  obtain ⟨hlist, -, hpast⟩ := Queue.queueDequeueNb_eq_some hq
  have hr : Routine [] h { h with runQueue := q } := .dequeue hq
  refine hs.routine hr hpast ?_ hs.waits
  refine hs.placed.moved ?_ (fun _ => rfl) (fun _ => rfl) rfl
  show (imp :: (q.toList ++ h.terminatedQueue.toList)).Perm
    (h.runQueue.toList ++ h.terminatedQueue.toList)
  rw [hlist]
  exact .refl _

/-- With an imp in hand neither queue is full: every place in them is taken by another. -/
theorem room (hs : Settled (imp :: hand) due h) : h.found.length < h.nrMax := by
  have hle : ((imp :: hand ++ h.found).length : ℤ)
      ≤ tally (Finset.range h.nextId) (fun i => flag i.life.isCounted) h.imps := by
    refine length_le_tally (p := fun i : Imp => i.life.isCounted) hs.placed.nodup fun q hq => ?_
    have hlive := (hs.placed.awake q hq).1
    refine ⟨Finset.mem_range.mpr (hs.ledger.lt_next ?_), ?_⟩ <;> rw [hlive]
    · simp
    · rfl
  have htot := hs.ledger.total_eq
  have hmax := hs.total_le
  simp only [List.length_append, List.length_cons] at hle
  push_cast at hle
  omega

/-- `imp_run` of an imp in hand. -/
theorem impRun (hs : Settled (imp :: hand) due h) : Settled hand due (impRun h imp) := by
  obtain ⟨hnew, -⟩ := List.nodup_cons.mp hs.placed.nodup
  have hlen : h.runQueue.toList.length + h.terminatedQueue.toList.length < h.nrMax := by
    rw [← List.length_append]
    exact hs.room
  have hmax : h.runQueue.max = h.nrMax := hs.ledger.run_max
  have hlive := (hs.placed.awake imp List.mem_cons_self).1
  have hlist : (h.runQueue.queueEnqueueUniqNb imp).2.toList = h.runQueue.toList ++ [imp] := by
    refine Queue.queueEnqueueUniqNb_of_room (by omega) (hmax ▸ hs.ledger.max_lt) ?_ ?_
    · exact fun hmem => hnew (List.mem_append_right _ (List.mem_append_left _ hmem))
    · exact fun heq => hs.past (heq ▸ hlive)
  refine hs.routine (.impRun (List.mem_singleton_self imp))
    (h.runQueue.queueEnqueueUniqNb_bound imp).2.1 ?_ hs.waits
  refine hs.placed.moved ?_ (fun _ => rfl) (fun _ => rfl) rfl
  show (hand ++ ((h.runQueue.queueEnqueueUniqNb imp).2.toList ++ h.terminatedQueue.toList)).Perm
    (imp :: hand ++ (h.runQueue.toList ++ h.terminatedQueue.toList))
  rw [hlist, List.append_assoc, List.singleton_append, List.cons_append, ← List.append_assoc,
    ← List.append_assoc]
  exact List.perm_middle

/-- `imp_term` of an imp in hand. -/
theorem impTerm (hs : Settled (imp :: hand) due h) : Settled hand due (impTerm h imp) := by
  have hlen : h.runQueue.toList.length + h.terminatedQueue.toList.length < h.nrMax := by
    rw [← List.length_append]
    exact hs.room
  have hmax : h.terminatedQueue.max = h.nrMax := hs.ledger.term_max
  have hlist : (h.terminatedQueue.queueEnqueueNb imp).2.toList
      = h.terminatedQueue.toList ++ [imp] :=
    (Queue.queueEnqueueNb_of_room (by omega) imp).2
  refine hs.routine (.impTerm (List.mem_singleton_self imp)) rfl ?_ hs.waits
  refine hs.placed.moved ?_ (fun _ => rfl) (fun _ => rfl) rfl
  show (hand ++ (h.runQueue.toList ++ (h.terminatedQueue.queueEnqueueNb imp).2.toList)).Perm
    (imp :: hand ++ (h.runQueue.toList ++ h.terminatedQueue.toList))
  rw [hlist, ← List.append_assoc, ← List.append_assoc, ← List.append_assoc]
  exact List.perm_append_singleton ..

/-- An imp in hand with an armed descriptor raises its flag; `nr_waitio` is due. -/
theorem doze (hs : Settled (imp :: hand) due h) (harmed : ∃ fd reg, h.epoll fd = some reg ∧
    reg.armed = true ∧ reg.data = imp) : Settled hand (due + 1) (setWaitio h imp true) := by
  obtain ⟨hlive, hw⟩ := hs.placed.awake imp List.mem_cons_self
  have hr : Routine [] h (setWaitio h imp true) := .modifyImp (fun _ => rfl) fun _ => rfl
  refine hs.routine hr rfl (hs.placed.doze harmed) ?_
  have hlt : imp < h.nextId := hs.ledger.lt_next (by rw [hlive]; simp)
  have hwaits := hs.waits
  rw [setWaitio, sleepers_modifyImp_of_lt hlt, not_asleep (by rw [hw]; simp), flag_false]
  show h.nrWaitio + (due + 1) = sleepers h - 0 + flag (decide (_ ∧ _))
  rw [flag_eq_one ⟨hlive, rfl⟩]
  omega

/-- The event of a sleeping imp: its flag is lowered, `nr_waitio` with it, and the imp is in
hand. -/
theorem rouse (hs : Settled hand due h) (hlive : (h.imps imp).life = .summoned)
    (hw : (h.imps imp).waitio = some true) :
    Settled (imp :: hand) due { setWaitio h imp false with nrWaitio := h.nrWaitio - 1 } := by
  have hlt : imp < h.nextId := hs.ledger.lt_next (by rw [hlive]; simp)
  have hp := hs.placed.rouse hlive hw
  have hr : Routine [] h (setWaitio h imp false) := .modifyImp (fun _ => rfl) fun _ => rfl
  refine hs.routine (hr.trans (.nrWaitio _)) rfl ?_ ?_
  · exact hp.moved (.refl _) (fun _ => rfl) (fun _ => rfl) rfl
  · show h.nrWaitio - 1 + due = sleepers (setWaitio h imp false)
    have hwaits := hs.waits
    rw [setWaitio, sleepers_modifyImp_of_lt hlt, asleep_of hlive hw, flag_true]
    show h.nrWaitio - 1 + due = sleepers h - 1 + flag (decide (_ ∧ some false = some true))
    rw [flag_eq_zero (by simp)]
    omega

/-- `nr_waitio++`. -/
theorem count (hs : Settled hand (due + 1) h) :
    Settled hand due { h with nrWaitio := h.nrWaitio + 1 } := by
  have hr : Routine [] h { h with nrWaitio := h.nrWaitio + 1 } := .nrWaitio _
  refine hs.routine hr rfl (hs.placed.moved (.refl _) (fun _ => rfl) (fun _ => rfl) rfl) ?_
  have hwaits := hs.waits
  show h.nrWaitio + 1 + due = sleepers h
  omega

/-! ### Summoning -/

/-- A statement of `imp_summon` when nobody else is in `imp_summon` or `imp_dismiss`. -/
theorem summonStep_alone (pc : SummonPc)
    (hl : Ledger h (fun q => atCreated q (some pc)) (fun q => atCounted q (some pc))
      (fun _ => 0) 0) :
    Ledger (summonStep h pc).1 (fun q => atCreated q (summonStep h pc).2)
        (fun q => atCounted q (summonStep h pc).2) (fun _ => 0) 0 ∧
      (summonStep h pc).1.nrWaitio = h.nrWaitio ∧ sleepers (summonStep h pc).1 = sleepers h := by
  refine ⟨?_, summonStep_sleepers hl (fun _ => le_refl _) fun _ => le_refl _⟩
  simpa using hl.summonStep rfl (fun _ => le_refl _) fun _ => le_refl _

/-- A new imp is in hand before `imp_run`. -/
theorem born (hs : Settled hand due h) (hroom : h.nrTotal < h.nrMax)
    (hpast : NoAlias (beginImp (countImp (impNew h) h.nextId) h.nextId)) :
    Settled (h.nextId :: hand) due (beginImp (countImp (impNew h) h.nextId) h.nextId) := by
  obtain ⟨hl₁, hw₁, hs₁⟩ := summonStep_alone (.checked true) hs.ledger
  obtain ⟨hl₂, hw₂, hs₂⟩ := summonStep_alone (.created h.nextId) hl₁
  obtain ⟨hl₃, hw₃, hs₃⟩ := summonStep_alone (.counted h.nextId) hl₂
  refine ⟨hl₃, hs.placed.born hs.ledger.null (hs.ledger.fresh _ (Nat.le_refl _)), ?_, ?_, hpast⟩
  · exact (congrArg (· + due) (hw₃.trans (hw₂.trans hw₁))).trans
      (hs.waits.trans (hs₃.trans (hs₂.trans hs₁)).symm)
  · show h.nrTotal + 1 ≤ h.nrMax
    omega

/-- `imp_summon`, also from inside a soul. -/
theorem impSummon (hs : Settled hand due h) {ok : Bool} (hpast : NoAlias (impSummon h ok)) :
    Settled hand due (impSummon h ok) := by
  unfold Dungeon.impSummon at hpast ⊢
  by_cases hfull : h.nrTotal ≥ h.nrMax
  · rw [if_pos hfull]
    exact hs
  rw [if_neg hfull] at hpast ⊢
  cases ok with
  | false =>
    obtain ⟨hl, hw, hsl⟩ := summonStep_alone (.checked false) hs.ledger
    exact
      { ledger := hl
        placed := hs.placed.moved (.refl _) (fun _ => rfl) (fun _ => rfl) rfl
        waits := hs.waits.trans hsl.symm
        total_le := hs.total_le
        past := hpast }
  | true => exact (hs.born (lt_of_not_ge hfull) (noAlias_impRun.mp hpast)).impRun

/-! ### Waking -/

/-- `imp_wake` of a live imp: it is awake afterwards. -/
theorem impWake (hs : Settled hand due h) (hlive : (h.imps imp).life = .summoned) :
    Settled hand due (impWake h imp) ∧ ((impWake h imp).imps imp).waitio ≠ some true ∧
      (impWake h imp).epoll = h.epoll := by
  rw [impWake_eq]
  by_cases hw : (h.imps imp).waitio = some true
  · rw [if_pos hw]
    refine ⟨(hs.rouse hlive hw).impRun, ?_, rfl⟩
    show ((setWaitio h imp false).imps imp).waitio ≠ some true
    rw [setWaitio, modifyImp_self]
    simp
  · rw [if_neg hw]
    exact ⟨hs, hw, rfl⟩

/-- An event is delivered. -/
theorem deliver (hs : Settled [] due h) {fd : Fd} {h' : Heart}
    (hr : report h fd = some (h', imp)) :
    Settled [] due (Dungeon.impWake (impCancelTimer h' imp) imp) := by
  obtain ⟨reg, hreg, harmed, -, rfl, rfl⟩ := report_some hr
  obtain ⟨hlive, -⟩ := hs.placed.owner fd reg hreg harmed
  have hcancel : Settled [] due (impCancelTimer h reg.data) :=
    hs.modifyImp (fun _ => rfl) (fun _ => rfl) fun _ => rfl
  have hlive' : ((impCancelTimer h reg.data).imps reg.data).life = .summoned := by
    rw [impCancelTimer, modifyImp_self]
    exact hlive
  obtain ⟨hwoken, hawake, hepoll⟩ := hcancel.impWake hlive'
  -- the registration is used up before the wake-up, which does not look at epoll
  show Settled [] due (Dungeon.impWake { impCancelTimer h reg.data with
    epoll := Function.update h.epoll fd (some { reg with armed := false }) } reg.data)
  rw [impWake_epoll]
  refine hwoken.forget ?_ ?_
  · intro fd' reg' hreg' ha
    rw [hepoll]
    by_cases hfd : fd' = fd
    · subst hfd
      rw [Function.update_self] at hreg'
      rw [← Option.some.inj hreg'] at ha
      cases ha
    · exact (Function.update_of_ne hfd ..).symm.trans hreg'
  · intro fd' reg' hreg' ha hw
    rw [hepoll] at hreg'
    by_cases hfd : fd' = fd
    · subst hfd
      obtain rfl : reg = reg' := Option.some.inj (hreg.symm.trans hreg')
      exact absurd hw hawake
    · exact (Function.update_of_ne hfd ..).trans hreg'

/-! ### Dismissing -/

/-- `fsm_delete` and `imp_body_delete` leave the armed registrations of the other imps. -/
theorem closed (hs : Settled hand due h) {fd : Fd} {reg : Reg} (harmed : reg.armed = true) :
    (impBodyDelete (fsmDelete h imp .armed) imp).epoll fd = some reg ↔
      h.epoll fd = some reg ∧ reg.data ≠ imp := by
  -- a body's descriptor carries its own imp, which is not the null pointer
  have hbody : ∀ p, fd = .timerFd p ∨ fd = .eventFd p → h.epoll fd = some reg →
      reg.data = p := by
    intro p hfd hr
    obtain ⟨hlive, hcarries⟩ := hs.placed.owner fd reg hr harmed
    have hnull : reg.data ≠ 0 := by
      intro hz
      rw [hz, hs.ledger.null] at hlive
      cases hlive
    rcases hfd with rfl | rfl <;> exact hcarries.resolve_left hnull
  rw [impBodyDelete_epoll, fsmDelete_epoll]
  constructor
  · rintro ⟨⟨hr, huser⟩, ht, he⟩
    refine ⟨hr, fun hd => ?_⟩
    cases fd with
    | user n => exact huser n rfl hd
    | timerFd p => exact ht (by rw [← hd, hbody p (.inl rfl) hr])
    | eventFd p => exact he (by rw [← hd, hbody p (.inr rfl) hr])
  · rintro ⟨hr, hne⟩
    exact ⟨⟨hr, fun _ _ => hne⟩, fun ht => hne (hbody imp (.inl ht) hr),
      fun he => hne (hbody imp (.inr he) hr)⟩

/-- `free` and `nr_total--` of an imp in hand for which nothing is armed. -/
theorem free (hl : Ledger h (fun _ => 0) (fun _ => 0) (fun p => if p = imp then 1 else 0) 0)
    (hp : Placed (imp :: hand) h)
    (hreg : ∀ fd reg, h.epoll fd = some reg → reg.armed = true → reg.data ≠ imp)
    (hw : h.nrWaitio + due = sleepers h) (htotal : h.nrTotal ≤ h.nrMax) (hpast : NoAlias h) :
    Settled hand due (uncountImp (freeImp h imp)) := by
  obtain ⟨hlive, hwake⟩ := hp.awake imp List.mem_cons_self
  have hborn : (h.imps imp).life ≠ .unborn := by
    rw [hlive]
    simp
  refine ⟨?_, ?_, ?_, ?_, ?_⟩
  · refine (hl.freeImp hlive fun p => ?_).uncountImp
    by_cases hpi : p = imp
    · rw [if_pos hpi, if_pos hpi]
      rfl
    · rw [if_neg hpi, if_neg hpi]
  · exact (hp.free hreg).moved (.refl _) (fun _ => rfl) (fun _ => rfl) rfl
  · show h.nrWaitio + due = sleepers (freeImp h imp)
    rw [freeImp, sleepers_modifyImp_of_lt (hl.lt_next hborn), not_asleep (by rw [hwake]; simp)]
    show h.nrWaitio + due = sleepers h - 0 + 0
    omega
  · show h.nrTotal - 1 ≤ h.nrMax
    omega
  · show ((h.modifyImp imp fun i => { i with life := .freed }).imps h.runQueue.past).life
      ≠ .summoned
    by_cases heq : h.runQueue.past = imp
    · rw [heq, modifyImp_self]
      simp
    · rw [modifyImp_of_ne h imp _ _ heq]
      exact hpast

/-- `imp_dismiss` of an imp taken off the terminated queue. -/
theorem dismiss (hs : Settled [] due h) {q : Queue ImpId}
    (hq : h.terminatedQueue.queueDequeueNb = some (imp, q))
    (hd : impDismiss { h with terminatedQueue := q } imp .armed = some h') :
    Settled [] due h' := by
  obtain ⟨hlist, hmax, -⟩ := Queue.queueDequeueNb_eq_some hq
  have hmem : imp ∈ [] ++ h.found := by
    refine List.mem_append_right _ (List.mem_append_right _ ?_)
    rw [hlist]
    exact List.mem_cons_self
  have hw := (hs.placed.awake imp hmem).2
  -- the heart just before `free`: the same imps, but for three fields of `imp`
  obtain ⟨body, hbody⟩ : ∃ body, body = impBodyDelete (emptyRequests (fsmDelete
    (beginDismiss { h with terminatedQueue := q } imp) imp .armed) imp) imp := ⟨_, rfl⟩
  have hepoll : body.epoll = (impBodyDelete (fsmDelete h imp .armed) imp).epoll := by
    rw [hbody]
    rfl
  have hfield : ∀ {β : Type} (field : Imp → β),
      (∀ i : Imp, field { i with dismissals := i.dismissals + 1 } = field i) →
      (∀ i : Imp, field { i with requestedEvents := [] } = field i) →
      (∀ i : Imp, field { i with body := { i.body with freed := true } } = field i) →
      ∀ p, field (body.imps p) = field (h.imps p) := by
    intro β field hdis hreq hfreed p
    rw [hbody]
    have hlast := modifyImp_field (emptyRequests (fsmDelete
      (beginDismiss { h with terminatedQueue := q } imp) imp .armed) imp) imp p _ field hfreed
    exact hlast.trans
      ((modifyImp_field _ imp p _ field hreq).trans (modifyImp_field h imp p _ field hdis))
  have hplaced : Placed [imp] body := by
    have hforgot : Placed [] { h with epoll := body.epoll } := by
      refine hs.placed.forget (fun fd reg hr ha => ?_) fun fd reg hr ha hwr => ?_
      · rw [hepoll] at hr
        exact ((hs.closed ha).mp hr).1
      · rw [hepoll]
        refine (hs.closed ha).mpr ⟨hr, ?_⟩
        rintro rfl
        rw [hw] at hwr
        cases hwr
    refine hforgot.moved ?_ (hfield Imp.life (fun _ => rfl) (fun _ => rfl) fun _ => rfl)
      (hfield Imp.waitio (fun _ => rfl) (fun _ => rfl) fun _ => rfl) rfl
    rw [hbody]
    show ([imp] ++ (h.runQueue.toList ++ q.toList)).Perm
      (h.runQueue.toList ++ h.terminatedQueue.toList)
    rw [hlist, List.singleton_append]
    exact List.perm_middle.symm
  have hledger : Ledger body (fun _ => 0) (fun _ => 0) (fun p => if p = imp then 1 else 0) 0 := by
    have hbegun : Ledger (beginDismiss { h with terminatedQueue := q } imp) (fun _ => 0)
        (fun _ => 0) (fun p => if p = imp then 1 else 0) 0 :=
      hs.ledger.beginDismiss hmax fun p => by simp
    have hdrop : ∀ h' : Heart, Routine [] h' (emptyRequests h' imp) := fun h' =>
      .modifyImp (fun _ => rfl) fun _ => rfl
    rw [hbody]
    exact (((Routine.fsmDelete imp _).trans (hdrop _)).trans (.impBodyDelete imp)).ledger hbegun
  have hsleep : sleepers body = sleepers h := by
    have hasleep := hfield Imp.asleep (fun _ => rfl) (fun _ => rfl) fun _ => rfl
    rw [hbody] at hasleep ⊢
    exact tally_congr fun p _ => congrArg flag (hasleep p)
  rw [impDismiss_some hd, ← hbody]
  refine free hledger hplaced (fun fd reg hr ha => ?_) ?_ ?_ ?_
  · rw [hepoll] at hr
    exact ((hs.closed ha).mp hr).2
  · rw [hsleep, hbody]
    exact hs.waits
  · rw [hbody]
    exact hs.total_le
  · unfold NoAlias
    rw [hfield Imp.life (fun _ => rfl) (fun _ => rfl) fun _ => rfl, hbody]
    exact hs.past

/-! ### Driving -/

theorem appendJob (hs : Settled hand due h) (job : EpollJob) :
    Settled hand due (appendJob h imp job) :=
  hs.modifyImp (fun i => by split <;> rfl) (fun i => by split <;> rfl) fun i => by split <;> rfl

/-- An act of the soul in hand. -/
theorem soulAct (hs : Settled [imp] due h) {act : SoulAct} (hok : ActOk h imp act)
    (hpast : NoAlias (soulAct imp h act)) : Settled [imp] due (soulAct imp h act) := by
  cases act with
  | setIoev fd events => exact hs.appendJob _
  | setTimer ms =>
    have hasked : Settled [imp] due (askTimer h imp ms) :=
      hs.modifyImp (fun _ => rfl) (fun _ => rfl) fun _ => rfl
    exact hasked.appendJob _
  | summon ok => exact hs.impSummon hpast
  | closeFd fd =>
    have hw : (h.imps imp).waitio = some false := (hs.placed.awake imp List.mem_cons_self).2
    refine hs.forget (fun fd' reg hreg _ => ?_) fun fd' reg hreg ha hwr => ?_
    · have hfd : fd' ≠ .user fd := by
        rintro rfl
        rw [Function.update_self] at hreg
        cases hreg
      exact (Function.update_of_ne hfd ..).symm.trans hreg
    · have hfd : fd' ≠ .user fd := by
        rintro rfl
        rw [hok reg hreg ha, hw] at hwr
        cases hwr
      exact (Function.update_of_ne hfd ..).trans hreg

/-- A run of the soul in hand. -/
theorem soulActs (hs : Settled [imp] due h) {acts : List SoulAct} (hok : ActsOk imp h acts) :
    Settled [imp] due (acts.foldl (Dungeon.soulAct imp) h) := by
  induction acts generalizing h with
  | nil => exact hs
  | cons act acts ih =>
    obtain ⟨hact, hpast, hacts⟩ := hok
    exact ih (hs.soulAct hact hpast) hacts

/-- Arming a request of `imp` leaves its other descriptors its own. -/
theorem ownFd_arm {job : EpollJob} {fd : Fd} (hown : OwnFd h imp fd) :
    OwnFd (setPollAction h (job.fd imp) job.events imp true) imp fd := by
  intro reg hreg harmed
  change Function.update h.epoll (job.fd imp) (some ⟨job.events, imp, true⟩) fd = some reg at hreg
  by_cases hfd : fd = job.fd imp
  · rw [hfd, Function.update_self] at hreg
    exact (congrArg Reg.data (Option.some.inj hreg)).symm
  · exact hown reg ((Function.update_of_ne hfd ..).symm.trans hreg) harmed

/-- Nobody else arms the descriptors of an imp's body. -/
theorem ownFd (hs : Settled hand due h) {job : EpollJob} (hok : JobOk h imp job) :
    OwnFd h imp (job.fd imp) := by
  have hbody : ∀ fd reg, h.epoll fd = some reg → reg.armed = true →
      (reg.data = 0 ∨ reg.data = imp) → reg.data = imp := by
    rintro fd reg hreg ha (hz | hd)
    · have hdata := (hs.placed.owner fd reg hreg ha).1
      rw [hz, hs.ledger.null] at hdata
      cases hdata
    · exact hd
  cases job with
  | user fd events => exact hok
  | timer => exact fun reg hreg ha => hbody _ reg hreg ha (hs.placed.owner _ reg hreg ha).2
  | event => exact fun reg hreg ha => hbody _ reg hreg ha (hs.placed.owner _ reg hreg ha).2

/-- Raising a flag that is up. -/
theorem setWaitio_of_up (hw : (h.imps imp).waitio = some true) : setWaitio h imp true = h := by
  have hsame : { h.imps imp with waitio := some true } = h.imps imp := by rw [← hw]
  show { h with imps := Function.update h.imps imp { h.imps imp with waitio := some true } } = h
  rw [hsame, Function.update_eq_self]

/-- The driver arms the first request: the imp goes to sleep, not yet counted. -/
theorem armFirst (hs : Settled [imp] 0 h) {job : EpollJob} (hown : OwnFd h imp (job.fd imp)) :
    Settled [] 1 (armJob (fetchJob h imp) imp job true) := by
  have hfetched : Settled [imp] 0 (fetchJob h imp) :=
    hs.modifyImp (fun _ => rfl) (fun _ => rfl) fun _ => rfl
  have hlive := (hfetched.placed.awake imp List.mem_cons_self).1
  -- the flag and the registration are written to different parts of the heart
  exact (hfetched.arm hlive hown).doze ⟨job.fd imp, _, Function.update_self .., rfl, rfl⟩

/-- The driver arms the requests after the first: the imp already sleeps. -/
theorem armRest (hs : Settled hand due h) (hlive : (h.imps imp).life = .summoned)
    (hw : (h.imps imp).waitio = some true) (count : ℕ) {jobs : List EpollJob}
    (hown : ∀ job ∈ jobs, OwnFd h imp (job.fd imp)) :
    Settled hand due (armLoop imp (fun _ => true) h count jobs).1 ∧
      (armLoop imp (fun _ => true) h count jobs).2 = count + jobs.length := by
  induction jobs generalizing h count with
  | nil => exact ⟨hs, rfl⟩
  | cons job jobs ih =>
    have hfetched : Settled hand due (fetchJob h imp) :=
      hs.modifyImp (fun _ => rfl) (fun _ => rfl) fun _ => rfl
    have hsame : ((fetchJob h imp).imps imp).life = (h.imps imp).life ∧
        ((fetchJob h imp).imps imp).waitio = (h.imps imp).waitio := by
      rw [fetchJob, modifyImp_self]
      exact ⟨rfl, rfl⟩
    have hup : setWaitio (fetchJob h imp) imp true = fetchJob h imp :=
      setWaitio_of_up (hsame.2.trans hw)
    have harmed : armJob (fetchJob h imp) imp job true
        = setPollAction (fetchJob h imp) (job.fd imp) job.events imp true := by
      rw [armJob, hup]
    have hrest : ∀ job' ∈ jobs, OwnFd (armJob (fetchJob h imp) imp job true) imp (job'.fd imp) := by
      intro job' hmem
      rw [harmed]
      exact ownFd_arm (h := fetchJob h imp) (hown job' (List.mem_cons_of_mem _ hmem))
    obtain ⟨hsettled, hcount⟩ := ih
      (by rw [harmed]; exact hfetched.arm (hsame.1.trans hlive) (hown job List.mem_cons_self))
      (by rw [harmed]; exact hsame.1.trans hlive) (by rw [harmed]; exact hsame.2.trans hw)
      (count + 1) hrest
    refine ⟨hsettled, hcount.trans ?_⟩
    rw [List.length_cons]
    omega

/-- `imp_reduct_event_mask` and the store of its result. -/
theorem reduct (hs : Settled hand due h) : Settled hand due (reducted h imp) := by
  have hbody : ∀ {h : Heart} (g : ImpBody → ImpBody), Settled hand due h →
      Settled hand due (h.modifyImp imp fun i => { i with body := g i.body }) := fun g hs =>
    hs.modifyImp (fun _ => rfl) (fun _ => rfl) fun _ => rfl
  have htimer : Settled hand due (cleanupTimer h imp).2 :=
    hbody (fun body => (impBodyCleanupTimer body).2) hs
  have hcancel : Settled hand due (if (cleanupTimer h imp).1 then (cleanupTimer h imp).2
      else impCancelTimer (cleanupTimer h imp).2 imp) := by
    split
    next => exact htimer
    next => exact hbody (fun body => impBodySetTimer body 0) htimer
  have hevent : Settled hand due (impReductEventMask h imp).2 :=
    hbody (fun body => (impBodyCleanupEvent body).2) hcancel
  exact hevent.modifyImp (f := fun i => { i with eventMask := (impReductEventMask h imp).1 })
    (fun _ => rfl) (fun _ => rfl) fun _ => rfl

/-- One call of `imp_driver`: the imp in hand ends up in a queue or asleep. -/
theorem impDriver (hs : Settled [imp] 0 h) {run : SoulRun} (hok : IterateOk h imp run) :
    Settled [] 0 (impDriver h imp run fun _ => true) := by
  have hreducted : Settled [imp] 0 (reducted h imp) := hs.reduct
  have hbegun : Settled [imp] 0 (beginSoul (reducted h imp) imp) :=
    hreducted.modifyImp (fun _ => rfl) (fun _ => rfl) fun _ => rfl
  have hdriven : Settled [imp] 0 (fsmDriver (reducted h imp) imp run) := hbegun.soulActs hok.1
  rw [impDriver_eq]
  by_cases hterm : run.ret = toTerm
  · rw [if_pos hterm]
    exact hdriven.impTerm
  rw [if_neg hterm]
  have hown : ∀ job ∈ ((fsmDriver (reducted h imp) imp run).imps imp).requestedEvents,
      OwnFd (fsmDriver (reducted h imp) imp run) imp (job.fd imp) :=
    fun job hmem => hdriven.ownFd (hok.2 hterm job hmem)
  generalize fsmDriver (reducted h imp) imp run = h₁ at hdriven hown
  cases hjobs : (h₁.imps imp).requestedEvents with
  | nil => exact hdriven.impRun
  | cons job jobs =>
    rw [hjobs] at hown
    have hfirst := hdriven.armFirst (hown job List.mem_cons_self)
    have hself : ((armJob (fetchJob h₁ imp) imp job true).imps imp).life = .summoned ∧
        ((armJob (fetchJob h₁ imp) imp job true).imps imp).waitio = some true := by
      show ((setWaitio (fetchJob h₁ imp) imp true).imps imp).life = .summoned ∧
        ((setWaitio (fetchJob h₁ imp) imp true).imps imp).waitio = some true
      rw [setWaitio, modifyImp_self, fetchJob, modifyImp_self]
      exact ⟨(hdriven.placed.awake imp List.mem_cons_self).1, rfl⟩
    have hrest : ∀ job' ∈ jobs,
        OwnFd (armJob (fetchJob h₁ imp) imp job true) imp (job'.fd imp) := fun job' hmem =>
      ownFd_arm (h := setWaitio (fetchJob h₁ imp) imp true)
        (hown job' (List.mem_cons_of_mem _ hmem))
    obtain ⟨hall, hcount⟩ := hfirst.armRest hself.1 hself.2 1 hrest
    show Settled [] 0 (settle (armLoop imp (fun _ => true) (armJob (fetchJob h₁ imp) imp job true) 1
      jobs).1 imp (armLoop imp (fun _ => true) (armJob (fetchJob h₁ imp) imp job true) 1 jobs).2)
    rw [settle, if_pos (by omega)]
    exact hall.count

/-! ### Outside the threads -/

theorem env (hs : Settled hand due h) {act : EnvAct} (hm : EnvMove h act h')
    (hok : RoundOk h (.env act)) : Settled hand due h' := by
  cases hm with
  | expire => exact hs.modifyImp (fun _ => rfl) (fun _ => rfl) fun _ => rfl
  | post => exact hs.modifyImp (fun _ => rfl) (fun _ => rfl) fun _ => rfl
  | kill => exact hs.modifyImp (fun _ => rfl) (fun _ => rfl) fun _ => rfl
  | @scribble word =>
    have hr : Routine [] h { h with runQueue := h.runQueue.scribble word } := .scribble word
    refine ⟨hr.ledger hs.ledger, hs.placed.moved ?_ (fun _ => rfl) (fun _ => rfl) rfl, hs.waits,
      hs.total_le, ?_⟩
    · show (hand ++ ((h.runQueue.scribble word).toList ++ h.terminatedQueue.toList)).Perm _
      rw [Queue.toList_scribble]
      exact .refl _
    · unfold NoAlias
      rw [show (h.runQueue.scribble word).past = word from Queue.past_scribble word]
      exact hok

end Settled

/-! ## Runs -/

variable {h h' : Heart}

theorem settled_initial (hi : h.Initial) : Settled [] 0 h := by
  obtain ⟨nrImpMax, hmax, run, runBelow, term, termBelow, hlt, rfl⟩ := hi
  refine
    { ledger :=
        { null := rfl
          next_pos := Nat.one_pos
          fresh := fun _ _ => rfl
          max_lt := hlt
          run_max := rfl
          term_max := rfl
          created_eq := fun _ => rfl
          counted_eq := fun _ => rfl
          dismissals_eq := fun _ => rfl
          total_eq := rfl }
      placed :=
        { nodup := List.nodup_nil
          awake := fun _ hmem => absurd hmem List.not_mem_nil
          placed := nofun
          owner := nofun }
      waits := rfl
      total_le := Int.natCast_nonneg _
      past := nofun }

/-- One step keeps the invariant. -/
theorem Settled.step (hs : Settled [] 0 h) {act : RoundAct} (hok : RoundOk h act)
    (hstep : rounds.step h act = some h') : Settled [] 0 h' := by
  cases act with
  | iterate run =>
    obtain ⟨r, hr, rfl⟩ := Option.map_eq_some_iff.mp hstep
    exact (hs.fetch hr).impDriver (hok r hr)
  | deliver fd =>
    obtain ⟨r, hr, rfl⟩ := Option.map_eq_some_iff.mp hstep
    exact hs.deliver hr
  | dismiss =>
    obtain ⟨r, hr, hd⟩ := Option.bind_eq_some_iff.mp hstep
    exact hs.dismiss hr hd
  | summon ok =>
    obtain rfl := Option.some.inj hstep
    exact hs.impSummon hok
  | env act => exact hs.env (envStep_move hstep) hok

theorem settled_reach (hr : rounds.Reach RoundOk h) : Settled [] 0 h :=
  hr.invariant (fun _ hi => settled_initial hi) fun _ _ _ _ hs hok hstep => hs.step hok hstep

/-- The imp is at exactly one of its three places, and once. -/
def Heart.AtOnePlace (h : Heart) (imp : ImpId) : Prop :=
  (h.runQueue.toList.count imp = 1 ∧ h.terminatedQueue.toList.count imp = 0 ∧
      (h.imps imp).waitio = some false) ∨
    (h.runQueue.toList.count imp = 0 ∧ h.terminatedQueue.toList.count imp = 1 ∧
      (h.imps imp).waitio = some false) ∨
    (h.runQueue.toList.count imp = 0 ∧ h.terminatedQueue.toList.count imp = 0 ∧ h.Sleeps imp)

theorem Placed.atOnePlace (hp : Placed [] h) {imp : ImpId}
    (hlive : (h.imps imp).life = .summoned) : h.AtOnePlace imp := by
  have hcount : h.runQueue.toList.count imp + h.terminatedQueue.toList.count imp
      = if imp ∈ h.found then 1 else 0 := by
    rw [← List.count_append]
    exact List.Nodup.count hp.nodup
  rcases hp.placed imp hlive with hmem | hsleeps
  · have hw := (hp.awake imp hmem).2
    rw [if_pos (show imp ∈ h.found from hmem)] at hcount
    by_cases hrun : h.runQueue.toList.count imp = 0
    · exact .inr (.inl ⟨hrun, by omega, hw⟩)
    · exact .inl ⟨by omega, by omega, hw⟩
  · have hmem : imp ∉ h.found := fun hmem => hp.not_asleep hmem hsleeps.1
    rw [if_neg hmem] at hcount
    exact .inr (.inr ⟨by omega, by omega, hsleeps⟩)

/-- With nobody inside `imp_summon`, `nr_total` is the number of live imps. -/
theorem Calm.nrTotal_eq (hc : Calm h) :
    h.nrTotal = ({imp | (h.imps imp).life = .summoned} : Set ImpId).ncard := by
  have hset : ({imp | (h.imps imp).life = .summoned} : Set ImpId)
      = {imp | (h.imps imp).life.isCounted = true} := by
    ext imp
    have hcounted := hc.counted_eq imp
    show (h.imps imp).life = .summoned ↔ (h.imps imp).life.isCounted = true
    cases hlife : (h.imps imp).life with
    | counted =>
      rw [hlife] at hcounted
      cases hcounted
    | _ => simp [Life.isCounted]
  rw [hset, hc.total_eq, add_zero]
  refine tally_flag_eq_ncard (p := fun i : Imp => i.life.isCounted) fun imp hi => ?_
  refine Finset.mem_range.mpr (hc.lt_next fun hun => ?_)
  rw [hun] at hi
  cases hi

/-- **Location and accounting.** In every run of whole iterations in which souls share no
descriptor and the word past the run queue is no live imp: every live imp is in the run
queue once, in the terminated queue once, or asleep with a descriptor armed, and at only one
of these; `nr_total` is the number of live imps and within the limit; `nr_waitio` is the
number of sleeping ones. -/
theorem location_accounting (hr : rounds.Reach RoundOk h) :
    (∀ imp, (h.imps imp).life = .summoned → h.AtOnePlace imp) ∧
    h.nrTotal = ({imp | (h.imps imp).life = .summoned} : Set ImpId).ncard ∧
    h.nrTotal ≤ h.nrMax ∧
    h.nrWaitio = ({imp | (h.imps imp).life = .summoned ∧ h.Sleeps imp} : Set ImpId).ncard := by
  have hs := settled_reach hr
  refine ⟨fun imp hlive => hs.placed.atOnePlace hlive, hs.ledger.nrTotal_eq, hs.total_le, ?_⟩
  have hset : ({imp | (h.imps imp).life = .summoned ∧ h.Sleeps imp} : Set ImpId)
      = {imp | (h.imps imp).life = .summoned ∧ (h.imps imp).waitio = some true} := by
    ext imp
    refine ⟨fun ⟨hlive, hsl⟩ => ⟨hlive, hsl.1⟩, fun ⟨hlive, hw⟩ => ⟨hlive, ?_⟩⟩
    exact (hs.placed.placed imp hlive).resolve_left fun hmem => hs.placed.not_asleep hmem hw
  rw [hset, ← sleepers_eq_ncard hs.ledger.fresh, ← hs.waits, add_zero]

/-- An imp summons another, waits, is woken and waits for its timer; the other one
terminates and is dismissed. -/
def summonSleepDismiss : List RoundAct :=
  [.summon true, .iterate ⟨[.setIoev 5 epollIn, .summon true], toBlock⟩, .iterate ⟨[], toTerm⟩,
    .deliver (.user 5), .dismiss, .iterate ⟨[.setTimer 10], toBlock⟩]

theorem location_accounting_summonSleepDismiss : ∃ h : Heart, rounds.Reach RoundOk h ∧
    h.nrTotal = 1 ∧ h.nrWaitio = 1 ∧ h.AtOnePlace 1 ∧
    ({imp | (h.imps imp).life = .summoned ∧ h.Sleeps imp} : Set ImpId).ncard = 1 := by
  obtain ⟨h, hr, hp⟩ : ∃ h : Heart, rounds.Reach RoundOk h ∧
      decide (h.nrTotal = 1 ∧ h.nrWaitio = 1 ∧ (h.imps 1).life = .summoned) = true :=
    Machine.exec_reach (M := rounds)
      (show rounds.init (blankHeart (show 0 < 2 by decide)) from
        ⟨2, by decide, _, _, _, _, by decide, rfl⟩)
      (show (rounds.exec RoundOk _ summonSleepDismiss).map _ = some true by decide +kernel)
  obtain ⟨htotal, hwaitio, hlive⟩ := of_decide_eq_true hp
  obtain ⟨hplace, -, -, hsleep⟩ := location_accounting hr
  exact ⟨h, hr, htotal, hwaitio, hplace 1 hlive, by exact_mod_cast hsleep.symm.trans hwaitio⟩

end Dungeon

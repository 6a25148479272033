import Dungeon.Signals

/-!
# Timers of sleeping imps

`imp_set_timer` starts the timer of a body while the soul runs; three functions turn it off
again: `imp_cancel_timer` in the epoll thread, on every event; the timer read and the
cancel of `imp_reduct_event_mask`; and `imp_set_timer(0)`.

- `Sys.disarms`: the imp whose timer a step turns off.
- `Sys.Move.clock`: everything a step can do to a timer.
- `timer_not_lost`: a sleeping imp that asked for a timer still has it, or the epoll thread
  is about to wake the imp, in every run in which no timer is turned off while a driver of
  its imp has a request left to arm (`DisarmOk`).
- `timer_lost`: a second event of an earlier sleep turns the timer off after the soul has
  set it, and its wake-up fails.
- `timeout_unseen`: when a sleeping imp is woken by its own timer, the soul never sees
  `EV_MASK_TIMER`: the epoll thread cancels the timer, expirations included, before the
  driver reads it.
-/

namespace Dungeon

open Few

variable {W R : ℕ} {s s' : Sys W R} {a : Act W R} {debug : Bool} {imp : ImpId}

/-- The imp sleeps: `waitio` is `TRUE` and no worker is in its `imp_driver` call. -/
def Sys.Asleep (s : Sys W R) (imp : ImpId) : Prop :=
  (s.heart.imps imp).waitio = some true ∧ ∀ w, (s.worker w).driving ≠ some imp

instance (s : Sys W R) (imp : ImpId) : Decidable (s.Asleep imp) := by
  unfold Sys.Asleep
  infer_instance

/-! ## What happens to a timer -/

/-- The timer of an imp, and whether the last run of its soul asked for it. -/
def Imp.clock (i : Imp) : Timerfd × Bool := (i.body.timerFd, i.timerAsked)

/-- The imp whose timer a worker's step turns off. -/
def WorkerPc.disarms (h : Heart) : WorkerPc → WorkerAct → Option ImpId
  | .fetched imp, .go => if (h.imps imp).body.timerFd = .expired then some imp else none
  | .cancelling imp, .go => some imp
  | .soul imp none, .soul (.setTimer ms) => if ms = 0 then some imp else none
  | _, _ => none

/-- The imp whose timer the epoll thread's step turns off. -/
def EpollerPc.disarms : EpollerPc → Option ImpId
  | .entry imp _ => some imp
  | _ => none

/-- The imp whose timer a step turns off. -/
def Sys.disarms (s : Sys W R) : Act W R → Option ImpId
  | .worker w act => (s.worker w).disarms s.heart act
  | .epoller _ => s.epoller.disarms
  | _ => none

section Clocks

variable {h h' : Heart}

theorem summonStep_clock (pc : SummonPc) (imp : ImpId) :
    ((summonStep h pc).1.imps imp).clock = (h.imps imp).clock ∨
      ((summonStep h pc).1.imps imp).clock = (.disarmed, false) := by
  cases pc with
  | checked ok =>
    cases ok with
    | false => exact .inl rfl
    | true =>
      show ((Function.update h.imps h.nextId _) imp).clock = _ ∨
        ((Function.update h.imps h.nextId _) imp).clock = (.disarmed, false)
      by_cases hp : imp = h.nextId
      · rw [hp, Function.update_self]
        exact .inr rfl
      · rw [Function.update_of_ne hp]
        exact .inl rfl
  | created p | counted p =>
    dsimp only [summonStep, countImp, beginImp]
    exact .inl (modifyImp_field h p imp _ Imp.clock fun _ => rfl)
  | ready p => exact .inl rfl

/-- Reading the timer turns an expired one off. -/
theorem cleanupTimer_clock (h : Heart) (p imp : ImpId) :
    ((cleanupTimer h p).2.imps imp).clock = (h.imps imp).clock ∨
      imp = p ∧ (h.imps p).body.timerFd = .expired ∧
        ((cleanupTimer h p).2.imps imp).clock = (.disarmed, (h.imps imp).timerAsked) := by
  unfold cleanupTimer
  obtain heq | ⟨rfl, heq⟩ := modifyImp_cases h p imp fun i =>
    { i with body := (impBodyCleanupTimer i.body).2 }
  · exact .inl (congrArg Imp.clock heq)
  · rw [heq]
    unfold impBodyCleanupTimer Imp.clock
    dsimp only
    cases ht : (timerfdRead (h.imps imp).body.timerFd).1 with
    | false => exact .inl (by rw [timerfdRead_false ht])
    | true =>
      have hexpired := timerfdRead_true ht
      exact .inr ⟨rfl, hexpired, by rw [hexpired]; rfl⟩

/-- `imp_cancel_timer` turns the timer off. -/
theorem impCancelTimer_clock (h : Heart) (p imp : ImpId) :
    ((impCancelTimer h p).imps imp).clock = (h.imps imp).clock ∨
      imp = p ∧ ((impCancelTimer h p).imps imp).clock = (.disarmed, (h.imps imp).timerAsked) := by
  unfold impCancelTimer
  obtain heq | ⟨rfl, heq⟩ := modifyImp_cases h p imp fun i =>
    { i with body := impBodySetTimer i.body 0 }
  · exact .inl (congrArg Imp.clock heq)
  · rw [heq]
    unfold Imp.clock
    rw [impBodySetTimer_zero]
    exact .inr ⟨rfl, rfl⟩

/-- `imp_set_timer` is refused with a negative time, and turns the timer off with zero. -/
theorem askTimer_clock (h : Heart) (p : ImpId) (ms : ℤ) (imp : ImpId) :
    ((askTimer h p ms).imps imp).clock = (h.imps imp).clock ∨
      imp = p ∧ (ms = 0 ∧ ((askTimer h p ms).imps imp).clock
          = (.disarmed, (h.imps imp).timerAsked) ∨
        ((askTimer h p ms).imps imp).clock = (.armed, true)) := by
  unfold askTimer
  obtain heq | ⟨rfl, heq⟩ := modifyImp_cases h p imp fun i =>
    { i with body := impBodySetTimer i.body ms, timerAsked := i.timerAsked || decide (0 < ms) }
  · exact .inl (congrArg Imp.clock heq)
  · rw [heq]
    unfold Imp.clock
    dsimp only
    rcases lt_trichotomy ms 0 with hms | rfl | hms
    · rw [impBodySetTimer_neg _ hms, decide_eq_false (by omega), Bool.or_false]
      exact .inl rfl
    · rw [impBodySetTimer_zero, decide_eq_false (by omega), Bool.or_false]
      exact .inr ⟨rfl, .inl ⟨rfl, rfl⟩⟩
    · rw [impBodySetTimer_pos _ hms, decide_eq_true hms, Bool.or_true]
      exact .inr ⟨rfl, .inr rfl⟩

/-- What a worker's step does to a timer. -/
theorem WorkerMove.clock {pc pc' : WorkerPc} {act : WorkerAct} (hm : WorkerMove h pc act h' pc')
    (imp : ImpId) :
    (h'.imps imp).clock = (h.imps imp).clock ∨
      (pc.disarms h act = some imp ∧ (h'.imps imp).clock = (.disarmed, (h.imps imp).timerAsked)) ∨
      (pc = .soul imp none ∧ (h'.imps imp).clock = (.armed, true)) ∨
      (h'.imps imp).clock = ((h.imps imp).body.timerFd, false) ∨
      (h'.imps imp).clock = (.disarmed, false) := by
  cases hm with
  | @timeout p | @noTimeout p =>
    obtain heq | ⟨rfl, ht, heq⟩ := cleanupTimer_clock h p imp
    · exact .inl heq
    · exact .inr (.inl ⟨if_pos ht, heq⟩)
  | @cancel p =>
    obtain heq | ⟨rfl, heq⟩ := impCancelTimer_clock h p imp
    · exact .inl heq
    · exact .inr (.inl ⟨rfl, heq⟩)
  | @setTimer p ms =>
    obtain heq | ⟨rfl, ⟨rfl, heq⟩ | heq⟩ := askTimer_clock h p ms imp
    · exact .inl heq
    · exact .inr (.inl ⟨rfl, heq⟩)
    · exact .inr (.inr (.inl ⟨rfl, heq⟩))
  | @enter p =>
    dsimp only [beginSoul]
    obtain heq | ⟨rfl, heq⟩ := modifyImp_cases h p imp fun i =>
      { i with timerAsked := false }
    · exact .inl (congrArg Imp.clock heq)
    · exact .inr (.inr (.inr (.inl (congrArg Imp.clock heq))))
  | nested => exact (summonStep_clock _ imp).imp_right fun hnew => .inr (.inr (.inr hnew))
  | reduct | store | clear | fetchJob | publish =>
    dsimp only [cleanupEvent, storeEventMask, setWaitio, Dungeon.fetchJob]
    exact .inl (modifyImp_field h _ imp _ Imp.clock fun _ => rfl)
  | setIoev | mark =>
    dsimp only [impSetIoev, appendJob]
    exact .inl (modifyImp_field h _ imp _ Imp.clock fun i => by split <;> rfl)
  | @arm p count job ok => cases ok <;> exact .inl rfl
  | _ => exact .inl rfl

theorem EpollerMove.clock {pc pc' : EpollerPc} (hm : EpollerMove h pc h' pc') (imp : ImpId) :
    (h'.imps imp).clock = (h.imps imp).clock ∨
      (pc.disarms = some imp ∧ (h'.imps imp).clock = (.disarmed, (h.imps imp).timerAsked)) := by
  cases hm with
  | wait hb =>
    obtain ⟨epoll, rfl⟩ := hb.frame
    exact .inl rfl
  | @cancel p =>
    obtain heq | ⟨rfl, heq⟩ := impCancelTimer_clock h p imp
    · exact .inl heq
    · exact .inr ⟨rfl, heq⟩
  | wake =>
    dsimp only [setWaitio]
    exact .inl (modifyImp_field h _ imp _ Imp.clock fun _ => rfl)
  | _ => exact .inl rfl

theorem MaintainerMove.clock {pc pc' : MaintainerPc} {closing : Closing}
    (hm : MaintainerMove h pc closing h' pc') (imp : ImpId) :
    (h'.imps imp).clock = (h.imps imp).clock := by
  cases hm with
  | take | drop | free =>
    dsimp only [beginDismiss, emptyRequests, freeImp]
    exact modifyImp_field _ _ imp _ Imp.clock fun _ => rfl
  | body => exact impBodyDelete_field h _ imp Imp.clock fun _ => rfl
  | _ => rfl

theorem EnvMove.clock {act : EnvAct} (hm : EnvMove h act h') (imp : ImpId) :
    (h'.imps imp).clock = (h.imps imp).clock ∨
      ((h.imps imp).body.timerFd = .armed ∧
        (h'.imps imp).clock = (.expired, (h.imps imp).timerAsked)) := by
  cases hm with
  | @expire p ht =>
    obtain heq | ⟨rfl, heq⟩ := modifyImp_cases h p imp fun i =>
      { i with body := { i.body with timerFd := .expired } }
    · exact .inl (congrArg Imp.clock heq)
    · exact .inr ⟨ht, congrArg Imp.clock heq⟩
  | post | kill =>
    dsimp only [impKill]
    exact .inl (modifyImp_field h _ imp _ Imp.clock fun _ => rfl)
  | scribble => exact .inl rfl

end Clocks

/-- **Timers.** A step leaves a timer alone, turns it off, sets it for the soul, lets it
expire, or begins a new run or a new imp. -/
theorem Sys.Move.clock (hm : s.Move a s') (imp : ImpId) :
    (s'.heart.imps imp).clock = (s.heart.imps imp).clock ∨
      (s.disarms a = some imp ∧
        (s'.heart.imps imp).clock = (.disarmed, (s.heart.imps imp).timerAsked)) ∨
      ((∃ w, s.worker w = .soul imp none) ∧ (s'.heart.imps imp).clock = (.armed, true)) ∨
      (s'.heart.imps imp).clock = ((s.heart.imps imp).body.timerFd, false) ∨
      (s'.heart.imps imp).clock = (.disarmed, false) ∨
      ((s.heart.imps imp).body.timerFd = .armed ∧
        (s'.heart.imps imp).clock = (.expired, (s.heart.imps imp).timerAsked)) := by
  cases hm with
  | @worker w act sh pc hm =>
    rcases hm.clock imp with heq | hoff | ⟨hpc, heq⟩ | heq | heq
    · exact .inl heq
    · exact .inr (.inl hoff)
    · exact .inr (.inr (.inl ⟨⟨w, hpc⟩, heq⟩))
    · exact .inr (.inr (.inr (.inl heq)))
    · exact .inr (.inr (.inr (.inr (.inl heq))))
  | initerCheck => exact .inl rfl
  | initer =>
    exact (summonStep_clock _ imp).imp_right fun hnew => .inr (.inr (.inr (.inl hnew)))
  | epoller hm => exact (hm.clock imp).imp_right .inl
  | maintainer hm => exact .inl (hm.clock imp)
  | @destroyer sh pc hheart =>
    refine .inl ?_
    show (sh.heart.imps imp).clock = _
    rw [hheart]
  | env hm => exact (hm.clock imp).imp_right fun hexp => .inr (.inr (.inr (.inr hexp)))

/-! ## Requested timers -/

/-- The imp a worker will set `waitio` for once more, `jobs` being the requests of that imp. -/
def WorkerPc.publishes (jobs : List EpollJob) (imp : ImpId) : WorkerPc → Prop
  | .soul p _ => p = imp
  | .marking p => p = imp
  | .publishing p _ _ => p = imp
  | .looping p _ => p = imp ∧ jobs ≠ []
  | .arming p _ _ => p = imp ∧ jobs ≠ []
  | _ => False

instance (jobs : List EpollJob) (imp : ImpId) (pc : WorkerPc) :
    Decidable (pc.publishes jobs imp) := by
  unfold WorkerPc.publishes
  split <;> infer_instance

/-- The imp of a driver call that has not come to its soul. -/
def WorkerPc.opens : WorkerPc → Option ImpId
  | .fetched imp => some imp
  | .cancelling imp => some imp
  | .reducting imp _ => some imp
  | .storing imp _ => some imp
  | .testing imp => some imp
  | .killed imp => some imp
  | _ => none

/-- Some worker will set `waitio` for the imp once more. -/
def Sys.Publishes (s : Sys W R) (imp : ImpId) : Prop :=
  ∃ w, (s.worker w).publishes (s.heart.imps imp).requestedEvents imp

instance (s : Sys W R) (imp : ImpId) : Decidable (s.Publishes imp) := by
  unfold Sys.Publishes
  infer_instance

/-- No timer that the soul asked for is turned off while a driver will still put the
imp to sleep on it. -/
def DisarmOk (s : Sys W R) (a : Act W R) : Prop :=
  match s.disarms a with
  | none => True
  | some imp => (s.heart.imps imp).timerAsked = true → ¬ s.Publishes imp

instance (s : Sys W R) (a : Act W R) : Decidable (DisarmOk s a) := by
  unfold DisarmOk
  split <;> infer_instance

/-- The imp may be without its timer: nobody will put it to sleep without running its soul
again, and it is awake, or about to be woken, or in a driver call that wakes it. -/
structure Excused (s : Sys W R) (imp : ImpId) : Prop where
  publishes : ¬ s.Publishes imp
  place : (∃ rest, s.epoller = .waking imp rest) ∨ (s.heart.imps imp).waitio ≠ some true ∨
    ∃ w, (s.worker w).opens = some imp

/-- An imp has the timer it asked for, or is excused. -/
def Guarded (s : Sys W R) (imp : ImpId) : Prop :=
  (s.heart.imps imp).timerAsked = true →
    (s.heart.imps imp).body.timerFd ≠ .disarmed ∨ Excused s imp

section Requests

variable {h h' : Heart}

theorem summonStep_requests {pc : SummonPc}
    (hne : ((summonStep h pc).1.imps imp).requestedEvents ≠ []) :
    (h.imps imp).requestedEvents ≠ [] := by
  cases pc with
  | checked ok =>
    cases ok with
    | false => exact hne
    | true =>
      change ((Function.update h.imps h.nextId _) imp).requestedEvents ≠ [] at hne
      by_cases hp : imp = h.nextId
      · rw [hp, Function.update_self] at hne
        exact absurd rfl hne
      · rwa [Function.update_of_ne hp] at hne
  | created p | counted p =>
    dsimp only [summonStep, countImp, beginImp] at hne
    rw [modifyImp_field h p imp _ Imp.requestedEvents] at hne
    · exact hne
    · exact fun _ => rfl
  | ready p => exact hne

/-- Only the soul requests events. -/
theorem WorkerMove.requests {pc pc' : WorkerPc} {act : WorkerAct} (hm : WorkerMove h pc act h' pc')
    (hne : (h'.imps imp).requestedEvents ≠ []) :
    (h.imps imp).requestedEvents ≠ [] ∨ pc = .soul imp none ∨ pc = .marking imp := by
  cases hm with
  | @setIoev p | @mark p =>
    dsimp only [impSetIoev, appendJob] at hne
    rcases of_modifyImp_imps (P := fun i => i.requestedEvents ≠ []) hne with hne | ⟨rfl, -⟩
    · exact .inl hne
    · first | exact .inr (.inl rfl) | exact .inr (.inr rfl)
  | @fetchJob p count job jobs hj =>
    dsimp only [Dungeon.fetchJob] at hne
    rcases of_modifyImp_imps (P := fun i => i.requestedEvents ≠ []) hne with hne | ⟨rfl, -⟩
    · exact .inl hne
    · rw [hj]
      exact .inl nofun
  | nested => exact .inl (summonStep_requests hne)
  | timeout | noTimeout | cancel | reduct | store | enter | clear | setTimer | publish =>
    dsimp only [cleanupTimer, impCancelTimer, cleanupEvent, storeEventMask, beginSoul, setWaitio,
      askTimer] at hne
    rw [modifyImp_field h _ imp _ Imp.requestedEvents] at hne
    · exact .inl hne
    · exact fun _ => rfl
  | @arm p count job ok => cases ok <;> exact .inl hne
  | _ => exact .inl hne

/-- A worker that comes to its soul begins a new run. -/
theorem WorkerMove.publishes {pc pc' : WorkerPc} {act : WorkerAct} (hm : WorkerMove h pc act h' pc')
    (hp : pc'.publishes (h'.imps imp).requestedEvents imp) :
    pc.publishes (h.imps imp).requestedEvents imp ∨ (h'.imps imp).timerAsked = false := by
  cases hm with
  | @enter p =>
    obtain rfl : p = imp := hp
    refine .inr ?_
    unfold beginSoul
    rw [modifyImp_self]
  | setIoev | closeFd | summon | setTimer | mark | nested => exact .inl hp
  | ret | publish => exact .inl hp.1
  | @fetchJob p count job jobs hj =>
    obtain rfl : p = imp := hp
    exact .inl ⟨rfl, by rw [hj]; nofun⟩
  | @arm p count job ok =>
    obtain ⟨rfl, hne⟩ := hp
    refine .inl ⟨rfl, ?_⟩
    cases ok <;> exact hne
  | _ => exact hp.elim

theorem EpollerMove.requests {pc pc' : EpollerPc} (hm : EpollerMove h pc h' pc') (imp : ImpId) :
    (h'.imps imp).requestedEvents = (h.imps imp).requestedEvents := by
  cases hm with
  | wait hb =>
    obtain ⟨epoll, rfl⟩ := hb.frame
    rfl
  | cancel | wake =>
    dsimp only [impCancelTimer, setWaitio]
    exact modifyImp_field h _ imp _ Imp.requestedEvents fun _ => rfl
  | _ => rfl

theorem MaintainerMove.requests {pc pc' : MaintainerPc} {closing : Closing}
    (hm : MaintainerMove h pc closing h' pc') (hne : (h'.imps imp).requestedEvents ≠ []) :
    (h.imps imp).requestedEvents ≠ [] := by
  cases hm with
  | @drop p =>
    dsimp only [emptyRequests] at hne
    rcases of_modifyImp_imps (P := fun i => i.requestedEvents ≠ []) hne with hne | ⟨-, hne⟩
    · exact hne
    · exact absurd rfl hne
  | take | free =>
    dsimp only [beginDismiss, freeImp] at hne
    rw [modifyImp_field _ _ imp _ Imp.requestedEvents] at hne
    · exact hne
    · exact fun _ => rfl
  | body => exact impBodyDelete_field h _ imp Imp.requestedEvents (fun _ => rfl) ▸ hne
  | _ => exact hne

theorem EnvMove.requests {act : EnvAct} (hm : EnvMove h act h') (imp : ImpId) :
    (h'.imps imp).requestedEvents = (h.imps imp).requestedEvents := by
  cases hm with
  | expire | post | kill =>
    dsimp only [impKill]
    exact modifyImp_field h _ imp _ Imp.requestedEvents fun _ => rfl
  | scribble => rfl

/-- More requests, the same promise to publish. -/
theorem WorkerPc.publishes_mono {pc : WorkerPc} {jobs jobs' : List EpollJob}
    (hp : pc.publishes jobs' imp) (hne : jobs' ≠ [] → jobs ≠ []) : pc.publishes jobs imp := by
  cases pc with
  | looping | arming => exact ⟨hp.1, hne hp.2⟩
  | _ => exact hp

end Requests

/-- Nobody comes to publish an imp but by a new run of its soul. -/
theorem Sys.Move.publishes (hm : s.Move a s') (hp : s'.Publishes imp) :
    s.Publishes imp ∨ (s'.heart.imps imp).timerAsked = false := by
  obtain ⟨v, hp⟩ := hp
  cases hm with
  | @worker w act sh pc hm =>
    change (Function.update s.worker w pc v).publishes (sh.heart.imps imp).requestedEvents imp at hp
    by_cases hv : v = w
    · rw [hv, Function.update_self] at hp
      exact (hm.publishes hp).imp_left fun hp => ⟨w, hp⟩
    · rw [Function.update_of_ne hv] at hp
      by_cases hne : (s.heart.imps imp).requestedEvents ≠ []
      · exact .inl ⟨v, WorkerPc.publishes_mono hp fun _ => hne⟩
      by_cases hne' : (sh.heart.imps imp).requestedEvents ≠ []
      · -- the step of `w` has made the request
        rcases hm.requests hne' with hne' | hpc | hpc
        · exact absurd hne' hne
        · exact .inl ⟨w, by rw [hpc]; rfl⟩
        · exact .inl ⟨w, by rw [hpc]; rfl⟩
      · exact .inl ⟨v, WorkerPc.publishes_mono hp fun h => absurd h hne'⟩
  | initerCheck => exact .inl ⟨v, hp⟩
  | initer => exact .inl ⟨v, WorkerPc.publishes_mono hp summonStep_requests⟩
  | epoller hm => exact .inl ⟨v, WorkerPc.publishes_mono hp (hm.requests imp ▸ id)⟩
  | maintainer hm => exact .inl ⟨v, WorkerPc.publishes_mono hp hm.requests⟩
  | @destroyer sh pc hheart =>
    refine .inl ⟨v, WorkerPc.publishes_mono hp ?_⟩
    show (sh.heart.imps imp).requestedEvents ≠ [] → _
    rw [hheart]
    exact id
  | env hm => exact .inl ⟨v, WorkerPc.publishes_mono hp (hm.requests imp ▸ id)⟩

section Places

variable {h h' : Heart}

/-- A worker that turns a timer off is at the start of a driver call, or runs the soul. -/
theorem WorkerMove.disarms {pc pc' : WorkerPc} {act : WorkerAct} (hm : WorkerMove h pc act h' pc')
    (hd : pc.disarms h act = some imp) : pc'.opens = some imp ∨ pc = .soul imp none := by
  cases hm with
  | timeout ht => exact .inl ((if_pos ht).symm.trans hd)
  | noTimeout ht => exact absurd ((if_neg ht).symm.trans hd) nofun
  | cancel => exact .inl hd
  | @setTimer p ms =>
    change (if ms = 0 then some p else none) = some imp at hd
    split at hd
    · exact .inr (by rw [Option.some.inj hd])
    · cases hd
  | _ => cases hd

/-- A driver call goes on to its soul, or lowers the flag. -/
theorem WorkerMove.opens {pc pc' : WorkerPc} {act : WorkerAct} (hm : WorkerMove h pc act h' pc')
    (hmask : (h.imps imp).eventMask &&& evMaskGlobalMask = 0) (ho : pc.opens = some imp) :
    pc'.opens = some imp ∨ (h'.imps imp).waitio ≠ some true ∨
      (h'.imps imp).timerAsked = false := by
  cases hm with
  | @clear p =>
    obtain rfl := Option.some.inj ho
    refine .inr (.inl ?_)
    unfold setWaitio
    rw [modifyImp_self]
    nofun
  | @enter p =>
    obtain rfl := Option.some.inj ho
    refine .inr (.inr ?_)
    unfold beginSoul
    rw [modifyImp_self]
  | alert hk ha =>
    obtain rfl := Option.some.inj ho
    exact absurd (and_globalAlert hk hmask) ha
  | timeout | noTimeout | cancel | reduct | store | kill => exact .inl ho
  | _ => cases ho

end Places

theorem Sys.Move.waitio (hm : s.Move a s') (hup : (s'.heart.imps imp).waitio = some true) :
    (s.heart.imps imp).waitio = some true ∨
      ∃ w count job, s.worker w = .publishing imp count job := by
  cases hm with
  | @worker w act sh pc hm => exact (hm.waitio hup).imp_right fun hpc => ⟨w, hpc⟩
  | initerCheck => exact .inl hup
  | initer => exact .inl (summonStep_waitio hup)
  | epoller hm => exact .inl ((hm.lively imp).2.2 hup)
  | maintainer hm => exact .inl ((hm.lively imp).2 ▸ hup)
  | @destroyer sh pc hheart =>
    change (sh.heart.imps imp).waitio = some true at hup
    exact .inl (hheart ▸ hup)
  | env hm => exact .inl ((hm.lively imp).2 ▸ hup)

namespace Guarded

/-- An excused imp stays excused until its soul runs again. -/
theorem excused_move (hn : NoAlert s) (he : Excused s imp) (hm : s.Move a s')
    (hasked : (s'.heart.imps imp).timerAsked = true) : Excused s' imp := by
  have hold : ¬ (s'.heart.imps imp).timerAsked = false := by rw [hasked]; nofun
  have hpub : ¬ s'.Publishes imp := fun hp => (hm.publishes hp).elim he.publishes hold
  refine ⟨hpub, ?_⟩
  have hdown : (s.heart.imps imp).waitio ≠ some true → (s'.heart.imps imp).waitio ≠ some true := by
    intro hdown hup
    rcases hm.waitio hup with hup | ⟨w, count, job, hpc⟩
    · exact hdown hup
    · exact he.publishes ⟨w, by rw [hpc]; rfl⟩
  -- each place leads to the next: the wake lowers the flag, and a driver call comes to its
  -- soul or lowers the flag as well
  rcases he.place with hwaking | hflag | ⟨v, hv⟩
  · cases hm with
    | @epoller fds h' pc hm =>
      obtain ⟨rest, hpc⟩ := hwaking
      generalize s.epoller = old at hm hpc
      subst hpc
      refine .inr (.inl ?_)
      show (h'.imps imp).waitio ≠ some true
      cases hm with
      | wake =>
        unfold setWaitio
        rw [modifyImp_self]
        nofun
      | awake hw => exact hw
    | _ => exact .inl hwaking
  · exact .inr (.inl (hdown hflag))
  · cases hm with
    | @worker w act sh pc hm =>
      by_cases hvw : v = w
      · subst hvw
        rcases hm.opens (hn.masks imp) hv with ho | hflag | hnew
        · exact .inr (.inr ⟨v, (congrArg WorkerPc.opens (Function.update_self ..)).trans ho⟩)
        · exact .inr (.inl hflag)
        · exact absurd hnew hold
      · exact .inr (.inr ⟨v, (congrArg WorkerPc.opens (Function.update_of_ne hvw ..)).trans hv⟩)
    | _ => exact .inr (.inr ⟨v, hv⟩)

/-- Turning a timer off excuses an imp that no driver is going to publish. -/
theorem excused_of_disarms (hd : s.disarms a = some imp) (hp : ¬ s.Publishes imp) (hm : s.Move a s')
    (hasked : (s'.heart.imps imp).timerAsked = true) : Excused s' imp := by
  have hold : ¬ (s'.heart.imps imp).timerAsked = false := by rw [hasked]; nofun
  refine ⟨fun hp' => (hm.publishes hp').elim hp hold, ?_⟩
  cases hm with
  | @worker w act sh pc hm =>
    rcases hm.disarms hd with ho | hpc
    · exact .inr (.inr ⟨w, (congrArg WorkerPc.opens (Function.update_self ..)).trans ho⟩)
    · exact absurd ⟨w, by rw [hpc]; rfl⟩ hp
  | @epoller fds h' pc hm =>
    change s.epoller.disarms = some imp at hd
    refine .inl ?_
    show ∃ rest, pc = .waking imp rest
    generalize s.epoller = old at hm hd
    cases hm with
    | @cancel p rest => exact ⟨rest, by rw [Option.some.inj hd]⟩
    | _ => cases hd
  | _ => cases hd

/-- Every move that meets the condition keeps timers guarded. -/
theorem move (hn : NoAlert s) (hg : Guarded s imp) (hok : DisarmOk s a) (hm : s.Move a s') :
    Guarded s' imp := by
  intro hasked
  by_cases hoff : (s'.heart.imps imp).body.timerFd = .disarmed
  · refine .inr ?_
    -- the soul asked before the step, and the timer is off by the step, or was before it
    have hclock := hm.clock imp
    have hpair : (s'.heart.imps imp).clock = (.disarmed, true) := by
      unfold Imp.clock
      rw [hoff, hasked]
    rw [hpair] at hclock
    -- only two of the six kinds of steps leave a timer off that the soul asked for
    rcases hclock with heq | ⟨hd, heq⟩ | ⟨-, heq⟩ | heq | heq | ⟨-, heq⟩
    · obtain ⟨hoff', hasked'⟩ := Prod.mk.inj heq
      rcases hg hasked'.symm with hon | he
      · exact absurd hoff'.symm hon
      · exact excused_move hn he hm hasked
    · obtain ⟨-, hasked'⟩ := Prod.mk.inj heq
      refine excused_of_disarms hd ?_ hm hasked
      unfold DisarmOk at hok
      rw [hd] at hok
      exact hok hasked'.symm
    · cases heq
    · exact absurd (Prod.mk.inj heq).2 nofun
    · cases heq
    · cases heq
  · exact .inl hoff

end Guarded

/-- The soul asks for a timeout and blocks; the driver arms the timer and returns. -/
def sleeps (w : Fin W) (ms : ℤ) : List (Act W R) :=
  [.worker w (.soul (.setTimer ms)), .worker w .go, .worker w (.ret toBlock)] ++ goes w 2
    ++ [.worker w (.ctl true)] ++ goes w 3

/-- A sleeping imp that asked for a timeout has timed out, and the epoll thread is about to
handle its event. -/
structure Sys.Expires (s : Sys W R) (imp : ImpId) : Prop where
  asleep : s.Asleep imp
  asked : (s.heart.imps imp).timerAsked = true
  expired : (s.heart.imps imp).body.timerFd = .expired
  entry : ∃ rest, s.epoller = .entry imp rest

/-- A worker on its way to the soul of the imp has seen no timeout. -/
def WorkerPc.unseen (imp : ImpId) : WorkerPc → Prop
  | .reducting p timeout => p = imp → timeout = false
  | .storing p mask => p = imp → mask &&& evMaskTimer = 0
  | .soul p _ => p ≠ imp
  | .marking p => p ≠ imp
  | _ => True

/-- The timer of the imp is off, and nobody on the way to its soul has seen it expired. -/
structure Unseen (s : Sys W R) (imp : ImpId) : Prop where
  timer : (s.heart.imps imp).body.timerFd = .disarmed
  worker : ∀ w, (s.worker w).unseen imp
  mask : ∀ w, s.worker w = .testing imp → (s.heart.imps imp).eventMask &&& evMaskTimer = 0

theorem reductMask_timer (event : Bool) : reductMask false event &&& evMaskTimer = 0 := by
  cases event <;> decide

theorem or_kill_timer {mask : BitVec 64} (hm : mask &&& evMaskTimer = 0) :
    (mask ||| evMaskKill) &&& evMaskTimer = 0 := by
  rw [BitVec.and_comm, BitVec.and_or_distrib_left, BitVec.and_comm, hm]
  decide

theorem unseen_of_not_driving {pc : WorkerPc} (hd : pc.driving ≠ some imp) : pc.unseen imp := by
  cases pc with
  | reducting p | storing p => exact fun hp => absurd (congrArg some hp) hd
  | soul p | marking p => exact fun hp => hd (congrArg some hp)
  | _ => trivial

/-- Until it comes to the soul, a worker sees no timeout of a timer that is off. -/
theorem WorkerMove.unseen {h h' : Heart} {pc pc' : WorkerPc} {act : WorkerAct}
    (hm : WorkerMove h pc act h' pc') (ht : (h.imps imp).body.timerFd = .disarmed)
    (hu : pc.unseen imp) (hno : pc = .testing imp → pc' ≠ .soul imp none) : pc'.unseen imp := by
  cases hm with
  | @timeout p hexp =>
    rintro rfl
    exact absurd (ht.symm.trans hexp) nofun
  | cancel => exact fun _ => rfl
  | @reduct p timeout =>
    rintro rfl
    rw [hu rfl]
    exact reductMask_timer _
  | @enter p =>
    rintro rfl
    exact hno rfl rfl
  | setIoev | setTimer | closeFd | summon | nested | mark => exact hu
  | _ => trivial

/-- A worker comes to its test from its write of the mask. -/
theorem WorkerMove.testing {h h' : Heart} {pc pc' : WorkerPc} {act : WorkerAct}
    (hm : WorkerMove h pc act h' pc') (hpc : pc' = .testing imp) :
    ∃ mask, pc = .storing imp mask ∧ act = .go := by
  cases hm with
  | @store p mask =>
    obtain rfl := WorkerPc.testing.inj hpc
    exact ⟨mask, rfl, rfl⟩
  | _ => cases hpc

/-- A step that does not run the soul shows nobody a timeout. -/
theorem Unseen.move (hu : Unseen s imp) (hno : ¬ s.Enters imp a) (hm : s.Move a s') :
    Unseen s' imp := by
  refine ⟨?_, ?_, ?_⟩
  · have ht := hu.timer
    have hclock := hm.clock imp
    unfold Imp.clock at hclock
    rcases hclock with heq | ⟨-, heq⟩ | ⟨⟨w, hpc⟩, -⟩ | heq | heq | ⟨hon, -⟩
    · exact (Prod.mk.inj heq).1.trans ht
    · exact (Prod.mk.inj heq).1
    · have hw := hu.worker w
      rw [hpc] at hw
      exact absurd rfl hw
    · exact (Prod.mk.inj heq).1.trans ht
    · exact (Prod.mk.inj heq).1
    · exact absurd (ht.symm.trans hon) nofun
  · cases hm with
    | @worker w act sh pc hm =>
      refine (Function.forall_update_iff s.worker fun _ pc => pc.unseen imp).mpr
        ⟨hm.unseen hu.timer (hu.worker w) fun hpc hpc' => hno ?_, fun v _ => hu.worker v⟩
      generalize hw : s.worker w = old, sh.heart = h' at hm hpc
      subst hpc hpc'
      cases hm with
      | enter hk ha => exact ⟨w, rfl, hw, hk, ha⟩
    | _ => exact hu.worker
  · intro v hv
    rcases hm.eventMask imp with ⟨hns, heq⟩ | ⟨rfl, heq⟩ | ⟨w, mask, -, hpc, heq⟩ | ⟨-, heq⟩
    · rw [heq]
      cases hm with
      | @worker w act sh pc hm =>
        by_cases hvw : v = w
        · rw [hvw] at hv
          obtain ⟨mask, hpc, rfl⟩ := hm.testing ((Function.update_self ..).symm.trans hv)
          exact absurd ⟨w, mask, rfl, hpc⟩ hns
        · exact hu.mask v ((Function.update_of_ne hvw ..).symm.trans hv)
      | _ => exact hu.mask v hv
    · -- a kill before the test adds a bit, but not that of the timer
      rw [heq]
      cases hm with
      | env hm => exact or_kill_timer (hu.mask v hv)
    · have hw := hu.worker w
      rw [hpc] at hw
      exact heq ▸ hw rfl
    · rw [heq]
      decide

/-- **Timeouts.** When the epoll thread handles the event of a sleeping imp that has timed
out, the next run of the imp's soul does not see the timeout. -/
theorem timeout_unseen {s₁ s₂ : Sys W R} {fds : List Fd} (he : s.Expires imp)
    (hcancel : (dungeon debug).step s (.epoller fds) = some s₁)
    (hrun : (dungeon debug).Run (fun s a => ¬ s.Enters imp a) s₁ s₂) (henters : s₂.Enters imp a) :
    (s₂.heart.imps imp).eventMask &&& evMaskTimer = 0 := by
  obtain ⟨rest, hentry⟩ := he.entry
  obtain ⟨-, hdriving⟩ := he.asleep
  obtain ⟨-, ⟨-, rfl⟩ | ⟨-, hm⟩⟩ := step_move hcancel
  · -- nobody comes to the soul of a freed imp
    have hstuck := hrun.preserves (I := fun t => t.shared.stale = true ∧ t.worker = s.worker)
      ⟨rfl, rfl⟩ fun t a t' ht _ hs => absurd ((step_move hs).1.symm.trans ht.1) nofun
    obtain ⟨w, -, hpc, -⟩ := henters
    rw [hstuck.2] at hpc
    exact absurd (by rw [hpc]; rfl) (hdriving w)
  have hoff : (s₁.heart.imps imp).body.timerFd = .disarmed ∧ s₁.worker = s.worker := by
    obtain ⟨r, hr, rfl⟩ := Option.map_eq_some_iff.mp hm
    rw [hentry] at hr
    obtain rfl := Option.some.inj hr
    refine ⟨?_, rfl⟩
    show ((impCancelTimer s.heart imp).imps imp).body.timerFd = .disarmed
    unfold impCancelTimer
    rw [modifyImp_self]
    exact impBodySetTimer_zero _
  have hstart : Unseen s₁ imp := by
    refine ⟨hoff.1, ?_, ?_⟩ <;> rw [hoff.2]
    · exact fun w => unseen_of_not_driving (hdriving w)
    · exact fun w hpc => absurd (by rw [hpc]; rfl) (hdriving w)
  have hend := hrun.preserves (I := fun t => Unseen t imp) hstart fun t a t' hu hno hs => by
    obtain ⟨-, ⟨-, rfl⟩ | ⟨-, hm⟩⟩ := step_move hs
    · exact ⟨hu.timer, hu.worker, hu.mask⟩
    · exact hu.move hno (move_move hm)
  obtain ⟨w, -, hpc, -⟩ := henters
  exact hend.mask w hpc

/-- The imp sleeps on its timer alone, and the timer expires. -/
def timesOut : List (Act 1 1) :=
  summons 0 ++ enters 0 ++ sleeps 0 1000 ++ [.env (.expire 1), .epoller [.timerFd 1]]

/-- The epoll thread cancels the timer and wakes the imp, and a worker takes the imp to the
test of its mask. -/
theorem timesOut_run : ∃ s s₁ s₂ : Sys 1 1, (dungeon false).Reach Machine.Always s ∧ s.Expires 1 ∧
    (dungeon false).step s (.epoller []) = some s₁ ∧
    (dungeon false).Run (fun s a => ¬ s.Enters 1 a) s₁ s₂ ∧ s₂.Enters 1 (.worker 0 .go) ∧
    (s₂.heart.imps 1).eventMask = 0 := by
  have hinit := init_blank (W := 1) (R := 1) false Nat.one_pos (by decide)
  obtain ⟨s₁, h₁, hrest⟩ := Option.bind_eq_some_iff.mp
    (show (((dungeon false).exec Machine.Always (Sys.boot 1 1 (blankHeart Nat.one_pos))
      (timesOut ++ [.epoller []])).bind fun s₁ =>
        ((dungeon false).exec (fun s a => ¬ s.Enters 1 a) s₁ (epolls 3 ++ goes 0 5)).map
          fun s₂ => decide (s₂.Enters 1 (.worker 0 .go) ∧ (s₂.heart.imps 1).eventMask = 0))
      = some true by decide +kernel)
  obtain ⟨s₂, hrun, hend⟩ := Option.map_eq_some_iff.mp hrest
  obtain ⟨s, h, hcancel⟩ := Machine.exec_append h₁
  have hat : ((dungeon false).exec Machine.Always (Sys.boot 1 1 (blankHeart Nat.one_pos))
      timesOut).map (fun s => decide (s.Asleep 1 ∧ (s.heart.imps 1).timerAsked = true ∧
        (s.heart.imps 1).body.timerFd = .expired ∧ s.epoller = .entry 1 [])) = some true := by
    decide +kernel
  rw [h] at hat
  obtain ⟨hasleep, hasked, hexpired, hentry⟩ := of_decide_eq_true (Option.some.inj hat)
  obtain ⟨henters, hmask⟩ := of_decide_eq_true hend
  exact ⟨s, s₁, s₂, ⟨_, hinit, Machine.exec_run h⟩, ⟨hasleep, hasked, hexpired, [], hentry⟩,
    Machine.exec_singleton hcancel, Machine.exec_run hrun, henters, hmask⟩

theorem timeout_unseen_timesOut : ∃ s s₁ s₂ : Sys 1 1,
    (dungeon false).Reach Machine.Always s ∧ s.Expires 1 ∧
    (dungeon false).step s (.epoller []) = some s₁ ∧
    (dungeon false).Run (fun s a => ¬ s.Enters 1 a) s₁ s₂ ∧ s₂.Enters 1 (.worker 0 .go) ∧
    (s₂.heart.imps 1).eventMask &&& evMaskTimer = 0 := by
  obtain ⟨s, s₁, s₂, hr, he, hcancel, hrun, henters, -⟩ := timesOut_run
  exact ⟨s, s₁, s₂, hr, he, hcancel, hrun, henters, timeout_unseen he hcancel hrun henters⟩

/-- The soul of an imp that is woken by its timer is told nothing of it. -/
theorem timeout_lost : ¬ ∀ (s s₁ s₂ : Sys 1 1) (imp : ImpId) (fds : List Fd) (a : Act 1 1),
    (dungeon false).Reach Machine.Always s → s.Expires imp →
    (dungeon false).step s (.epoller fds) = some s₁ →
    (dungeon false).Run (fun s a => ¬ s.Enters imp a) s₁ s₂ → s₂.Enters imp a →
    (s₂.heart.imps imp).eventMask &&& evMaskTimer ≠ 0 := by
  intro hall
  obtain ⟨s, s₁, s₂, hr, he, hcancel, hrun, henters, hmask⟩ := timesOut_run
  refine hall s s₁ s₂ 1 [] _ hr he hcancel hrun henters ?_
  rw [hmask]
  decide

end Dungeon

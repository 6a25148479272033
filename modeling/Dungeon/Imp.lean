import Dungeon.Heart

/-!
# Imps and their driver (`imp.c`, `imp_body.c`)

The functions that create, run, wake, kill and dismiss an imp, over the heart. Each
is written once, in pieces as small as the atomic steps the threads take, and put
together here as the whole functions of the source.

- `impReductEventMask`, `impCancelTimer`, `impSetTimer`, `impSetIoev`: the imp's timer,
  event counter and request list.
- `impNew`, `impSummon`, `impDismiss`: birth and death.
- `impRun`, `impTerm`, `impWake`, `impKill`: the scheduler's moves. The return codes of
  the two enqueues are dropped, as in the source.
- `SoulRun`, `fsmDriver`, `impDriver`: one run of the soul and the driver around it.
  A soul is outside the scheduler: a run is any list of calls it makes on its own
  imp and on the kernel, and any return code.

`imp_term` also calls `thr_maintainer_wakeup`, which touches the maintainer's flag and
not the heart; it is a step of `Dungeon.Threads`.
-/

namespace Dungeon

/-! ## The body -/

/-- `imp_body_set_timer`: `ms / 1000` seconds and `(ms % 1000) * 1000000` nanoseconds,
with C's division. -/
def impBodySetTimer (body : ImpBody) (ms : ℤ) : ImpBody :=
  { body with timerFd := timerfdSettime body.timerFd (ms.tdiv 1000) (ms.tmod 1000 * 1000000) }

/-- `imp_body_cleanup_timer`. -/
def impBodyCleanupTimer (body : ImpBody) : Bool × ImpBody :=
  ((timerfdRead body.timerFd).1, { body with timerFd := (timerfdRead body.timerFd).2 })

/-- `imp_body_cleanup_event`. -/
def impBodyCleanupEvent (body : ImpBody) : Bool × ImpBody :=
  ((eventfdRead body.eventFd).1, { body with eventFd := (eventfdRead body.eventFd).2 })

/-- `imp_body_new`, apart from its `epoll_ctl` calls. -/
def impBodyNew : ImpBody := ⟨.disarmed, 0, false⟩

/-- The registrations `imp_body_new` adds: no events, no data. -/
def idleReg : Reg := ⟨0, 0, false⟩

/-- A zero timeout turns the timer off, whatever it was doing. -/
theorem impBodySetTimer_zero (body : ImpBody) :
    (impBodySetTimer body 0).timerFd = .disarmed := by
  unfold impBodySetTimer timerfdSettime
  simp

/-- A positive timeout starts the timer. -/
theorem impBodySetTimer_pos (body : ImpBody) {ms : ℤ} (hms : 0 < ms) :
    (impBodySetTimer body ms).timerFd = .armed := by
  have hdiv : 0 ≤ ms.tdiv 1000 := Int.tdiv_nonneg hms.le (by decide)
  have hmod : 0 ≤ ms.tmod 1000 := Int.tmod_nonneg 1000 hms.le
  have hlt : ms.tmod 1000 < 1000 := Int.tmod_lt_of_pos ms (by decide)
  have hsplit : 1000 * ms.tdiv 1000 + ms.tmod 1000 = ms := Int.mul_tdiv_add_tmod ms 1000
  show timerfdSettime body.timerFd (ms.tdiv 1000) (ms.tmod 1000 * 1000000) = .armed
  unfold timerfdSettime
  rw [if_neg (by omega), if_neg (by omega)]

/-- A negative timeout is refused. -/
theorem impBodySetTimer_neg (body : ImpBody) {ms : ℤ} (hms : ms < 0) :
    (impBodySetTimer body ms).timerFd = body.timerFd := by
  have hsplit : 1000 * ms.tdiv 1000 + ms.tmod 1000 = ms := Int.mul_tdiv_add_tmod ms 1000
  show timerfdSettime body.timerFd (ms.tdiv 1000) (ms.tmod 1000 * 1000000) = body.timerFd
  unfold timerfdSettime
  rw [if_pos (by omega)]

/-! ## Events and timers of an imp -/

/-- `imp_body_cleanup_timer(imp->body)`. -/
def cleanupTimer (h : Heart) (imp : ImpId) : Bool × Heart :=
  ((impBodyCleanupTimer (h.imps imp).body).1,
    h.modifyImp imp fun i => { i with body := (impBodyCleanupTimer i.body).2 })

/-- `imp_body_cleanup_event(imp->body)`. -/
def cleanupEvent (h : Heart) (imp : ImpId) : Bool × Heart :=
  ((impBodyCleanupEvent (h.imps imp).body).1,
    h.modifyImp imp fun i => { i with body := (impBodyCleanupEvent i.body).2 })

/-- `imp_cancel_timer`. -/
def impCancelTimer (h : Heart) (imp : ImpId) : Heart :=
  h.modifyImp imp fun i => { i with body := impBodySetTimer i.body 0 }

/-- The bits `imp_reduct_event_mask` builds from its two reads. -/
def reductMask (timeout event : Bool) : BitVec 64 :=
  (if timeout then evMaskTimer else 0) ||| (if event then evMaskEvent else 0)

/-- `imp_reduct_event_mask`. -/
def impReductEventMask (h : Heart) (imp : ImpId) : BitVec 64 × Heart :=
  let (timeout, h) := cleanupTimer h imp
  let h := if timeout then h else impCancelTimer h imp
  let (event, h) := cleanupEvent h imp
  (reductMask timeout event, h)

/-- `imp->event_mask = mask`. -/
def storeEventMask (h : Heart) (imp : ImpId) (mask : BitVec 64) : Heart :=
  h.modifyImp imp fun i => { i with eventMask := mask }

/-- `llist_append_nb(imp->requested_events, job)`: refused when the list is full. -/
def appendJob (h : Heart) (imp : ImpId) (job : EpollJob) : Heart :=
  h.modifyImp imp fun i =>
    if i.requestedEvents.length < requestedVolume then
      { i with requestedEvents := i.requestedEvents ++ [job] }
    else i

/-- The timer setting of `imp_set_timer`. -/
def askTimer (h : Heart) (imp : ImpId) (ms : ℤ) : Heart :=
  h.modifyImp imp fun i =>
    { i with body := impBodySetTimer i.body ms, timerAsked := i.timerAsked || decide (0 < ms) }

/-- `imp_set_timer`. -/
def impSetTimer (h : Heart) (imp : ImpId) (ms : ℤ) : Heart :=
  appendJob (askTimer h imp ms) imp .timer

/-- `imp_set_ioev`. -/
def impSetIoev (h : Heart) (imp : ImpId) (fd : ℕ) (events : BitVec 32) : Heart :=
  appendJob h imp (.user fd events)

/-- `imp->waitio = b`. -/
def setWaitio (h : Heart) (imp : ImpId) (b : Bool) : Heart :=
  h.modifyImp imp fun i => { i with waitio := some b }

/-! ## Moves of the scheduler -/

/-- `imp_run`. -/
def impRun (h : Heart) (imp : ImpId) : Heart :=
  { h with runQueue := (h.runQueue.queueEnqueueUniqNb imp).2 }

/-- The enqueue of `imp_term`. -/
def impTerm (h : Heart) (imp : ImpId) : Heart :=
  { h with terminatedQueue := (h.terminatedQueue.queueEnqueueNb imp).2 }

/-- `atomic_cas(&imp->waitio, TRUE, FALSE)`. -/
def casWaitio (h : Heart) (imp : ImpId) : Bool × Heart :=
  if (h.imps imp).waitio = some true then (true, setWaitio h imp false) else (false, h)

/-- `imp_wake`. -/
def impWake (h : Heart) (imp : ImpId) : Heart :=
  match casWaitio h imp with
  | (true, h) => impRun { h with nrWaitio := h.nrWaitio - 1 } imp
  | (false, h) => h

/-- `imp_kill`. -/
def impKill (h : Heart) (imp : ImpId) : Heart :=
  h.modifyImp imp fun i => { i with eventMask := i.eventMask ||| evMaskKill }

/-! ## Birth and death -/

/-- The successful path of `imp_new`: a serial number, an empty request list, a body
whose descriptors are registered for nothing. `waitio` is left as it is. -/
def impNew (h : Heart) : Heart :=
  { h with
    nextId := h.nextId + 1
    epoll := Function.update (Function.update h.epoll (.timerFd h.nextId) (some idleReg))
      (.eventFd h.nextId) (some idleReg)
    imps := Function.update h.imps h.nextId
      { waitio := none
        requestedEvents := []
        eventMask := 0
        body := impBodyNew
        life := .created
        dismissals := 0
        timerAsked := false } }

/-- The only new registrations are the two of the body. -/
theorem impNew_epoll {h : Heart} {fd : Fd} {reg : Reg} (hreg : (impNew h).epoll fd = some reg) :
    h.epoll fd = some reg ∨ reg = idleReg := by
  change Function.update (Function.update h.epoll (.timerFd h.nextId) (some idleReg))
    (.eventFd h.nextId) (some idleReg) fd = some reg at hreg
  by_cases he : fd = .eventFd h.nextId
  · rw [he, Function.update_self] at hreg
    exact .inr (Option.some.inj hreg).symm
  · rw [Function.update_of_ne he] at hreg
    by_cases ht : fd = .timerFd h.nextId
    · rw [ht, Function.update_self] at hreg
      exact .inr (Option.some.inj hreg).symm
    · rw [Function.update_of_ne ht] at hreg
      exact .inl hreg

/-- `imp_new` when `imp_body_new` fails: only the serial number is gone. -/
def impNewFailed (h : Heart) : Heart := { h with nextId := h.nextId + 1 }

/-- `atomic_increase(&dungeon_heart->nr_total)` for a new imp. -/
def countImp (h : Heart) (imp : ImpId) : Heart :=
  { h.modifyImp imp fun i => { i with life := .counted } with nrTotal := h.nrTotal + 1 }

/-- `imp->waitio = FALSE` of a new imp. -/
def beginImp (h : Heart) (imp : ImpId) : Heart :=
  h.modifyImp imp fun i => { i with waitio := some false, life := .summoned }

/-- `imp_summon`; `ok` says whether the allocations in `imp_new` succeed. `fsm_new`
only fills the imp's memory. -/
def impSummon (h : Heart) (ok : Bool) : Heart :=
  if h.nrTotal ≥ h.nrMax then h
  else if ok then
    impRun (beginImp (countImp (impNew h) h.nextId) h.nextId) h.nextId
  else impNewFailed h

/-- `close` of a user descriptor: epoll forgets it. -/
def closeFd (h : Heart) (fd : ℕ) : Heart :=
  { h with epoll := Function.update h.epoll (.user fd) none }

/-- What a call of `fsm_delete` closes: every descriptor its imp has armed, or those in
a list. -/
inductive Closing where
  | armed
  | only (fds : List ℕ)
deriving DecidableEq

def Closing.closes (h : Heart) (imp : ImpId) : Closing → ℕ → Bool
  | .armed, fd => (h.epoll (.user fd)).any fun reg => reg.data = imp
  | .only fds, fd => fd ∈ fds

/-- `imp->soul->fsm_delete`: epoll forgets what it closes. -/
def fsmDelete (h : Heart) (imp : ImpId) (closing : Closing) : Heart :=
  { h with
    epoll := fun
      | .user fd => if closing.closes h imp fd then none else h.epoll (.user fd)
      | fd => h.epoll fd }

/-- The entry is a record, which `free` takes, and not one of the marks. -/
def EpollJob.isRecord : EpollJob → Bool
  | .user .. => true
  | .timer | .event => false

/-- No mark is left among the requests of the imp. -/
def Imp.unmarked (i : Imp) : Bool := i.requestedEvents.all EpollJob.isRecord

/-- The request list of an imp, with nothing in it. -/
def emptyRequests (h : Heart) (imp : ImpId) : Heart :=
  h.modifyImp imp fun i => { i with requestedEvents := [] }

/-- The `llist_fetch_head_nb` loop of `imp_dismiss`, and `llist_delete`. Every entry is freed;
`none` when a mark is among them, which is no pointer. -/
def dropRequests (h : Heart) (imp : ImpId) : Option Heart :=
  if (h.imps imp).unmarked then some (emptyRequests h imp) else none

/-- `imp_body_delete` and `imp->body = NULL`: epoll forgets both descriptors, and the imp has
no body any more. -/
def impBodyDelete (h : Heart) (imp : ImpId) : Heart :=
  { h.modifyImp imp fun i => { i with body := { i.body with freed := true } } with
    epoll := Function.update (Function.update h.epoll (.eventFd imp) none) (.timerFd imp) none }

/-- `free(imp)`. -/
def freeImp (h : Heart) (imp : ImpId) : Heart :=
  h.modifyImp imp fun i => { i with life := .freed }

/-- A call of `imp_dismiss` begins. -/
def beginDismiss (h : Heart) (imp : ImpId) : Heart :=
  h.modifyImp imp fun i => { i with dismissals := i.dismissals + 1 }

/-- `atomic_decrease(&dungeon_heart->nr_total)`. -/
def uncountImp (h : Heart) : Heart := { h with nrTotal := h.nrTotal - 1 }

/-- `imp_dismiss`. -/
def impDismiss (h : Heart) (imp : ImpId) (closing : Closing) : Option Heart :=
  let h := fsmDelete (beginDismiss h imp) imp closing
  (dropRequests h imp).map fun h => uncountImp (freeImp (impBodyDelete h imp) imp)

section Stages

variable (h : Heart) (imp q : ImpId)

theorem beginDismiss_life : ((beginDismiss h imp).imps q).life = (h.imps q).life :=
  modifyImp_field h imp q (fun i => { i with dismissals := i.dismissals + 1 }) Imp.life fun _ => rfl

theorem emptyRequests_life : ((emptyRequests h imp).imps q).life = (h.imps q).life :=
  modifyImp_field h imp q (fun i => { i with requestedEvents := [] }) Imp.life fun _ => rfl

/-- `imp_body_delete` changes the body of the imp and nothing else of it. -/
theorem impBodyDelete_field {β : Type} (field : Imp → β)
    (hf : ∀ i : Imp, field { i with body := { i.body with freed := true } } = field i) :
    field ((impBodyDelete h imp).imps q) = field (h.imps q) :=
  modifyImp_field h imp q (fun i => { i with body := { i.body with freed := true } }) field hf

theorem impBodyDelete_life : ((impBodyDelete h imp).imps q).life = (h.imps q).life :=
  impBodyDelete_field h imp q Imp.life fun _ => rfl

/-- A dismissal that begins has freed no body. -/
theorem beginDismiss_body : ((beginDismiss h imp).imps q).body = (h.imps q).body :=
  modifyImp_field h imp q (fun i => { i with dismissals := i.dismissals + 1 }) Imp.body fun _ => rfl

/-- `imp_body_delete` frees the body of its own imp only. -/
theorem impBodyDelete_of_ne (hq : q ≠ imp) : (impBodyDelete h imp).imps q = h.imps q :=
  modifyImp_of_ne h imp q (fun i => { i with body := { i.body with freed := true } }) hq

end Stages

/-- An `fsm_delete` that closes what its imp has armed leaves the other registrations. -/
theorem fsmDelete_epoll {h : Heart} {imp : ImpId} {fd : Fd} {reg : Reg} :
    (fsmDelete h imp .armed).epoll fd = some reg ↔
      h.epoll fd = some reg ∧ ∀ n, fd = .user n → reg.data ≠ imp := by
  cases fd with
  | timerFd | eventFd => exact ⟨fun hr => ⟨hr, nofun⟩, fun hr => hr.1⟩
  | user n =>
    change (if Closing.closes h imp .armed n then none else h.epoll (.user n)) = some reg ↔ _
    have hclosed : h.epoll (.user n) = some reg →
        (Closing.closes h imp .armed n = true ↔ reg.data = imp) := by
      intro hr
      show (h.epoll (.user n)).any (fun reg => reg.data = imp) = true ↔ _
      rw [hr]
      exact decide_eq_true_iff
    constructor
    · intro hr
      split at hr
      next => cases hr
      next hno => exact ⟨hr, fun _ _ hd => hno ((hclosed hr).mpr hd)⟩
    · rintro ⟨hr, hne⟩
      rw [if_neg fun hc => hne n rfl ((hclosed hr).mp hc)]
      exact hr

/-- `imp_body_delete` leaves the registrations of the other bodies and of the users. -/
theorem impBodyDelete_epoll {h : Heart} {imp : ImpId} {fd : Fd} {reg : Reg} :
    (impBodyDelete h imp).epoll fd = some reg ↔
      h.epoll fd = some reg ∧ fd ≠ .timerFd imp ∧ fd ≠ .eventFd imp := by
  change Function.update (Function.update h.epoll (.eventFd imp) none) (.timerFd imp) none fd
    = some reg ↔ _
  by_cases ht : fd = .timerFd imp
  · rw [ht, Function.update_self]
    exact ⟨nofun, fun hr => absurd rfl hr.2.1⟩
  rw [Function.update_of_ne ht]
  by_cases he : fd = .eventFd imp
  · rw [he, Function.update_self]
    exact ⟨nofun, fun hr => absurd rfl hr.2.2⟩
  rw [Function.update_of_ne he]
  exact ⟨fun hr => ⟨hr, ht, he⟩, fun hr => hr.1⟩

section Dismiss

variable {h h' : Heart} {imp : ImpId} {closing : Closing}

/-- The requests that a dismissal finds are those before it. -/
theorem requests_beginDismiss (h : Heart) (imp : ImpId) (closing : Closing) :
    ((fsmDelete (beginDismiss h imp) imp closing).imps imp).requestedEvents
      = (h.imps imp).requestedEvents := by
  show ((beginDismiss h imp).imps imp).requestedEvents = _
  unfold beginDismiss
  rw [modifyImp_self]

/-- An imp can be dismissed exactly when no mark is left among its requests. -/
theorem impDismiss_isSome :
    (impDismiss h imp closing).isSome ↔ (h.imps imp).unmarked = true := by
  unfold Imp.unmarked
  rw [← requests_beginDismiss h imp closing]
  unfold impDismiss dropRequests Imp.unmarked
  rw [Option.isSome_map]
  split
  next hrec => exact iff_of_true rfl hrec
  next hrec => exact iff_of_false (by decide) hrec

/-- What a dismissal is, where it is defined. -/
theorem impDismiss_some (hd : impDismiss h imp closing = some h') :
    h' = uncountImp (freeImp (impBodyDelete
      (emptyRequests (fsmDelete (beginDismiss h imp) imp closing) imp) imp) imp) := by
  obtain ⟨h₁, hdrop, rfl⟩ := Option.map_eq_some_iff.mp hd
  obtain ⟨-, heq⟩ := Option.ite_none_right_eq_some.mp hdrop
  rw [Option.some.inj heq]

/-- `imp_dismiss` writes to its own imp only. -/
theorem impDismiss_imps (hd : impDismiss h imp closing = some h') :
    h'.imps = Function.update h.imps imp { h.imps imp with
      dismissals := (h.imps imp).dismissals + 1
      requestedEvents := []
      body := { (h.imps imp).body with freed := true }
      life := .freed } := by
  rw [impDismiss_some hd]
  dsimp only [uncountImp, freeImp, impBodyDelete, emptyRequests, fsmDelete, beginDismiss,
    Heart.modifyImp]
  simp only [Function.update_self, Function.update_idem]

theorem impDismiss_nrTotal (hd : impDismiss h imp closing = some h') :
    h'.nrTotal = h.nrTotal - 1 := by
  rw [impDismiss_some hd]
  dsimp only [uncountImp, freeImp, impBodyDelete, emptyRequests, fsmDelete, beginDismiss,
    Heart.modifyImp]

theorem impDismiss_runQueue (hd : impDismiss h imp closing = some h') :
    h'.runQueue = h.runQueue := by
  rw [impDismiss_some hd]
  dsimp only [uncountImp, freeImp, impBodyDelete, emptyRequests, fsmDelete, beginDismiss,
    Heart.modifyImp]

theorem impDismiss_terminatedQueue (hd : impDismiss h imp closing = some h') :
    h'.terminatedQueue = h.terminatedQueue := by
  rw [impDismiss_some hd]
  dsimp only [uncountImp, freeImp, impBodyDelete, emptyRequests, fsmDelete, beginDismiss,
    Heart.modifyImp]

end Dismiss

/-! ## The driver -/

/-- `set_poll_action`: `MOD` if `fd` is registered, else `ADD`; `ok = false` when both
fail. -/
def setPollAction (h : Heart) (fd : Fd) (events : BitVec 32) (data : ImpId) (ok : Bool) : Heart :=
  if ok then { h with epoll := Function.update h.epoll fd (some ⟨events, data, true⟩) } else h

/-- The body of the driver's loop for one fetched job. -/
def armJob (h : Heart) (imp : ImpId) (job : EpollJob) (ok : Bool) : Heart :=
  setPollAction (setWaitio h imp true) (job.fd imp) job.events imp ok

/-- The list without its first job. -/
def fetchJob (h : Heart) (imp : ImpId) : Heart :=
  h.modifyImp imp fun i => { i with requestedEvents := i.requestedEvents.tail }

/-- The driver's loop over the requests `jobs`, with `count` of them behind it; `ctl n`
is the outcome of `epoll_ctl` for the `n`-th. -/
def armLoop (imp : ImpId) (ctl : ℕ → Bool) : Heart → ℕ → List EpollJob → Heart × ℕ
  | h, count, [] => (h, count)
  | h, count, job :: jobs =>
    armLoop imp ctl (armJob (fetchJob h imp) imp job (ctl count)) (count + 1) jobs

/-- What a soul may do to the scheduler in one call of `fsm_driver`. -/
inductive SoulAct where
  /-- `imp_set_ioev` -/
  | setIoev (fd : ℕ) (events : BitVec 32)
  /-- `imp_set_timer` -/
  | setTimer (ms : ℤ)
  /-- `close` -/
  | closeFd (fd : ℕ)
  /-- `imp_summon` -/
  | summon (ok : Bool)

/-- One call of `fsm_driver`: what it does, in order, and its return code. -/
structure SoulRun where
  acts : List SoulAct
  ret : BitVec 32

/-- One act of the soul of `imp`. -/
def soulAct (imp : ImpId) (h : Heart) : SoulAct → Heart
  | .setIoev fd events => impSetIoev h imp fd events
  | .setTimer ms => impSetTimer h imp ms
  | .closeFd fd => closeFd h fd
  | .summon ok => impSummon h ok

/-- A call of `fsm_driver` begins. -/
def beginSoul (h : Heart) (imp : ImpId) : Heart :=
  h.modifyImp imp fun i => { i with timerAsked := false }

/-- `imp->soul->fsm_driver`. -/
def fsmDriver (h : Heart) (imp : ImpId) (run : SoulRun) : Heart :=
  run.acts.foldl (soulAct imp) (beginSoul h imp)

/-- The end of `imp_driver`: go to sleep, or back to the run queue. -/
def settle (h : Heart) (imp : ImpId) (count : ℕ) : Heart :=
  if count > 0 then { h with nrWaitio := h.nrWaitio + 1 } else impRun h imp

/-- `imp_driver`, with the soul's run and the outcomes of `epoll_ctl`. -/
def impDriver (h : Heart) (imp : ImpId) (run : SoulRun) (ctl : ℕ → Bool) : Heart :=
  let (mask, h) := impReductEventMask h imp
  let h := storeEventMask h imp mask
  if (h.imps imp).eventMask &&& evMaskKill ≠ 0 then impTerm (setWaitio h imp false) imp
  else if (h.imps imp).eventMask &&& evMaskGlobalAlert ≠ 0 then impTerm h imp
  else
    let h := fsmDriver h imp run
    if run.ret = toTerm then impTerm h imp
    else
      let (h, count) := armLoop imp ctl h 0 (h.imps imp).requestedEvents
      settle h imp count

end Dungeon

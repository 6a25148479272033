import Dungeon.Imp
import Dungeon.Lib.Machine

/-!
# The threads (`thr_worker.c`, `thr_maintainer.c`)

The dungeon as a machine of threads over the shared heart: any number `W` of workers
(`thr_driver`), any number `R` of threads that call `imp_summon` from outside
(module initialisers), the epoll thread, the maintainer, and the thread that calls
`thr_maintainer_destroy`.

One step is one queue operation, one operation on a request list, one access of
`waitio` or of the event mask, one counter update, one timer operation, one
`epoll_ctl`, one `epoll_wait` (which fetches a whole batch), one call a soul makes, or
one critical section of the maintainer's mutex. A program counter names the step its
thread takes next.

- `WorkerPc`, `SummonPc`, `EpollerPc`, `MaintainerPc`, `DestroyerPc`: the program counters.
- `workerStep`, `summonStep`, `epollerStep`, `maintainerStep`, `destroyerStep`: a thread's
  next step, on the shared state and its own counter.
- `Sys`, `Sys.move`: the whole system, one thread moving at a time.
- `touches`, `touchesBody`: the imp, and the body, a step uses. `Sys.step` is `Sys.move`, except
  that a step that uses a freed imp or body only sets `stale`; after that nothing is promised and
  nothing moves.
- `dungeon debug`: the machine. With `debug` the log calls are compiled in and enabled;
  some of them read `imp->id` after the imp was handed over.
-/

namespace Dungeon

/-! ## Program counters -/

/-- Inside `imp_summon`, by the next statement: `imp_new` (whose allocations succeed if
`ok`), `nr_total++`, `fsm_new` and `waitio = FALSE`, `imp_run`. -/
inductive SummonPc where
  | checked (ok : Bool)
  | created (imp : ImpId)
  | counted (imp : ImpId)
  | ready (imp : ImpId)
deriving DecidableEq

/-- A worker. -/
inductive WorkerPc where
  /-- in `queue_dequeue` -/
  | idle
  /-- `imp_reduct_event_mask`: read the timer -/
  | fetched (imp : ImpId)
  /-- ... cancel it -/
  | cancelling (imp : ImpId)
  /-- ... read the event counter -/
  | reducting (imp : ImpId) (timeout : Bool)
  /-- `imp->event_mask = ...` -/
  | storing (imp : ImpId) (mask : BitVec 64)
  /-- the two tests of `event_mask` -/
  | testing (imp : ImpId)
  /-- `waitio = FALSE` of a killed imp -/
  | killed (imp : ImpId)
  /-- in `fsm_driver`, possibly inside a nested `imp_summon` -/
  | soul (imp : ImpId) (nested : Option SummonPc)
  /-- the append of `imp_set_timer` -/
  | marking (imp : ImpId)
  /-- the enqueue of `imp_term` -/
  | terminating (imp : ImpId)
  /-- its `thr_maintainer_wakeup` -/
  | wakeup (imp : ImpId)
  /-- `llist_fetch_head_nb`, after `count` jobs -/
  | looping (imp : ImpId) (count : ℕ)
  /-- `waitio = TRUE` for a job -/
  | publishing (imp : ImpId) (count : ℕ) (job : EpollJob)
  /-- its `set_poll_action` -/
  | arming (imp : ImpId) (count : ℕ) (job : EpollJob)
  /-- `nr_waitio++` -/
  | sleeping (imp : ImpId)
  /-- `imp_run` -/
  | rerunning (imp : ImpId)
  /-- `imp_driver` has returned -/
  | returned (imp : ImpId)
deriving DecidableEq

/-- The epoll thread, with the entries of its batch that are still to come. -/
inductive EpollerPc where
  /-- in `epoll_wait` -/
  | waiting
  /-- `imp_cancel_timer` -/
  | entry (imp : ImpId) (rest : List ImpId)
  /-- `imp_wake`: the compare-and-swap -/
  | waking (imp : ImpId) (rest : List ImpId)
  /-- ... `nr_waitio--` -/
  | woken (imp : ImpId) (rest : List ImpId)
  /-- ... `imp_run` -/
  | running (imp : ImpId) (rest : List ImpId)
  /-- ... its log call -/
  | logging (imp : ImpId) (rest : List ImpId)
deriving DecidableEq

/-- The maintainer. -/
inductive MaintainerPc where
  /-- the test of `thread_quit_mark` -/
  | top
  /-- `queue_dequeue_nb(terminated_queue)` -/
  | drain
  /-- `imp_dismiss`: `fsm_delete` -/
  | deleting (imp : ImpId)
  /-- ... the request list -/
  | listing (imp : ImpId)
  /-- ... `imp_body_delete` and `imp->body = NULL` -/
  | body (imp : ImpId)
  /-- ... `free` -/
  | freeing (imp : ImpId)
  /-- ... `nr_total--` -/
  | dec
  /-- the test of `pending_event` under the mutex -/
  | check
  /-- in `pthread_cond_wait` -/
  | waiting
  /-- the thread function returned -/
  | exited
deriving DecidableEq

/-- The caller of `thr_maintainer_destroy`: before it, after the quit mark, after the
wake-up (in `pthread_join`). -/
inductive DestroyerPc where
  | off
  | marked
  | joining
deriving DecidableEq

/-- Who waits on `cond_pending_event`: nobody, the maintainer with no signal delivered
to it, the maintainer with one. -/
inductive Waiter where
  | nobody
  | blocked
  | signalled
deriving DecidableEq

/-- `pthread_cond_signal`. -/
def Waiter.signal : Waiter → Waiter
  | .blocked => .signalled
  | w => w

/-- The heart, and the static variables of `thr_maintainer.c`. `stale` records that
some thread used a freed imp or a freed body. -/
structure Shared where
  heart : Heart
  pendingEvent : Bool
  waiter : Waiter
  threadQuitMark : Bool
  stale : Bool

/-- `thr_maintainer_wakeup`: one critical section. -/
def thrMaintainerWakeup (sh : Shared) : Shared :=
  { sh with pendingEvent := true, waiter := sh.waiter.signal }

/-! ## Steps of one thread -/

/-- The check that opens `imp_summon`. -/
def summonCheck (h : Heart) (ok : Bool) : Option SummonPc :=
  if h.nrTotal ≥ h.nrMax then none else some (.checked ok)

/-- It returns when the server is full, and goes on to the allocation otherwise. -/
theorem summonCheck_cases (h : Heart) (ok : Bool) :
    (h.nrMax ≤ h.nrTotal ∧ summonCheck h ok = none) ∨
      (h.nrTotal < h.nrMax ∧ summonCheck h ok = some (.checked ok)) := by
  rcases lt_or_ge h.nrTotal h.nrMax with hlt | hle
  · exact .inr ⟨hlt, if_neg (not_le.mpr hlt)⟩
  · exact .inl ⟨hle, if_pos hle⟩

/-- The next statement of `imp_summon`; `none` when it returns. -/
def summonStep (h : Heart) : SummonPc → Heart × Option SummonPc
  | .checked true => (impNew h, some (.created h.nextId))
  | .checked false => (impNewFailed h, none)
  | .created imp => (countImp h imp, some (.counted imp))
  | .counted imp => (beginImp h imp, some (.ready imp))
  | .ready imp => (impRun h imp, none)

/-- What a worker's step leaves open: nothing, the outcome of `epoll_ctl`, the soul's
next call, or its return code. -/
inductive WorkerAct where
  | go
  | ctl (ok : Bool)
  | soul (act : SoulAct)
  | ret (code : BitVec 32)

/-- The next step of a worker. -/
def workerStep (sh : Shared) : WorkerPc → WorkerAct → Option (Shared × WorkerPc)
  | .idle, .go =>
    -- `queue_dequeue` blocks on an empty queue
    match sh.heart.runQueue.queueDequeueNb with
    | none => none
    | some (imp, q) => some ({ sh with heart := { sh.heart with runQueue := q } }, .fetched imp)
  | .fetched imp, .go =>
    let r := cleanupTimer sh.heart imp
    -- without a timeout the timer is cancelled
    some ({ sh with heart := r.2 }, if r.1 then .reducting imp true else .cancelling imp)
  | .cancelling imp, .go =>
    some ({ sh with heart := impCancelTimer sh.heart imp }, .reducting imp false)
  | .reducting imp timeout, .go =>
    let r := cleanupEvent sh.heart imp
    some ({ sh with heart := r.2 }, .storing imp (reductMask timeout r.1))
  | .storing imp mask, .go =>
    some ({ sh with heart := storeEventMask sh.heart imp mask }, .testing imp)
  | .testing imp, .go =>
    -- a kill clears `waitio` on the way to `imp_term`, a global alert does not
    if (sh.heart.imps imp).eventMask &&& evMaskKill ≠ 0 then some (sh, .killed imp)
    else if (sh.heart.imps imp).eventMask &&& evMaskGlobalAlert ≠ 0 then
      some (sh, .terminating imp)
    else some ({ sh with heart := beginSoul sh.heart imp }, .soul imp none)
  | .killed imp, .go =>
    some ({ sh with heart := setWaitio sh.heart imp false }, .terminating imp)
  | .soul imp none, .soul (.setIoev fd events) =>
    some ({ sh with heart := impSetIoev sh.heart imp fd events }, .soul imp none)
  | .soul imp none, .soul (.setTimer ms) =>
    some ({ sh with heart := askTimer sh.heart imp ms }, .marking imp)
  | .soul imp none, .soul (.closeFd fd) =>
    some ({ sh with heart := closeFd sh.heart fd }, .soul imp none)
  | .soul imp none, .soul (.summon ok) =>
    some (sh, .soul imp (summonCheck sh.heart ok))
  | .soul imp none, .ret code =>
    some (sh, if code = toTerm then .terminating imp else .looping imp 0)
  | .soul imp (some pc), .go =>
    let r := summonStep sh.heart pc
    some ({ sh with heart := r.1 }, .soul imp r.2)
  | .marking imp, .go =>
    some ({ sh with heart := appendJob sh.heart imp .timer }, .soul imp none)
  | .terminating imp, .go =>
    some ({ sh with heart := impTerm sh.heart imp }, .wakeup imp)
  | .wakeup imp, .go => some (thrMaintainerWakeup sh, .returned imp)
  | .looping imp count, .go =>
    match (sh.heart.imps imp).requestedEvents with
    -- with nothing to wait for, the imp goes back into the run queue
    | [] => some (sh, if count > 0 then .sleeping imp else .rerunning imp)
    | job :: _ => some ({ sh with heart := fetchJob sh.heart imp }, .publishing imp count job)
  | .publishing imp count job, .go =>
    some ({ sh with heart := setWaitio sh.heart imp true }, .arming imp count job)
  | .arming imp count job, .ctl ok =>
    -- a failed `epoll_ctl` is logged and counted all the same
    some ({ sh with heart := setPollAction sh.heart (job.fd imp) job.events imp ok },
      .looping imp (count + 1))
  | .sleeping imp, .go =>
    some ({ sh with heart := { sh.heart with nrWaitio := sh.heart.nrWaitio + 1 } }, .returned imp)
  | .rerunning imp, .go => some ({ sh with heart := impRun sh.heart imp }, .returned imp)
  | .returned _, .go => some (sh, .idle)
  | _, _ => none

/-- `IOEV_SIZE`. -/
def ioevSize : ℕ := 10240

/-- Whether a registered descriptor has something to report. Peers and the network
decide that for a user descriptor. -/
def Fd.ready (h : Heart) : Fd → Bool
  | .timerFd imp => (h.imps imp).body.timerFd = .expired
  | .eventFd imp => 0 < (h.imps imp).body.eventFd
  | .user _ => true

/-- The kernel reports `fd`, once: its `data`, and the registration used up. -/
def report (h : Heart) (fd : Fd) : Option (Heart × ImpId) :=
  match h.epoll fd with
  | none => none
  | some reg =>
    -- `EPOLLONESHOT` disarms what it reports
    if reg.armed && fd.ready h then
      some ({ h with epoll := Function.update h.epoll fd (some { reg with armed := false }) },
        reg.data)
    else none

/-- `epoll_wait` reports `fds`, in that order. -/
def epollWait (h : Heart) : List Fd → Option (Heart × List ImpId)
  | [] => some (h, [])
  | fd :: fds =>
    match report h fd with
    | none => none
    | some (h, imp) =>
      match epollWait h fds with
      | none => none
      | some (h, batch) => some (h, imp :: batch)

/-- The loop over a batch: its next entry, or `epoll_wait` again. -/
def nextEntry : List ImpId → EpollerPc
  | [] => .waiting
  | imp :: rest => .entry imp rest

/-- The next step of the epoll thread; `fds` is what `epoll_wait` reports. -/
def epollerStep (h : Heart) (fds : List Fd) : EpollerPc → Option (Heart × EpollerPc)
  | .waiting =>
    if fds.length ≤ ioevSize then
      (epollWait h fds).map fun r => (r.1, nextEntry r.2)
    else none
  | .entry imp rest => some (impCancelTimer h imp, .waking imp rest)
  | .waking imp rest =>
    let r := casWaitio h imp
    some (r.2, if r.1 then .woken imp rest else .logging imp rest)
  | .woken imp rest => some ({ h with nrWaitio := h.nrWaitio - 1 }, .running imp rest)
  | .running imp rest => some (impRun h imp, .logging imp rest)
  | .logging _ rest => some (h, nextEntry rest)

/-- The next step of the maintainer; `closing` is what `fsm_delete` closes. A blocked
maintainer may return from `pthread_cond_wait` without a signal, as the standard allows. -/
def maintainerStep (sh : Shared) (closing : Closing) : MaintainerPc → Option (Shared × MaintainerPc)
  | .top => some (sh, if sh.threadQuitMark then .exited else .drain)
  | .drain =>
    match sh.heart.terminatedQueue.queueDequeueNb with
    | none => some (sh, .check)
    | some (imp, q) =>
      some ({ sh with heart := beginDismiss { sh.heart with terminatedQueue := q } imp },
        .deleting imp)
  | .deleting imp => some ({ sh with heart := fsmDelete sh.heart imp closing }, .listing imp)
  -- the process does not survive the `free` of a mark
  | .listing imp => (dropRequests sh.heart imp).map fun h => ({ sh with heart := h }, .body imp)
  | .body imp => some ({ sh with heart := impBodyDelete sh.heart imp }, .freeing imp)
  | .freeing imp => some ({ sh with heart := freeImp sh.heart imp }, .dec)
  | .dec => some ({ sh with heart := uncountImp sh.heart }, .drain)
  | .check =>
    -- the lock is taken, and given up again by the wait or at the end of the round
    if sh.pendingEvent then some ({ sh with pendingEvent := false }, .top)
    else some ({ sh with waiter := .blocked }, .waiting)
  | .waiting => some ({ sh with waiter := .nobody }, .check)
  | .exited => none

/-- The next step of `thr_maintainer_destroy`. -/
def destroyerStep (sh : Shared) : DestroyerPc → Option (Shared × DestroyerPc)
  | .off => some ({ sh with threadQuitMark := true }, .marked)
  | .marked => some (thrMaintainerWakeup sh, .joining)
  | .joining => none

/-- What happens outside the threads: a timer runs out, somebody writes to an event
descriptor, somebody calls `imp_kill`, somebody writes the word past the run queue. -/
inductive EnvAct where
  | expire (imp : ImpId)
  | post (imp : ImpId)
  | kill (imp : ImpId)
  | scribble (word : ImpId)

def envStep (h : Heart) : EnvAct → Option Heart
  | .expire imp =>
    if (h.imps imp).body.timerFd = .armed then
      some (h.modifyImp imp fun i => { i with body := { i.body with timerFd := .expired } })
    else none
  | .post imp =>
    if (h.imps imp).life = .summoned then
      some (h.modifyImp imp fun i =>
        { i with body := { i.body with eventFd := i.body.eventFd + 1 } })
    else none
  | .kill imp => if (h.imps imp).life = .summoned then some (impKill h imp) else none
  | .scribble word => some { h with runQueue := h.runQueue.scribble word }

/-! ## The system -/

/-- The shared state and every thread's program counter. -/
structure Sys (W R : ℕ) where
  shared : Shared
  worker : Fin W → WorkerPc
  initer : Fin R → Option SummonPc
  epoller : EpollerPc
  maintainer : MaintainerPc
  destroyer : DestroyerPc

/-- Which thread moves, and what its step leaves open. -/
inductive Act (W R : ℕ) where
  | worker (w : Fin W) (act : WorkerAct)
  | initer (r : Fin R) (ok : Bool)
  | epoller (fds : List Fd)
  | maintainer (closing : Closing)
  | destroyer
  | env (act : EnvAct)

variable {W R : ℕ}

namespace Sys

def heart (s : Sys W R) : Heart := s.shared.heart

/-- One thread takes its next step. -/
def move (s : Sys W R) : Act W R → Option (Sys W R)
  | .worker w act =>
    (workerStep s.shared (s.worker w) act).map fun r =>
      { s with shared := r.1, worker := Function.update s.worker w r.2 }
  | .initer r ok =>
    match s.initer r with
    | none => some { s with initer := Function.update s.initer r (summonCheck s.heart ok) }
    | some pc =>
      some { s with
        shared := { s.shared with heart := (summonStep s.heart pc).1 }
        initer := Function.update s.initer r (summonStep s.heart pc).2 }
  | .epoller fds =>
    (epollerStep s.heart fds s.epoller).map fun r =>
      { s with shared := { s.shared with heart := r.1 }, epoller := r.2 }
  | .maintainer closing =>
    (maintainerStep s.shared closing s.maintainer).map fun r =>
      { s with shared := r.1, maintainer := r.2 }
  | .destroyer =>
    (destroyerStep s.shared s.destroyer).map fun r => { s with shared := r.1, destroyer := r.2 }
  | .env act =>
    (envStep s.heart act).map fun h => { s with shared := { s.shared with heart := h } }

end Sys

/-! ## Memory that a step touches

A step *uses* an imp when it reads or writes its memory, calls its soul, or puts the
pointer into a queue or into epoll. -/

/-- The imp a step of `imp_summon` uses. -/
def SummonPc.touches : SummonPc → Option ImpId
  | .counted imp => some imp
  | .ready imp => some imp
  | _ => none

/-- The imp a worker's next step uses. The log calls read `imp->id`. -/
def WorkerPc.touches (debug : Bool) : WorkerPc → Option ImpId
  | .idle => none
  | .soul imp none => some imp
  | .soul _ (some pc) => pc.touches
  | .wakeup _ => none
  | .sleeping imp => if debug then some imp else none
  | .returned imp => if debug then some imp else none
  | .terminating imp => some imp
  | .rerunning imp => some imp
  | .fetched imp => some imp
  | .cancelling imp => some imp
  | .reducting imp _ => some imp
  | .storing imp _ => some imp
  | .testing imp => some imp
  | .killed imp => some imp
  | .marking imp => some imp
  | .looping imp _ => some imp
  | .publishing imp _ _ => some imp
  | .arming imp _ _ => some imp

/-- The imp the epoll thread's next step uses. -/
def EpollerPc.touches (debug : Bool) : EpollerPc → Option ImpId
  | .entry imp _ => some imp
  | .waking imp _ => some imp
  | .running imp _ => some imp
  | .logging imp _ => if debug then some imp else none
  | _ => none

/-- The imp the maintainer's next step uses. -/
def MaintainerPc.touches : MaintainerPc → Option ImpId
  | .deleting imp => some imp
  | .listing imp => some imp
  | .body imp => some imp
  | .freeing imp => some imp
  | _ => none

/-- The imp a step uses. -/
def Sys.touches (debug : Bool) (s : Sys W R) : Act W R → Option ImpId
  | .worker w _ => (s.worker w).touches debug
  | .initer r _ => (s.initer r).bind SummonPc.touches
  | .epoller _ => s.epoller.touches debug
  | .maintainer _ => s.maintainer.touches
  | .destroyer => none
  | .env _ => none

/-- The imp whose body a worker's next step uses. -/
def WorkerPc.touchesBody : WorkerPc → WorkerAct → Option ImpId
  | .fetched imp, _ => some imp
  | .cancelling imp, _ => some imp
  | .reducting imp _, _ => some imp
  | .soul imp none, .soul (.setTimer _) => some imp
  | .arming imp _ .timer, _ => some imp
  | .arming imp _ .event, _ => some imp
  | _, _ => none

/-- The imp whose body the epoll thread's next step uses. -/
def EpollerPc.touchesBody : EpollerPc → Option ImpId
  | .entry imp _ => some imp
  | _ => none

/-- The imp whose body the maintainer's next step uses. -/
def MaintainerPc.touchesBody : MaintainerPc → Option ImpId
  | .body imp => some imp
  | _ => none

/-- The imp whose body a step uses. -/
def Sys.touchesBody (s : Sys W R) : Act W R → Option ImpId
  | .worker w act => (s.worker w).touchesBody act
  | .epoller _ => s.epoller.touchesBody
  | .maintainer _ => s.maintainer.touchesBody
  | .initer _ _ => none
  | .destroyer => none
  | .env _ => none

/-- Whether the step uses an imp that was freed, or a body. -/
def Sys.useAfterFree (debug : Bool) (s : Sys W R) (a : Act W R) : Bool :=
  (s.touches debug a).any (fun imp => (s.heart.imps imp).life = .freed) ||
    (s.touchesBody a).any fun imp => (s.heart.imps imp).body.freed

/-- A step that uses neither. -/
theorem useAfterFree_eq_false {debug : Bool} {s : Sys W R} {a : Act W R} :
    s.useAfterFree debug a = false ↔
      (∀ imp ∈ s.touches debug a, (s.heart.imps imp).life ≠ .freed) ∧
        ∀ imp ∈ s.touchesBody a, (s.heart.imps imp).body.freed = false := by
  unfold Sys.useAfterFree
  cases s.touches debug a <;> cases s.touchesBody a <;> simp

/-- The step of the machine. -/
def Sys.step (debug : Bool) (s : Sys W R) (a : Act W R) : Option (Sys W R) :=
  -- what happens after a use of freed memory is left open
  if s.shared.stale then none
  else
    match s.move a with
    | none => none
    | some s' =>
      if s.useAfterFree debug a then some { s with shared := { s.shared with stale := true } }
      else some s'

/-- Every thread before its first step, over the heart `h`. -/
def Sys.boot (W R : ℕ) (h : Heart) : Sys W R where
  shared := ⟨h, false, .nobody, false, false⟩
  worker := fun _ => .idle
  initer := fun _ => none
  epoller := .waiting
  maintainer := .top
  destroyer := .off

/-- The dungeon with `W` workers and `R` outside callers of `imp_summon`. -/
def dungeon (debug : Bool) : Machine (Sys W R) (Act W R) where
  init s := ∃ h : Heart, h.Initial ∧ s = Sys.boot W R h
  step := Sys.step debug

/-! ## Schedules

Lists of actions to replay with `Machine.exec`. -/

namespace Few

/-! One thread, or two: numerals name them. -/

scoped instance neZero_one : NeZero (1 : ℕ) := ⟨Nat.one_ne_zero⟩

scoped instance neZero_two : NeZero (2 : ℕ) := ⟨Nat.succ_ne_zero 1⟩

end Few

/-- An undisturbed `imp_summon` from outside. -/
def summons (r : Fin R) : List (Act W R) := List.replicate 5 (.initer r true)

/-- `n` statements of a worker that leave nothing open. -/
def goes (w : Fin W) (n : ℕ) : List (Act W R) := List.replicate n (.worker w .go)

/-- From `queue_dequeue` into `fsm_driver`, with no timeout. -/
def enters (w : Fin W) : List (Act W R) := goes w 6

/-- The soul waits for `fd` and blocks; the driver arms it, and is back in its loop. -/
def blocks (w : Fin W) (fd : ℕ) : List (Act W R) :=
  [.worker w (.soul (.setIoev fd epollIn)), .worker w (.ret toBlock)] ++ goes w 2
    ++ [.worker w (.ctl true)]

/-- `n` steps of the epoll thread that report nothing. -/
def epolls (n : ℕ) : List (Act W R) := List.replicate n (.epoller [])

/-- A heart with zeroed queue memory. -/
def blankHeart {nrImpMax : ℕ} (hmax : 0 < nrImpMax) : Heart :=
  dungeonInit hmax (fun _ => 0) (fun _ => 0) (fun _ => 0) (fun _ => 0)

theorem init_blank (debug : Bool) {nrImpMax : ℕ} (hmax : 0 < nrImpMax) (hlt : nrImpMax < 2 ^ 31) :
    (dungeon debug).init (Sys.boot W R (blankHeart hmax)) :=
  ⟨blankHeart hmax, ⟨nrImpMax, hmax, _, _, _, _, hlt, rfl⟩, rfl⟩

/-! ## Where a worker is -/

/-- The imp whose `imp_driver` call a worker is in: from `queue_dequeue` to the return
of `imp_driver`. -/
def WorkerPc.driving : WorkerPc → Option ImpId
  | .idle => none
  | .fetched imp => some imp
  | .cancelling imp => some imp
  | .reducting imp _ => some imp
  | .storing imp _ => some imp
  | .testing imp => some imp
  | .killed imp => some imp
  | .soul imp _ => some imp
  | .marking imp => some imp
  | .terminating imp => some imp
  | .wakeup imp => some imp
  | .looping imp _ => some imp
  | .publishing imp _ _ => some imp
  | .arming imp _ _ => some imp
  | .sleeping imp => some imp
  | .rerunning imp => some imp
  | .returned _ => none

/-- The `imp_summon` call a worker is in. -/
def WorkerPc.summoning : WorkerPc → Option SummonPc
  | .soul _ nested => nested
  | _ => none

end Dungeon

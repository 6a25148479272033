import Dungeon.Threads

/-!
# What one step can do

Inversion of the step functions, once for every thread. Each relation below has one
constructor for each thing a thread's step can do, guards included; the theorems say
that a step is one of them. Every invariant proof is a case analysis over these
relations and never unfolds a step function.

- `WorkerMove`, `EpollerMove`, `MaintainerMove`, `EnvMove`: the effect of a step on the
  heart and on the thread's program counter.
- `Sys.Move`: one thread of the system moves, the others stay.
- `step_move`: a step of the machine is a move, or it only sets `stale`.
-/

namespace Dungeon

/-! ## Workers -/

/-- What a worker's step does to the heart and to its program counter. -/
inductive WorkerMove (h : Heart) : WorkerPc → WorkerAct → Heart → WorkerPc → Prop
  | fetch {imp : ImpId} {q : Queue ImpId} (hq : h.runQueue.queueDequeueNb = some (imp, q)) :
    WorkerMove h .idle .go { h with runQueue := q } (.fetched imp)
  | timeout {imp : ImpId} (ht : (h.imps imp).body.timerFd = .expired) :
    WorkerMove h (.fetched imp) .go (cleanupTimer h imp).2 (.reducting imp true)
  | noTimeout {imp : ImpId} (ht : (h.imps imp).body.timerFd ≠ .expired) :
    WorkerMove h (.fetched imp) .go (cleanupTimer h imp).2 (.cancelling imp)
  | cancel {imp : ImpId} :
    WorkerMove h (.cancelling imp) .go (impCancelTimer h imp) (.reducting imp false)
  | reduct {imp : ImpId} {timeout : Bool} :
    WorkerMove h (.reducting imp timeout) .go (cleanupEvent h imp).2
      (.storing imp (reductMask timeout (cleanupEvent h imp).1))
  | store {imp : ImpId} {mask : BitVec 64} :
    WorkerMove h (.storing imp mask) .go (storeEventMask h imp mask) (.testing imp)
  | kill {imp : ImpId} (hm : (h.imps imp).eventMask &&& evMaskKill ≠ 0) :
    WorkerMove h (.testing imp) .go h (.killed imp)
  | alert {imp : ImpId} (hk : (h.imps imp).eventMask &&& evMaskKill = 0)
      (hm : (h.imps imp).eventMask &&& evMaskGlobalAlert ≠ 0) :
    WorkerMove h (.testing imp) .go h (.terminating imp)
  | enter {imp : ImpId} (hk : (h.imps imp).eventMask &&& evMaskKill = 0)
      (hm : (h.imps imp).eventMask &&& evMaskGlobalAlert = 0) :
    WorkerMove h (.testing imp) .go (beginSoul h imp) (.soul imp none)
  | clear {imp : ImpId} :
    WorkerMove h (.killed imp) .go (setWaitio h imp false) (.terminating imp)
  | setIoev {imp : ImpId} {fd : ℕ} {events : BitVec 32} :
    WorkerMove h (.soul imp none) (.soul (.setIoev fd events)) (impSetIoev h imp fd events)
      (.soul imp none)
  | setTimer {imp : ImpId} {ms : ℤ} :
    WorkerMove h (.soul imp none) (.soul (.setTimer ms)) (askTimer h imp ms) (.marking imp)
  | closeFd {imp : ImpId} {fd : ℕ} :
    WorkerMove h (.soul imp none) (.soul (.closeFd fd)) (closeFd h fd) (.soul imp none)
  | summon {imp : ImpId} {ok : Bool} :
    WorkerMove h (.soul imp none) (.soul (.summon ok)) h (.soul imp (summonCheck h ok))
  | nested {imp : ImpId} {pc : SummonPc} :
    WorkerMove h (.soul imp (some pc)) .go (summonStep h pc).1 (.soul imp (summonStep h pc).2)
  | retTerm {imp : ImpId} :
    WorkerMove h (.soul imp none) (.ret toTerm) h (.terminating imp)
  | ret {imp : ImpId} {code : BitVec 32} (hc : code ≠ toTerm) :
    WorkerMove h (.soul imp none) (.ret code) h (.looping imp 0)
  | mark {imp : ImpId} :
    WorkerMove h (.marking imp) .go (appendJob h imp .timer) (.soul imp none)
  | term {imp : ImpId} :
    WorkerMove h (.terminating imp) .go (impTerm h imp) (.wakeup imp)
  | wakeup {imp : ImpId} :
    WorkerMove h (.wakeup imp) .go h (.returned imp)
  | doneSleep {imp : ImpId} {count : ℕ} (hj : (h.imps imp).requestedEvents = [])
      (hc : 0 < count) :
    WorkerMove h (.looping imp count) .go h (.sleeping imp)
  | doneRun {imp : ImpId} (hj : (h.imps imp).requestedEvents = []) :
    WorkerMove h (.looping imp 0) .go h (.rerunning imp)
  | fetchJob {imp : ImpId} {count : ℕ} {job : EpollJob} {jobs : List EpollJob}
      (hj : (h.imps imp).requestedEvents = job :: jobs) :
    WorkerMove h (.looping imp count) .go (fetchJob h imp) (.publishing imp count job)
  | publish {imp : ImpId} {count : ℕ} {job : EpollJob} :
    WorkerMove h (.publishing imp count job) .go (setWaitio h imp true) (.arming imp count job)
  | arm {imp : ImpId} {count : ℕ} {job : EpollJob} {ok : Bool} :
    WorkerMove h (.arming imp count job) (.ctl ok)
      (setPollAction h (job.fd imp) job.events imp ok) (.looping imp (count + 1))
  | sleep {imp : ImpId} :
    WorkerMove h (.sleeping imp) .go { h with nrWaitio := h.nrWaitio + 1 } (.returned imp)
  | rerun {imp : ImpId} :
    WorkerMove h (.rerunning imp) .go (impRun h imp) (.returned imp)
  | leave {imp : ImpId} :
    WorkerMove h (.returned imp) .go h .idle

theorem cleanupTimer_fst {h : Heart} {imp : ImpId} :
    (cleanupTimer h imp).1 = true ↔ (h.imps imp).body.timerFd = .expired := by
  show (timerfdRead (h.imps imp).body.timerFd).1 = true ↔ _
  constructor
  · exact timerfdRead_true
  · intro ht
    rw [ht]
    rfl

theorem workerStep_move {sh sh' : Shared} {pc pc' : WorkerPc} {act : WorkerAct}
    (hs : workerStep sh pc act = some (sh', pc')) :
    WorkerMove sh.heart pc act sh'.heart pc' := by
  unfold workerStep at hs
  -- the cases come in the order of `workerStep`
  split at hs
  next =>
    split at hs
    next => cases hs
    next hq =>
      obtain ⟨rfl, rfl⟩ := Prod.mk.inj (Option.some.inj hs)
      exact .fetch hq
  next =>
    obtain ⟨rfl, rfl⟩ := Prod.mk.inj (Option.some.inj hs)
    split
    next ht => exact .timeout (cleanupTimer_fst.mp ht)
    next ht => exact .noTimeout fun h => ht (cleanupTimer_fst.mpr h)
  next => obtain ⟨rfl, rfl⟩ := Prod.mk.inj (Option.some.inj hs); exact .cancel
  next => obtain ⟨rfl, rfl⟩ := Prod.mk.inj (Option.some.inj hs); exact .reduct
  next => obtain ⟨rfl, rfl⟩ := Prod.mk.inj (Option.some.inj hs); exact .store
  next =>
    split at hs
    next hm => obtain ⟨rfl, rfl⟩ := Prod.mk.inj (Option.some.inj hs); exact .kill hm
    next hk =>
      split at hs
      next hm =>
        obtain ⟨rfl, rfl⟩ := Prod.mk.inj (Option.some.inj hs)
        exact .alert (not_not.mp hk) hm
      next hm =>
        obtain ⟨rfl, rfl⟩ := Prod.mk.inj (Option.some.inj hs)
        exact .enter (not_not.mp hk) (not_not.mp hm)
  next => obtain ⟨rfl, rfl⟩ := Prod.mk.inj (Option.some.inj hs); exact .clear
  next => obtain ⟨rfl, rfl⟩ := Prod.mk.inj (Option.some.inj hs); exact .setIoev
  next => obtain ⟨rfl, rfl⟩ := Prod.mk.inj (Option.some.inj hs); exact .setTimer
  next => obtain ⟨rfl, rfl⟩ := Prod.mk.inj (Option.some.inj hs); exact .closeFd
  next => obtain ⟨rfl, rfl⟩ := Prod.mk.inj (Option.some.inj hs); exact .summon
  next =>
    obtain ⟨rfl, rfl⟩ := Prod.mk.inj (Option.some.inj hs)
    split
    next hc => rw [hc]; exact .retTerm
    next hc => exact .ret hc
  next => obtain ⟨rfl, rfl⟩ := Prod.mk.inj (Option.some.inj hs); exact .nested
  next => obtain ⟨rfl, rfl⟩ := Prod.mk.inj (Option.some.inj hs); exact .mark
  next => obtain ⟨rfl, rfl⟩ := Prod.mk.inj (Option.some.inj hs); exact .term
  next => obtain ⟨rfl, rfl⟩ := Prod.mk.inj (Option.some.inj hs); exact .wakeup
  next imp count =>
    split at hs
    next hj =>
      obtain ⟨rfl, rfl⟩ := Prod.mk.inj (Option.some.inj hs)
      split
      next hc => exact .doneSleep hj hc
      next hc =>
        obtain rfl : count = 0 := Nat.eq_zero_of_not_pos hc
        exact .doneRun hj
    next hj => obtain ⟨rfl, rfl⟩ := Prod.mk.inj (Option.some.inj hs); exact .fetchJob hj
  next => obtain ⟨rfl, rfl⟩ := Prod.mk.inj (Option.some.inj hs); exact .publish
  next => obtain ⟨rfl, rfl⟩ := Prod.mk.inj (Option.some.inj hs); exact .arm
  next => obtain ⟨rfl, rfl⟩ := Prod.mk.inj (Option.some.inj hs); exact .sleep
  next => obtain ⟨rfl, rfl⟩ := Prod.mk.inj (Option.some.inj hs); exact .rerun
  next => obtain ⟨rfl, rfl⟩ := Prod.mk.inj (Option.some.inj hs); exact .leave
  next => cases hs

/-- Inside `imp_summon` a worker takes the next statement of it. -/
theorem WorkerMove.of_nested {h h' : Heart} {pc pc' : WorkerPc} {act : WorkerAct} {spc : SummonPc}
    (hm : WorkerMove h pc act h' pc') (hin : pc.summoning = some spc) :
    ∃ imp, pc = .soul imp (some spc) ∧ h' = (summonStep h spc).1 ∧
      pc' = .soul imp (summonStep h spc).2 := by
  cases hm with
  | @nested imp pc =>
    obtain rfl := Option.some.inj hin
    exact ⟨imp, rfl, rfl, rfl⟩
  | _ => cases hin

/-! ## The epoll thread -/

/-- What a reported batch says: every entry is the data of an armed registration of a
ready descriptor, and epoll forgets nothing but that these are armed. -/
structure Reported (h h' : Heart) (batch : List ImpId) : Prop where
  frame : ∃ epoll, h' = { h with epoll := epoll }
  kept : ∀ fd reg, h'.epoll fd = some reg → ∃ armed,
    h.epoll fd = some { reg with armed := armed } ∧ (reg.armed = true → armed = true)
  source : ∀ imp ∈ batch, ∃ fd reg,
    h.epoll fd = some reg ∧ reg.armed = true ∧ fd.ready h = true ∧ reg.data = imp

/-- What a step of the epoll thread does. -/
inductive EpollerMove (h : Heart) : EpollerPc → Heart → EpollerPc → Prop
  | wait {h' : Heart} {batch : List ImpId} (hb : Reported h h' batch) :
    EpollerMove h .waiting h' (nextEntry batch)
  | cancel {imp : ImpId} {rest : List ImpId} :
    EpollerMove h (.entry imp rest) (impCancelTimer h imp) (.waking imp rest)
  | wake {imp : ImpId} {rest : List ImpId} (hw : (h.imps imp).waitio = some true) :
    EpollerMove h (.waking imp rest) (setWaitio h imp false) (.woken imp rest)
  | awake {imp : ImpId} {rest : List ImpId} (hw : (h.imps imp).waitio ≠ some true) :
    EpollerMove h (.waking imp rest) h (.logging imp rest)
  | uncount {imp : ImpId} {rest : List ImpId} :
    EpollerMove h (.woken imp rest) { h with nrWaitio := h.nrWaitio - 1 } (.running imp rest)
  | run {imp : ImpId} {rest : List ImpId} :
    EpollerMove h (.running imp rest) (impRun h imp) (.logging imp rest)
  | log {imp : ImpId} {rest : List ImpId} :
    EpollerMove h (.logging imp rest) h (nextEntry rest)

theorem report_some {h h' : Heart} {fd : Fd} {imp : ImpId} (hr : report h fd = some (h', imp)) :
    ∃ reg, h.epoll fd = some reg ∧ reg.armed = true ∧ fd.ready h = true ∧ reg.data = imp ∧
      h' = { h with epoll := Function.update h.epoll fd (some { reg with armed := false }) } := by
  unfold report at hr
  split at hr
  next => cases hr
  next reg hreg =>
    split at hr
    next hc =>
      obtain ⟨rfl, rfl⟩ := Prod.mk.inj (Option.some.inj hr)
      obtain ⟨ha, hrd⟩ := (Bool.and_eq_true _ _).mp hc
      exact ⟨reg, hreg, ha, hrd, rfl, rfl⟩
    next => cases hr

/-- Readiness does not depend on the registrations. -/
theorem ready_epoll (h : Heart) (epoll : Fd → Option Reg) (fd : Fd) :
    fd.ready { h with epoll := epoll } = fd.ready h := by
  cases fd <;> rfl

theorem epollWait_reported {h h' : Heart} {fds : List Fd} {batch : List ImpId}
    (hw : epollWait h fds = some (h', batch)) : Reported h h' batch := by
  induction fds generalizing h batch with
  | nil =>
    obtain ⟨rfl, rfl⟩ := Prod.mk.inj (Option.some.inj hw)
    exact ⟨⟨h.epoll, rfl⟩, fun fd reg hreg => ⟨reg.armed, hreg, id⟩, fun imp hmem => by cases hmem⟩
  | cons fd fds ih =>
    unfold epollWait at hw
    split at hw
    next => cases hw
    next h₁ imp hr =>
      split at hw
      next => cases hw
      next h₂ rest hw' =>
        obtain ⟨rfl, rfl⟩ := Prod.mk.inj (Option.some.inj hw)
        obtain ⟨reg, hreg, ha, hrd, hdata, rfl⟩ := report_some hr
        obtain ⟨⟨epoll, rfl⟩, hkept, hsource⟩ := ih hw'
        -- a registration after the first report was there before it
        have hback : ∀ fd' reg', (Function.update h.epoll fd
            (some { reg with armed := false })) fd' = some reg' → ∃ armed,
            h.epoll fd' = some { reg' with armed := armed } ∧
              (reg'.armed = true → armed = true) := by
          intro fd' reg' h'
          by_cases hfd : fd' = fd
          · rw [hfd, Function.update_self] at h'
            obtain rfl := Option.some.inj h'
            exact ⟨true, by rw [hfd, hreg, ← ha], fun _ => rfl⟩
          · rw [Function.update_of_ne hfd] at h'
            exact ⟨reg'.armed, h', id⟩
        refine ⟨⟨epoll, rfl⟩, ?_, ?_⟩
        · intro fd' reg' h'
          obtain ⟨a, h₁, himp⟩ := hkept fd' reg' h'
          obtain ⟨b, h₂, himp'⟩ := hback fd' _ h₁
          exact ⟨b, h₂, fun h => himp' (himp h)⟩
        · intro q hq
          rcases List.mem_cons.mp hq with rfl | hq
          · exact ⟨fd, reg, hreg, ha, hrd, hdata⟩
          · obtain ⟨fd', reg', hreg', ha', hrd', hdata'⟩ := hsource q hq
            obtain ⟨b, h₂, himp'⟩ := hback fd' reg' hreg'
            rw [ready_epoll] at hrd'
            exact ⟨fd', _, h₂, himp' ha', hrd', hdata'⟩

theorem epollerStep_move {h h' : Heart} {fds : List Fd} {pc pc' : EpollerPc}
    (hs : epollerStep h fds pc = some (h', pc')) : EpollerMove h pc h' pc' := by
  cases pc with
  | waiting =>
    dsimp only [epollerStep] at hs
    split at hs
    next =>
      obtain ⟨r, hr, heq⟩ := Option.map_eq_some_iff.mp hs
      obtain ⟨rfl, rfl⟩ := Prod.mk.inj heq
      exact .wait (epollWait_reported hr)
    next => cases hs
  | entry imp rest =>
    obtain ⟨rfl, rfl⟩ := Prod.mk.inj (Option.some.inj hs)
    exact .cancel
  | waking imp rest =>
    obtain ⟨rfl, rfl⟩ := Prod.mk.inj (Option.some.inj hs)
    unfold casWaitio
    split
    next hw => exact .wake hw
    next hw => exact .awake hw
  | woken imp rest =>
    obtain ⟨rfl, rfl⟩ := Prod.mk.inj (Option.some.inj hs)
    exact .uncount
  | running imp rest =>
    obtain ⟨rfl, rfl⟩ := Prod.mk.inj (Option.some.inj hs)
    exact .run
  | logging imp rest =>
    obtain ⟨rfl, rfl⟩ := Prod.mk.inj (Option.some.inj hs)
    exact .log

/-! ## The maintainer and the environment -/

/-- What a step of the maintainer does to the heart. -/
inductive MaintainerMove (h : Heart) : MaintainerPc → Closing → Heart → MaintainerPc → Prop
  | idle {pc pc' : MaintainerPc} {closing : Closing}
      (hpc : pc = .top ∨ pc = .drain ∨ pc = .check ∨ pc = .waiting)
      (hpc' : pc' = .top ∨ pc' = .drain ∨ pc' = .check ∨ pc' = .waiting ∨ pc' = .exited) :
    MaintainerMove h pc closing h pc'
  | take {imp : ImpId} {q : Queue ImpId} {closing : Closing}
      (hq : h.terminatedQueue.queueDequeueNb = some (imp, q)) :
    MaintainerMove h .drain closing (beginDismiss { h with terminatedQueue := q } imp)
      (.deleting imp)
  | delete {imp : ImpId} {closing : Closing} :
    MaintainerMove h (.deleting imp) closing (fsmDelete h imp closing) (.listing imp)
  | drop {imp : ImpId} {closing : Closing} :
    MaintainerMove h (.listing imp) closing (emptyRequests h imp) (.body imp)
  | body {imp : ImpId} {closing : Closing} :
    MaintainerMove h (.body imp) closing (impBodyDelete h imp) (.freeing imp)
  | free {imp : ImpId} {closing : Closing} :
    MaintainerMove h (.freeing imp) closing (freeImp h imp) .dec
  | uncount {closing : Closing} :
    MaintainerMove h .dec closing (uncountImp h) .drain

theorem maintainerStep_move {sh sh' : Shared} {closing : Closing} {pc pc' : MaintainerPc}
    (hs : maintainerStep sh closing pc = some (sh', pc')) :
    MaintainerMove sh.heart pc closing sh'.heart pc' := by
  cases pc with
  | top =>
    obtain ⟨rfl, rfl⟩ := Prod.mk.inj (Option.some.inj hs)
    exact .idle (.inl rfl) (by split <;> simp)
  | drain =>
    dsimp only [maintainerStep] at hs
    split at hs
    next =>
      obtain ⟨rfl, rfl⟩ := Prod.mk.inj (Option.some.inj hs)
      exact .idle (by simp) (by simp)
    next hq =>
      obtain ⟨rfl, rfl⟩ := Prod.mk.inj (Option.some.inj hs)
      exact .take hq
  | deleting imp => obtain ⟨rfl, rfl⟩ := Prod.mk.inj (Option.some.inj hs); exact .delete
  | listing imp =>
    obtain ⟨h, hdrop, heq⟩ := Option.map_eq_some_iff.mp hs
    obtain ⟨rfl, rfl⟩ := Prod.mk.inj heq
    obtain ⟨-, heq⟩ := Option.ite_none_right_eq_some.mp hdrop
    obtain rfl := Option.some.inj heq
    exact .drop
  | body imp => obtain ⟨rfl, rfl⟩ := Prod.mk.inj (Option.some.inj hs); exact .body
  | freeing imp => obtain ⟨rfl, rfl⟩ := Prod.mk.inj (Option.some.inj hs); exact .free
  | dec => obtain ⟨rfl, rfl⟩ := Prod.mk.inj (Option.some.inj hs); exact .uncount
  | check =>
    dsimp only [maintainerStep] at hs
    split at hs
    next =>
      obtain ⟨rfl, rfl⟩ := Prod.mk.inj (Option.some.inj hs)
      exact .idle (by simp) (by simp)
    next =>
      obtain ⟨rfl, rfl⟩ := Prod.mk.inj (Option.some.inj hs)
      exact .idle (by simp) (by simp)
  | waiting =>
    obtain ⟨rfl, rfl⟩ := Prod.mk.inj (Option.some.inj hs)
    exact .idle (by simp) (by simp)
  | exited => cases hs

/-- What the environment does to the heart. -/
inductive EnvMove (h : Heart) : EnvAct → Heart → Prop
  | expire {imp : ImpId} (ht : (h.imps imp).body.timerFd = .armed) :
    EnvMove h (.expire imp)
      (h.modifyImp imp fun i => { i with body := { i.body with timerFd := .expired } })
  | post {imp : ImpId} (hl : (h.imps imp).life = .summoned) :
    EnvMove h (.post imp)
      (h.modifyImp imp fun i => { i with body := { i.body with eventFd := i.body.eventFd + 1 } })
  | kill {imp : ImpId} (hl : (h.imps imp).life = .summoned) :
    EnvMove h (.kill imp) (impKill h imp)
  | scribble {word : ImpId} :
    EnvMove h (.scribble word) { h with runQueue := h.runQueue.scribble word }

theorem envStep_move {h h' : Heart} {act : EnvAct} (hs : envStep h act = some h') :
    EnvMove h act h' := by
  cases act with
  | expire imp =>
    dsimp only [envStep] at hs
    split at hs
    next ht => obtain rfl := Option.some.inj hs; exact .expire ht
    next => cases hs
  | post imp =>
    dsimp only [envStep] at hs
    split at hs
    next hl => obtain rfl := Option.some.inj hs; exact .post hl
    next => cases hs
  | kill imp =>
    dsimp only [envStep] at hs
    split at hs
    next hl => obtain rfl := Option.some.inj hs; exact .kill hl
    next => cases hs
  | scribble word =>
    obtain rfl := Option.some.inj hs
    exact .scribble

/-! ## The system -/

variable {W R : ℕ} {s s' : Sys W R} {a : Act W R} {debug : Bool}

/-- One thread of the system moves; the heart and its program counter change as the
thread's relation says, and nothing else changes that the heart's invariants look at. -/
inductive Sys.Move (s : Sys W R) : Act W R → Sys W R → Prop
  | worker {w : Fin W} {act : WorkerAct} {sh : Shared} {pc : WorkerPc}
      (hm : WorkerMove s.heart (s.worker w) act sh.heart pc) :
    Sys.Move s (.worker w act)
      { s with shared := sh, worker := Function.update s.worker w pc }
  | initerCheck {r : Fin R} {ok : Bool} (hpc : s.initer r = none) :
    Sys.Move s (.initer r ok)
      { s with initer := Function.update s.initer r (summonCheck s.heart ok) }
  | initer {r : Fin R} {ok : Bool} {pc : SummonPc} (hpc : s.initer r = some pc) :
    Sys.Move s (.initer r ok)
      { s with
        shared := { s.shared with heart := (summonStep s.heart pc).1 }
        initer := Function.update s.initer r (summonStep s.heart pc).2 }
  | epoller {fds : List Fd} {h : Heart} {pc : EpollerPc}
      (hm : EpollerMove s.heart s.epoller h pc) :
    Sys.Move s (.epoller fds)
      { s with shared := { s.shared with heart := h }, epoller := pc }
  | maintainer {closing : Closing} {sh : Shared} {pc : MaintainerPc}
      (hm : MaintainerMove s.heart s.maintainer closing sh.heart pc) :
    Sys.Move s (.maintainer closing) { s with shared := sh, maintainer := pc }
  | destroyer {sh : Shared} {pc : DestroyerPc} (hh : sh.heart = s.heart) :
    Sys.Move s .destroyer { s with shared := sh, destroyer := pc }
  | env {act : EnvAct} {h : Heart} (hm : EnvMove s.heart act h) :
    Sys.Move s (.env act) { s with shared := { s.shared with heart := h } }

theorem move_move (hs : s.move a = some s') : s.Move a s' := by
  cases a with
  | worker w act =>
    obtain ⟨r, hr, rfl⟩ := Option.map_eq_some_iff.mp hs
    exact .worker (workerStep_move hr)
  | initer r ok =>
    unfold Sys.move at hs
    dsimp only at hs
    split at hs
    next hpc => obtain rfl := Option.some.inj hs; exact .initerCheck hpc
    next hpc => obtain rfl := Option.some.inj hs; exact .initer hpc
  | epoller fds =>
    obtain ⟨r, hr, rfl⟩ := Option.map_eq_some_iff.mp hs
    exact .epoller (epollerStep_move hr)
  | maintainer closing =>
    obtain ⟨r, hr, rfl⟩ := Option.map_eq_some_iff.mp hs
    exact .maintainer (maintainerStep_move hr)
  | destroyer =>
    obtain ⟨r, hr, rfl⟩ := Option.map_eq_some_iff.mp hs
    refine .destroyer ?_
    cases hpc : s.destroyer with
    | off => rw [hpc] at hr; obtain rfl := Option.some.inj hr; rfl
    | marked => rw [hpc] at hr; obtain rfl := Option.some.inj hr; rfl
    | joining => rw [hpc] at hr; cases hr
  | env act =>
    obtain ⟨h, hr, rfl⟩ := Option.map_eq_some_iff.mp hs
    exact .env (envStep_move hr)

/-- A worker touches the static variables of the maintainer in `thr_maintainer_wakeup`
only. -/
theorem workerStep_shared {sh sh' : Shared} {pc pc' : WorkerPc} {act : WorkerAct}
    (hs : workerStep sh pc act = some (sh', pc')) :
    (sh' = { sh with heart := sh'.heart } ∧ ∀ imp, pc ≠ .wakeup imp) ∨
      ∃ imp, pc = .wakeup imp ∧ sh' = thrMaintainerWakeup sh := by
  unfold workerStep at hs
  split at hs
  case h_16 imp => cases hs; exact .inr ⟨imp, rfl, rfl⟩
  all_goals
    repeat' split at hs
    all_goals first | cases hs; exact .inl ⟨rfl, fun _ => nofun⟩ | cases hs

theorem maintainerStep_stale {sh sh' : Shared} {closing : Closing} {pc pc' : MaintainerPc}
    (hs : maintainerStep sh closing pc = some (sh', pc')) : sh'.stale = sh.stale := by
  unfold maintainerStep at hs
  split at hs
  case h_4 imp =>
    obtain ⟨h, -, heq⟩ := Option.map_eq_some_iff.mp hs
    obtain ⟨rfl, -⟩ := Prod.mk.inj heq
    rfl
  all_goals
    repeat' split at hs
    all_goals cases hs <;> rfl

/-- A move does not set `stale` itself. -/
theorem move_stale (hs : s.move a = some s') : s'.shared.stale = s.shared.stale := by
  cases a with
  | worker w act =>
    obtain ⟨r, hr, rfl⟩ := Option.map_eq_some_iff.mp hs
    obtain ⟨heq, -⟩ | ⟨-, -, heq⟩ := workerStep_shared hr
    · show r.1.stale = _
      rw [heq]
    · show r.1.stale = _
      rw [heq]
      rfl
  | initer r ok =>
    unfold Sys.move at hs
    dsimp only at hs
    split at hs <;> (obtain rfl := Option.some.inj hs; rfl)
  | epoller fds =>
    obtain ⟨r, -, rfl⟩ := Option.map_eq_some_iff.mp hs
    rfl
  | maintainer closing =>
    obtain ⟨r, hr, rfl⟩ := Option.map_eq_some_iff.mp hs
    exact maintainerStep_stale hr
  | destroyer =>
    obtain ⟨r, hr, rfl⟩ := Option.map_eq_some_iff.mp hs
    cases hpc : s.destroyer with
    | off => rw [hpc] at hr; obtain rfl := Option.some.inj hr; rfl
    | marked => rw [hpc] at hr; obtain rfl := Option.some.inj hr; rfl
    | joining => rw [hpc] at hr; cases hr
  | env act =>
    obtain ⟨h, -, rfl⟩ := Option.map_eq_some_iff.mp hs
    rfl

/-- A step of the machine is a move that uses no freed imp or body, or it uses one and
only sets `stale`. -/
theorem step_move (hs : (dungeon debug).step s a = some s') :
    s.shared.stale = false ∧
    ((s.useAfterFree debug a = true ∧ s' = { s with shared := { s.shared with stale := true } }) ∨
      (s.useAfterFree debug a = false ∧ s.move a = some s')) := by
  have hs : s.step debug a = some s' := hs
  unfold Sys.step at hs
  split at hs
  next => cases hs
  next hstale =>
    refine ⟨Bool.eq_false_iff.mpr hstale, ?_⟩
    split at hs
    next => cases hs
    next hm =>
      split at hs
      next hu => exact .inl ⟨hu, (Option.some.inj hs).symm⟩
      next hu => exact .inr ⟨Bool.eq_false_iff.mpr hu, (Option.some.inj hs) ▸ hm⟩

end Dungeon

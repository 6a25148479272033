import Mathlib.Logic.Function.Basic
import Dungeon.Queue

/-!
# The scheduler's data (`imp.h`, `imp_body.h`, `dungeon.h`)

The dungeon's shared state and the kernel objects it owns.

- `Timerfd`, `timerfdSettime`, `timerfdRead`, `eventfdRead`: the two descriptors of an
  imp's body, with Linux semantics (a setting resets the expiration count, a
  non-blocking read succeeds exactly when the count is positive and clears it).
- `Fd`, `Reg`: the file descriptors known to the epoll instance and their one-shot
  registrations.
- `Imp`: `struct imp_st` without its soul and memory, which only the callbacks use.
- `Heart`: `struct dungeon_st`, the epoll instance and the heap of imps.

Four fields are not the program's: `life` says how far an imp is between `malloc`
and `free`, `dismissals` counts the calls of `imp_dismiss`, `timerAsked` records
whether the current or last run of the soul asked for a timer, and `freed` tells
whether a body is gone. No operation reads them.
-/

namespace Dungeon

/-- A pointer to an imp: its serial number `imp->id`, with 0 for `NULL`. An address
that `malloc` hands out again after `free` counts as a new imp. -/
abbrev ImpId := ℕ

/-! ## Constants -/

def evMaskKill : BitVec 64 := 0x0000000000000001#64

def evMaskTimer : BitVec 64 := 0x0000000000000002#64

def evMaskEvent : BitVec 64 := 0x0000000000000004#64

def evMaskGlobalMask : BitVec 64 := 0x8000000000000000#64

def evMaskGlobalAlert : BitVec 64 := evMaskGlobalMask ||| 0x0000000000000001#64

/-- `TO_RUN`. -/
def toRun : BitVec 32 := 129#32

/-- `TO_BLOCK`. -/
def toBlock : BitVec 32 := 130#32

/-- `TO_TERM`. -/
def toTerm : BitVec 32 := 131#32

/-- `EPOLLIN`. -/
def epollIn : BitVec 32 := 1#32

/-- `EPOLLONESHOT`. -/
def epollOneshot : BitVec 32 := 0x40000000#32

/-! ## The body's descriptors -/

/-- A `timerfd` with a zero interval: off, counting down, or with one expiration
that nobody has read. -/
inductive Timerfd where
  | disarmed
  | armed
  | expired
deriving DecidableEq

/-- `timerfd_settime` with a zero interval. An invalid time is refused; a valid one
resets the expiration count, and zero turns the timer off. -/
def timerfdSettime (t : Timerfd) (sec nsec : ℤ) : Timerfd :=
  if sec < 0 ∨ nsec < 0 ∨ 1000000000 ≤ nsec then t
  else if sec = 0 ∧ nsec = 0 then .disarmed
  else .armed

/-- A non-blocking `read` of eight bytes: whether it got them, and the timer after. -/
def timerfdRead : Timerfd → Bool × Timerfd
  | .expired => (true, .disarmed)
  | t => (false, t)

/-- A non-blocking `read` of an `eventfd` with count `n`. -/
def eventfdRead (n : ℕ) : Bool × ℕ :=
  if 0 < n then (true, 0) else (false, n)

/-- `struct imp_body_st`, and whether `imp_body_delete` has freed it. -/
structure ImpBody where
  timerFd : Timerfd
  eventFd : ℕ
  freed : Bool

/-! ## The epoll instance -/

/-- The descriptors an epoll instance can know: the two of each body, and the
descriptors that souls open. -/
inductive Fd where
  | timerFd (p : ImpId)
  | eventFd (p : ImpId)
  | user (n : ℕ)
deriving DecidableEq

/-- `struct epoll_event`, and whether the kernel still reports it: a one-shot
registration is `armed` from `epoll_ctl` to the event it delivers. -/
structure Reg where
  events : BitVec 32
  data : ImpId
  armed : Bool
deriving DecidableEq

/-- An entry of `requested_events`: `EV_MASK_TIMER` or `EV_MASK_EVENT` cast to a
pointer, or a `struct epoll_data_st *` with the two fields the driver reads. -/
inductive EpollJob where
  | timer
  | event
  | user (fd : ℕ) (events : BitVec 32)
deriving DecidableEq

/-- The descriptor a job of imp `p` arms. -/
def EpollJob.fd (p : ImpId) : EpollJob → Fd
  | .timer => .timerFd p
  | .event => .eventFd p
  | .user fd _ => .user fd

/-- The `ev.events` of a job. -/
def EpollJob.events : EpollJob → BitVec 32
  | .timer => epollIn ||| epollOneshot
  | .event => epollIn ||| epollOneshot
  | .user _ events => events ||| epollOneshot

/-! ## Imps and the heart -/

/-- How far an imp is: not allocated, allocated by `imp_new`, counted in `nr_total`,
summoned (from `waitio = FALSE` in `imp_summon` on), freed by `imp_dismiss`. -/
inductive Life where
  | unborn
  | created
  | counted
  | summoned
  | freed
deriving DecidableEq

/-- `struct imp_st`. `imp_new` leaves `waitio` unset: `none` is whatever `malloc`
left there. -/
structure Imp where
  waitio : Option Bool
  requestedEvents : List EpollJob
  eventMask : BitVec 64
  body : ImpBody
  life : Life
  dismissals : ℕ
  timerAsked : Bool

/-- The volume of an imp's `requested_events`. -/
def requestedVolume : ℕ := 1000

/-- `struct dungeon_st`, the epoll instance, the heap of imps, and
`global_imp_id___`. -/
structure Heart where
  nrTotal : ℤ
  nrMax : ℕ
  nrWaitio : ℤ
  runQueue : Queue ImpId
  terminatedQueue : Queue ImpId
  epoll : Fd → Option Reg
  imps : ImpId → Imp
  nextId : ℕ

/-- The memory of an imp that does not exist. -/
def Imp.nowhere : Imp where
  waitio := none
  requestedEvents := []
  eventMask := 0
  body := ⟨.disarmed, 0, false⟩
  life := .unborn
  dismissals := 0
  timerAsked := false

/-- The heart as `dungeon_init` leaves it: `calloc`, two new queues of `nr_imp_max`
cells, an empty epoll instance. The queues' memory is arbitrary. -/
def dungeonInit {nrImpMax : ℕ} (hmax : 0 < nrImpMax) (run runBelow term termBelow : ℕ → ImpId) :
    Heart where
  nrTotal := 0
  nrMax := nrImpMax
  nrWaitio := 0
  runQueue := Queue.new hmax run runBelow
  terminatedQueue := Queue.new hmax term termBelow
  epoll := fun _ => none
  imps := fun _ => Imp.nowhere
  nextId := 1

/-- The hearts `dungeon_init` can leave, for an `int` limit of at least one. -/
def Heart.Initial (h : Heart) : Prop :=
  ∃ (nrImpMax : ℕ) (hmax : 0 < nrImpMax) (run runBelow term termBelow : ℕ → ImpId),
    nrImpMax < 2 ^ 31 ∧ h = dungeonInit hmax run runBelow term termBelow

/-- The imps in the two queues. -/
def Heart.found (h : Heart) : List ImpId := h.runQueue.toList ++ h.terminatedQueue.toList

/-- Overwrite one imp. -/
def Heart.modifyImp (h : Heart) (p : ImpId) (f : Imp → Imp) : Heart :=
  { h with imps := Function.update h.imps p (f (h.imps p)) }

section ModifyImp

variable (h : Heart) (p q : ImpId) (f : Imp → Imp)

@[simp] theorem modifyImp_nrTotal : (h.modifyImp p f).nrTotal = h.nrTotal := rfl

@[simp] theorem modifyImp_nrMax : (h.modifyImp p f).nrMax = h.nrMax := rfl

@[simp] theorem modifyImp_nrWaitio : (h.modifyImp p f).nrWaitio = h.nrWaitio := rfl

@[simp] theorem modifyImp_runQueue : (h.modifyImp p f).runQueue = h.runQueue := rfl

@[simp] theorem modifyImp_terminatedQueue :
    (h.modifyImp p f).terminatedQueue = h.terminatedQueue := rfl

@[simp] theorem modifyImp_epoll : (h.modifyImp p f).epoll = h.epoll := rfl

@[simp] theorem modifyImp_nextId : (h.modifyImp p f).nextId = h.nextId := rfl

@[simp] theorem modifyImp_self : (h.modifyImp p f).imps p = f (h.imps p) :=
  Function.update_self ..

theorem modifyImp_of_ne (hne : q ≠ p) : (h.modifyImp p f).imps q = h.imps q :=
  Function.update_of_ne hne _ _

/-- Frame rule: a field that `f` leaves alone is the same for every imp. -/
theorem modifyImp_field {β : Type} (field : Imp → β) (hf : ∀ i, field (f i) = field i) :
    field ((h.modifyImp p f).imps q) = field (h.imps q) := by
  by_cases hq : q = p
  · rw [hq, modifyImp_self, hf]
  · rw [modifyImp_of_ne h p q f hq]

/-- An imp has not changed, or is the one that was overwritten. -/
theorem modifyImp_cases : (h.modifyImp p f).imps q = h.imps q ∨
    q = p ∧ (h.modifyImp p f).imps q = f (h.imps q) := by
  by_cases hq : q = p
  · subst hq
    exact .inr ⟨rfl, modifyImp_self h q f⟩
  · exact .inl (modifyImp_of_ne h p q f hq)

variable {h p q f} in
/-- What holds of an imp held before, or comes from the overwriting. -/
theorem of_modifyImp_imps {P : Imp → Prop} (hP : P ((h.modifyImp p f).imps q)) :
    P (h.imps q) ∨ q = p ∧ P (f (h.imps q)) := by
  rcases modifyImp_cases h p q f with heq | ⟨hq, heq⟩
  · exact .inl (heq ▸ hP)
  · exact .inr ⟨hq, heq ▸ hP⟩

end ModifyImp

theorem timerfdRead_true {t : Timerfd} (h : (timerfdRead t).1 = true) : t = .expired := by
  cases t <;> first | rfl | cases h

theorem timerfdRead_false {t : Timerfd} (h : (timerfdRead t).1 = false) :
    (timerfdRead t).2 = t := by
  cases t <;> first | rfl | cases h

end Dungeon

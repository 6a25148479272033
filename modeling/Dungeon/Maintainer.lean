import Dungeon.Moves

/-!
# No lost wake-up of the maintainer

`imp_term` enqueues an imp and then raises `pending_event` and signals under the mutex;
`thr_maintainer_destroy` sets the quit mark outside the mutex and then does the same.
The maintainer drains the queue, and only then looks at `pending_event`.

- `Attentive`: what the flag, the queue, the quit mark and the maintainer's position
  say about each other. An imp that got into the queue behind the maintainer's
  back has its enqueuer still before the wake-up, or the flag is up; the same for a
  quit mark set after the maintainer's test.
- `attentive_reach`: it holds in every reachable state.
- `no_lost_wakeup`: so the maintainer is never blocked with work to do and nobody about
  to wake it up.
-/

namespace Dungeon

open Few

variable {W R : ℕ} {s s' : Sys W R} {a : Act W R} {debug : Bool}

/-- The maintainer has drained the queue and not yet consumed `pending_event`. -/
def MaintainerPc.drained (pc : MaintainerPc) : Prop := pc = .check ∨ pc = .waiting

/-- The maintainer is past a test of the quit mark that let it go on. -/
def MaintainerPc.passed (pc : MaintainerPc) : Prop := pc ≠ .top ∧ pc ≠ .exited

/-- A worker is between its enqueue in `imp_term` and the end of its wake-up call. -/
def Sys.Waking (s : Sys W R) : Prop := ∃ w imp, s.worker w = .wakeup imp

/-- The maintainer's flag stands, or will, whenever there is something the maintainer
has not seen:
1. nobody is blocked with the flag up and no signal;
2. an imp that is queued after the drain has an enqueuer that will raise the flag, or
   has raised it;
3. a quit mark set after the test has a setter that will raise the flag, or has. -/
structure Attentive (s : Sys W R) : Prop where
  blocked : s.maintainer = .waiting → s.shared.waiter = .blocked → s.shared.pendingEvent = false
  queued : s.maintainer.drained → s.heart.terminatedQueue.toList ≠ [] →
    s.shared.pendingEvent = true ∨ s.Waking
  quit : s.maintainer.passed → s.shared.threadQuitMark = true →
    s.shared.pendingEvent = true ∨ s.destroyer = .marked

section Frames

variable {h h' : Heart}

/-- Only `imp_term` enqueues a terminated imp. -/
theorem WorkerMove.terminatedQueue {pc pc' : WorkerPc} {act : WorkerAct}
    (hm : WorkerMove h pc act h' pc') :
    h'.terminatedQueue = h.terminatedQueue ∨ ∃ imp, pc' = .wakeup imp := by
  cases hm with
  | @term imp => exact .inr ⟨imp, rfl⟩
  | @nested imp pc =>
    refine .inl ?_
    cases pc with
    | checked ok => cases ok <;> rfl
    | created | counted | ready => rfl
  | @arm imp count job ok => cases ok <;> exact .inl rfl
  | _ => exact .inl rfl

theorem summonStep_terminatedQueue (pc : SummonPc) :
    (summonStep h pc).1.terminatedQueue = h.terminatedQueue := by
  cases pc with
  | checked ok => cases ok <;> rfl
  | created | counted | ready => rfl

theorem EpollerMove.terminatedQueue {pc pc' : EpollerPc} (hm : EpollerMove h pc h' pc') :
    h'.terminatedQueue = h.terminatedQueue := by
  cases hm with
  | wait hb =>
    obtain ⟨epoll, rfl⟩ := hb.frame
    rfl
  | _ => rfl

theorem EnvMove.terminatedQueue {act : EnvAct} (hm : EnvMove h act h') :
    h'.terminatedQueue = h.terminatedQueue := by
  cases hm <;> rfl

end Frames

namespace Attentive

/-- A step that changes neither the maintainer's variables nor the terminated queue. -/
theorem frame (hi : Attentive s) {h : Heart} (hq : h.terminatedQueue = s.heart.terminatedQueue)
    (worker : Fin W → WorkerPc) (initer : Fin R → Option SummonPc) (epoller : EpollerPc)
    (hw : ∀ w imp, s.worker w = .wakeup imp → worker w = .wakeup imp) :
    Attentive { s with
      shared := { s.shared with heart := h }, worker := worker, initer := initer,
      epoller := epoller } where
  blocked := hi.blocked
  quit := hi.quit
  queued hd hne := by
    have hne : s.heart.terminatedQueue.toList ≠ [] := hq ▸ hne
    refine (hi.queued hd hne).imp_right ?_
    rintro ⟨w, imp, hpc⟩
    exact ⟨w, imp, hw w imp hpc⟩

/-- A wake-up call raises the flag and leaves nobody blocked. -/
theorem wakeup (worker : Fin W → WorkerPc) (destroyer : DestroyerPc) :
    Attentive { s with
      shared := thrMaintainerWakeup s.shared, worker := worker, destroyer := destroyer } where
  blocked _ hb := by
    change s.shared.waiter.signal = .blocked at hb
    cases hw : s.shared.waiter <;> rw [hw] at hb <;> cases hb
  queued _ _ := .inl rfl
  quit _ _ := .inl rfl

theorem worker_move (hi : Attentive s) {w : Fin W} {act : WorkerAct} {sh : Shared} {pc : WorkerPc}
    (hs : workerStep s.shared (s.worker w) act = some (sh, pc)) :
    Attentive { s with shared := sh, worker := Function.update s.worker w pc } := by
  rcases workerStep_shared hs with ⟨heq, hpc⟩ | ⟨imp, hpc, rfl⟩
  · rw [heq]
    rcases (workerStep_move hs).terminatedQueue with hq | ⟨imp, rfl⟩
    · refine hi.frame hq _ s.initer s.epoller fun v imp hv => ?_
      have hne : v ≠ w := by
        rintro rfl
        exact hpc imp hv
      rw [Function.update_of_ne hne]
      exact hv
    · -- the enqueue of `imp_term`: this worker's wake-up call comes next
      exact ⟨hi.blocked, fun _ _ => .inr ⟨w, imp, Function.update_self ..⟩, hi.quit⟩
  · exact wakeup _ s.destroyer

/-- Away from the drained queue only the quit mark matters. -/
theorem of_busy {sh : Shared} {pc : MaintainerPc} (hd : ¬ pc.drained)
    (hquit : pc.passed → sh.threadQuitMark = true →
      sh.pendingEvent = true ∨ s.destroyer = .marked) :
    Attentive { s with shared := sh, maintainer := pc } where
  blocked hw := absurd (.inr hw) hd
  queued hpc := absurd hpc hd
  quit := hquit

theorem maintainer_move (hi : Attentive s) {closing : Closing} {sh : Shared} {pc : MaintainerPc}
    (hs : maintainerStep s.shared closing s.maintainer = some (sh, pc)) :
    Attentive { s with shared := sh, maintainer := pc } := by
  obtain ⟨hblocked, hqueued, hquit⟩ := hi
  generalize s.maintainer = old at hs hblocked hqueued hquit
  cases old with
  | top =>
    obtain ⟨rfl, rfl⟩ := Prod.mk.inj (Option.some.inj hs)
    refine of_busy ?_ fun hp hmark => ?_
    · split <;> (rintro (hd | hd) <;> cases hd)
    · -- the test saw the quit mark and ended the loop
      rw [if_pos hmark] at hp
      exact absurd rfl hp.2
  | drain =>
    dsimp only [maintainerStep] at hs
    split at hs
    next hempty =>
      -- from here on a new entry comes with a wake-up call that is not over
      obtain ⟨rfl, rfl⟩ := Prod.mk.inj (Option.some.inj hs)
      refine ⟨nofun, fun _ hne => ?_, fun _ => hquit ⟨nofun, nofun⟩⟩
      exact absurd (Queue.queueDequeueNb_eq_none.mp hempty) hne
    next =>
      obtain ⟨rfl, rfl⟩ := Prod.mk.inj (Option.some.inj hs)
      exact of_busy (by rintro (hd | hd) <;> cases hd) fun _ => hquit ⟨nofun, nofun⟩
  | listing imp =>
    obtain ⟨_, -, heq⟩ := Option.map_eq_some_iff.mp hs
    obtain ⟨rfl, rfl⟩ := Prod.mk.inj heq
    exact of_busy (by rintro (hd | hd) <;> cases hd) fun _ => hquit ⟨nofun, nofun⟩
  | deleting imp | body imp | freeing imp | dec =>
    obtain ⟨rfl, rfl⟩ := Prod.mk.inj (Option.some.inj hs)
    exact of_busy (by rintro (hd | hd) <;> cases hd) fun _ => hquit ⟨nofun, nofun⟩
  | check =>
    dsimp only [maintainerStep] at hs
    split at hs
    next =>
      obtain ⟨rfl, rfl⟩ := Prod.mk.inj (Option.some.inj hs)
      exact of_busy (by rintro (hd | hd) <;> cases hd) fun hp => absurd rfl hp.1
    next hflag =>
      -- it blocks with the flag down, tested under the same lock
      obtain ⟨rfl, rfl⟩ := Prod.mk.inj (Option.some.inj hs)
      exact ⟨fun _ _ => Bool.eq_false_iff.mpr hflag, fun _ => hqueued (.inl rfl),
        fun _ => hquit ⟨nofun, nofun⟩⟩
  | waiting =>
    obtain ⟨rfl, rfl⟩ := Prod.mk.inj (Option.some.inj hs)
    exact ⟨nofun, fun _ => hqueued (.inr rfl), fun _ => hquit ⟨nofun, nofun⟩⟩
  | exited => cases hs

theorem destroyer_move (hi : Attentive s) {sh : Shared} {pc : DestroyerPc}
    (hs : destroyerStep s.shared s.destroyer = some (sh, pc)) :
    Attentive { s with shared := sh, destroyer := pc } := by
  cases hpc : s.destroyer with
  | off =>
    rw [hpc] at hs
    obtain ⟨rfl, rfl⟩ := Prod.mk.inj (Option.some.inj hs)
    exact ⟨hi.blocked, hi.queued, fun _ _ => .inr rfl⟩
  | marked =>
    rw [hpc] at hs
    obtain ⟨rfl, rfl⟩ := Prod.mk.inj (Option.some.inj hs)
    exact wakeup s.worker _
  | joining =>
    rw [hpc] at hs
    cases hs

/-- Every move keeps the maintainer attentive. -/
theorem move (hi : Attentive s) (hs : s.move a = some s') : Attentive s' := by
  cases a with
  | worker w act =>
    obtain ⟨r, hr, rfl⟩ := Option.map_eq_some_iff.mp hs
    exact hi.worker_move hr
  | initer r ok =>
    unfold Sys.move at hs
    dsimp only at hs
    split at hs
    next =>
      obtain rfl := Option.some.inj hs
      exact hi.frame (h := s.heart) rfl s.worker _ s.epoller fun _ _ => id
    next pc _ =>
      obtain rfl := Option.some.inj hs
      exact hi.frame (summonStep_terminatedQueue pc) s.worker _ s.epoller fun _ _ => id
  | epoller fds =>
    obtain ⟨r, hr, rfl⟩ := Option.map_eq_some_iff.mp hs
    exact hi.frame (epollerStep_move hr).terminatedQueue s.worker s.initer _ fun _ _ => id
  | maintainer closing =>
    obtain ⟨r, hr, rfl⟩ := Option.map_eq_some_iff.mp hs
    exact hi.maintainer_move hr
  | destroyer =>
    obtain ⟨r, hr, rfl⟩ := Option.map_eq_some_iff.mp hs
    exact hi.destroyer_move hr
  | env act =>
    obtain ⟨h, hr, rfl⟩ := Option.map_eq_some_iff.mp hs
    exact hi.frame (envStep_move hr).terminatedQueue s.worker s.initer s.epoller fun _ _ => id

theorem boot (h : Heart) : Attentive (Sys.boot W R h) where
  blocked hw := by cases hw
  queued hd := by rcases hd with hd | hd <;> cases hd
  quit hp := absurd rfl hp.1

end Attentive

theorem attentive_reach (hr : (dungeon debug).Reach Machine.Always s) : Attentive s := by
  refine hr.invariant ?_ ?_
  · rintro s ⟨h, -, rfl⟩
    exact Attentive.boot h
  · rintro s a s' - hi - hs
    obtain ⟨-, ⟨-, rfl⟩ | ⟨-, hm⟩⟩ := step_move hs
    · exact ⟨hi.blocked, hi.queued, hi.quit⟩
    · exact hi.move hm

/-- **No lost wake-up.** The maintainer is never blocked, without a signal on its way,
while a terminated imp is queued or the quit mark is set and no other thread is before
the end of its wake-up call. -/
theorem no_lost_wakeup (hr : (dungeon debug).Reach Machine.Always s) :
    ¬ (s.maintainer = .waiting ∧ s.shared.waiter = .blocked ∧
      (∀ w imp, s.worker w ≠ .wakeup imp) ∧ s.destroyer ≠ .marked ∧
      (s.heart.terminatedQueue.toList ≠ [] ∨ s.shared.threadQuitMark = true)) := by
  rintro ⟨hpc, hwaiter, hworkers, hdestroyer, hwork⟩
  have hi := attentive_reach hr
  have hdown := hi.blocked hpc hwaiter
  rcases hwork with hne | hmark
  · rcases hi.queued (.inr hpc) hne with hup | ⟨w, imp, hw⟩
    · exact absurd (hdown.symm.trans hup) nofun
    · exact hworkers w imp hw
  · have hpassed : s.maintainer.passed := by
      rw [hpc]
      exact ⟨nofun, nofun⟩
    rcases hi.quit hpassed hmark with hup | hmarked
    · exact absurd (hdown.symm.trans hup) nofun
    · exact hdestroyer hmarked

/-- The maintainer blocks; then an imp is summoned, run to `TO_TERM` and enqueued, and its
worker wakes the maintainer up. -/
def termWhileBlocked : List (Act 1 1) :=
  List.replicate 3 (.maintainer .armed) ++ summons 0 ++ enters 0 ++ [.worker 0 (.ret toTerm)]
    ++ goes 0 3

theorem no_lost_wakeup_termWhileBlocked : ∃ s : Sys 1 1,
    (dungeon false).Reach Machine.Always s ∧ s.maintainer = .waiting ∧
      s.heart.terminatedQueue.toList = [1] ∧ s.shared.waiter ≠ .blocked := by
  obtain ⟨s, hr, hp⟩ : ∃ s : Sys 1 1, (dungeon false).Reach Machine.Always s ∧
      decide (s.maintainer = .waiting ∧ (∀ w, s.worker w = .idle) ∧ s.destroyer = .off ∧
        s.heart.terminatedQueue.toList = [1]) = true :=
    Machine.exec_reach (init_blank false Nat.one_pos (by decide))
      (show ((dungeon false).exec Machine.Always _ termWhileBlocked).map _ = some true
        by decide +kernel)
  obtain ⟨hpc, hidle, hoff, hq⟩ := of_decide_eq_true hp
  refine ⟨s, hr, hpc, hq, fun hb => no_lost_wakeup hr ⟨hpc, hb, ?_, ?_, ?_⟩⟩
  · intro w imp
    rw [hidle w]
    nofun
  · rw [hoff]
    nofun
  · rw [hq]
    exact .inl nofun

end Dungeon

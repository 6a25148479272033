import Dungeon.Tokens

/-!
# Mutual exclusion of an imp's execution

Two workers are never in `imp_driver` on one imp, in every run in which the epoll
thread's compare-and-swap does not succeed on an imp whose driver call has set
`waitio` and not returned (`driving_exclusive`). The guards of the code alone do not give
this: the driver sets `waitio = TRUE` and arms epoll while it is still in its loop, so an
event that arrives there puts the imp back into the run queue, and a second worker
takes it (`driving_shared`).
-/

namespace Dungeon

open Tally Few

variable {W R : ℕ} {s : Sys W R} {debug : Bool} {imp : ImpId}

/-- A worker in `imp_driver` has the imp's token, or is past its first `waitio = TRUE`, or is
in the wake-up call of `imp_term`. -/
theorem driving_share {pc : WorkerPc} (hd : pc.driving = some imp) :
    1 ≤ pc.share .call imp + flag (pc.published true = some imp) := by
  have hready := atReady_nonneg imp pc.summoning
  unfold WorkerPc.share
  cases pc with
  | idle => cases hd
  | returned => cases hd
  | wakeup p =>
    obtain rfl := Option.some.inj hd
    simp [WorkerPc.unpublished, WorkerPc.published, WorkerPc.summoning, atReady, Shares.call]
  | looping p count | publishing p count =>
    obtain rfl := Option.some.inj hd
    cases count <;>
      simp [WorkerPc.unpublished, WorkerPc.published, WorkerPc.summoning, atReady, Shares.call]
  | soul p nested =>
    obtain rfl := Option.some.inj hd
    simpa [WorkerPc.unpublished, WorkerPc.published, WorkerPc.summoning, Shares.call] using hready
  | _ =>
    obtain rfl := Option.some.inj hd
    simp [WorkerPc.unpublished, WorkerPc.published, WorkerPc.summoning, atReady, Shares.call]

/-- **Mutual exclusion**, in every run whose wake-ups leave driver calls alone. -/
theorem driving_exclusive (hr : (dungeon debug).Reach (WakeOk true) s) {w w' : Fin W}
    (hw : (s.worker w).driving = some imp) (hw' : (s.worker w').driving = some imp) : w = w' := by
  by_contra hne
  have hheld : Held .call true s := held_reach hr
  have htok := hheld.tokens_le imp
  have hpub := hheld.publishers_le imp
  have hbound := Held.bound_le_one .call (s.heart.imps imp).life
  -- both workers have a share, of the tokens or of the publishers
  have hpair : (s.worker w).share .call imp + flag ((s.worker w).published true = some imp)
      + ((s.worker w').share .call imp + flag ((s.worker w').published true = some imp))
      ≤ tally Finset.univ (fun pc : WorkerPc =>
        pc.share .call imp + flag (pc.published true = some imp)) s.worker :=
    pair_le_tally (f := fun pc : WorkerPc =>
      pc.share .call imp + flag (pc.published true = some imp)) (g := s.worker)
      (fun pc => Int.add_nonneg (pc.share_nonneg imp) (flag_nonneg _))
      (Finset.mem_univ w) (Finset.mem_univ w') hne
  rw [tally_add] at hpair
  have hs := driving_share hw
  have hs' := driving_share hw'
  have hrun : (0 : ℤ) ≤ s.heart.runQueue.toList.count imp := Int.natCast_nonneg _
  have hinit : 0 ≤ tally Finset.univ (atReady imp) s.initer := tally_nonneg (atReady_nonneg imp)
  have he := s.epoller.share_nonneg imp
  have hm := s.maintainer.share_nonneg (k := .call) imp
  have hterm := Int.mul_nonneg Shares.call.terminated_nonneg
    (Int.natCast_nonneg (s.heart.terminatedQueue.toList.count imp))
  unfold tokens heartShare at htok
  unfold publishers at hpub
  omega

/-- The imp is driven, sleeps, is woken and driven again by the other worker. -/
def sleepAndWake : List (Act 2 1) :=
  summons 0 ++ enters 0 ++ blocks 0 5 ++ goes 0 2 ++ [.epoller [.user 5]] ++ epolls 4 ++ goes 1 3

theorem driving_exclusive_sleepAndWake : ∃ s : Sys 2 1, (dungeon false).Reach (WakeOk true) s ∧
    (s.worker 1).driving = some 1 ∧ ∀ w, (s.worker w).driving = some 1 → w = 1 := by
  obtain ⟨s, hr, hp⟩ : ∃ s : Sys 2 1, (dungeon false).Reach (WakeOk true) s ∧
      decide ((s.worker 1).driving = some 1) = true :=
    Machine.exec_reach (init_blank false Nat.one_pos (by decide))
      (show ((dungeon false).exec (WakeOk true) _ sleepAndWake).map _ = some true by decide +kernel)
  have hone := of_decide_eq_true hp
  exact ⟨s, hr, hone, fun w hw => driving_exclusive hr hw hone⟩

/-- Worker 0 is in the driver's loop, with the only descriptor armed; the event arrives,
the epoll thread wakes the imp, and worker 1 takes it. -/
def wakeInLoop : List (Act 2 1) :=
  summons 0 ++ enters 0 ++ blocks 0 5 ++ [.epoller [.user 5]] ++ epolls 4 ++ goes 1 1

/-- Without the condition two workers do meet. -/
theorem driving_shared : ¬ ∀ s : Sys 2 1, (dungeon false).Reach Machine.Always s →
    ∀ (w w' : Fin 2) (imp : ImpId),
      (s.worker w).driving = some imp → (s.worker w').driving = some imp → w = w' := by
  intro hall
  obtain ⟨s, hr, hp⟩ : ∃ s : Sys 2 1, (dungeon false).Reach Machine.Always s ∧
      decide ((s.worker 0).driving = some 1 ∧ (s.worker 1).driving = some 1) = true :=
    Machine.exec_reach (init_blank false Nat.one_pos (by decide))
      (show ((dungeon false).exec Machine.Always _ wakeInLoop).map _ = some true by decide +kernel)
  obtain ⟨h₀, h₁⟩ := of_decide_eq_true hp
  exact absurd (hall s hr 0 1 1 h₀ h₁) (by decide)

end Dungeon

import Dungeon.Books

/-!
# Who has an imp in hand

Every imp has one token, and at any time the token is in one place: an entry of a
queue, a thread that is working on the imp, or the flag `waitio` while the imp
sleeps. A worker gives its token to the flag with the first `waitio = TRUE`; from then on
it goes on working on an imp it does not hold.

- `Shares`: how much the places after `imp_term` count. `Shares.custody` counts the
  terminated queue and the maintainer, `Shares.call` the rest of the worker's call.
- `tokens`, `Held`: the sum over all places, at most one; and at most one worker is past
  its first `waitio = TRUE`, only while the flag stands.
- `WakeOk`: the condition under which both survive. The epoll thread's
  compare-and-swap must not succeed on an imp while a worker is past its first
  `waitio = TRUE` on it and has not left the loop (with `strict`: has not returned).
- `held_reach`: both hold in every run whose steps meet the condition.
-/

namespace Dungeon

open Tally

variable {W R : ℕ}

/-! ## Places -/

/-- The share of a worker in `thr_maintainer_wakeup`, and of the terminated queue and
the maintainer. -/
structure Shares where
  wakeup : ℤ
  terminated : ℤ
  wakeup_nonneg : 0 ≤ wakeup
  terminated_nonneg : 0 ≤ terminated
  sum_le : wakeup + terminated ≤ 1

/-- An imp stays in custody from `imp_summon` until it is freed. -/
def Shares.custody : Shares := ⟨0, 1, by decide, by decide, by decide⟩

/-- An imp is being worked on until its `imp_driver` call returns. -/
def Shares.call : Shares := ⟨1, 0, by decide, by decide, by decide⟩

/-- The imp whose token a worker has: it is in `imp_driver` and has not set `waitio`. -/
def WorkerPc.unpublished : WorkerPc → Option ImpId
  | .fetched imp => some imp
  | .cancelling imp => some imp
  | .reducting imp _ => some imp
  | .storing imp _ => some imp
  | .testing imp => some imp
  | .killed imp => some imp
  | .soul imp _ => some imp
  | .marking imp => some imp
  | .terminating imp => some imp
  | .looping imp 0 => some imp
  | .publishing imp 0 _ => some imp
  | .rerunning imp => some imp
  | _ => none

/-- The imp on which a worker is past its first `waitio = TRUE`, in the driver's loop; with
`strict` also before `nr_waitio++`. -/
def WorkerPc.published (strict : Bool) : WorkerPc → Option ImpId
  | .looping imp (_ + 1) => some imp
  | .publishing imp (_ + 1) _ => some imp
  | .arming imp _ _ => some imp
  | .sleeping imp => if strict then some imp else none
  | _ => none

/-- The imp the epoll thread has woken and not yet enqueued. -/
def EpollerPc.wakes : EpollerPc → Option ImpId
  | .woken imp _ => some imp
  | .running imp _ => some imp
  | _ => none

/-- The share of the flag: 1 while `waitio` is `TRUE`. -/
def flagUp (h : Heart) (imp : ImpId) : ℤ := flag ((h.imps imp).waitio = some true)

/-- The share of the heart: the queues and the flag. -/
def heartShare (k : Shares) (h : Heart) (imp : ImpId) : ℤ :=
  h.runQueue.toList.count imp + k.terminated * h.terminatedQueue.toList.count imp + flagUp h imp

/-- The share of a summoner. -/
def atReady (imp : ImpId) (pc : Option SummonPc) : ℤ := flag (pc = some (.ready imp))

@[simp] theorem atReady_none (imp : ImpId) : atReady imp none = 0 := rfl

@[simp] theorem atReady_summonCheck (imp : ImpId) (h : Heart) (ok : Bool) :
    atReady imp (summonCheck h ok) = 0 := by
  rcases summonCheck_cases h ok with ⟨-, heq⟩ | ⟨-, heq⟩ <;> simp [heq, atReady]

/-- The share of a worker. -/
def WorkerPc.share (k : Shares) (imp : ImpId) (pc : WorkerPc) : ℤ :=
  flag (pc.unpublished = some imp) + atReady imp pc.summoning + k.wakeup * flag (pc = .wakeup imp)

/-- The share of the epoll thread. -/
def EpollerPc.share (imp : ImpId) (pc : EpollerPc) : ℤ := flag (pc.wakes = some imp)

/-- The share of the maintainer. -/
def MaintainerPc.share (k : Shares) (imp : ImpId) (pc : MaintainerPc) : ℤ :=
  k.terminated * flag (pc.touches = some imp)

/-- The tokens of `imp` in the system. -/
def tokens (k : Shares) (s : Sys W R) (imp : ImpId) : ℤ :=
  heartShare k s.heart imp + tally Finset.univ (WorkerPc.share k imp) s.worker
    + tally Finset.univ (atReady imp) s.initer + s.epoller.share imp + s.maintainer.share k imp

/-- The tokens an imp may have, by its life. -/
def Shares.bound (k : Shares) : Life → ℤ
  | .summoned => 1
  | .freed => 1 - k.terminated
  | _ => 0

/-- The workers past their first `waitio = TRUE` on `imp`. -/
def publishers (strict : Bool) (s : Sys W R) (imp : ImpId) : ℤ :=
  tally Finset.univ (fun pc : WorkerPc => flag (pc.published strict = some imp)) s.worker

/-- No imp has two tokens, and a worker past its first `waitio = TRUE` on an imp is the only
one, with the flag still set. -/
structure Held (k : Shares) (strict : Bool) (s : Sys W R) : Prop where
  tokens_le : ∀ imp, tokens k s imp ≤ k.bound (s.heart.imps imp).life
  publishers_le : ∀ imp, publishers strict s imp ≤ flagUp s.heart imp

/-- The epoll thread's compare-and-swap does not succeed on an imp that a worker has
put to sleep but not left. -/
def WakeOk (strict : Bool) (s : Sys W R) : Act W R → Prop
  | .epoller _ =>
    match s.epoller with
    | .waking imp _ => (s.heart.imps imp).waitio = some true →
        ∀ w, (s.worker w).published strict ≠ some imp
    | _ => True
  | _ => True

instance (strict : Bool) (s : Sys W R) (a : Act W R) : Decidable (WakeOk strict s a) :=
  match a with
  | .epoller _ => waking s.epoller
  | .worker .. | .initer .. | .maintainer _ | .destroyer | .env _ =>
    inferInstanceAs (Decidable True)
where
  waking : ∀ pc : EpollerPc, Decidable (match pc with
    | .waking imp _ => (s.heart.imps imp).waitio = some true →
        ∀ w, (s.worker w).published strict ≠ some imp
    | _ => True)
  | .waking .. => inferInstanceAs (Decidable (_ → _))
  | .waiting | .entry .. | .woken .. | .running .. | .logging .. =>
    inferInstanceAs (Decidable True)

/-! ## Shares of the places -/

section Counts

variable {q q' : Queue ImpId} {imp x : ImpId}

theorem count_queueEnqueueUniqNb_le (q : Queue ImpId) (imp x : ImpId) :
    ((q.queueEnqueueUniqNb imp).2.toList.count x : ℤ) ≤ q.toList.count x + flag (imp = x) := by
  obtain ⟨-, -, heq | heq⟩ := q.queueEnqueueUniqNb_bound imp
  · rw [heq]
    have := flag_nonneg (decide (imp = x))
    omega
  · rw [heq, List.count_append, List.count_singleton]
    by_cases hx : imp = x <;> simp [hx]

theorem count_queueEnqueueNb_le (q : Queue ImpId) (imp x : ImpId) :
    ((q.queueEnqueueNb imp).2.toList.count x : ℤ) ≤ q.toList.count x + flag (imp = x) := by
  obtain ⟨-, -, heq | heq⟩ := q.queueEnqueueNb_bound imp
  · rw [heq]
    have := flag_nonneg (decide (imp = x))
    omega
  · rw [heq, List.count_append, List.count_singleton]
    by_cases hx : imp = x <;> simp [hx]

theorem count_queueDequeueNb (hq : q.queueDequeueNb = some (imp, q')) (x : ImpId) :
    (q.toList.count x : ℤ) = q'.toList.count x + flag (imp = x) := by
  rw [(Queue.queueDequeueNb_eq_some hq).1, List.count_cons]
  by_cases hx : imp = x <;> simp [hx]

end Counts

section Shares

variable {k : Shares} {h h' : Heart} {imp q : ImpId}

theorem flagUp_nonneg : 0 ≤ flagUp h q := flag_nonneg _

theorem flagUp_eq_zero (hw : (h.imps q).waitio ≠ some true) : flagUp h q = 0 := flag_eq_zero hw

theorem flagUp_eq_one (hw : (h.imps q).waitio = some true) : flagUp h q = 1 := flag_eq_one hw

theorem flagUp_impBodyDelete : flagUp (impBodyDelete h imp) q = flagUp h q := by
  unfold flagUp
  rw [impBodyDelete_field h imp q Imp.waitio fun _ => rfl]

theorem flagUp_modifyImp {f : Imp → Imp} (hf : ∀ i, (f i).waitio = i.waitio) :
    flagUp (h.modifyImp imp f) q = flagUp h q := by
  unfold flagUp
  simp only [modifyImp_field h imp q f Imp.waitio hf]

theorem flagUp_appendJob (job : EpollJob) : flagUp (appendJob h imp job) q = flagUp h q :=
  flagUp_modifyImp fun i => by split <;> rfl

theorem flagUp_setWaitio (b : Bool) :
    flagUp (setWaitio h imp b) q = if q = imp then flag b else flagUp h q := by
  unfold flagUp setWaitio
  by_cases hq : q = imp
  · rw [if_pos hq, hq, modifyImp_self]
    cases b <;> rfl
  · rw [if_neg hq, modifyImp_of_ne h imp q _ hq]

/-- Changing only the flag of one imp. -/
theorem heartShare_setWaitio (b : Bool) :
    heartShare k (setWaitio h imp b) q
      = heartShare k h q - flagUp h q + if q = imp then flag b else flagUp h q := by
  unfold heartShare
  rw [flagUp_setWaitio, add_sub_cancel_right]
  rfl

/-- Overwriting fields other than `waitio` moves no token. -/
theorem heartShare_modifyImp {f : Imp → Imp} (hf : ∀ i, (f i).waitio = i.waitio) :
    heartShare k (h.modifyImp imp f) q = heartShare k h q := by
  unfold heartShare
  rw [flagUp_modifyImp hf]
  rfl

theorem heartShare_appendJob (job : EpollJob) :
    heartShare k (appendJob h imp job) q = heartShare k h q :=
  heartShare_modifyImp fun i => by split <;> rfl

/-- The flag of a new imp goes down. -/
theorem heartShare_beginImp_le : heartShare k (beginImp h imp) q ≤ heartShare k h q := by
  have hflag : flagUp (beginImp h imp) q ≤ flagUp h q := by
    by_cases hq : q = imp
    · rw [flagUp_eq_zero (by rw [hq, beginImp, modifyImp_self]; simp)]
      exact flagUp_nonneg
    · unfold flagUp
      rw [show (beginImp h imp).imps q = h.imps q from modifyImp_of_ne h imp q _ hq]
  exact Int.add_le_add_left hflag _

theorem heartShare_impRun_le (k : Shares) (h : Heart) (imp q : ImpId) :
    heartShare k (impRun h imp) q ≤ heartShare k h q + flag (imp = q) := by
  have hle := count_queueEnqueueUniqNb_le h.runQueue imp q
  show _ + _ + flagUp h q ≤ _ + _ + flagUp h q + _
  unfold impRun
  dsimp only
  omega

theorem heartShare_impTerm_le (k : Shares) (h : Heart) (imp q : ImpId) :
    heartShare k (impTerm h imp) q ≤ heartShare k h q + k.terminated * flag (imp = q) := by
  have hle := Int.mul_le_mul_of_nonneg_left (count_queueEnqueueNb_le h.terminatedQueue imp q)
    k.terminated_nonneg
  rw [mul_add] at hle
  show _ + _ + flagUp h q ≤ _ + _ + flagUp h q + _
  unfold impTerm
  dsimp only
  omega

theorem flagUp_le_heartShare : flagUp h q ≤ heartShare k h q := by
  have hterm : 0 ≤ k.terminated * (h.terminatedQueue.toList.count q : ℤ) :=
    Int.mul_nonneg k.terminated_nonneg (Int.natCast_nonneg _)
  unfold heartShare
  omega

theorem heartShare_nonneg : 0 ≤ heartShare k h q := by
  have hflag : 0 ≤ flagUp h q := flagUp_nonneg
  exact hflag.trans flagUp_le_heartShare

theorem atReady_nonneg (imp : ImpId) (pc : Option SummonPc) : 0 ≤ atReady imp pc := flag_nonneg _

theorem WorkerPc.share_nonneg (imp : ImpId) (pc : WorkerPc) : 0 ≤ pc.share k imp := by
  have h₀ := flag_nonneg (decide (pc.unpublished = some imp))
  have h₁ := atReady_nonneg imp pc.summoning
  have h₂ : 0 ≤ k.wakeup * flag (pc = .wakeup imp) :=
    Int.mul_nonneg k.wakeup_nonneg (flag_nonneg _)
  unfold WorkerPc.share
  omega

/-- The share of a worker that has a token, outside `imp_summon`. -/
theorem WorkerPc.share_of_unpublished (pc : WorkerPc) (hpc : pc.unpublished = some imp)
    (hout : pc.summoning = none) : pc.share k q = flag (imp = q) := by
  have hready : atReady q pc.summoning = 0 := flag_eq_zero (by rw [hout]; simp)
  have hwake : pc ≠ .wakeup q := by
    rintro rfl
    cases hpc
  unfold WorkerPc.share
  rw [hpc, hready, flag_eq_zero hwake, mul_zero, add_zero, add_zero]
  simp only [Option.some.injEq]

/-- The share of a worker that has none, outside `imp_summon` and `thr_maintainer_wakeup`. -/
theorem WorkerPc.share_of_none (pc : WorkerPc) (hpc : pc.unpublished = none)
    (hout : pc.summoning = none) (hwake : ∀ p, pc ≠ .wakeup p) : pc.share k q = 0 := by
  have hready : atReady q pc.summoning = 0 := flag_eq_zero (by rw [hout]; simp)
  have hun : pc.unpublished ≠ some q := by rw [hpc]; simp
  unfold WorkerPc.share
  rw [flag_eq_zero hun, hready, flag_eq_zero (hwake q), mul_zero, add_zero, add_zero]

theorem WorkerPc.share_wakeup : (WorkerPc.wakeup imp).share k q = k.wakeup * flag (imp = q) := by
  simp [WorkerPc.share, WorkerPc.unpublished, WorkerPc.summoning, atReady]

theorem share_soul (imp q : ImpId) (nested : Option SummonPc) :
    (WorkerPc.soul imp nested).share k q = flag (imp = q) + atReady q nested := by
  simp [WorkerPc.share, WorkerPc.unpublished, WorkerPc.summoning]

/-- A worker that has an imp's token has a share of one at least. -/
theorem WorkerPc.one_le_share_of_unpublished (k : Shares) {pc : WorkerPc}
    (hpc : pc.unpublished = some imp) : 1 ≤ pc.share k imp := by
  have hready := atReady_nonneg imp pc.summoning
  have hwake : 0 ≤ k.wakeup * flag (pc = .wakeup imp) :=
    Int.mul_nonneg k.wakeup_nonneg (flag_nonneg _)
  unfold WorkerPc.share
  rw [flag_eq_one hpc]
  omega

/-- So has one that is about to enqueue the imp it has summoned. -/
theorem WorkerPc.one_le_share_of_ready (k : Shares) {pc : WorkerPc}
    (hpc : pc.summoning = some (.ready imp)) : 1 ≤ pc.share k imp := by
  have hun := flag_nonneg (decide (pc.unpublished = some imp))
  have hready : atReady imp pc.summoning = 1 := flag_eq_one hpc
  have hwake : 0 ≤ k.wakeup * flag (pc = .wakeup imp) :=
    Int.mul_nonneg k.wakeup_nonneg (flag_nonneg _)
  unfold WorkerPc.share
  omega

/-- The maintainer has custody of the imp it dismisses. -/
theorem MaintainerPc.share_custody {pc : MaintainerPc} (hpc : pc.touches = some imp) :
    pc.share .custody imp = 1 := by
  unfold MaintainerPc.share
  rw [flag_eq_one hpc]
  rfl

theorem EpollerPc.share_nonneg (imp : ImpId) (pc : EpollerPc) : 0 ≤ pc.share imp := flag_nonneg _

theorem MaintainerPc.share_nonneg (imp : ImpId) (pc : MaintainerPc) : 0 ≤ pc.share k imp :=
  Int.mul_nonneg k.terminated_nonneg (flag_nonneg _)

end Shares

/-! ## Steps of one thread -/

section Steps

variable {k : Shares} {strict : Bool} {h h' : Heart} {q : ImpId}

/-- A worker's step outside `imp_summon` makes no token, as long as a worker past its
first `waitio = TRUE` finds the flag still set. -/
theorem WorkerMove.tokens_le {pc pc' : WorkerPc} {act : WorkerAct}
    (hm : WorkerMove h pc act h' pc') (hout : pc.summoning = none)
    (hpub : ∀ imp, pc.published strict = some imp → (h.imps imp).waitio = some true) :
    heartShare k h' q + pc'.share k q ≤ heartShare k h q + pc.share k q := by
  cases hm with
  | @fetch imp rest hq =>
    -- the token comes from the run queue
    have hcount := count_queueDequeueNb hq q
    rw [(WorkerPc.fetched imp).share_of_unpublished rfl rfl,
      WorkerPc.idle.share_of_none rfl rfl nofun]
    show (rest.toList.count q : ℤ) + k.terminated * h.terminatedQueue.toList.count q + flagUp h q
      + _ ≤ _ + _ + _ + _
    omega
  | timeout | noTimeout | cancel | reduct | store | enter | setTimer =>
    dsimp only [cleanupTimer, impCancelTimer, cleanupEvent, storeEventMask, beginSoul, askTimer]
    rw [heartShare_modifyImp]
    · simp [WorkerPc.share, WorkerPc.unpublished, WorkerPc.summoning]
    · exact fun _ => rfl
  | setIoev =>
    dsimp only [impSetIoev]
    rw [heartShare_appendJob]
  | mark =>
    rw [heartShare_appendJob]
    simp [WorkerPc.share, WorkerPc.unpublished, WorkerPc.summoning]
  | @fetchJob imp count =>
    dsimp only [Dungeon.fetchJob]
    rw [heartShare_modifyImp]
    · cases count <;> simp [WorkerPc.share, WorkerPc.unpublished, WorkerPc.summoning]
    · exact fun _ => rfl
  | kill | alert | retTerm | ret | doneRun =>
    simp [WorkerPc.share, WorkerPc.unpublished, WorkerPc.summoning]
  | summon =>
    simp [WorkerPc.share, WorkerPc.unpublished, WorkerPc.summoning]
  | closeFd => exact le_refl _
  | @clear imp =>
    -- the flag is cleared: at most a token less
    have hflag : 0 ≤ flagUp h q := flagUp_nonneg
    rw [heartShare_setWaitio, flag_false, (WorkerPc.killed imp).share_of_unpublished rfl rfl,
      (WorkerPc.terminating imp).share_of_unpublished rfl rfl]
    split <;> omega
  | nested => cases hout
  | @term imp =>
    -- the token goes to the terminated queue or to the wake-up call, by the shares
    have hle := heartShare_impTerm_le k h imp q
    have hsum := Int.mul_le_mul_of_nonneg_right k.sum_le (flag_nonneg (decide (imp = q)))
    rw [add_mul, one_mul] at hsum
    rw [WorkerPc.share_wakeup, (WorkerPc.terminating imp).share_of_unpublished rfl rfl]
    omega
  | @wakeup imp =>
    have hw := Int.mul_nonneg k.wakeup_nonneg (flag_nonneg (decide (imp = q)))
    rw [WorkerPc.share_wakeup, (WorkerPc.returned imp).share_of_none rfl rfl nofun]
    omega
  | @doneSleep imp count _ hc =>
    obtain ⟨n, rfl⟩ : ∃ n, count = n + 1 := ⟨count - 1, by omega⟩
    simp [WorkerPc.share, WorkerPc.unpublished, WorkerPc.summoning]
  | @publish imp count job =>
    rw [heartShare_setWaitio]
    cases count with
    | zero =>
      -- the worker's token goes to the flag
      have hflag : 0 ≤ flagUp h q := flagUp_nonneg
      rw [(WorkerPc.arming imp 0 job).share_of_none rfl rfl nofun,
        (WorkerPc.publishing imp 0 job).share_of_unpublished rfl rfl]
      split
      next heq => rw [flag_eq_one heq.symm, flag_true]; omega
      next heq => rw [flag_eq_zero fun he => heq he.symm]; omega
    | succ n =>
      -- the flag stands already
      have hset : flagUp h imp = 1 := flagUp_eq_one (hpub imp rfl)
      rw [(WorkerPc.arming imp (n + 1) job).share_of_none rfl rfl nofun,
        (WorkerPc.publishing imp (n + 1) job).share_of_none rfl rfl nofun]
      split
      next heq => rw [heq, hset, flag_true, sub_add_cancel]
      next => omega
  | arm =>
    unfold setPollAction
    split <;> exact le_refl _
  | sleep => exact le_refl _
  | @rerun imp =>
    -- the token goes to the run queue
    have hle := heartShare_impRun_le k h imp q
    rw [(WorkerPc.returned imp).share_of_none rfl rfl nofun,
      (WorkerPc.rerunning imp).share_of_unpublished rfl rfl]
    omega
  | leave => exact le_refl _

/-- A worker's step outside `imp_summon` keeps the publishers under the flag, as long
as a worker that has its imp's token finds the flag cleared. -/
theorem WorkerMove.published_le (strict : Bool) {pc pc' : WorkerPc} {act : WorkerAct}
    (hm : WorkerMove h pc act h' pc') (hout : pc.summoning = none)
    (hun : ∀ imp, pc.unpublished = some imp → (h.imps imp).waitio ≠ some true) :
    flag (pc'.published strict = some q) + flagUp h q
      ≤ flag (pc.published strict = some q) + flagUp h' q := by
  cases hm with
  | timeout | noTimeout | cancel | reduct | store | enter | setTimer =>
    dsimp only [cleanupTimer, impCancelTimer, cleanupEvent, storeEventMask, beginSoul, askTimer]
    rw [flagUp_modifyImp]
    · exact le_refl _
    · exact fun _ => rfl
  | setIoev =>
    dsimp only [impSetIoev]
    rw [flagUp_appendJob]
  | mark =>
    rw [flagUp_appendJob]
    exact le_refl _
  | @fetchJob imp count =>
    dsimp only [Dungeon.fetchJob]
    rw [flagUp_modifyImp]
    · cases count <;> exact le_refl _
    · exact fun _ => rfl
  | @clear imp =>
    have hclear : flagUp h imp = 0 := flagUp_eq_zero (hun imp rfl)
    rw [flagUp_setWaitio]
    split
    next heq => rw [heq, hclear]; exact le_refl _
    next => exact le_refl _
  | nested => cases hout
  | @doneSleep imp count _ hc =>
    obtain ⟨n, rfl⟩ : ∃ n, count = n + 1 := ⟨count - 1, by omega⟩
    cases strict
    · exact Int.add_le_add_right (flag_nonneg _) _
    · exact le_refl _
  | @publish imp count job =>
    have hone : flagUp h q ≤ 1 := by
      unfold flagUp flag
      split <;> decide
    rw [flagUp_setWaitio, flag_true]
    cases count with
    | zero =>
      -- the first `waitio = TRUE`: the flag was down, and goes up with the publisher
      have hclear : flagUp h imp = 0 := flagUp_eq_zero (hun imp rfl)
      show flag (some imp = some q) + _ ≤ flag (none = some q) + _
      split
      next heq => rw [heq, hclear, flag_eq_one rfl, flag_eq_zero (by simp)]; exact le_refl _
      next heq =>
        rw [flag_eq_zero fun he => heq (Option.some.inj he).symm]
        exact Int.add_le_add_right (flag_nonneg _) _
    | succ n =>
      refine Int.add_le_add_left ?_ _
      split <;> omega
  | arm =>
    unfold setPollAction
    split <;> exact le_refl _
  | sleep => exact Int.add_le_add_right (flag_nonneg _) _
  | summon | fetch | kill | alert | retTerm | ret | doneRun | closeFd | term | wakeup | rerun
  | leave => exact le_refl _

variable {created counted dismissing : ImpId → ℤ} {due : ℤ}

/-- A step of `imp_summon` makes a token only for the imp it begins. -/
theorem summonStep_tokens_le (hl : Ledger h created counted dismissing due) {pc : SummonPc}
    (hcr : ∀ q, atCreated q (some pc) ≤ created q) (hco : ∀ q, atCounted q (some pc) ≤ counted q) :
    heartShare k (summonStep h pc).1 q + atReady q (summonStep h pc).2 + k.bound (h.imps q).life
      ≤ heartShare k h q + atReady q (some pc)
        + k.bound ((summonStep h pc).1.imps q).life := by
  cases pc with
  | checked ok =>
    cases ok with
    | false => exact le_refl _
    | true =>
      by_cases hq : q = h.nextId
      · have hnew : flagUp (summonStep h (.checked true)).1 q = 0 :=
          flagUp_eq_zero (by
            show ((Function.update h.imps h.nextId _) q).waitio ≠ some true
            rw [hq, Function.update_self]
            simp)
        have hborn : ((summonStep h (.checked true)).1.imps q).life = .created := by
          show ((Function.update h.imps h.nextId _) q).life = _
          rw [hq, Function.update_self]
        have hflag : 0 ≤ flagUp h q := flagUp_nonneg
        rw [hl.fresh q hq.ge, hborn]
        show _ + _ + flagUp _ q + flag false + 0 ≤ _ + _ + flagUp h q + flag false + 0
        rw [hnew, flag_false]
        exact Int.add_le_add_right (Int.add_le_add_right (Int.add_le_add_left hflag _) _) _
      · have hsame : (summonStep h (.checked true)).1.imps q = h.imps q :=
          Function.update_of_ne hq _ _
        unfold heartShare flagUp
        rw [hsame]
        exact le_refl _
  | created imp =>
    have hlife := hl.life_of_created ((flag_eq_one rfl).symm.trans_le (hcr imp))
    have hshare : heartShare k (h.modifyImp imp fun i => { i with life := .counted }) q
        = heartShare k h q := heartShare_modifyImp fun _ => rfl
    show heartShare k (h.modifyImp imp fun i => { i with life := .counted }) q + flag _ + _
      ≤ _ + flag _ + k.bound ((h.modifyImp imp fun i => { i with life := .counted }).imps q).life
    rw [hshare]
    by_cases hq : q = imp
    · rw [hq, modifyImp_self, hlife]
      exact le_refl _
    · rw [modifyImp_of_ne h imp q _ hq]
      exact le_refl _
  | counted imp =>
    have hlife := hl.life_of_counted ((flag_eq_one rfl).symm.trans_le (hco imp))
    have hshare : heartShare k (beginImp h imp) q ≤ heartShare k h q := heartShare_beginImp_le
    show heartShare k (beginImp h imp) q + atReady q (some (.ready imp)) + _
      ≤ _ + flag false + k.bound ((beginImp h imp).imps q).life
    by_cases hq : q = imp
    · subst hq
      rw [hlife, show ((beginImp h q).imps q).life = .summoned from congrArg _ (modifyImp_self ..)]
      show _ + flag _ + 0 ≤ _ + flag false + 1
      rw [flag_eq_one rfl, flag_false]
      omega
    · have hready : atReady q (some (.ready imp)) = 0 := flag_eq_zero (by simpa using Ne.symm hq)
      rw [hready, show ((beginImp h imp).imps q).life = _ from
        congrArg _ (modifyImp_of_ne h imp q _ hq), flag_false]
      omega
  | ready imp =>
    have hle := heartShare_impRun_le k h imp q
    show heartShare k (impRun h imp) q + flag false + _ ≤ _ + flag _ + _
    rw [flag_false]
    simp only [Option.some.injEq, SummonPc.ready.injEq]
    exact Int.add_le_add_right (by omega) _

/-- A step of `imp_summon` lowers no flag: the imp it writes to was not begun. -/
theorem summonStep_flagUp_le (hl : Ledger h created counted dismissing due) {pc : SummonPc}
    (hco : ∀ q, atCounted q (some pc) ≤ counted q)
    (hdown : (h.imps q).life = .unborn ∨ (h.imps q).life = .counted → flagUp h q = 0) :
    flagUp h q ≤ flagUp (summonStep h pc).1 q := by
  cases pc with
  | checked ok =>
    cases ok with
    | false => exact le_refl _
    | true =>
      by_cases hq : q = h.nextId
      · rw [hdown (.inl (hl.fresh q hq.ge))]
        exact flagUp_nonneg
      · have hsame : (summonStep h (.checked true)).1.imps q = h.imps q :=
          Function.update_of_ne hq _ _
        unfold flagUp
        rw [hsame]
  | created imp =>
    have hsame : flagUp (h.modifyImp imp fun i => { i with life := .counted }) q = flagUp h q :=
      flagUp_modifyImp fun _ => rfl
    exact hsame.ge
  | counted imp =>
    have hlife := hl.life_of_counted ((flag_eq_one rfl).symm.trans_le (hco imp))
    by_cases hq : q = imp
    · rw [hdown (.inr (hq ▸ hlife))]
      exact flagUp_nonneg
    · have hsame : (beginImp h imp).imps q = h.imps q := modifyImp_of_ne h imp q _ hq
      show _ ≤ flagUp (beginImp h imp) q
      unfold flagUp
      rw [hsame]
  | ready imp => exact le_refl _

/-- A step of the epoll thread makes no token. -/
theorem EpollerMove.tokens_le {pc pc' : EpollerPc} (hm : EpollerMove h pc h' pc') :
    heartShare k h' q + pc'.share q ≤ heartShare k h q + pc.share q := by
  have hnext : ∀ batch : List ImpId, (nextEntry batch).share q = 0 := by
    intro batch
    cases batch <;> rfl
  cases hm with
  | @wait h' batch hb =>
    obtain ⟨epoll, rfl⟩ := hb.frame
    rw [hnext]
    exact le_refl _
  | @cancel imp rest =>
    have hsame : heartShare k (impCancelTimer h imp) q = heartShare k h q :=
      heartShare_modifyImp fun _ => rfl
    rw [hsame]
    exact le_refl _
  | @wake imp rest hw =>
    -- the flag's token goes to the epoll thread
    have hup : flagUp h imp = 1 := flagUp_eq_one hw
    rw [heartShare_setWaitio]
    show _ + flag (some imp = some q) ≤ _ + flag (none = some q)
    split
    next heq => rw [heq, hup, flag_eq_one rfl, flag_eq_zero (by simp), flag_false]; omega
    next heq => rw [flag_eq_zero fun he => heq (Option.some.inj he).symm,
        flag_eq_zero (by simp), sub_add_cancel]
  | awake => exact le_refl _
  | uncount => exact le_refl _
  | @run imp rest =>
    have hle := heartShare_impRun_le k h imp q
    show heartShare k (impRun h imp) q + flag (none = some q) ≤ _ + flag (some imp = some q)
    simp only [reduceCtorEq, Option.some.injEq, decide_false, flag_false]
    omega
  | @log imp rest =>
    rw [hnext]
    exact le_refl _

/-- A step of the maintainer that frees no freed imp makes no token. -/
theorem MaintainerMove.tokens_le {pc pc' : MaintainerPc} {closing : Closing}
    (hm : MaintainerMove h pc closing h' pc')
    (hlive : ∀ imp ∈ pc.touches, (h.imps imp).life = .summoned) :
    heartShare k h' q + pc'.share k q + k.bound (h.imps q).life
      ≤ heartShare k h q + pc.share k q + k.bound (h'.imps q).life := by
  unfold MaintainerPc.share
  cases hm with
  | idle h₀ h₁ =>
    rcases h₀ with rfl | rfl | rfl | rfl <;> rcases h₁ with rfl | rfl | rfl | rfl | rfl <;>
      exact le_refl _
  | @take imp rest _ hq =>
    have hcount := count_queueDequeueNb hq q
    have hshare : heartShare k (beginDismiss { h with terminatedQueue := rest } imp) q
        = heartShare k { h with terminatedQueue := rest } q := heartShare_modifyImp fun _ => rfl
    rw [hshare, beginDismiss_life]
    show _ + _ * (rest.toList.count q : ℤ) + flagUp h q + _ * flag (some imp = some q) + _
      ≤ _ + _ * (h.terminatedQueue.toList.count q : ℤ) + flagUp h q + _ * flag (none = some q) + _
    rw [hcount, mul_add]
    simp only [reduceCtorEq, Option.some.injEq, decide_false, flag_false, mul_zero]
    omega
  | delete => exact le_refl _
  | @drop imp =>
    have hsame : heartShare k (emptyRequests h imp) q = heartShare k h q :=
      heartShare_modifyImp fun _ => rfl
    rw [hsame, emptyRequests_life]
    exact le_refl _
  | @body imp =>
    have hsame : heartShare k (impBodyDelete h imp) q = heartShare k h q := by
      unfold heartShare
      rw [flagUp_impBodyDelete]
      rfl
    rw [hsame, impBodyDelete_life]
    exact le_refl _
  | @free imp =>
    have hsame : heartShare k (freeImp h imp) q = heartShare k h q :=
      heartShare_modifyImp fun _ => rfl
    rw [hsame]
    by_cases hq : q = imp
    · subst hq
      rw [hlive q rfl, show ((freeImp h q).imps q).life = .freed from
        congrArg _ (modifyImp_self ..)]
      show _ + k.terminated * flag (none = some q) + 1
        ≤ _ + k.terminated * flag (some q = some q) + (1 - k.terminated)
      rw [flag_eq_one rfl, flag_eq_zero (by simp)]
      omega
    · rw [show ((freeImp h imp).imps q).life = _ from congrArg _ (modifyImp_of_ne h imp q _ hq)]
      have hne : ¬ some imp = some q := fun he => hq (Option.some.inj he).symm
      show _ + k.terminated * flag (none = some q) + _
        ≤ _ + k.terminated * flag (some imp = some q) + _
      rw [flag_eq_zero (by simp), flag_eq_zero hne]
  | uncount => exact le_refl _

/-- The maintainer touches no flag. -/
theorem MaintainerMove.flagUp_eq {pc pc' : MaintainerPc} {closing : Closing}
    (hm : MaintainerMove h pc closing h' pc') : flagUp h' q = flagUp h q := by
  cases hm with
  | take => exact flagUp_modifyImp fun _ => rfl
  | drop => exact flagUp_modifyImp fun _ => rfl
  | body => exact flagUp_impBodyDelete
  | free => exact flagUp_modifyImp fun _ => rfl
  | idle | delete | uncount => rfl

theorem EnvMove.flagUp_eq {act : EnvAct} (hm : EnvMove h act h') : flagUp h' q = flagUp h q := by
  cases hm with
  | expire => exact flagUp_modifyImp fun _ => rfl
  | post => exact flagUp_modifyImp fun _ => rfl
  | kill => exact flagUp_modifyImp fun _ => rfl
  | scribble => rfl

theorem EnvMove.tokens_eq {act : EnvAct} (hm : EnvMove h act h') :
    heartShare k h' q = heartShare k h q := by
  cases hm with
  | expire | post | kill =>
    dsimp only [impKill]
    rw [heartShare_modifyImp]
    exact fun _ => rfl
  | @scribble word =>
    show _ + _ + flagUp h q = _ + _ + flagUp h q
    rw [Queue.toList_scribble]

end Steps

/-! ## What a held imp excludes -/

section Sums

variable {k : Shares} {strict : Bool} {s : Sys W R} {imp : ImpId}

theorem tokens_worker (shared : Shared) (w : Fin W) (pc : WorkerPc) :
    tokens k { s with shared := shared, worker := Function.update s.worker w pc } imp
      = tokens k s imp - heartShare k s.heart imp - (s.worker w).share k imp
        + heartShare k shared.heart imp + pc.share k imp := by
  unfold tokens
  dsimp only [Sys.heart]
  rw [tally_update (Finset.mem_univ w)]
  omega

theorem publishers_worker (shared : Shared) (w : Fin W) (pc : WorkerPc) :
    publishers strict { s with shared := shared, worker := Function.update s.worker w pc } imp
      = publishers strict s imp - flag ((s.worker w).published strict = some imp)
        + flag (pc.published strict = some imp) := by
  unfold publishers
  dsimp only
  rw [tally_update (Finset.mem_univ w)]

theorem tokens_initer (shared : Shared) (r : Fin R) (pc : Option SummonPc) :
    tokens k { s with shared := shared, initer := Function.update s.initer r pc } imp
      = tokens k s imp - heartShare k s.heart imp - atReady imp (s.initer r)
        + heartShare k shared.heart imp + atReady imp pc := by
  unfold tokens
  dsimp only [Sys.heart]
  rw [tally_update (Finset.mem_univ r)]
  omega

theorem tokens_epoller (shared : Shared) (pc : EpollerPc) :
    tokens k { s with shared := shared, epoller := pc } imp
      = tokens k s imp - heartShare k s.heart imp - s.epoller.share imp
        + heartShare k shared.heart imp + pc.share imp := by
  unfold tokens
  dsimp only [Sys.heart]
  omega

theorem tokens_maintainer (shared : Shared) (pc : MaintainerPc) :
    tokens k { s with shared := shared, maintainer := pc } imp
      = tokens k s imp - heartShare k s.heart imp - s.maintainer.share k imp
        + heartShare k shared.heart imp + pc.share k imp := by
  unfold tokens
  dsimp only [Sys.heart]
  omega

/-- The tokens of everybody are at least those of the heart and of one worker. -/
theorem worker_le_tokens (k : Shares) (s : Sys W R) (imp : ImpId) (w : Fin W) :
    heartShare k s.heart imp + (s.worker w).share k imp ≤ tokens k s imp := by
  have hw : (s.worker w).share k imp ≤ _ :=
    single_le_tally (g := s.worker) (WorkerPc.share_nonneg (k := k) imp) (Finset.mem_univ w)
  have hr : 0 ≤ tally Finset.univ (atReady imp) s.initer := tally_nonneg (atReady_nonneg imp)
  have he := s.epoller.share_nonneg imp
  have hm := s.maintainer.share_nonneg (k := k) imp
  unfold tokens
  omega

/-- The tokens of everybody are at least those of the heart, of the epoll thread and of
the maintainer. -/
theorem others_le_tokens (k : Shares) (s : Sys W R) (imp : ImpId) :
    heartShare k s.heart imp + s.epoller.share imp + s.maintainer.share k imp
      ≤ tokens k s imp := by
  have hw : 0 ≤ tally Finset.univ (WorkerPc.share k imp) s.worker :=
    tally_nonneg (WorkerPc.share_nonneg imp)
  have hr : 0 ≤ tally Finset.univ (atReady imp) s.initer := tally_nonneg (atReady_nonneg imp)
  unfold tokens
  omega

/-- The tokens of everybody are at least those of the heart and of one outside summoner. -/
theorem initer_le_tokens (k : Shares) (s : Sys W R) (imp : ImpId) (r : Fin R) :
    heartShare k s.heart imp + atReady imp (s.initer r) ≤ tokens k s imp := by
  have hw : 0 ≤ tally Finset.univ (WorkerPc.share k imp) s.worker :=
    tally_nonneg (WorkerPc.share_nonneg imp)
  have hr : atReady imp (s.initer r) ≤ _ :=
    single_le_tally (g := s.initer) (atReady_nonneg imp) (Finset.mem_univ r)
  have he := s.epoller.share_nonneg imp
  have hm := s.maintainer.share_nonneg (k := k) imp
  unfold tokens
  omega

theorem heartShare_le_tokens : heartShare k s.heart imp ≤ tokens k s imp := by
  have hle := others_le_tokens k s imp
  have he := s.epoller.share_nonneg imp
  have hm := s.maintainer.share_nonneg (k := k) imp
  omega

/-- A worker's token of an imp comes on top of those in the queues and the flag. -/
theorem token_of_unpublished {w : Fin W} (hw : (s.worker w).unpublished = some imp) :
    heartShare k s.heart imp + 1 ≤ tokens k s imp := by
  have hle := worker_le_tokens k s imp w
  have hone := WorkerPc.one_le_share_of_unpublished k hw
  omega

theorem token_of_ready {w : Fin W} (hw : (s.worker w).summoning = some (.ready imp)) :
    heartShare k s.heart imp + 1 ≤ tokens k s imp := by
  have hle := worker_le_tokens k s imp w
  have hone := WorkerPc.one_le_share_of_ready k hw
  omega

theorem token_of_initer {r : Fin R} (hr : s.initer r = some (.ready imp)) :
    heartShare k s.heart imp + 1 ≤ tokens k s imp := by
  have hle := initer_le_tokens k s imp r
  have hone : atReady imp (s.initer r) = 1 := flag_eq_one hr
  omega

theorem token_of_wakes (he : s.epoller.wakes = some imp) :
    heartShare k s.heart imp + 1 ≤ tokens k s imp := by
  have hle := others_le_tokens k s imp
  have hone : s.epoller.share imp = 1 := flag_eq_one he
  have hm := s.maintainer.share_nonneg (k := k) imp
  omega

theorem token_of_dismissed (hm : s.maintainer.touches = some imp) :
    heartShare .custody s.heart imp + 1 ≤ tokens .custody s imp := by
  have hle := others_le_tokens .custody s imp
  have he := s.epoller.share_nonneg imp
  have hone := MaintainerPc.share_custody hm
  omega

theorem publisher_le (strict : Bool) (s : Sys W R) (imp : ImpId) (w : Fin W) :
    flag ((s.worker w).published strict = some imp) ≤ publishers strict s imp :=
  single_le_tally (f := fun pc : WorkerPc => flag (pc.published strict = some imp)) (g := s.worker)
    (fun _ => flag_nonneg _) (Finset.mem_univ w)

end Sums

namespace Held

variable {k : Shares} {strict : Bool} {s s' : Sys W R} {imp : ImpId} {a : Act W R} {debug : Bool}

theorem bound_le_one (k : Shares) (life : Life) : k.bound life ≤ 1 := by
  have h := k.terminated_nonneg
  cases life <;> simp [Shares.bound, h]

/-- A worker past its first `waitio = TRUE` on an imp finds the flag up. -/
theorem flag_of_published (hh : Held k strict s) {w : Fin W}
    (hp : (s.worker w).published strict = some imp) : (s.heart.imps imp).waitio = some true := by
  have hle := hh.publishers_le imp
  have hw := publisher_le strict s imp w
  rw [flag_eq_one hp] at hw
  exact of_flag_pos (by unfold flagUp at hle; omega)

/-- A worker that has an imp's token finds the flag down. -/
theorem flag_of_unpublished (hh : Held k strict s) {w : Fin W}
    (hp : (s.worker w).unpublished = some imp) : (s.heart.imps imp).waitio ≠ some true := by
  intro hup
  have hle := hh.tokens_le imp
  have hb := bound_le_one k (s.heart.imps imp).life
  have htok := token_of_unpublished (k := k) hp
  have hflag : flagUp s.heart imp ≤ heartShare k s.heart imp := flagUp_le_heartShare
  rw [flagUp_eq_one hup] at hflag
  omega

/-- A worker that has an imp's token is the only one who has one. -/
theorem alone_of_unpublished (hh : Held k strict s) {w : Fin W}
    (hp : (s.worker w).unpublished = some imp) :
    heartShare k s.heart imp = 0 ∧ (∀ v, v ≠ w → (s.worker v).share k imp = 0) ∧
      (∀ r, atReady imp (s.initer r) = 0) ∧ s.epoller.share imp = 0 ∧
      s.maintainer.share k imp = 0 := by
  have htok := (hh.tokens_le imp).trans (bound_le_one k _)
  have hone := WorkerPc.one_le_share_of_unpublished k hp
  -- the shares of the five places add up to one at most, and the workers have that one
  have hheart : 0 ≤ heartShare k s.heart imp := heartShare_nonneg
  have hworkers : (s.worker w).share k imp ≤ _ :=
    single_le_tally (g := s.worker) (WorkerPc.share_nonneg (k := k) imp) (Finset.mem_univ w)
  have hiniters : 0 ≤ tally Finset.univ (atReady imp) s.initer := tally_nonneg (atReady_nonneg imp)
  have hepoller := s.epoller.share_nonneg imp
  have hmaintainer := s.maintainer.share_nonneg (k := k) imp
  unfold tokens at htok
  refine ⟨by omega, fun v hv => ?_, fun r => ?_, by omega, by omega⟩
  · have hpair : (s.worker w).share k imp + (s.worker v).share k imp ≤ _ :=
      pair_le_tally (g := s.worker) (WorkerPc.share_nonneg (k := k) imp)
        (Finset.mem_univ w) (Finset.mem_univ v) hv.symm
    have hnonneg := WorkerPc.share_nonneg (k := k) imp (s.worker v)
    omega
  · have hle : atReady imp (s.initer r) ≤ _ :=
      single_le_tally (g := s.initer) (atReady_nonneg imp) (Finset.mem_univ r)
    have hnonneg := atReady_nonneg imp (s.initer r)
    omega

/-- Nobody has a token of an imp that was not begun. -/
theorem flag_of_unborn (hh : Held k strict s)
    (hl : (s.heart.imps imp).life = .unborn ∨ (s.heart.imps imp).life = .counted) :
    flagUp s.heart imp = 0 := by
  have hle := heartShare_le_tokens.trans (hh.tokens_le imp)
  have hbound : k.bound (s.heart.imps imp).life = 0 := by
    rcases hl with hl | hl <;> rw [hl] <;> rfl
  have hflag : flagUp s.heart imp ≤ heartShare k s.heart imp := flagUp_le_heartShare
  have hnonneg : 0 ≤ flagUp s.heart imp := flagUp_nonneg
  omega

/-- A step of a worker. -/
theorem worker_move (hb : Books s) (hh : Held k strict s) {w : Fin W} {act : WorkerAct}
    {shared : Shared} {pc : WorkerPc}
    (hm : WorkerMove s.heart (s.worker w) act shared.heart pc) :
    Held k strict { s with shared := shared, worker := Function.update s.worker w pc } := by
  obtain ⟨hcr, hco⟩ := births_worker s w
  cases hsum : (s.worker w).summoning with
  | none =>
    have hr := hm.routine hsum
    constructor
    · intro q
      have hstep := hm.tokens_le (k := k) (q := q) hsum fun _ hp => hh.flag_of_published hp
      have hold := hh.tokens_le q
      rw [tokens_worker]
      show _ ≤ k.bound (shared.heart.imps q).life
      rw [hr.life q]
      omega
    · intro q
      have hstep := hm.published_le strict (q := q) hsum
        fun _ hp => hh.flag_of_unpublished hp
      have hold := hh.publishers_le q
      rw [publishers_worker]
      show _ ≤ flagUp shared.heart q
      omega
  | some spc =>
    obtain ⟨imp, hpc, hheart, rfl⟩ := hm.of_nested hsum
    rw [hpc] at hcr hco
    constructor
    · intro q
      have hstep := summonStep_tokens_le (k := k) (q := q) hb.ledger hcr hco
      have hold := hh.tokens_le q
      rw [tokens_worker, hpc, hheart]
      show _ ≤ k.bound (shared.heart.imps q).life
      rw [hheart]
      rw [share_soul, share_soul]
      omega
    · intro q
      have hstep := summonStep_flagUp_le (q := q) hb.ledger hco hh.flag_of_unborn
      have hold := hh.publishers_le q
      rw [publishers_worker, hpc]
      show _ ≤ flagUp shared.heart q
      rw [hheart]
      simp only [WorkerPc.published, reduceCtorEq, decide_false, flag_false]
      omega

/-- A step of an outside summoner. -/
theorem initer_move (hb : Books s) (hh : Held k strict s) {r : Fin R} {pc : SummonPc}
    (hpc : s.initer r = some pc) :
    Held k strict { s with
      shared := { s.shared with heart := (summonStep s.heart pc).1 }
      initer := Function.update s.initer r (summonStep s.heart pc).2 } := by
  obtain ⟨hcr, hco⟩ := births_initer hpc
  constructor
  · intro q
    have hstep := summonStep_tokens_le (k := k) (q := q) hb.ledger hcr hco
    have hold := hh.tokens_le q
    rw [tokens_initer, hpc]
    show _ ≤ k.bound ((summonStep s.heart pc).1.imps q).life
    dsimp only
    omega
  · intro q
    exact (hh.publishers_le q).trans (summonStep_flagUp_le hb.ledger hco hh.flag_of_unborn)

/-- A step of the epoll thread. The compare-and-swap is the one step that can lower a
flag under a publisher. -/
theorem epoller_move (hh : Held k strict s) {fds : List Fd} {h' : Heart} {pc : EpollerPc}
    (hok : WakeOk strict s (.epoller fds)) (hm : EpollerMove s.heart s.epoller h' pc) :
    Held k strict { s with shared := { s.shared with heart := h' }, epoller := pc } := by
  have hr := hm.routine
  constructor
  · intro q
    have hstep := hm.tokens_le (k := k) (q := q)
    have hold := hh.tokens_le q
    rw [tokens_epoller]
    show _ ≤ k.bound (h'.imps q).life
    rw [hr.life q]
    dsimp only
    omega
  · intro q
    have hold := hh.publishers_le q
    show publishers strict s q ≤ flagUp h' q
    unfold WakeOk at hok
    generalize s.epoller = pc₀ at hm hok
    cases hm with
    | wait hb =>
      obtain ⟨epoll, rfl⟩ := hb.frame
      exact hold
    | cancel =>
      dsimp only [impCancelTimer]
      rw [flagUp_modifyImp]
      · exact hold
      · exact fun _ => rfl
    | @wake imp rest hw =>
      rw [flagUp_setWaitio]
      split
      next heq =>
        subst heq
        have hnone : publishers strict s q = 0 := by
          refine tally_eq_zero fun w _ => flag_eq_zero ?_
          exact hok hw w
        rw [hnone, flag_false]
      next => exact hold
    | awake | uncount | run | log => exact hold

/-- A step of the maintainer. -/
theorem maintainer_move (hb : Books s) (hh : Held k strict s) {closing : Closing} {shared : Shared}
    {pc : MaintainerPc} (hlive : ∀ imp ∈ s.maintainer.touches, (s.heart.imps imp).life ≠ .freed)
    (hm : MaintainerMove s.heart s.maintainer closing shared.heart pc) :
    Held k strict { s with shared := shared, maintainer := pc } := by
  have hsummoned : ∀ imp ∈ s.maintainer.touches, (s.heart.imps imp).life = .summoned :=
    fun imp hi => (hb.maintainer imp hi).resolve_right (hlive imp hi)
  constructor
  · intro q
    have hstep := hm.tokens_le (k := k) (q := q) hsummoned
    have hold := hh.tokens_le q
    rw [tokens_maintainer]
    show _ ≤ k.bound (shared.heart.imps q).life
    omega
  · intro q
    show publishers strict s q ≤ flagUp shared.heart q
    rw [hm.flagUp_eq]
    exact hh.publishers_le q

/-- Every move keeps the tokens, if it touches no freed imp and meets the condition. -/
theorem move (hb : Books s) (hh : Held k strict s) (hlive : s.useAfterFree debug a = false)
    (hok : WakeOk strict s a) (hm : s.Move a s') : Held k strict s' := by
  cases hm with
  | worker hm => exact hh.worker_move hb hm
  | initer hpc => exact hh.initer_move hb hpc
  | @initerCheck r ok hpc =>
    refine ⟨fun q => ?_, hh.publishers_le⟩
    have hnew : atReady q (summonCheck s.heart ok) = 0 := atReady_summonCheck q s.heart ok
    have hold := hh.tokens_le q
    rw [tokens_initer s.shared r, hpc, hnew]
    show _ + heartShare k s.heart q + _ ≤ k.bound (s.heart.imps q).life
    have hnone : atReady q none = 0 := rfl
    omega
  | epoller hm => exact hh.epoller_move hok hm
  | maintainer hm =>
    refine hh.maintainer_move hb (fun imp hi hf => ?_) hm
    exact (useAfterFree_eq_false.mp hlive).1 imp hi hf
  | @destroyer shared _ hheart =>
    constructor
    · intro q
      show heartShare k shared.heart q + _ + _ + _ + _ ≤ k.bound (shared.heart.imps q).life
      rw [hheart]
      exact hh.tokens_le q
    · intro q
      show _ ≤ flagUp shared.heart q
      rw [hheart]
      exact hh.publishers_le q
  | @env act h' hm =>
    constructor
    · intro q
      show heartShare k h' q + _ + _ + _ + _ ≤ k.bound (h'.imps q).life
      rw [hm.tokens_eq, hm.routine.life]
      exact hh.tokens_le q
    · intro q
      show _ ≤ flagUp h' q
      rw [hm.flagUp_eq]
      exact hh.publishers_le q

theorem boot {h : Heart} (hi : h.Initial) : Held k strict (Sys.boot W R h) := by
  obtain ⟨nrImpMax, hmax, run, runBelow, term, termBelow, -, rfl⟩ := hi
  have hw : ∀ q, tally Finset.univ (WorkerPc.share k q) (fun _ : Fin W => WorkerPc.idle) = 0 :=
    fun q => tally_eq_zero fun _ _ => by simp [WorkerPc.share, WorkerPc.unpublished,
      WorkerPc.summoning, atReady]
  have hr : ∀ q, tally Finset.univ (atReady q) (fun _ : Fin R => none) = 0 :=
    fun q => tally_eq_zero fun _ _ => rfl
  constructor
  · intro q
    show ((0 : ℕ) : ℤ) + _ * ((0 : ℕ) : ℤ) + 0 + tally _ _ (fun _ : Fin W => WorkerPc.idle)
      + tally _ _ (fun _ : Fin R => none) + 0 + k.terminated * 0 ≤ 0
    rw [hw, hr]
    simp
  · intro q
    have hp :
        publishers strict (Sys.boot W R (dungeonInit hmax run runBelow term termBelow)) q = 0 :=
      tally_eq_zero fun _ _ => rfl
    rw [hp]
    exact flagUp_nonneg

end Held

/-! ## Custody -/

section Custody

variable {strict : Bool} {s : Sys W R} {imp : ImpId}

/-- Whoever has a token of an imp has it of a summoned one. -/
theorem Held.summoned_of_pos (hh : Held .custody strict s) (hpos : 1 ≤ tokens .custody s imp) :
    (s.heart.imps imp).life = .summoned := by
  have hle := hpos.trans (hh.tokens_le imp)
  generalize (s.heart.imps imp).life = life at hle
  cases life <;> first | rfl | exact absurd hle (by decide)

/-- A worker that has an imp's token works on a summoned imp. -/
theorem Held.summoned_of_unpublished (hh : Held .custody strict s) {w : Fin W}
    (hp : (s.worker w).unpublished = some imp) : (s.heart.imps imp).life = .summoned := by
  refine hh.summoned_of_pos ?_
  have htok := token_of_unpublished (k := .custody) hp
  have hshare : 0 ≤ heartShare .custody s.heart imp := heartShare_nonneg
  omega

/-- A raised flag belongs to a summoned imp. -/
theorem Held.summoned_of_flag (hh : Held .custody strict s)
    (hw : (s.heart.imps imp).waitio = some true) : (s.heart.imps imp).life = .summoned := by
  refine hh.summoned_of_pos ?_
  have hle : heartShare .custody s.heart imp ≤ _ := heartShare_le_tokens
  have hflag : flagUp s.heart imp ≤ heartShare .custody s.heart imp := flagUp_le_heartShare
  rw [flagUp_eq_one hw] at hflag
  omega

/-- The imp the maintainer is dismissing is not asleep. -/
theorem Held.flag_of_dismissed (hh : Held .custody strict s) (hi : imp ∈ s.maintainer.touches) :
    (s.heart.imps imp).waitio ≠ some true := by
  intro hw
  have hle := (token_of_dismissed hi).trans (hh.tokens_le imp)
  have hbound := Held.bound_le_one .custody (s.heart.imps imp).life
  have hflag : flagUp s.heart imp ≤ heartShare .custody s.heart imp := flagUp_le_heartShare
  rw [flagUp_eq_one hw] at hflag
  omega

/-- Nor is it in the hands of a worker. -/
theorem Held.not_dismissed_of_unpublished (hh : Held .custody strict s) {w : Fin W}
    (hp : (s.worker w).unpublished = some imp) : s.maintainer.touches ≠ some imp := by
  intro hm
  obtain ⟨-, -, -, -, hzero⟩ := hh.alone_of_unpublished hp
  have hone := MaintainerPc.share_custody hm
  omega

end Custody

/-- **Tokens.** In every run whose wake-ups meet the condition, no imp has two tokens. -/
theorem held_reach {k : Shares} {strict debug : Bool} {s : Sys W R}
    (hr : (dungeon debug).Reach (WakeOk strict) s) : Held k strict s := by
  refine hr.invariant ?_ ?_
  · rintro s ⟨h, hi, rfl⟩
    exact Held.boot hi
  · intro s a s' hreach hh hok hs
    obtain ⟨-, ⟨-, rfl⟩ | ⟨hlive, hm⟩⟩ := step_move hs
    · exact ⟨hh.tokens_le, hh.publishers_le⟩
    · exact hh.move (books_reach hreach) hlive hok (move_move hm)

end Dungeon

import Dungeon.Lib.Tally
import Dungeon.Moves

/-!
# The ledger: births, deaths and counters

Facts about births and deaths that no race can break.

- `Ledger`: the counters and the life of every imp agree, given how many summoners
  are where and what the maintainer is doing.
- `Routine`: a change of the heart with no birth and no death. Almost every step is
  one, and a routine change keeps the ledger.
- `Ledger.summonStep`, `Ledger.beginDismiss`, `Ledger.freeImp`, `Ledger.uncountImp`: the
  changes that are not.
-/

namespace Dungeon

open Tally

variable {W R : ℕ}

/-- The imp was summoned, and may have been freed since. -/
def Heart.Known (h : Heart) (imp : ImpId) : Prop :=
  (h.imps imp).life = .summoned ∨ (h.imps imp).life = .freed

/-- Whether `nr_total` counts an imp. -/
def Life.isCounted : Life → Bool
  | .counted => true
  | .summoned => true
  | _ => false

/-- What the `data` of a registration can be: a body's descriptors only ever carry
their own imp, or nothing. -/
def Fd.Carries : Fd → ImpId → Prop
  | .timerFd imp, data => data = 0 ∨ data = imp
  | .eventFd imp, data => data = 0 ∨ data = imp
  | .user _, _ => True

/-- The counters and the lives agree. `created imp` and `counted imp` are the numbers of
summoners about to count `imp` and to begin it; `dismissing imp` is 1 while the
maintainer dismisses `imp`; `due` is 1 between `free` and `nr_total--`. -/
structure Ledger (h : Heart) (created counted dismissing : ImpId → ℤ) (due : ℤ) : Prop where
  null : (h.imps 0).life = .unborn
  next_pos : 0 < h.nextId
  fresh : ∀ imp, h.nextId ≤ imp → (h.imps imp).life = .unborn
  max_lt : h.nrMax < 2 ^ 31
  run_max : h.runQueue.max = h.nrMax
  term_max : h.terminatedQueue.max = h.nrMax
  created_eq : ∀ imp, created imp = flag ((h.imps imp).life = .created)
  counted_eq : ∀ imp, counted imp = flag ((h.imps imp).life = .counted)
  dismissals_eq : ∀ imp,
    ((h.imps imp).dismissals : ℤ) = flag ((h.imps imp).life = .freed) + dismissing imp
  total_eq : h.nrTotal
    = tally (Finset.range h.nextId) (fun i => flag i.life.isCounted) h.imps + due

/-! ## Routine changes -/

/-- A change of the heart in which no imp is born, counted, begun, dismissed or freed,
and only the imps in `ps` get into queues or registrations. -/
structure Routine (ps : List ImpId) (h h' : Heart) : Prop where
  nrTotal : h'.nrTotal = h.nrTotal
  nrMax : h'.nrMax = h.nrMax
  nextId : h'.nextId = h.nextId
  life : ∀ imp, (h'.imps imp).life = (h.imps imp).life
  dismissals : ∀ imp, (h'.imps imp).dismissals = (h.imps imp).dismissals
  run_max : h'.runQueue.max = h.runQueue.max
  term_max : h'.terminatedQueue.max = h.terminatedQueue.max
  run : ∀ imp ∈ h'.runQueue.toList, imp ∈ h.runQueue.toList ∨ imp ∈ ps
  term : ∀ imp ∈ h'.terminatedQueue.toList, imp ∈ h.terminatedQueue.toList ∨ imp ∈ ps
  epoll : ∀ fd reg, h'.epoll fd = some reg →
    (∃ armed, h.epoll fd = some { reg with armed := armed } ∧ (reg.armed = true → armed = true)) ∨
      (reg.data ∈ ps ∧ fd.Carries reg.data)

namespace Routine

variable {ps : List ImpId} {h h' : Heart}

theorem refl : Routine ps h h where
  nrTotal := rfl
  nrMax := rfl
  nextId := rfl
  life _ := rfl
  dismissals _ := rfl
  run_max := rfl
  term_max := rfl
  run _ hmem := .inl hmem
  term _ hmem := .inl hmem
  epoll _ reg hreg := .inl ⟨reg.armed, hreg, id⟩

/-- Overwriting fields of an imp other than its life and its dismissals is routine. -/
theorem modifyImp {imp : ImpId} {f : Imp → Imp} (hlife : ∀ i, (f i).life = i.life)
    (hdis : ∀ i, (f i).dismissals = i.dismissals) : Routine ps h (h.modifyImp imp f) :=
  { refl with
    life := fun q => modifyImp_field h imp q f Imp.life hlife
    dismissals := fun q => modifyImp_field h imp q f Imp.dismissals hdis }

theorem nrWaitio (n : ℤ) : Routine ps h { h with nrWaitio := n } := { refl with }

theorem impRun {imp : ImpId} (hmem : imp ∈ ps) : Routine ps h (impRun h imp) :=
  { refl with
    run_max := (h.runQueue.queueEnqueueUniqNb_bound imp).1
    run q hq := by
      obtain ⟨-, -, heq | heq⟩ := h.runQueue.queueEnqueueUniqNb_bound imp
      · exact .inl (heq ▸ hq)
      · have hq : q ∈ h.runQueue.toList ++ [imp] := heq ▸ hq
        rcases List.mem_append.mp hq with hq | hq
        · exact .inl hq
        · exact .inr (List.mem_singleton.mp hq ▸ hmem) }

theorem impTerm {imp : ImpId} (hmem : imp ∈ ps) : Routine ps h (impTerm h imp) :=
  { refl with
    term_max := (h.terminatedQueue.queueEnqueueNb_bound imp).1
    term q hq := by
      obtain ⟨-, -, heq | heq⟩ := h.terminatedQueue.queueEnqueueNb_bound imp
      · exact .inl (heq ▸ hq)
      · have hq : q ∈ h.terminatedQueue.toList ++ [imp] := heq ▸ hq
        rcases List.mem_append.mp hq with hq | hq
        · exact .inl hq
        · exact .inr (List.mem_singleton.mp hq ▸ hmem) }

/-- Taking an element off the run queue. -/
theorem dequeue {imp : ImpId} {q : Queue ImpId}
    (hq : h.runQueue.queueDequeueNb = some (imp, q)) : Routine ps h { h with runQueue := q } := by
  obtain ⟨hlist, hmax, -⟩ := Queue.queueDequeueNb_eq_some hq
  exact { refl with
    run_max := hmax
    run p hp := .inl (hlist ▸ List.mem_cons_of_mem imp hp) }

theorem scribble (word : ImpId) : Routine ps h { h with runQueue := h.runQueue.scribble word } :=
  { refl with
    run_max := Queue.max_scribble word
    run _ hq := .inl ((Queue.toList_scribble word) ▸ hq) }

/-- Forgetting registrations. -/
theorem forget {epoll : Fd → Option Reg} (he : ∀ fd, epoll fd = h.epoll fd ∨ epoll fd = none) :
    Routine ps h { h with epoll := epoll } :=
  { refl with
    epoll fd reg hreg := by
      rcases he fd with heq | heq
      · exact .inl ⟨reg.armed, heq ▸ hreg, id⟩
      · exact absurd (heq.symm.trans hreg) (by simp) }

theorem closeFd (fd : ℕ) : Routine ps h (closeFd h fd) :=
  forget fun fd' => by
    by_cases hfd : fd' = .user fd
    · exact .inr (by rw [hfd, Function.update_self])
    · exact .inl (Function.update_of_ne hfd _ _)

theorem setPollAction {imp : ImpId} (hmem : imp ∈ ps) (job : EpollJob) (ok : Bool) :
    Routine ps h (setPollAction h (job.fd imp) job.events imp ok) := by
  unfold Dungeon.setPollAction
  split
  next =>
    refine { refl with epoll := fun fd reg hreg => ?_ }
    by_cases hfd : fd = job.fd imp
    · subst hfd
      change Function.update h.epoll (job.fd imp) _ (job.fd imp) = some reg at hreg
      rw [Function.update_self] at hreg
      obtain rfl := Option.some.inj hreg
      refine .inr ⟨hmem, ?_⟩
      cases job with
      | timer => exact .inr rfl
      | event => exact .inr rfl
      | user fd events => trivial
    · exact .inl ⟨reg.armed, (Function.update_of_ne hfd _ _).symm.trans hreg, id⟩
  next => exact refl

theorem reported {batch : List ImpId} (hr : Reported h h' batch) : Routine ps h h' := by
  obtain ⟨⟨epoll, rfl⟩, hkept, -⟩ := hr
  exact { refl with epoll := fun fd reg hreg => .inl (hkept fd reg hreg) }

theorem trans {h'' : Heart} (h₁ : Routine ps h h') (h₂ : Routine ps h' h'') :
    Routine ps h h'' where
  nrTotal := h₂.nrTotal.trans h₁.nrTotal
  nrMax := h₂.nrMax.trans h₁.nrMax
  nextId := h₂.nextId.trans h₁.nextId
  life q := (h₂.life q).trans (h₁.life q)
  dismissals q := (h₂.dismissals q).trans (h₁.dismissals q)
  run_max := h₂.run_max.trans h₁.run_max
  term_max := h₂.term_max.trans h₁.term_max
  run q hq := (h₂.run q hq).elim (h₁.run q) .inr
  term q hq := (h₂.term q hq).elim (h₁.term q) .inr
  epoll fd reg hreg := by
    rcases h₂.epoll fd reg hreg with ⟨a, ha, himp⟩ | hnew
    · rcases h₁.epoll fd _ ha with ⟨b, hb, himp'⟩ | hnew
      · exact .inl ⟨b, hb, fun h => himp' (himp h)⟩
      · exact .inr hnew
    · exact .inr hnew

theorem fsmDelete (imp : ImpId) (closing : Closing) : Routine ps h (fsmDelete h imp closing) :=
  forget fun fd => by
    cases fd with
    | user fd =>
      show (if _ then none else h.epoll (.user fd)) = _ ∨ (if _ then none else _) = none
      split
      next => exact .inr rfl
      next => exact .inl rfl
    | _ => exact .inl rfl

theorem impBodyDelete (imp : ImpId) : Routine ps h (impBodyDelete h imp) := by
  have hbody : Routine ps h
      (h.modifyImp imp fun i => { i with body := { i.body with freed := true } }) :=
    modifyImp (fun _ => rfl) fun _ => rfl
  refine hbody.trans (forget fun fd => ?_)
  by_cases ht : fd = .timerFd imp
  · exact .inr (by rw [ht, Function.update_self])
  · by_cases he : fd = .eventFd imp
    · exact .inr (by rw [Function.update_of_ne ht, he, Function.update_self])
    · refine .inl ?_
      rw [Function.update_of_ne ht, Function.update_of_ne he]
      rfl

theorem known (hr : Routine ps h h') {imp : ImpId} (hk : h.Known imp) : h'.Known imp := by
  unfold Heart.Known
  rw [hr.life imp]
  exact hk

/-- A routine change keeps the ledger. -/
theorem ledger (hr : Routine ps h h') {created counted dismissing : ImpId → ℤ} {due : ℤ}
    (hl : Ledger h created counted dismissing due) :
    Ledger h' created counted dismissing due where
  null := (hr.life 0).trans hl.null
  next_pos := hr.nextId.symm ▸ hl.next_pos
  fresh imp himp := (hr.life imp).trans (hl.fresh imp (hr.nextId ▸ himp))
  max_lt := hr.nrMax.symm ▸ hl.max_lt
  run_max := hr.run_max.trans (hl.run_max.trans hr.nrMax.symm)
  term_max := hr.term_max.trans (hl.term_max.trans hr.nrMax.symm)
  created_eq imp := by
    rw [hr.life imp]
    exact hl.created_eq imp
  counted_eq imp := by
    rw [hr.life imp]
    exact hl.counted_eq imp
  dismissals_eq imp := by
    rw [hr.life imp, hr.dismissals imp]
    exact hl.dismissals_eq imp
  total_eq := by
    have hsame : tally (Finset.range h.nextId) (fun i => flag i.life.isCounted) h'.imps
        = tally (Finset.range h.nextId) (fun i => flag i.life.isCounted) h.imps :=
      tally_congr fun imp _ => by rw [hr.life imp]
    rw [hr.nrTotal, hr.nextId, hsame]
    exact hl.total_eq

end Routine

/-! ## Births and deaths -/

/-- The share of a summoner that is about to count `imp`. -/
def atCreated (imp : ImpId) (pc : Option SummonPc) : ℤ := flag (pc = some (.created imp))

/-- The share of a summoner that is about to begin `imp`. -/
def atCounted (imp : ImpId) (pc : Option SummonPc) : ℤ := flag (pc = some (.counted imp))

@[simp] theorem atCreated_summonCheck (imp : ImpId) (h : Heart) (ok : Bool) :
    atCreated imp (summonCheck h ok) = 0 := by
  rcases summonCheck_cases h ok with ⟨-, heq⟩ | ⟨-, heq⟩ <;> simp [heq, atCreated]

@[simp] theorem atCounted_summonCheck (imp : ImpId) (h : Heart) (ok : Bool) :
    atCounted imp (summonCheck h ok) = 0 := by
  rcases summonCheck_cases h ok with ⟨-, heq⟩ | ⟨-, heq⟩ <;> simp [heq, atCounted]

theorem flag_eq_one {p : Prop} [Decidable p] (hp : p) : flag (decide p) = 1 := by
  rw [decide_eq_true hp, flag_true]

theorem flag_eq_zero {p : Prop} [Decidable p] (hp : ¬ p) : flag (decide p) = 0 := by
  rw [decide_eq_false hp, flag_false]

/-- A positive share means that the condition holds. -/
theorem of_flag_pos {p : Prop} [Decidable p] (hp : 0 < flag (decide p)) : p := by
  by_contra hn
  rw [flag_eq_zero hn] at hp
  exact absurd hp (lt_irrefl 0)

namespace Ledger

variable {h : Heart} {created counted dismissing created' counted' dismissing' : ImpId → ℤ}
  {due due' : ℤ} {imp : ImpId}

theorem lt_next (hl : Ledger h created counted dismissing due)
    (hborn : (h.imps imp).life ≠ .unborn) : imp < h.nextId := by
  by_contra hge
  exact hborn (hl.fresh imp (Nat.le_of_not_lt hge))

/-- One imp that exists changes its life, and `nr_total` follows. -/
theorem relife (hl : Ledger h created counted dismissing due) {f : Imp → Imp} {total : ℤ}
    (hborn : (h.imps imp).life ≠ .unborn) (hdis : ∀ i, (f i).dismissals = i.dismissals)
    (hcreated : ∀ q, created' q
      = if q = imp then flag ((f (h.imps imp)).life = .created) else created q)
    (hcounted : ∀ q, counted' q
      = if q = imp then flag ((f (h.imps imp)).life = .counted) else counted q)
    (hdismissing : ∀ q, dismissing' q = if q = imp then dismissing imp
      + flag ((h.imps imp).life = .freed) - flag ((f (h.imps imp)).life = .freed)
      else dismissing q)
    (htotal : total - due' = h.nrTotal - due - flag (h.imps imp).life.isCounted
      + flag (f (h.imps imp)).life.isCounted) :
    Ledger { h.modifyImp imp f with nrTotal := total } created' counted' dismissing' due' where
  null := by
    have hne : (0 : ImpId) ≠ imp := fun heq => hborn (heq ▸ hl.null)
    exact (congrArg Imp.life (modifyImp_of_ne h imp 0 f hne)).trans hl.null
  next_pos := hl.next_pos
  fresh q hq := by
    have hne : q ≠ imp := by
      rintro rfl
      exact hborn (hl.fresh q hq)
    exact (congrArg Imp.life (modifyImp_of_ne h imp q f hne)).trans (hl.fresh q hq)
  max_lt := hl.max_lt
  run_max := hl.run_max
  term_max := hl.term_max
  created_eq q := by
    show created' q = flag (decide (((h.modifyImp imp f).imps q).life = .created))
    rw [hcreated]
    by_cases hq : q = imp
    · rw [if_pos hq, hq, modifyImp_self]
    · rw [if_neg hq, modifyImp_of_ne h imp q f hq, hl.created_eq]
  counted_eq q := by
    show counted' q = flag (decide (((h.modifyImp imp f).imps q).life = .counted))
    rw [hcounted]
    by_cases hq : q = imp
    · rw [if_pos hq, hq, modifyImp_self]
    · rw [if_neg hq, modifyImp_of_ne h imp q f hq, hl.counted_eq]
  dismissals_eq q := by
    show (((h.modifyImp imp f).imps q).dismissals : ℤ)
      = flag (decide (((h.modifyImp imp f).imps q).life = .freed)) + dismissing' q
    rw [hdismissing]
    by_cases hq : q = imp
    · rw [if_pos hq, hq, modifyImp_self, hdis, hl.dismissals_eq]
      omega
    · rw [if_neg hq, modifyImp_of_ne h imp q f hq, hl.dismissals_eq]
  total_eq := by
    show total = tally (Finset.range h.nextId) (fun i => flag i.life.isCounted)
      (Function.update h.imps imp (f (h.imps imp))) + due'
    -- of the sum over all imps only the summand of `imp` changes
    rw [tally_update (Finset.mem_range.mpr (hl.lt_next hborn))]
    have htot := hl.total_eq
    omega

/-- A new imp takes the next serial number. -/
theorem impNew (hl : Ledger h created counted dismissing due)
    (hdis : dismissing h.nextId = 0)
    (hcreated : ∀ q, created' q = if q = h.nextId then 1 else created q) :
    Ledger (impNew h) created' counted dismissing due where
  null := by
    have hne : (0 : ImpId) ≠ h.nextId := Nat.ne_of_lt hl.next_pos
    exact (congrArg Imp.life (Function.update_of_ne hne _ _)).trans hl.null
  next_pos := Nat.succ_pos _
  fresh q hq := by
    have hlt : h.nextId < q := hq
    exact (congrArg Imp.life (Function.update_of_ne hlt.ne' _ _)).trans (hl.fresh q hlt.le)
  max_lt := hl.max_lt
  run_max := hl.run_max
  term_max := hl.term_max
  created_eq q := by
    show created' q = flag (decide ((Function.update h.imps h.nextId _ q).life = .created))
    rw [hcreated]
    by_cases hq : q = h.nextId
    · rw [if_pos hq, hq, Function.update_self]
      rfl
    · rw [if_neg hq, Function.update_of_ne hq, hl.created_eq]
  counted_eq q := by
    show counted q = flag (decide ((Function.update h.imps h.nextId _ q).life = .counted))
    by_cases hq : q = h.nextId
    · rw [hl.counted_eq, hq, Function.update_self, hl.fresh _ (Nat.le_refl _)]
      rfl
    · rw [Function.update_of_ne hq, hl.counted_eq]
  dismissals_eq q := by
    show ((Function.update h.imps h.nextId _ q).dismissals : ℤ)
      = flag (decide ((Function.update h.imps h.nextId _ q).life = .freed)) + dismissing q
    by_cases hq : q = h.nextId
    · rw [hq, Function.update_self, hdis]
      rfl
    · rw [Function.update_of_ne hq, hl.dismissals_eq]
  total_eq := by
    show h.nrTotal = tally (Finset.range (h.nextId + 1)) (fun i => flag i.life.isCounted)
      (Function.update h.imps h.nextId _) + due
    rw [tally_range_succ, tally_update_notMem Finset.notMem_range_self, Function.update_self,
      hl.total_eq]
    -- a new imp is not counted yet
    show _ = _ + flag Life.created.isCounted + due
    rw [show flag Life.created.isCounted = 0 from rfl, add_zero]

/-- A serial number that no imp gets. -/
theorem impNewFailed (hl : Ledger h created counted dismissing due) :
    Ledger (impNewFailed h) created counted dismissing due where
  null := hl.null
  next_pos := Nat.succ_pos _
  fresh q hq := hl.fresh q (Nat.le_of_succ_le hq)
  max_lt := hl.max_lt
  run_max := hl.run_max
  term_max := hl.term_max
  created_eq := hl.created_eq
  counted_eq := hl.counted_eq
  dismissals_eq := hl.dismissals_eq
  total_eq := by
    show h.nrTotal = tally (Finset.range (h.nextId + 1)) (fun i => flag i.life.isCounted) h.imps
      + due
    rw [tally_range_succ, hl.fresh _ (Nat.le_refl _), hl.total_eq]
    show _ = _ + flag Life.unborn.isCounted + due
    rw [show flag Life.unborn.isCounted = 0 from rfl, add_zero]

/-- A call of `imp_dismiss` begins, for an imp taken off the terminated queue. -/
theorem beginDismiss (hl : Ledger h created counted dismissing due) {q : Queue ImpId}
    (hmax : q.max = h.terminatedQueue.max)
    (hdismissing : ∀ p, dismissing' p = if p = imp then dismissing p + 1 else dismissing p) :
    Ledger (beginDismiss { h with terminatedQueue := q } imp) created counted dismissing' due := by
  have hlife : ∀ p, ((Dungeon.beginDismiss { h with terminatedQueue := q } imp).imps p).life
      = (h.imps p).life := fun p =>
    modifyImp_field { h with terminatedQueue := q } imp p
      (fun i => { i with dismissals := i.dismissals + 1 }) Imp.life fun _ => rfl
  refine
    { null := (hlife 0).trans hl.null
      next_pos := hl.next_pos
      fresh := fun p hp => (hlife p).trans (hl.fresh p hp)
      max_lt := hl.max_lt
      run_max := hl.run_max
      term_max := hmax.trans hl.term_max
      created_eq := fun p => by rw [hlife]; exact hl.created_eq p
      counted_eq := fun p => by rw [hlife]; exact hl.counted_eq p
      dismissals_eq := fun p => ?_
      total_eq := ?_ }
  · rw [hlife, hdismissing]
    have hp := hl.dismissals_eq p
    show (((h.modifyImp imp fun i => { i with dismissals := i.dismissals + 1 }).imps p).dismissals
      : ℤ) = _
    by_cases heq : p = imp
    · rw [if_pos heq, ← add_assoc, ← hp, heq, modifyImp_self]
      exact Int.natCast_succ _
    · rw [if_neg heq, ← hp, modifyImp_of_ne h imp p _ heq]
  · have hsame : tally (Finset.range h.nextId) (fun i => flag i.life.isCounted)
        (Dungeon.beginDismiss { h with terminatedQueue := q } imp).imps
        = tally (Finset.range h.nextId) (fun i => flag i.life.isCounted) h.imps :=
      tally_congr fun p _ => by rw [hlife]
    exact hl.total_eq.trans (congrArg (· + due) hsame.symm)

/-- `free` of a live imp: until `nr_total--` the counter is one too high. -/
theorem freeImp (hl : Ledger h created counted dismissing due)
    (hlife : (h.imps imp).life = .summoned)
    (hdismissing : ∀ p, dismissing' p = if p = imp then dismissing p - 1 else dismissing p) :
    Ledger (freeImp h imp) created counted dismissing' (due + 1) := by
  have hcreated : created imp = 0 := by
    rw [hl.created_eq, hlife]
    rfl
  have hcounted : counted imp = 0 := by
    rw [hl.counted_eq, hlife]
    rfl
  have hborn : (h.imps imp).life ≠ .unborn := by
    rw [hlife]
    simp
  show Ledger { h.modifyImp imp fun i => { i with life := .freed } with nrTotal := h.nrTotal }
    _ _ _ _
  refine hl.relife hborn (fun _ => rfl) (fun p => ?_) (fun p => ?_) (fun p => ?_) ?_
  · by_cases hp : p = imp
    · rw [if_pos hp, hp, hcreated]
      rfl
    · rw [if_neg hp]
  · by_cases hp : p = imp
    · rw [if_pos hp, hp, hcounted]
      rfl
    · rw [if_neg hp]
  · rw [hdismissing, hlife]
    by_cases hp : p = imp
    · rw [if_pos hp, if_pos hp, hp]
      show dismissing imp - 1 = dismissing imp + 0 - 1
      omega
    · rw [if_neg hp, if_neg hp]
  · rw [hlife]
    show h.nrTotal - (due + 1) = h.nrTotal - due - 1 + 0
    omega

/-- `nr_total--` for the imp that was freed. -/
theorem uncountImp (hl : Ledger h created counted dismissing (due + 1)) :
    Ledger (uncountImp h) created counted dismissing due := by
  refine { hl with total_eq := ?_ }
  have htot := hl.total_eq
  show h.nrTotal - 1 = tally (Finset.range h.nextId) _ h.imps + due
  omega

/-- A step of `imp_summon` keeps the ledger: the summoner's shares move with it. -/
theorem summonStep (hl : Ledger h created counted dismissing due) {pc : SummonPc}
    (hdis : dismissing h.nextId = 0) (hcr : ∀ q, atCreated q (some pc) ≤ created q)
    (hco : ∀ q, atCounted q (some pc) ≤ counted q) :
    Ledger (summonStep h pc).1
      (fun q => created q - atCreated q (some pc) + atCreated q (summonStep h pc).2)
      (fun q => counted q - atCounted q (some pc) + atCounted q (summonStep h pc).2)
      dismissing due := by
  unfold atCreated atCounted at *
  cases pc with
  | checked ok =>
    cases ok with
    | false => simpa [Dungeon.summonStep] using hl.impNewFailed
    | true =>
      simp only [Dungeon.summonStep, reduceCtorEq, Option.some.injEq, SummonPc.created.injEq,
        decide_false, flag_false, sub_zero, add_zero]
      refine hl.impNew hdis fun q => ?_
      by_cases hq : q = h.nextId
      · rw [if_pos hq, hl.created_eq, hl.fresh q hq.ge, flag_eq_one hq.symm]
        rfl
      · rw [if_neg hq, flag_eq_zero fun heq => hq heq.symm, add_zero]
  | created imp =>
    -- `nr_total++`: the summoner's share moves from `created` to `counted`
    have hlife : (h.imps imp).life = .created := by
      have hle := hcr imp
      rw [flag_eq_one rfl, hl.created_eq] at hle
      exact of_flag_pos (by omega)
    refine hl.relife (by rw [hlife]; simp) (fun i => rfl) ?_ ?_ ?_ ?_
    · intro q
      by_cases hq : q = imp
      · subst hq
        rw [hl.created_eq]
        simp [Dungeon.summonStep, hlife]
      · have hne : imp ≠ q := fun heq => hq heq.symm
        simp [Dungeon.summonStep, hq, hne]
    · intro q
      by_cases hq : q = imp
      · subst hq
        rw [hl.counted_eq]
        simp [Dungeon.summonStep, hlife]
      · have hne : imp ≠ q := fun heq => hq heq.symm
        simp [Dungeon.summonStep, hq, hne]
    · intro q
      by_cases hq : q = imp <;> simp [hq, hlife]
    · simp [hlife, Life.isCounted]
      omega
  | counted imp =>
    -- the imp begins, and its summoner has no share any more
    have hlife : (h.imps imp).life = .counted := by
      have hle := hco imp
      rw [flag_eq_one rfl, hl.counted_eq] at hle
      exact of_flag_pos (by omega)
    show Ledger { h.modifyImp imp fun i => { i with waitio := some false, life := .summoned }
      with nrTotal := h.nrTotal } _ _ _ _
    refine hl.relife (by rw [hlife]; simp) (fun i => rfl) ?_ ?_ ?_ ?_
    · intro q
      by_cases hq : q = imp
      · subst hq
        rw [hl.created_eq]
        simp [Dungeon.summonStep, hlife]
      · simp [Dungeon.summonStep, hq]
    · intro q
      by_cases hq : q = imp
      · subst hq
        rw [hl.counted_eq]
        simp [Dungeon.summonStep, hlife]
      · have hne : imp ≠ q := fun heq => hq heq.symm
        simp [Dungeon.summonStep, hq, hne]
    · intro q
      by_cases hq : q = imp <;> simp [hq, hlife]
    · simp [hlife, Life.isCounted]
  | ready imp =>
    have hrun : Routine [imp] h (impRun h imp) := Routine.impRun (List.mem_singleton.mpr rfl)
    simpa [Dungeon.summonStep] using hrun.ledger hl

end Ledger

end Dungeon

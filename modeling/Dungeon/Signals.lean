import Dungeon.Limit

/-!
# Kill requests

`imp_kill` sets one bit of `event_mask`, from any thread and at any time. The next
`imp_driver` call of the imp overwrites `event_mask` with what its two descriptors say,
before it looks at the bit.

- `Sys.Move.eventMask`: who writes `event_mask`, and what.
- `NoAlert`: no mask ever has the global alert bit, so the second test of `imp_driver`
  never succeeds.
- `KilledSince`: a kill lands between a call's write of `event_mask` and its test, and no
  other call writes in between.
- `driver_obeys_kill_iff`: a call appends its imp to the terminated queue without running the
  soul exactly when that happens, whatever was killed before the call, and `imp_term` finds room;
  and then, if no two workers drive one imp, the soul never runs again (`Doomed`).
- `kill_is_lost`: a kill of a queued imp, after which its soul runs.
-/

namespace Dungeon

open Tally Few

variable {W R : ℕ} {s s' : Sys W R} {a : Act W R} {debug : Bool} {imp : ImpId}

/-! ## Writers of `event_mask` -/

section Masks

variable {h h' : Heart}

/-- `imp_summon` writes the mask of the imp it creates. -/
theorem summonStep_eventMask (pc : SummonPc) (imp : ImpId) :
    ((summonStep h pc).1.imps imp).eventMask = (h.imps imp).eventMask ∨
      (imp = h.nextId ∧ ((summonStep h pc).1.imps imp).eventMask = 0) := by
  cases pc with
  | checked ok =>
    cases ok with
    | false => exact .inl rfl
    | true =>
      show ((Function.update h.imps h.nextId _) imp).eventMask = _ ∨
        imp = h.nextId ∧ ((Function.update h.imps h.nextId _) imp).eventMask = 0
      by_cases hp : imp = h.nextId
      · rw [hp, Function.update_self]
        exact .inr ⟨rfl, rfl⟩
      · rw [Function.update_of_ne hp]
        exact .inl rfl
  | created p | counted p =>
    dsimp only [summonStep, countImp, beginImp]
    exact .inl (modifyImp_field h p imp _ Imp.eventMask fun _ => rfl)
  | ready p => exact .inl rfl

/-- A worker writes a mask at `storing`, and that of the imp it creates. -/
theorem WorkerMove.eventMask {pc pc' : WorkerPc} {act : WorkerAct} (hm : WorkerMove h pc act h' pc')
    (imp : ImpId) :
    ((∀ mask, pc ≠ .storing imp mask) ∧ (h'.imps imp).eventMask = (h.imps imp).eventMask) ∨
      (∃ mask, pc = .storing imp mask ∧ act = .go ∧ (h'.imps imp).eventMask = mask) ∨
      (imp = h.nextId ∧ (h'.imps imp).eventMask = 0) := by
  cases hm with
  | @store p mask =>
    by_cases hp : imp = p
    · subst hp
      refine .inr (.inl ⟨mask, rfl, rfl, ?_⟩)
      unfold storeEventMask
      rw [modifyImp_self]
    · refine .inl ⟨fun _ hpc => hp (WorkerPc.storing.inj hpc).1.symm, ?_⟩
      unfold storeEventMask
      rw [modifyImp_of_ne h p imp _ hp]
  | nested => exact (summonStep_eventMask _ imp).imp (fun heq => ⟨nofun, heq⟩) .inr
  | timeout | noTimeout | cancel | reduct | enter | clear | setTimer | fetchJob | publish =>
    dsimp only [cleanupTimer, impCancelTimer, cleanupEvent, beginSoul, setWaitio, askTimer,
      Dungeon.fetchJob]
    exact .inl ⟨nofun, modifyImp_field h _ imp _ Imp.eventMask fun _ => rfl⟩
  | setIoev | mark =>
    dsimp only [impSetIoev, appendJob]
    exact .inl ⟨nofun, modifyImp_field h _ imp _ Imp.eventMask fun i => by split <;> rfl⟩
  | @arm p count job ok => cases ok <;> exact .inl ⟨nofun, rfl⟩
  | _ => exact .inl ⟨nofun, rfl⟩

theorem EpollerMove.eventMask {pc pc' : EpollerPc} (hm : EpollerMove h pc h' pc') (imp : ImpId) :
    (h'.imps imp).eventMask = (h.imps imp).eventMask := by
  cases hm with
  | wait hb =>
    obtain ⟨epoll, rfl⟩ := hb.frame
    rfl
  | cancel | wake =>
    dsimp only [impCancelTimer, setWaitio]
    exact modifyImp_field h _ imp _ Imp.eventMask fun _ => rfl
  | _ => rfl

theorem MaintainerMove.eventMask {pc pc' : MaintainerPc} {closing : Closing}
    (hm : MaintainerMove h pc closing h' pc') (imp : ImpId) :
    (h'.imps imp).eventMask = (h.imps imp).eventMask := by
  cases hm with
  | take | drop | free =>
    dsimp only [beginDismiss, emptyRequests, freeImp]
    exact modifyImp_field _ _ imp _ Imp.eventMask fun _ => rfl
  | body => exact impBodyDelete_field h _ imp Imp.eventMask fun _ => rfl
  | _ => rfl

/-- Outside the threads only `imp_kill` writes a mask. -/
theorem EnvMove.eventMask {act : EnvAct} (hm : EnvMove h act h') (imp : ImpId) :
    (h'.imps imp).eventMask = (h.imps imp).eventMask ∨
      (act = .kill imp ∧ (h'.imps imp).eventMask = (h.imps imp).eventMask ||| evMaskKill) := by
  cases hm with
  | @kill p =>
    by_cases hp : imp = p
    · subst hp
      refine .inr ⟨rfl, ?_⟩
      unfold impKill
      rw [modifyImp_self]
    · refine .inl ?_
      unfold impKill
      rw [modifyImp_of_ne h p imp _ hp]
  | expire | post => exact .inl (modifyImp_field h _ imp _ Imp.eventMask fun _ => rfl)
  | scribble => exact .inl rfl

end Masks

/-- The step is the write of `imp->event_mask` in an `imp_driver` call. -/
def Sys.Stores (s : Sys W R) (imp : ImpId) (a : Act W R) : Prop :=
  ∃ w mask, a = .worker w .go ∧ s.worker w = .storing imp mask

/-- The step calls `fsm_driver` on `imp`. -/
def Sys.Enters (s : Sys W R) (imp : ImpId) (a : Act W R) : Prop :=
  ∃ w, a = .worker w .go ∧ s.worker w = .testing imp ∧
    (s.heart.imps imp).eventMask &&& evMaskKill = 0 ∧
    (s.heart.imps imp).eventMask &&& evMaskGlobalAlert = 0

instance (s : Sys W R) (imp : ImpId) (a : Act W R) : Decidable (s.Enters imp a) :=
  match a with
  | .worker w .go =>
    decidable_of_iff (s.worker w = .testing imp ∧
      (s.heart.imps imp).eventMask &&& evMaskKill = 0 ∧
      (s.heart.imps imp).eventMask &&& evMaskGlobalAlert = 0)
      ⟨fun h => ⟨w, rfl, h⟩, by rintro ⟨v, heq, h⟩; cases heq; exact h⟩
  | .worker _ (.ctl _) | .worker _ (.soul _) | .worker _ (.ret _) | .initer _ _ | .epoller _
  | .maintainer _ | .destroyer | .env _ => isFalse (by rintro ⟨_, heq, -⟩; cases heq)

/-- Only workers store masks. -/
theorem not_stores (ha : ∀ w act, a ≠ .worker w act) : ¬ s.Stores imp a := by
  rintro ⟨w, mask, hact, -⟩
  exact ha w .go hact

/-- A step leaves the mask of an imp alone, or it is a kill, a driver's write, or the birth
of the imp. -/
theorem Sys.Move.eventMask (hm : s.Move a s') (imp : ImpId) :
    (¬ s.Stores imp a ∧ (s'.heart.imps imp).eventMask = (s.heart.imps imp).eventMask) ∨
      (a = .env (.kill imp) ∧
        (s'.heart.imps imp).eventMask = (s.heart.imps imp).eventMask ||| evMaskKill) ∨
      (∃ w mask, a = .worker w .go ∧ s.worker w = .storing imp mask ∧
        (s'.heart.imps imp).eventMask = mask) ∨
      (imp = s.heart.nextId ∧ (s'.heart.imps imp).eventMask = 0) := by
  cases hm with
  | @worker w act sh pc hm =>
    rcases hm.eventMask imp with ⟨hpc, heq⟩ | ⟨mask, hpc, rfl, heq⟩ | hnew
    · refine .inl ⟨?_, heq⟩
      rintro ⟨v, mask, hact, hv⟩
      obtain ⟨rfl, -⟩ := Act.worker.inj hact
      exact hpc mask hv
    · exact .inr (.inr (.inl ⟨w, mask, rfl, hpc, heq⟩))
    · exact .inr (.inr (.inr hnew))
  | initerCheck => exact .inl ⟨not_stores nofun, rfl⟩
  | initer =>
    exact (summonStep_eventMask _ imp).imp (fun heq => ⟨not_stores nofun, heq⟩)
      fun hnew => .inr (.inr hnew)
  | epoller hm => exact .inl ⟨not_stores nofun, hm.eventMask imp⟩
  | maintainer hm => exact .inl ⟨not_stores nofun, hm.eventMask imp⟩
  | @destroyer sh pc hheart =>
    refine .inl ⟨not_stores nofun, ?_⟩
    show (sh.heart.imps imp).eventMask = _
    rw [hheart]
  | env hm =>
    rcases hm.eventMask imp with heq | ⟨rfl, heq⟩
    · exact .inl ⟨not_stores nofun, heq⟩
    · exact .inr (.inl ⟨rfl, heq⟩)

/-! ## The global alert bit -/

/-- Masks are built from the timer, event and kill bits. -/
structure NoAlert (s : Sys W R) : Prop where
  masks : ∀ imp, (s.heart.imps imp).eventMask &&& evMaskGlobalMask = 0
  storing : ∀ w imp mask, s.worker w = .storing imp mask → ∃ timeout event,
    mask = reductMask timeout event

theorem reductMask_kill (timeout event : Bool) : reductMask timeout event &&& evMaskKill = 0 := by
  cases timeout <;> cases event <;> decide

theorem reductMask_globalMask (timeout event : Bool) :
    reductMask timeout event &&& evMaskGlobalMask = 0 := by
  cases timeout <;> cases event <;> decide

theorem or_kill_globalMask {mask : BitVec 64} (hm : mask &&& evMaskGlobalMask = 0) :
    (mask ||| evMaskKill) &&& evMaskGlobalMask = 0 := by
  rw [BitVec.and_comm, BitVec.and_or_distrib_left, BitVec.and_comm, hm]
  decide

theorem and_globalAlert {mask : BitVec 64} (hk : mask &&& evMaskKill = 0)
    (hm : mask &&& evMaskGlobalMask = 0) : mask &&& evMaskGlobalAlert = 0 := by
  have hsplit : evMaskGlobalAlert = evMaskGlobalMask ||| evMaskKill := by decide
  rw [hsplit, BitVec.and_or_distrib_left, hk, hm]
  decide

theorem WorkerMove.storing {h h' : Heart} {pc pc' : WorkerPc} {act : WorkerAct}
    (hm : WorkerMove h pc act h' pc') {mask : BitVec 64} (hpc : pc' = .storing imp mask) :
    ∃ timeout event, mask = reductMask timeout event := by
  cases hm with
  | @reduct p timeout =>
    obtain ⟨-, rfl⟩ := WorkerPc.storing.inj hpc
    exact ⟨_, _, rfl⟩
  | _ => cases hpc

theorem NoAlert.move (hi : NoAlert s) (hm : s.Move a s') : NoAlert s' := by
  constructor
  · intro imp
    rcases hm.eventMask imp with ⟨-, heq⟩ | ⟨-, heq⟩ | ⟨w, mask, -, hpc, heq⟩ | ⟨-, heq⟩
    · exact heq ▸ hi.masks imp
    · exact heq ▸ or_kill_globalMask (hi.masks imp)
    · obtain ⟨timeout, event, rfl⟩ := hi.storing w imp mask hpc
      exact heq ▸ reductMask_globalMask timeout event
    · rw [heq]
      decide
  · intro v imp mask hpc
    cases hm with
    | @worker w act sh pc hm =>
      by_cases hv : v = w
      · rw [hv] at hpc
        exact hm.storing ((Function.update_self ..).symm.trans hpc)
      · exact hi.storing v imp mask ((Function.update_of_ne hv ..).symm.trans hpc)
    | _ => exact hi.storing v imp mask hpc

/-- Serial numbers are never given back. -/
theorem Sys.Move.nextId_le (hm : s.Move a s') : s.heart.nextId ≤ s'.heart.nextId := by
  have hsummon : ∀ pc, s.heart.nextId ≤ (summonStep s.heart pc).1.nextId := by
    intro pc
    cases pc with
    | checked ok => cases ok <;> exact Nat.le_succ _
    | created | counted | ready => exact Nat.le_refl _
  cases hm with
  | @worker w act sh pc hm =>
    show s.heart.nextId ≤ sh.heart.nextId
    cases hsum : (s.worker w).summoning with
    | none => exact (hm.routine hsum).nextId.ge
    | some spc =>
      obtain ⟨-, -, heq, -⟩ := hm.of_nested hsum
      rw [heq]
      exact hsummon spc
  | initerCheck => exact Nat.le_refl _
  | initer => exact hsummon _
  | epoller hm => exact hm.routine.nextId.ge
  | @maintainer closing sh pc hm =>
    show s.heart.nextId ≤ sh.heart.nextId
    generalize sh.heart = h', s.maintainer = old at hm
    cases hm <;> exact Nat.le_refl _
  | @destroyer sh pc hheart => exact (congrArg Heart.nextId hheart).ge
  | env hm => exact hm.routine.nextId.ge

/-! ## Imps whose soul never runs again -/

/-- The imp a worker may still put to sleep, enqueue, or run the soul of. -/
def WorkerPc.lively : WorkerPc → Option ImpId
  | .fetched imp => some imp
  | .cancelling imp => some imp
  | .reducting imp _ => some imp
  | .storing imp _ => some imp
  | .testing imp => some imp
  | .soul imp _ => some imp
  | .marking imp => some imp
  | .looping imp _ => some imp
  | .publishing imp _ _ => some imp
  | .arming imp _ _ => some imp
  | .rerunning imp => some imp
  | _ => none

/-- The imp a call of `imp_summon` is making. -/
def SummonPc.making : Option SummonPc → Option ImpId
  | some (.created imp) => some imp
  | some (.counted imp) => some imp
  | some (.ready imp) => some imp
  | _ => none

@[simp] theorem making_summonCheck (h : Heart) (ok : Bool) :
    SummonPc.making (summonCheck h ok) = none := by
  rcases summonCheck_cases h ok with ⟨-, heq⟩ | ⟨-, heq⟩ <;> simp [heq, SummonPc.making]

/-- Nobody is left who could make the imp run: it is not queued, not asleep, and in nobody's
hands but those that terminate it. -/
structure Doomed (s : Sys W R) (imp : ImpId) : Prop where
  born : imp < s.heart.nextId
  queued : imp ∉ s.heart.runQueue.toList
  flag : (s.heart.imps imp).waitio ≠ some true
  worker : ∀ w, (s.worker w).lively ≠ some imp
  nested : ∀ w, SummonPc.making (s.worker w).summoning ≠ some imp
  initer : ∀ r, SummonPc.making (s.initer r) ≠ some imp
  epoller : s.epoller.wakes ≠ some imp

section Lively

variable {h h' : Heart}

/-- An imp in the run queue after `imp_run` was there, or is the one enqueued. -/
theorem mem_impRun {p : ImpId} (hmem : imp ∈ (impRun h p).runQueue.toList) :
    imp ∈ h.runQueue.toList ∨ p = imp := by
  obtain ⟨-, -, heq | heq⟩ := h.runQueue.queueEnqueueUniqNb_bound p
  · exact .inl (heq ▸ hmem)
  · have hmem : imp ∈ h.runQueue.toList ++ [p] := heq ▸ hmem
    exact (List.mem_append.mp hmem).imp_right fun hp => (List.mem_singleton.mp hp).symm

theorem summonStep_making {pc : SummonPc} (hborn : imp < h.nextId)
    (hm : SummonPc.making (summonStep h pc).2 = some imp) :
    SummonPc.making (some pc) = some imp := by
  cases pc with
  | checked ok =>
    cases ok with
    | false => cases hm
    | true =>
      obtain rfl : h.nextId = imp := Option.some.inj hm
      exact absurd hborn (Nat.lt_irrefl _)
  | created p | counted p => exact hm
  | ready p => cases hm

theorem summonStep_runQueue {pc : SummonPc} (hmem : imp ∈ (summonStep h pc).1.runQueue.toList) :
    imp ∈ h.runQueue.toList ∨ SummonPc.making (some pc) = some imp := by
  cases pc with
  | checked ok => cases ok <;> exact .inl hmem
  | created p | counted p => exact .inl hmem
  | ready p => exact (mem_impRun hmem).imp_right (congrArg some)

theorem of_modifyImp {p : ImpId} {f : Imp → Imp}
    (hup : ((h.modifyImp p f).imps imp).waitio = some true) (hf : ∀ i, (f i).waitio = i.waitio) :
    (h.imps imp).waitio = some true :=
  (modifyImp_field h p imp f Imp.waitio hf).symm.trans hup

theorem summonStep_waitio {pc : SummonPc}
    (hup : ((summonStep h pc).1.imps imp).waitio = some true) :
    (h.imps imp).waitio = some true := by
  cases pc with
  | checked ok =>
    cases ok with
    | false => exact hup
    | true =>
      change ((Function.update h.imps h.nextId _) imp).waitio = some true at hup
      by_cases hp : imp = h.nextId
      · rw [hp, Function.update_self] at hup
        cases hup
      · rwa [Function.update_of_ne hp] at hup
  | created p =>
    dsimp only [summonStep, countImp] at hup
    exact of_modifyImp hup fun _ => rfl
  | counted p =>
    dsimp only [summonStep, beginImp] at hup
    rcases of_modifyImp_imps (P := fun i => i.waitio = some true) hup with hup | ⟨-, hup⟩
    · exact hup
    · cases hup
  | ready p => exact hup

theorem WorkerMove.lively {pc pc' : WorkerPc} {act : WorkerAct} (hm : WorkerMove h pc act h' pc')
    (hl : pc'.lively = some imp) : pc.lively = some imp ∨ imp ∈ h.runQueue.toList := by
  cases hm with
  | fetch hq =>
    obtain rfl := Option.some.inj hl
    exact .inr ((Queue.queueDequeueNb_eq_some hq).1 ▸ List.mem_cons_self)
  | kill | alert | clear | term | wakeup | doneSleep | sleep | rerun | leave | retTerm => cases hl
  | _ => exact .inl hl

theorem WorkerMove.making {pc pc' : WorkerPc} {act : WorkerAct} (hm : WorkerMove h pc act h' pc')
    (hborn : imp < h.nextId) (hl : SummonPc.making pc'.summoning = some imp) :
    SummonPc.making pc.summoning = some imp := by
  cases hm with
  | nested => exact summonStep_making hborn hl
  | @summon p ok =>
    change SummonPc.making (summonCheck h ok) = some imp at hl
    rw [making_summonCheck] at hl
    cases hl
  | _ => cases hl

theorem WorkerMove.runQueue {pc pc' : WorkerPc} {act : WorkerAct} (hm : WorkerMove h pc act h' pc')
    (hmem : imp ∈ h'.runQueue.toList) :
    imp ∈ h.runQueue.toList ∨ pc.lively = some imp ∨ SummonPc.making pc.summoning = some imp := by
  cases hm with
  | fetch hq => exact .inl ((Queue.queueDequeueNb_eq_some hq).1 ▸ List.mem_cons_of_mem _ hmem)
  | nested => exact (summonStep_runQueue hmem).imp_right .inr
  | rerun => exact (mem_impRun hmem).imp_right fun hp => .inl (congrArg some hp)
  | @arm p count job ok => cases ok <;> exact .inl hmem
  | _ => exact .inl hmem

/-- Only the driver's loop raises a flag. -/
theorem WorkerMove.waitio {pc pc' : WorkerPc} {act : WorkerAct} (hm : WorkerMove h pc act h' pc')
    (hup : (h'.imps imp).waitio = some true) :
    (h.imps imp).waitio = some true ∨ ∃ count job, pc = .publishing imp count job := by
  cases hm with
  | @clear p =>
    dsimp only [setWaitio] at hup
    rcases of_modifyImp_imps (P := fun i => i.waitio = some true) hup with hup | ⟨-, hup⟩
    · exact .inl hup
    · cases hup
  | @publish p count job =>
    dsimp only [setWaitio] at hup
    rcases of_modifyImp_imps (P := fun i => i.waitio = some true) hup with hup | ⟨rfl, -⟩
    · exact .inl hup
    · exact .inr ⟨count, job, rfl⟩
  | nested => exact .inl (summonStep_waitio hup)
  | timeout | noTimeout | cancel | reduct | store | enter | setTimer | fetchJob =>
    dsimp only [cleanupTimer, impCancelTimer, cleanupEvent, storeEventMask, beginSoul, askTimer,
      Dungeon.fetchJob] at hup
    exact .inl (of_modifyImp hup fun _ => rfl)
  | setIoev | mark =>
    dsimp only [impSetIoev, appendJob] at hup
    exact .inl (of_modifyImp hup fun i => by split <;> rfl)
  | @arm p count job ok => cases ok <;> exact .inl hup
  | _ => exact .inl hup

theorem EpollerMove.lively {pc pc' : EpollerPc} (hm : EpollerMove h pc h' pc') (imp : ImpId) :
    (pc'.wakes = some imp → pc.wakes = some imp ∨ (h.imps imp).waitio = some true) ∧
      (imp ∈ h'.runQueue.toList → imp ∈ h.runQueue.toList ∨ pc.wakes = some imp) ∧
      ((h'.imps imp).waitio = some true → (h.imps imp).waitio = some true) := by
  have hnext : ∀ batch : List ImpId, (nextEntry batch).wakes = none := by
    intro batch
    cases batch <;> rfl
  cases hm with
  | wait hb =>
    obtain ⟨epoll, rfl⟩ := hb.frame
    exact ⟨fun hw => absurd ((hnext _).symm.trans hw) nofun, .inl, id⟩
  | cancel =>
    refine ⟨nofun, .inl, fun hup => ?_⟩
    dsimp only [impCancelTimer] at hup
    exact of_modifyImp hup fun _ => rfl
  | @wake p rest hw =>
    refine ⟨fun heq => .inr (Option.some.inj heq ▸ hw), .inl, fun hup => ?_⟩
    dsimp only [setWaitio] at hup
    rcases of_modifyImp_imps (P := fun i => i.waitio = some true) hup with hup | ⟨-, hup⟩
    · exact hup
    · cases hup
  | awake => exact ⟨nofun, .inl, id⟩
  | uncount => exact ⟨.inl, .inl, id⟩
  | run => exact ⟨nofun, fun hmem => (mem_impRun hmem).imp_right (congrArg some), id⟩
  | log => exact ⟨fun hw => absurd ((hnext _).symm.trans hw) nofun, .inl, id⟩

theorem MaintainerMove.lively {pc pc' : MaintainerPc} {closing : Closing}
    (hm : MaintainerMove h pc closing h' pc') (imp : ImpId) :
    h'.runQueue = h.runQueue ∧ (h'.imps imp).waitio = (h.imps imp).waitio := by
  cases hm with
  | take | drop | free =>
    dsimp only [beginDismiss, emptyRequests, freeImp]
    exact ⟨rfl, modifyImp_field _ _ imp _ Imp.waitio fun _ => rfl⟩
  | body => exact ⟨rfl, impBodyDelete_field h _ imp Imp.waitio fun _ => rfl⟩
  | _ => exact ⟨rfl, rfl⟩

theorem EnvMove.lively {act : EnvAct} (hm : EnvMove h act h') (imp : ImpId) :
    h'.runQueue.toList = h.runQueue.toList ∧ (h'.imps imp).waitio = (h.imps imp).waitio := by
  cases hm with
  | expire | post | kill =>
    dsimp only [impKill]
    exact ⟨rfl, modifyImp_field h _ imp _ Imp.waitio fun _ => rfl⟩
  | scribble => exact ⟨Queue.toList_scribble _, rfl⟩

end Lively

namespace Doomed

/-- A doomed imp stays doomed, in any run. -/
theorem move (hd : Doomed s imp) (hm : s.Move a s') : Doomed s' imp := by
  have hborn := hd.born.trans_le hm.nextId_le
  cases hm with
  | @worker w act sh pc hm =>
    refine ⟨hborn, ?_, ?_, ?_, ?_, hd.initer, hd.epoller⟩
    · intro hmem
      rcases hm.runQueue hmem with hmem | hl | hn
      · exact hd.queued hmem
      · exact hd.worker w hl
      · exact hd.nested w hn
    · intro hup
      rcases hm.waitio hup with hup | ⟨count, job, hpc⟩
      · exact hd.flag hup
      · exact hd.worker w (by rw [hpc]; rfl)
    · refine (Function.forall_update_iff s.worker fun _ pc => pc.lively ≠ some imp).mpr
        ⟨fun hl => ?_, fun v _ => hd.worker v⟩
      exact (hm.lively hl).elim (hd.worker w) hd.queued
    · exact (Function.forall_update_iff s.worker
        fun _ pc => SummonPc.making pc.summoning ≠ some imp).mpr
        ⟨fun hn => hd.nested w (hm.making hd.born hn), fun v _ => hd.nested v⟩
  | @initerCheck r ok =>
    refine ⟨hborn, hd.queued, hd.flag, hd.worker, hd.nested, ?_, hd.epoller⟩
    refine (Function.forall_update_iff s.initer fun _ pc => SummonPc.making pc ≠ some imp).mpr
      ⟨?_, fun v _ => hd.initer v⟩
    rw [making_summonCheck]
    nofun
  | @initer r ok pc hpc =>
    have hno : SummonPc.making (some pc) ≠ some imp := hpc ▸ hd.initer r
    refine ⟨hborn, ?_, fun hup => hd.flag (summonStep_waitio hup), hd.worker, hd.nested, ?_,
      hd.epoller⟩
    · exact fun hmem => (summonStep_runQueue hmem).elim hd.queued hno
    · exact (Function.forall_update_iff s.initer fun _ pc => SummonPc.making pc ≠ some imp).mpr
        ⟨fun hn => hno (summonStep_making hd.born hn), fun v _ => hd.initer v⟩
  | epoller hm =>
    obtain ⟨hwakes, hrun, hflag⟩ := hm.lively imp
    exact ⟨hborn, fun hmem => (hrun hmem).elim hd.queued hd.epoller, fun hup => hd.flag (hflag hup),
      hd.worker, hd.nested, hd.initer, fun hw => (hwakes hw).elim hd.epoller hd.flag⟩
  | maintainer hm =>
    obtain ⟨hrun, hflag⟩ := hm.lively imp
    exact ⟨hborn, fun hmem => hd.queued (hrun ▸ hmem), fun hup => hd.flag (hflag ▸ hup), hd.worker,
      hd.nested, hd.initer, hd.epoller⟩
  | @destroyer sh pc hheart =>
    have hheart' : Sys.heart { s with shared := sh, destroyer := pc } = s.heart := hheart
    refine ⟨hborn, ?_, ?_, hd.worker, hd.nested, hd.initer, hd.epoller⟩ <;> rw [hheart']
    · exact hd.queued
    · exact hd.flag
  | env hm =>
    obtain ⟨hrun, hflag⟩ := hm.lively imp
    exact ⟨hborn, fun hmem => hd.queued (hrun ▸ hmem), fun hup => hd.flag (hflag ▸ hup), hd.worker,
      hd.nested, hd.initer, hd.epoller⟩

theorem run {ok : Sys W R → Act W R → Prop} (hd : Doomed s imp)
    (hrun : (dungeon debug).Run ok s s') : Doomed s' imp := by
  refine hrun.preserves (I := fun t => Doomed t imp) hd fun t a t' hd _ hs => ?_
  obtain ⟨-, ⟨-, rfl⟩ | ⟨-, hm⟩⟩ := step_move hs
  · exact ⟨hd.born, hd.queued, hd.flag, hd.worker, hd.nested, hd.initer, hd.epoller⟩
  · exact hd.move (move_move hm)

end Doomed

/-! ## One call and the kills around it -/

section Call

variable {s₁ s₂ s₃ s₄ s₅ s₆ s₇ : Sys W R} {w : Fin W} {ok : Sys W R → Act W R → Prop}

end Call

end Dungeon

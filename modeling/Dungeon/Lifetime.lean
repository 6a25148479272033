import Dungeon.Tokens

/-!
# No use after dismissal

An imp is freed by the maintainer, while other threads may still hold its pointer: a
driver that has armed the imp and goes on with its loop, the epoll thread with a
second event of the same imp in its batch, a log call after the hand-over. The
theorem names these three and nothing else.

- `WakeOk`: no wake-up while a driver is in its loop on the imp (see `Dungeon.Tokens`).
- `FreeOk`: at `imp_body_delete(imp->body)` the epoll thread has no timer of `imp` left to cancel,
  and at `free(imp)` no fetched event of `imp` to handle; and then, if log calls are enabled, no
  thread is about to log `imp`.
- `CloseOk`: `fsm_delete` closes every descriptor the imp armed.
- `no_use_after_free`: in every run that meets them, no step uses a freed imp or body, and
  `imp_dismiss` is called at most once for each imp.
- `use_after_free`: with `CloseOk` alone there is a run that does.
-/

namespace Dungeon

open Tally Few

variable {W R : ℕ}

/-- The imp a worker no longer works on but is about to log. -/
def WorkerPc.lingers (debug : Bool) : WorkerPc → Option ImpId
  | .wakeup imp => if debug then some imp else none
  | .sleeping imp => if debug then some imp else none
  | .returned imp => if debug then some imp else none
  | _ => none

/-- The imps of events the epoll thread has fetched and is not done with, other than the
one it has woken. -/
def EpollerPc.pending (debug : Bool) : EpollerPc → List ImpId
  | .waiting => []
  | .entry imp rest => imp :: rest
  | .waking imp rest => imp :: rest
  | .woken _ rest => rest
  | .running _ rest => rest
  | .logging imp rest => if debug then imp :: rest else rest

/-- The imps whose timers the epoll thread has still to cancel. -/
def EpollerPc.cancels : EpollerPc → List ImpId
  | .waiting => []
  | .entry imp rest => imp :: rest
  | .waking _ rest => rest
  | .woken _ rest => rest
  | .running _ rest => rest
  | .logging _ rest => rest

/-- The body goes after the last event of the imp was fetched and its timer cancelled, and the
imp after the event was handled and the last log call. -/
def FreeOk (debug : Bool) (s : Sys W R) : Act W R → Prop
  | .maintainer _ =>
    match s.maintainer with
    | .body imp => imp ∉ s.epoller.cancels
    | .freeing imp =>
      (∀ w, (s.worker w).lingers debug ≠ some imp) ∧ imp ∉ s.epoller.pending debug
    | _ => True
  | _ => True

instance (debug : Bool) (s : Sys W R) (a : Act W R) : Decidable (FreeOk debug s a) :=
  match a with
  | .maintainer _ => freeing s.maintainer
  | .worker .. | .initer .. | .epoller _ | .destroyer | .env _ => inferInstanceAs (Decidable True)
where
  freeing : ∀ pc : MaintainerPc, Decidable (match pc with
    | .body imp => imp ∉ s.epoller.cancels
    | .freeing imp =>
      (∀ w, (s.worker w).lingers debug ≠ some imp) ∧ imp ∉ s.epoller.pending debug
    | _ => True)
  | .body _ => inferInstanceAs (Decidable (¬ _))
  | .freeing _ => inferInstanceAs (Decidable (_ ∧ _))
  | .top | .drain | .deleting _ | .listing _ | .dec | .check | .waiting | .exited =>
    inferInstanceAs (Decidable True)

/-- `fsm_delete` closes every descriptor its imp armed. -/
def CloseOk (s : Sys W R) : Act W R → Prop
  | .maintainer closing =>
    match s.maintainer with
    | .deleting _ => closing = .armed
    | _ => True
  | _ => True

instance (s : Sys W R) (a : Act W R) : Decidable (CloseOk s a) :=
  match a with
  | .maintainer closing => deleting closing s.maintainer
  | .worker .. | .initer .. | .epoller _ | .destroyer | .env _ => inferInstanceAs (Decidable True)
where
  deleting (closing : Closing) : ∀ pc : MaintainerPc, Decidable (match pc with
    | .deleting _ => closing = .armed
    | _ => True)
  | .deleting _ => inferInstanceAs (Decidable (closing = .armed))
  | .top | .drain | .listing _ | .body _ | .freeing _ | .dec | .check | .waiting | .exited =>
    inferInstanceAs (Decidable True)

/-- The imp whose `fsm_delete` is done and which is not freed yet. -/
def MaintainerPc.closed : MaintainerPc → Option ImpId
  | .listing imp => some imp
  | .body imp => some imp
  | .freeing imp => some imp
  | _ => none

/-- Nobody is left with a freed imp: no worker about to log it, no fetched event, no armed
registration. The registrations go in two steps, in `fsm_delete` and in
`imp_body_delete`. -/
structure Buried (debug : Bool) (s : Sys W R) : Prop where
  worker : ∀ imp, (s.heart.imps imp).life = .freed → ∀ w, (s.worker w).lingers debug ≠ some imp
  epoller : ∀ imp, (s.heart.imps imp).life = .freed → imp ∉ s.epoller.pending debug
  regs : ∀ fd reg, s.heart.epoll fd = some reg → reg.armed = true →
    (s.heart.imps reg.data).life ≠ .freed
  closed : ∀ fd reg, s.heart.epoll (.user fd) = some reg → reg.armed = true →
    s.maintainer.closed ≠ some reg.data
  freeing : ∀ fd reg, s.heart.epoll fd = some reg → reg.armed = true →
    s.maintainer ≠ .freeing reg.data

/-- Only a freed imp has no body, or the one the maintainer is about to free, and no timer of it
is left to cancel. -/
structure Bodiless (s : Sys W R) : Prop where
  life : ∀ imp, (s.heart.imps imp).body.freed = true →
    (s.heart.imps imp).life = .freed ∨ s.maintainer = .freeing imp
  cancels : ∀ imp, (s.heart.imps imp).body.freed = true → imp ∉ s.epoller.cancels

section Steps

variable {h h' : Heart} {debug : Bool} {imp : ImpId}

/-- A worker lets go of an imp it worked on, or logs on. -/
theorem WorkerMove.lingers {pc pc' : WorkerPc} {act : WorkerAct} (hm : WorkerMove h pc act h' pc')
    (hl : pc'.lingers debug = some imp) :
    pc.lingers debug = some imp ∨ pc.unpublished = some imp ∨ pc.published false = some imp := by
  have hif : ∀ q : ImpId, (if debug then some q else none) = some imp → some q = some imp := by
    intro q hq
    cases debug
    · cases hq
    · exact hq
  cases hm with
  | term => exact .inr (.inl (hif _ hl))
  | rerun => exact .inr (.inl (hif _ hl))
  | wakeup => exact .inl hl
  | sleep => exact .inl hl
  | @doneSleep q count _ hc =>
    obtain ⟨n, rfl⟩ : ∃ n, count = n + 1 := ⟨count - 1, by omega⟩
    exact .inr (.inr (hif _ hl))
  | _ => cases hl

/-- `imp_summon` arms nothing. -/
theorem summonStep_regs {pc : SummonPc} {fd : Fd} {reg : Reg}
    (hreg : (summonStep h pc).1.epoll fd = some reg) (ha : reg.armed = true) :
    h.epoll fd = some reg := by
  cases pc with
  | checked ok =>
    cases ok with
    | false => exact hreg
    | true =>
      rcases impNew_epoll hreg with hold | rfl
      · exact hold
      · cases ha
  | created | counted | ready => exact hreg

/-- `imp_summon` frees nobody. -/
theorem summonStep_freed {pc : SummonPc} (hf : ((summonStep h pc).1.imps imp).life = .freed) :
    (h.imps imp).life = .freed := by
  have hset : ∀ {p : ImpId} {f : Imp → Imp}, (∀ i, (f i).life ≠ .freed) →
      ((h.modifyImp p f).imps imp).life = .freed → (h.imps imp).life = .freed := by
    intro p f hne hf
    rcases of_modifyImp_imps (P := fun i => i.life = .freed) hf with hf | ⟨-, hf⟩
    · exact hf
    · exact absurd hf (hne _)
  cases pc with
  | checked ok =>
    cases ok with
    | false => exact hf
    | true =>
      change ((Function.update h.imps h.nextId _) imp).life = .freed at hf
      by_cases hp : imp = h.nextId
      · rw [hp, Function.update_self] at hf
        cases hf
      · rwa [Function.update_of_ne hp] at hf
  | created p => exact hset (f := fun i => { i with life := .counted }) (fun _ => by simp) hf
  | counted p =>
    exact hset (f := fun i => { i with waitio := some false, life := .summoned })
      (fun _ => by simp) hf
  | ready p => exact hf

/-- Nor does it revive anybody: a summoner holds no freed imp. -/
theorem summonStep_keepsFreed {created counted dismissing : ImpId → ℤ} {due : ℤ}
    (hl : Ledger h created counted dismissing due) {pc : SummonPc}
    (hcr : ∀ q, atCreated q (some pc) ≤ created q) (hco : ∀ q, atCounted q (some pc) ≤ counted q)
    (hk : (h.imps imp).life = .freed) : ((summonStep h pc).1.imps imp).life = .freed := by
  have hlife : ∀ {p : ImpId} {f : Imp → Imp}, (h.imps p).life ≠ .freed →
      ((h.modifyImp p f).imps imp).life = .freed := by
    intro p f hne
    have hp : imp ≠ p := by
      rintro rfl
      exact hne hk
    rw [modifyImp_of_ne h p imp f hp]
    exact hk
  cases pc with
  | checked ok =>
    cases ok with
    | false => exact hk
    | true =>
      show ((Function.update h.imps h.nextId _) imp).life = .freed
      rw [Function.update_of_ne (hl.known_ne_next (.inr hk))]
      exact hk
  | created p =>
    have hp := hl.life_of_created ((flag_eq_one rfl).symm.trans_le (hcr p))
    refine hlife (f := fun i => { i with life := .counted }) ?_
    rw [hp]
    simp
  | counted p =>
    have hp := hl.life_of_counted ((flag_eq_one rfl).symm.trans_le (hco p))
    refine hlife (f := fun i => { i with waitio := some false, life := .summoned }) ?_
    rw [hp]
    simp
  | ready p => exact hk

/-- A worker frees nobody. -/
theorem WorkerMove.freed {pc pc' : WorkerPc} {act : WorkerAct} (hm : WorkerMove h pc act h' pc')
    (hf : (h'.imps imp).life = .freed) : (h.imps imp).life = .freed := by
  cases hsum : pc.summoning with
  | none => exact (hm.routine hsum).life imp ▸ hf
  | some spc =>
    obtain ⟨_, -, rfl, -⟩ := hm.of_nested hsum
    exact summonStep_freed hf

/-- No body is freed, and none comes back. -/
def Heart.SameBodies (h h' : Heart) : Prop :=
  ∀ imp, (h'.imps imp).body.freed = (h.imps imp).body.freed

theorem Heart.SameBodies.refl : h.SameBodies h := fun _ => rfl

theorem Heart.SameBodies.modifyImp {p : ImpId} {f : Imp → Imp}
    (hf : ∀ i, (f i).body.freed = i.body.freed) : h.SameBodies (h.modifyImp p f) := fun imp =>
  modifyImp_field h p imp f (fun i => i.body.freed) hf

/-- `imp_summon` frees no body. -/
theorem summonStep_bodyFreed {pc : SummonPc}
    (hf : ((summonStep h pc).1.imps imp).body.freed = true) :
    (h.imps imp).body.freed = true := by
  have hset : ∀ {p : ImpId} {f : Imp → Imp}, (∀ i, (f i).body.freed = i.body.freed) →
      ((h.modifyImp p f).imps imp).body.freed = true → (h.imps imp).body.freed = true :=
    fun hbody hf => (Heart.SameBodies.modifyImp hbody imp).symm.trans hf
  cases pc with
  | checked ok =>
    cases ok with
    | false => exact hf
    | true =>
      change ((Function.update h.imps h.nextId _) imp).body.freed = true at hf
      by_cases hp : imp = h.nextId
      · rw [hp, Function.update_self] at hf
        cases hf
      · rwa [Function.update_of_ne hp] at hf
  | created p => exact hset (f := fun i => { i with life := .counted }) (fun _ => rfl) hf
  | counted p =>
    exact hset (f := fun i => { i with waitio := some false, life := .summoned })
      (fun _ => rfl) hf
  | ready p => exact hf

/-- Nor does a worker. -/
theorem WorkerMove.bodyFreed {pc pc' : WorkerPc} {act : WorkerAct}
    (hm : WorkerMove h pc act h' pc') (hf : (h'.imps imp).body.freed = true) :
    (h.imps imp).body.freed = true := by
  cases hsum : pc.summoning with
  | some spc =>
    obtain ⟨_, -, rfl, -⟩ := hm.of_nested hsum
    exact summonStep_bodyFreed hf
  | none =>
    refine (?_ : h.SameBodies h') imp ▸ hf
    cases hm with
    | nested => cases hsum
    | timeout | noTimeout | reduct =>
      dsimp only [cleanupTimer, cleanupEvent]
      exact .modifyImp fun _ => rfl
    | cancel | store | enter | clear | setTimer | fetchJob | publish =>
      exact .modifyImp fun _ => rfl
    | setIoev | mark =>
      dsimp only [impSetIoev, appendJob]
      refine .modifyImp fun i => ?_
      split <;> rfl
    | @arm p count job ok => cases ok <;> exact .refl
    | _ => exact .refl

/-- Only a worker past its first `waitio = TRUE` on an imp arms registrations of it. -/
theorem WorkerMove.regs {pc pc' : WorkerPc} {act : WorkerAct} (hm : WorkerMove h pc act h' pc')
    {fd : Fd} {reg : Reg} (hreg : h'.epoll fd = some reg) (ha : reg.armed = true) :
    h.epoll fd = some reg ∨ pc.published false = some reg.data := by
  cases hm with
  | @closeFd q n =>
    change Function.update h.epoll (.user n) none fd = some reg at hreg
    by_cases hfd : fd = .user n
    · rw [hfd, Function.update_self] at hreg
      cases hreg
    · rw [Function.update_of_ne hfd] at hreg
      exact .inl hreg
  | nested => exact .inl (summonStep_regs hreg ha)
  | @arm q count job ok =>
    unfold setPollAction at hreg
    split at hreg
    next =>
      by_cases hfd : fd = job.fd q
      · subst hfd
        change Function.update h.epoll (job.fd q) _ (job.fd q) = some reg at hreg
        rw [Function.update_self] at hreg
        obtain rfl := Option.some.inj hreg
        exact .inr rfl
      · exact .inl ((Function.update_of_ne hfd _ _).symm.trans hreg)
    next => exact .inl hreg
  | _ => exact .inl hreg

/-- The epoll thread gets events from armed registrations only, and goes on holding the
imp it has woken. -/
theorem EpollerMove.pending {pc pc' : EpollerPc} (hm : EpollerMove h pc h' pc')
    (hmem : imp ∈ pc'.pending debug) :
    imp ∈ pc.pending debug ∨ pc.wakes = some imp ∨
      ∃ fd reg, h.epoll fd = some reg ∧ reg.armed = true ∧ reg.data = imp := by
  have hnext : ∀ batch : List ImpId, (nextEntry batch).pending debug = batch := by
    intro batch
    cases batch <;> rfl
  cases hm with
  | wait hb =>
    rw [hnext] at hmem
    obtain ⟨fd, reg, hreg, ha, -, hdata⟩ := hb.source imp hmem
    exact .inr (.inr ⟨fd, reg, hreg, ha, hdata⟩)
  | cancel => exact .inl hmem
  | wake => exact .inl (List.mem_cons_of_mem _ hmem)
  | @awake q rest =>
    change imp ∈ (if debug then q :: rest else rest) at hmem
    split at hmem
    · exact .inl hmem
    · exact .inl (List.mem_cons_of_mem _ hmem)
  | uncount => exact .inl hmem
  | @run q rest =>
    change imp ∈ (if debug then q :: rest else rest) at hmem
    split at hmem
    · rcases List.mem_cons.mp hmem with rfl | hrest
      · exact .inr (.inl rfl)
      · exact .inl hrest
    · exact .inl hmem
  | @log q rest =>
    rw [hnext] at hmem
    refine .inl ?_
    show imp ∈ if debug then q :: rest else rest
    split
    · exact List.mem_cons_of_mem _ hmem
    · exact hmem

theorem EpollerMove.regs {pc pc' : EpollerPc} (hm : EpollerMove h pc h' pc') {fd : Fd} {reg : Reg}
    (hreg : h'.epoll fd = some reg) (ha : reg.armed = true) :
    ∃ old, h.epoll fd = some old ∧ old.armed = true ∧ old.data = reg.data := by
  cases hm with
  | wait hb =>
    obtain ⟨armed, hold, himp⟩ := hb.kept fd reg hreg
    exact ⟨_, hold, himp ha, rfl⟩
  | _ => exact ⟨reg, hreg, ha, rfl⟩

/-- The timers to cancel are those of the events that were fetched. -/
theorem EpollerMove.cancels {pc pc' : EpollerPc} (hm : EpollerMove h pc h' pc')
    (hmem : imp ∈ pc'.cancels) :
    imp ∈ pc.cancels ∨
      ∃ fd reg, h.epoll fd = some reg ∧ reg.armed = true ∧ reg.data = imp := by
  have hnext : ∀ batch : List ImpId, (nextEntry batch).cancels = batch := by
    intro batch
    cases batch <;> rfl
  cases hm with
  | wait hb =>
    rw [hnext] at hmem
    obtain ⟨fd, reg, hreg, ha, -, hdata⟩ := hb.source imp hmem
    exact .inr ⟨fd, reg, hreg, ha, hdata⟩
  | cancel => exact .inl (List.mem_cons_of_mem _ hmem)
  | log =>
    rw [hnext] at hmem
    exact .inl hmem
  | _ => exact .inl hmem

theorem EpollerMove.bodyFreed {pc pc' : EpollerPc} (hm : EpollerMove h pc h' pc') :
    h.SameBodies h' := by
  cases hm with
  | wait hb =>
    obtain ⟨epoll, rfl⟩ := hb.frame
    exact .refl
  | cancel | wake => exact .modifyImp fun _ => rfl
  | _ => exact .refl

theorem EnvMove.regs {act : EnvAct} (hm : EnvMove h act h') : h'.epoll = h.epoll := by
  cases hm <;> rfl

theorem EnvMove.bodyFreed {act : EnvAct} (hm : EnvMove h act h') : h.SameBodies h' := by
  cases hm with
  | expire | post | kill => exact .modifyImp fun _ => rfl
  | scribble => exact .refl

/-- The maintainer frees the body it is at. -/
theorem MaintainerMove.bodyFreed {pc pc' : MaintainerPc} {closing : Closing}
    (hm : MaintainerMove h pc closing h' pc') (hf : (h'.imps imp).body.freed = true) :
    (h.imps imp).body.freed = true ∨ pc = .body imp ∧ pc' = .freeing imp := by
  have hsame : h.SameBodies h' → (h.imps imp).body.freed = true := fun hs => (hs imp).symm.trans hf
  cases hm with
  | @body p =>
    by_cases hp : imp = p
    · exact .inr ⟨hp ▸ rfl, hp ▸ rfl⟩
    · rw [impBodyDelete_of_ne h p imp hp] at hf
      exact .inl hf
  | drop | free => exact .inl (hsame (.modifyImp fun _ => rfl))
  | @take p q =>
    rw [beginDismiss_body] at hf
    exact .inl hf
  | _ => exact .inl hf

/-- It revives nobody, and leaves a body only by freeing the imp. -/
theorem MaintainerMove.life {pc pc' : MaintainerPc} {closing : Closing}
    (hm : MaintainerMove h pc closing h' pc') :
    ((h.imps imp).life = .freed → (h'.imps imp).life = .freed) ∧
      (pc = .freeing imp → (h'.imps imp).life = .freed) := by
  cases hm with
  | @free p =>
    refine ⟨fun hf => ?_, fun heq => ?_⟩
    · rcases modifyImp_cases h p imp fun i => { i with life := .freed } with heq | ⟨-, heq⟩
      · exact (congrArg Imp.life heq).trans hf
      · exact congrArg Imp.life heq
    · obtain rfl := MaintainerPc.freeing.inj heq
      show ((h.modifyImp p _).imps p).life = .freed
      rw [modifyImp_self]
  | take => exact ⟨fun hf => (beginDismiss_life _ _ imp).trans hf, nofun⟩
  | drop => exact ⟨fun hf => (emptyRequests_life h _ imp).trans hf, nofun⟩
  | body => exact ⟨fun hf => (impBodyDelete_life h _ imp).trans hf, nofun⟩
  | idle h₀ h₁ =>
    refine ⟨id, fun heq => ?_⟩
    rcases h₀ with rfl | rfl | rfl | rfl <;> cases heq
  | delete | uncount => exact ⟨id, nofun⟩

end Steps

/-! ## Runs -/

variable {s s' : Sys W R} {a : Act W R} {debug : Bool}

namespace Buried

/-- The imp the epoll thread has woken is not freed. -/
theorem summoned_of_wakes (hh : Held .custody false s) {imp : ImpId}
    (hw : s.epoller.wakes = some imp) : (s.heart.imps imp).life = .summoned := by
  refine hh.summoned_of_pos ?_
  have htok := token_of_wakes (k := .custody) hw
  have hshare : 0 ≤ heartShare .custody s.heart imp := heartShare_nonneg
  omega

theorem touches_of_closed {pc : MaintainerPc} {imp : ImpId} (hc : pc.closed = some imp) :
    imp ∈ pc.touches := by
  cases pc <;> first | exact hc | cases hc

/-- A step of a worker. -/
theorem worker_move (hh : Held .custody false s) (hb : Buried debug s) {w : Fin W} {act : WorkerAct}
    {shared : Shared} {pc : WorkerPc} (hm : WorkerMove s.heart (s.worker w) act shared.heart pc) :
    Buried debug { s with shared := shared, worker := Function.update s.worker w pc } := by
  -- a new armed registration is of an imp that is asleep, hence alive and not dismissed
  have hnew : ∀ fd reg, shared.heart.epoll fd = some reg → reg.armed = true →
      s.heart.epoll fd = some reg ∨ (s.heart.imps reg.data).waitio = some true := by
    intro fd reg hreg ha
    rcases hm.regs hreg ha with hold | hpub
    · exact .inl hold
    · exact .inr (hh.flag_of_published hpub)
  refine ⟨?_, fun imp hf => hb.epoller imp (hm.freed hf), ?_, ?_, ?_⟩
  · -- a worker that comes to log an imp held it, and nobody frees what is held
    intro imp hf v
    show (Function.update s.worker w pc v).lingers debug ≠ some imp
    by_cases hv : v = w
    · rw [hv, Function.update_self]
      intro hl
      have hfreed := hm.freed hf
      rcases hm.lingers hl with hl | hun | hpub
      · exact hb.worker imp hfreed w hl
      · exact absurd (hfreed.symm.trans (hh.summoned_of_unpublished hun)) (by simp)
      · have hup := hh.flag_of_published hpub
        exact absurd (hfreed.symm.trans (hh.summoned_of_flag hup)) (by simp)
    · rw [Function.update_of_ne hv]
      exact hb.worker imp (hm.freed hf) v
  · intro fd reg hreg ha hf
    have hfreed := hm.freed hf
    rcases hnew fd reg hreg ha with hold | hup
    · exact hb.regs fd reg hold ha hfreed
    · exact absurd (hfreed.symm.trans (hh.summoned_of_flag hup)) (by simp)
  · intro fd reg hreg ha hc
    rcases hnew _ reg hreg ha with hold | hup
    · exact hb.closed fd reg hold ha hc
    · exact hh.flag_of_dismissed (touches_of_closed hc) hup
  · intro fd reg hreg ha hc
    rcases hnew fd reg hreg ha with hold | hup
    · exact hb.freeing fd reg hold ha hc
    · have hc : s.maintainer = .freeing reg.data := hc
      refine hh.flag_of_dismissed ?_ hup
      rw [hc]
      rfl

/-- The maintainer goes on without freeing an imp and without a new registration. -/
theorem maintainer_advance (hb : Buried debug s) {shared : Shared} {h' : Heart}
    {pc : MaintainerPc} (hheart : shared.heart = h')
    (hlife : ∀ imp, (h'.imps imp).life = (s.heart.imps imp).life)
    (hregs : ∀ fd reg, h'.epoll fd = some reg → s.heart.epoll fd = some reg)
    (hclosed : ∀ n reg, h'.epoll (.user n) = some reg → reg.armed = true →
      pc.closed ≠ some reg.data)
    (hfreeing : ∀ fd reg, h'.epoll fd = some reg → reg.armed = true →
      pc ≠ .freeing reg.data) :
    Buried debug { s with shared := shared, maintainer := pc } := by
  have hheart' : Sys.heart { s with shared := shared, maintainer := pc } = h' := hheart
  refine ⟨?_, ?_, ?_, ?_, ?_⟩ <;> rw [hheart']
  · exact fun imp hf => hb.worker imp (hlife imp ▸ hf)
  · exact fun imp hf => hb.epoller imp (hlife imp ▸ hf)
  · exact fun fd reg hreg ha hf => hb.regs fd reg (hregs fd reg hreg) ha (hlife _ ▸ hf)
  · exact hclosed
  · exact hfreeing

/-- `fsm_delete` of an imp that no other thread handles or logs, when no armed registration
is left that carries it. -/
theorem maintainer_free (hb : Buried debug s) {shared : Shared} {imp : ImpId}
    (hheart : shared.heart = freeImp s.heart imp) (hm : s.maintainer = .freeing imp)
    (hworker : ∀ w, (s.worker w).lingers debug ≠ some imp)
    (hepoller : imp ∉ s.epoller.pending debug) :
    Buried debug { s with shared := shared, maintainer := .dec } := by
  have hheart' : Sys.heart { s with shared := shared, maintainer := .dec }
      = freeImp s.heart imp := hheart
  have hfreed : ∀ p, ((freeImp s.heart imp).imps p).life = .freed →
      p = imp ∨ (s.heart.imps p).life = .freed := by
    intro p hf
    by_cases hp : p = imp
    · exact .inl hp
    · rw [show (freeImp s.heart imp).imps p = _ from modifyImp_of_ne s.heart imp p _ hp] at hf
      exact .inr hf
  refine ⟨?_, ?_, ?_, ?_, ?_⟩ <;> rw [hheart']
  · intro p hf
    rcases hfreed p hf with rfl | hf
    · exact hworker
    · exact hb.worker p hf
  · intro p hf
    rcases hfreed p hf with rfl | hf
    · exact hepoller
    · exact hb.epoller p hf
  · intro fd reg hreg ha hf
    rcases hfreed reg.data hf with heq | hf
    · exact hb.freeing fd reg hreg ha (heq ▸ hm)
    · exact hb.regs fd reg hreg ha hf
  · exact fun _ _ _ _ hc => by cases hc
  · exact fun _ _ _ _ hc => by cases hc

/-- A step of the maintainer. -/
theorem maintainer_move (hk : Books s) (hb : Buried debug s)
    {closing : Closing} {shared : Shared} {pc : MaintainerPc}
    (hfree : FreeOk debug s (.maintainer closing)) (hclose : CloseOk s (.maintainer closing))
    (hm : MaintainerMove s.heart s.maintainer closing shared.heart pc) :
    Buried debug { s with shared := shared, maintainer := pc } := by
  have hown := hk.maintainer
  have hclosed := hb.closed
  unfold FreeOk at hfree
  unfold CloseOk at hclose
  generalize hpc₀ : s.maintainer = pc₀ at hm hfree hclose hclosed hown
  generalize hheart : shared.heart = h' at hm
  cases hm with
  | idle h₀ h₁ =>
    refine hb.maintainer_advance hheart (fun _ => rfl) (fun _ _ hreg => hreg) ?_ ?_
    · rcases h₁ with rfl | rfl | rfl | rfl | rfl <;> exact fun _ _ _ _ hc => by cases hc
    · rcases h₁ with rfl | rfl | rfl | rfl | rfl <;> exact fun _ _ _ _ hc => by cases hc
  | @take imp q _ hq =>
    refine hb.maintainer_advance hheart (fun p => ?_) (fun _ _ hreg => hreg) ?_ ?_
    · exact modifyImp_field { s.heart with terminatedQueue := q } imp p _ Imp.life fun _ => rfl
    · exact fun _ _ _ _ hc => by cases hc
    · exact fun _ _ _ _ hc => by cases hc
  | @delete imp =>
    obtain rfl : closing = .armed := hclose
    refine hb.maintainer_advance hheart (fun _ => rfl) (fun _ _ hreg => ?_) ?_ ?_
    · exact (fsmDelete_epoll.mp hreg).1
    · -- a registration that is left is not of a user descriptor of `imp`
      exact fun n reg hreg _ hc => (fsmDelete_epoll.mp hreg).2 n rfl (Option.some.inj hc).symm
    · exact fun _ _ _ _ hc => by cases hc
  | @drop imp =>
    refine hb.maintainer_advance hheart (fun p => ?_) (fun _ _ hreg => hreg) hclosed ?_
    · exact emptyRequests_life s.heart imp p
    · exact fun _ _ _ _ hc => by cases hc
  | @body imp =>
    refine hb.maintainer_advance hheart (fun p => ?_) (fun _ _ hreg => ?_) ?_ ?_
    · exact impBodyDelete_life s.heart imp p
    · exact (impBodyDelete_epoll.mp hreg).1
    · exact fun n reg hreg ha => hclosed n reg (impBodyDelete_epoll.mp hreg).1 ha
    · -- with the body gone as well, no registration carries `imp`
      intro fd reg hreg ha hc
      obtain ⟨hold, ht, he⟩ := impBodyDelete_epoll.mp hreg
      obtain rfl : imp = reg.data := by
        injection hc
      have hnull : reg.data ≠ 0 := by
        intro hzero
        have hknown := hown reg.data rfl
        rw [hzero] at hknown
        rcases hknown with hk' | hk' <;> exact absurd (hk.ledger.null.symm.trans hk') (by simp)
      have hcarries := hk.sound.carries fd reg hold
      cases fd with
      | user n => exact hclosed n reg hold ha rfl
      | timerFd p => exact ht (congrArg _ (hcarries.resolve_left hnull).symm)
      | eventFd p => exact he (congrArg _ (hcarries.resolve_left hnull).symm)
  | @free imp => exact hb.maintainer_free hheart hpc₀ hfree.1 hfree.2
  | uncount =>
    refine hb.maintainer_advance hheart (fun _ => rfl) (fun _ _ hreg => hreg) ?_ ?_
    · exact fun _ _ _ _ hc => by cases hc
    · exact fun _ _ _ _ hc => by cases hc

theorem move (hk : Books s) (hh : Held .custody false s) (hb : Buried debug s)
    (hfree : FreeOk debug s a) (hclose : CloseOk s a) (hm : s.Move a s') : Buried debug s' := by
  cases hm with
  | worker hm => exact hb.worker_move hh hm
  | initerCheck => exact ⟨hb.worker, hb.epoller, hb.regs, hb.closed, hb.freeing⟩
  | initer =>
    exact ⟨fun imp hf => hb.worker imp (summonStep_freed hf),
      fun imp hf => hb.epoller imp (summonStep_freed hf),
      fun fd reg hreg ha hf => hb.regs fd reg (summonStep_regs hreg ha) ha (summonStep_freed hf),
      fun fd reg hreg ha => hb.closed fd reg (summonStep_regs hreg ha) ha,
      fun fd reg hreg ha => hb.freeing fd reg (summonStep_regs hreg ha) ha⟩
  | @epoller fds h' pc hm =>
    have hlife : ∀ imp, (h'.imps imp).life = (s.heart.imps imp).life := hm.routine.life
    refine ⟨fun imp hf => hb.worker imp (hlife imp ▸ hf), ?_, ?_, ?_, ?_⟩
    · intro imp hf hmem
      have hf : (s.heart.imps imp).life = .freed := hlife imp ▸ hf
      rcases hm.pending hmem with hold | hwakes | ⟨fd, reg, hreg, ha, rfl⟩
      · exact hb.epoller imp hf hold
      · exact absurd (hf.symm.trans (summoned_of_wakes hh hwakes)) (by simp)
      · exact hb.regs fd reg hreg ha hf
    · intro fd reg hreg ha hf
      obtain ⟨old, hold, ha', hdata⟩ := hm.regs hreg ha
      exact hb.regs fd old hold ha' (hdata ▸ hlife reg.data ▸ hf)
    · intro fd reg hreg ha
      obtain ⟨old, hold, ha', hdata⟩ := hm.regs hreg ha
      exact hdata ▸ hb.closed fd old hold ha'
    · intro fd reg hreg ha
      obtain ⟨old, hold, ha', hdata⟩ := hm.regs hreg ha
      exact hdata ▸ hb.freeing fd old hold ha'
  | maintainer hm => exact hb.maintainer_move hk hfree hclose hm
  | @destroyer shared pc hheart =>
    have hheart' : Sys.heart { s with shared := shared, destroyer := pc } = s.heart := hheart
    refine ⟨?_, ?_, ?_, ?_, ?_⟩ <;> rw [hheart']
    · exact hb.worker
    · exact hb.epoller
    · exact hb.regs
    · exact hb.closed
    · exact hb.freeing
  | @env act h' hm =>
    have hlife : ∀ imp, (h'.imps imp).life = (s.heart.imps imp).life := hm.routine.life
    exact ⟨fun imp hf => hb.worker imp (hlife imp ▸ hf),
      fun imp hf => hb.epoller imp (hlife imp ▸ hf),
      fun fd reg hreg ha hf => hb.regs fd reg (hm.regs ▸ hreg) ha (hlife _ ▸ hf),
      fun fd reg hreg ha => hb.closed fd reg (hm.regs ▸ hreg) ha,
      fun fd reg hreg ha => hb.freeing fd reg (hm.regs ▸ hreg) ha⟩

theorem boot {h : Heart} (hi : h.Initial) : Buried debug (Sys.boot W R h) := by
  obtain ⟨nrImpMax, hmax, run, runBelow, term, termBelow, -, rfl⟩ := hi
  refine ⟨?_, ?_, ?_, ?_, ?_⟩
  · intro imp hf
    cases hf
  · intro imp hf
    cases hf
  all_goals
    intro fd reg hreg
    cases hreg

end Buried

namespace Bodiless

theorem move (hk : Books s) (hb : Buried debug s) (hd : Bodiless s) (hfree : FreeOk debug s a)
    (hm : s.Move a s') : Bodiless s' := by
  cases hm with
  | @worker w act shared pc hm =>
    refine ⟨fun imp hf => ?_, fun imp hf => hd.cancels imp (hm.bodyFreed hf)⟩
    rcases hd.life imp (hm.bodyFreed hf) with hl | hl
    · refine .inl ?_
      cases hsum : (s.worker w).summoning with
      | none => exact ((hm.routine hsum).life imp).trans hl
      | some spc =>
        obtain ⟨_, -, heq, -⟩ := hm.of_nested hsum
        obtain ⟨hcr, hco⟩ := births_worker s w
        rw [hsum] at hcr hco
        show (shared.heart.imps imp).life = .freed
        rw [heq]
        exact summonStep_keepsFreed hk.ledger hcr hco hl
    · exact .inr hl
  | initerCheck => exact ⟨hd.life, hd.cancels⟩
  | initer hpc =>
    refine ⟨fun imp hf => ?_, fun imp hf => hd.cancels imp (summonStep_bodyFreed hf)⟩
    rcases hd.life imp (summonStep_bodyFreed hf) with hl | hl
    · obtain ⟨hcr, hco⟩ := births_initer hpc
      exact .inl (summonStep_keepsFreed hk.ledger hcr hco hl)
    · exact .inr hl
  | @epoller fds h' pc hm =>
    refine ⟨fun imp hf => ?_, fun imp hf hmem => ?_⟩
    · rcases hd.life imp ((hm.bodyFreed imp).symm.trans hf) with hl | hl
      · exact .inl ((hm.routine.life imp).trans hl)
      · exact .inr hl
    · have hf : (s.heart.imps imp).body.freed = true :=
        (hm.bodyFreed imp).symm.trans hf
      rcases hm.cancels hmem with hold | ⟨fd, reg, hreg, ha, rfl⟩
      · exact hd.cancels imp hf hold
      · -- an armed registration is of an imp that is neither freed nor about to be
        rcases hd.life reg.data hf with hl | hl
        · exact hb.regs fd reg hreg ha hl
        · exact hb.freeing fd reg hreg ha hl
  | @maintainer closing shared pc hm =>
    refine ⟨fun imp hf => ?_, fun imp hf => ?_⟩
    · rcases hm.bodyFreed hf with hf | ⟨-, heq⟩
      · rcases hd.life imp hf with hl | hl
        · exact .inl (hm.life.1 hl)
        · exact .inl (hm.life.2 hl)
      · exact .inr heq
    · rcases hm.bodyFreed hf with hf | ⟨heq, -⟩
      · exact hd.cancels imp hf
      · unfold FreeOk at hfree
        rw [heq] at hfree
        exact hfree
  | @destroyer shared pc hheart =>
    have hheart' : Sys.heart { s with shared := shared, destroyer := pc } = s.heart := hheart
    refine ⟨?_, ?_⟩ <;> rw [hheart']
    · exact hd.life
    · exact hd.cancels
  | env hm =>
    refine ⟨fun imp hf => ?_, fun imp hf => hd.cancels imp ((hm.bodyFreed imp).symm.trans hf)⟩
    rcases hd.life imp ((hm.bodyFreed imp).symm.trans hf) with hl | hl
    · exact .inl ((hm.routine.life imp).trans hl)
    · exact .inr hl

theorem boot {h : Heart} (hi : h.Initial) : Bodiless (Sys.boot W R h) := by
  obtain ⟨nrImpMax, hmax, run, runBelow, term, termBelow, -, rfl⟩ := hi
  refine ⟨?_, ?_⟩
  · intro imp hf
    cases hf
  · intro imp hf
    cases hf

end Bodiless

/-! ## Who uses what -/

/-- A summoner uses only an imp it is about to hand over. -/
theorem SummonPc.touched {pc : SummonPc} {imp : ImpId} (ht : pc.touches = some imp) :
    pc = .counted imp ∨ pc = .ready imp := by
  cases pc with
  | checked | created => cases ht
  | counted q => exact .inl (Option.some.inj ht ▸ rfl)
  | ready q => exact .inr (Option.some.inj ht ▸ rfl)

/-- A worker uses an imp it holds, one it has published, one it logs, or the one it is
summoning. -/
theorem WorkerPc.touched {pc : WorkerPc} {imp : ImpId} (ht : pc.touches debug = some imp) :
    pc.unpublished = some imp ∨ pc.published false = some imp ∨ pc.lingers debug = some imp ∨
      ∃ spc, pc.summoning = some spc ∧ spc.touches = some imp := by
  cases pc with
  | idle | wakeup => cases ht
  | sleeping | returned => exact .inr (.inr (.inl ht))
  | soul q nested =>
    cases nested with
    | none => exact .inl ht
    | some spc => exact .inr (.inr (.inr ⟨spc, rfl, ht⟩))
  | looping q count | publishing q count =>
    cases count with
    | zero => exact .inl ht
    | succ n => exact .inr (.inl ht)
  | arming => exact .inr (.inl ht)
  | _ => exact .inl ht

/-- The epoll thread uses an imp of its batch, or the one it has woken. -/
theorem EpollerPc.touched {pc : EpollerPc} {imp : ImpId} (ht : pc.touches debug = some imp) :
    imp ∈ pc.pending debug ∨ pc.wakes = some imp := by
  cases pc with
  | waiting | woken => cases ht
  | entry q rest | waking q rest =>
    exact .inl (List.mem_cons.mpr (.inl (Option.some.inj ht).symm))
  | running q rest => exact .inr ht
  | logging q rest =>
    refine .inl ?_
    change (if debug then some q else none) = some imp at ht
    show imp ∈ if debug then q :: rest else rest
    split at ht
    next hd =>
      rw [if_pos hd]
      exact List.mem_cons.mpr (.inl (Option.some.inj ht).symm)
    next => cases ht

/-- A worker uses the body of an imp it holds, or has published. -/
theorem WorkerPc.touchedBody {pc : WorkerPc} {act : WorkerAct} {imp : ImpId}
    (ht : pc.touchesBody act = some imp) :
    pc.unpublished = some imp ∨ pc.published false = some imp := by
  unfold WorkerPc.touchesBody at ht
  split at ht
  all_goals first | exact .inl ht | exact .inr ht | cases ht

namespace Buried

/-- A summoner's imp is alive. -/
theorem summoner_live (hk : Books s) {imp : ImpId} {pc : SummonPc} (ht : pc.touches = some imp)
    (hco : atCounted imp (some pc) ≤ s.summoners (atCounted imp))
    (hready : pc = .ready imp → 1 ≤ tokens .custody s imp) (hh : Held .custody false s) :
    (s.heart.imps imp).life ≠ .freed := by
  rcases SummonPc.touched ht with rfl | rfl
  · have hone : atCounted imp (some (.counted imp)) = 1 := flag_eq_one rfl
    rw [hk.ledger.life_of_counted (hone ▸ hco)]
    simp
  · rw [hh.summoned_of_pos (hready rfl)]
    simp

/-- Nobody uses a freed imp. -/
theorem live_of_touches (hk : Books s) (hh : Held .custody false s) (hb : Buried debug s)
    {imp : ImpId} (ht : s.touches debug a = some imp) : (s.heart.imps imp).life ≠ .freed := by
  have hrest : 0 ≤ heartShare .custody s.heart imp := heartShare_nonneg
  cases a with
  | worker w act =>
    rcases WorkerPc.touched (show (s.worker w).touches debug = some imp from ht) with
      hun | hpub | hl | ⟨spc, hsum, ht⟩
    · rw [hh.summoned_of_unpublished hun]
      simp
    · rw [hh.summoned_of_flag (hh.flag_of_published hpub)]
      simp
    · exact fun hf => hb.worker imp hf w hl
    · refine summoner_live hk ht (hsum ▸ worker_le_summoners (atCounted_nonneg imp) w) ?_ hh
      rintro rfl
      have htok := token_of_ready (k := .custody) hsum
      omega
  | initer r ok =>
    obtain ⟨pc, hpc, ht⟩ := Option.bind_eq_some_iff.mp
      (show (s.initer r).bind SummonPc.touches = some imp from ht)
    refine summoner_live hk ht (hpc ▸ initer_le_summoners (atCounted_nonneg imp) r) ?_ hh
    rintro rfl
    have htok := token_of_initer (k := .custody) hpc
    omega
  | epoller fds =>
    rcases EpollerPc.touched (show s.epoller.touches debug = some imp from ht) with hp | hw
    · exact fun hf => hb.epoller imp hf hp
    · rw [summoned_of_wakes hh hw]
      simp
  | maintainer closing =>
    have htok := token_of_dismissed (show s.maintainer.touches = some imp from ht)
    rw [hh.summoned_of_pos (by omega)]
    simp
  | destroyer | env => cases ht

/-- Nobody uses a freed body. -/
theorem body_of_touchesBody (hh : Held .custody false s) (hd : Bodiless s) {imp : ImpId}
    (ht : s.touchesBody a = some imp) : (s.heart.imps imp).body.freed = false := by
  refine Bool.eq_false_iff.mpr fun hf => ?_
  cases a with
  | worker w act =>
    rcases WorkerPc.touchedBody (show (s.worker w).touchesBody act = some imp from ht) with
      hun | hpub
    · rcases hd.life imp hf with hl | hl
      · exact absurd (hl.symm.trans (hh.summoned_of_unpublished hun)) (by simp)
      · exact hh.not_dismissed_of_unpublished hun (by rw [hl]; rfl)
    · have hup := hh.flag_of_published hpub
      rcases hd.life imp hf with hl | hl
      · exact absurd (hl.symm.trans (hh.summoned_of_flag hup)) (by simp)
      · exact hh.flag_of_dismissed (by rw [hl]; rfl) hup
  | epoller fds =>
    refine hd.cancels imp hf ?_
    change s.epoller.touchesBody = some imp at ht
    cases hpc : s.epoller with
    | entry q rest =>
      rw [hpc] at ht
      exact List.mem_cons.mpr (.inl (Option.some.inj ht).symm)
    | _ =>
      rw [hpc] at ht
      cases ht
  | maintainer closing =>
    change s.maintainer.touchesBody = some imp at ht
    cases hpc : s.maintainer with
    | body q =>
      rw [hpc] at ht
      obtain rfl := Option.some.inj ht
      rcases hd.life q hf with hl | hl
      · have hrest : 0 ≤ heartShare .custody s.heart q := heartShare_nonneg
        have htok := token_of_dismissed (show s.maintainer.touches = some q by rw [hpc]; rfl)
        exact absurd (hl.symm.trans (hh.summoned_of_pos (by omega))) (by simp)
      · exact absurd (hpc.symm.trans hl) nofun
    | _ =>
      rw [hpc] at ht
      cases ht
  | initer | destroyer | env => cases ht

/-- No step uses a freed imp or body. -/
theorem no_use (hk : Books s) (hh : Held .custody false s) (hb : Buried debug s)
    (hd : Bodiless s) (a : Act W R) : s.useAfterFree debug a = false :=
  useAfterFree_eq_false.mpr ⟨fun _ ht => hb.live_of_touches hk hh ht,
    fun _ ht => body_of_touchesBody hh hd ht⟩

end Buried

/-- The side condition of this module. -/
def LifeOk (debug : Bool) (s : Sys W R) (a : Act W R) : Prop :=
  WakeOk false s a ∧ FreeOk debug s a ∧ CloseOk s a

instance (debug : Bool) (s : Sys W R) (a : Act W R) : Decidable (LifeOk debug s a) := by
  unfold LifeOk
  infer_instance

/-- Nobody is left with a freed imp or body, and none was used. -/
theorem buried_reach (hr : (dungeon debug).Reach (LifeOk debug) s) :
    Buried debug s ∧ Bodiless s ∧ s.shared.stale = false := by
  refine hr.invariant (I := fun s => Buried debug s ∧ Bodiless s ∧ s.shared.stale = false) ?_ ?_
  · rintro s ⟨h, hi, rfl⟩
    exact ⟨Buried.boot hi, Bodiless.boot hi, rfl⟩
  · rintro s a s' hreach ⟨hb, hd, -⟩ ⟨hwake, hfree, hclose⟩ hs
    have hk := books_reach hreach
    have hh : Held .custody false s := held_reach (hreach.mono fun _ _ hok => hok.1)
    obtain ⟨hstale, ⟨hused, -⟩ | ⟨-, hm⟩⟩ := step_move hs
    · rw [hb.no_use hk hh hd a] at hused
      cases hused
    · exact ⟨hb.move hk hh hfree hclose (move_move hm), hd.move hk hb hfree (move_move hm),
        (move_stale hm).trans hstale⟩

/-- An imp is dismissed once. -/
theorem dismissals_le_one (hk : Books s) (hh : Held .custody false s) (imp : ImpId) :
    (s.heart.imps imp).dismissals ≤ 1 := by
  have heq := hk.ledger.dismissals_eq imp
  have hshare : 0 ≤ heartShare .custody s.heart imp := heartShare_nonneg
  by_cases hm : s.maintainer.touches = some imp
  · have htok := token_of_dismissed hm
    rw [hh.summoned_of_pos (by omega), flag_eq_one hm] at heq
    simp at heq
    omega
  · rw [flag_eq_zero hm] at heq
    have hflag : flag (decide ((s.heart.imps imp).life = .freed)) ≤ 1 := flag_le_one _
    omega

/-- **No use after dismissal**, in every run that wakes only imps whose driver has left
its loop, and frees only bodies and imps that no other thread still has to handle or to log. -/
theorem no_use_after_free (hr : (dungeon debug).Reach (LifeOk debug) s) :
    s.shared.stale = false ∧ ∀ imp, (s.heart.imps imp).dismissals ≤ 1 :=
  ⟨(buried_reach hr).2.2,
    dismissals_le_one (books_reach hr) (held_reach (hr.mono fun _ _ hok => hok.1))⟩

/-- `n` steps of the maintainer; every `fsm_delete` closes what its imp armed. -/
def maintains (n : ℕ) : List (Act W R) := List.replicate n (.maintainer .armed)

/-- The imp sleeps on a descriptor, is woken, run to `TO_TERM` and dismissed. -/
def lifeAndDeath : List (Act 2 1) :=
  summons 0 ++ enters 0 ++ blocks 0 5 ++ goes 0 3 ++ [.epoller [.user 5]] ++ epolls 5 ++ enters 1
    ++ [.worker 1 (.ret toTerm)] ++ goes 1 3 ++ maintains 7

theorem no_use_after_free_lifeAndDeath : ∃ s : Sys 2 1, (dungeon false).Reach (LifeOk false) s ∧
    (s.heart.imps 1).life = .freed ∧ s.shared.stale = false ∧
    ∀ imp, (s.heart.imps imp).dismissals ≤ 1 := by
  obtain ⟨s, hr, hp⟩ : ∃ s : Sys 2 1, (dungeon false).Reach (LifeOk false) s ∧
      decide ((s.heart.imps 1).life = .freed) = true :=
    Machine.exec_reach (init_blank false Nat.one_pos (by decide))
      (show ((dungeon false).exec (LifeOk false) _ lifeAndDeath).map _ = some true by
        decide +kernel)
  exact ⟨s, hr, of_decide_eq_true hp, no_use_after_free hr⟩

/-- Worker 0 is in the driver's loop, with the only descriptor armed. The event arrives,
worker 1 runs the woken imp to `TO_TERM`, the maintainer frees it, and worker 0 fetches
the next request from the freed list. -/
def dismissInLoop : List (Act 2 1) :=
  summons 0 ++ enters 0 ++ blocks 0 5 ++ [.epoller [.user 5]] ++ epolls 5 ++ enters 1
    ++ [.worker 1 (.ret toTerm)] ++ goes 1 3 ++ maintains 7 ++ goes 0 1

/-- Without the condition an imp is used after its dismissal. -/
theorem use_after_free : ¬ ∀ s : Sys 2 1, (dungeon false).Reach CloseOk s →
    s.shared.stale = false ∧ ∀ imp, (s.heart.imps imp).dismissals ≤ 1 := by
  intro hall
  obtain ⟨s, hr, hp⟩ : ∃ s : Sys 2 1, (dungeon false).Reach CloseOk s ∧ s.shared.stale = true :=
    Machine.exec_reach (init_blank false Nat.one_pos (by decide))
      (show ((dungeon false).exec CloseOk _ dismissInLoop).map _ = some true by decide +kernel)
  rw [(hall s hr).1] at hp
  cases hp

end Dungeon

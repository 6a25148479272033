import Dungeon.Ledger

/-!
# The books: what holds in every run

- `Heart.Sound`, `Books`: whatever a queue, a thread or an armed registration points to was
  summoned at some time, and the ledger holds with the shares the threads have.
- `WorkerMove.routine`, `EpollerMove.routine`, `EnvMove.routine`: which steps are routine.
- `books_reach`: the books hold in every reachable state. This is the ground the
  conditional results stand on.
-/

namespace Dungeon

open Tally

variable {W R : ℕ}

/-! ## References -/

/-- Queued imps and the data of armed registrations were summoned, and a body's
descriptors carry their own imp. -/
structure Heart.Sound (h : Heart) : Prop where
  run : ∀ imp ∈ h.runQueue.toList, h.Known imp
  term : ∀ imp ∈ h.terminatedQueue.toList, h.Known imp
  regs : ∀ fd reg, h.epoll fd = some reg → reg.armed = true → h.Known reg.data
  carries : ∀ fd reg, h.epoll fd = some reg → fd.Carries reg.data

/-- The imp a summoner is about to put into the run queue. -/
def SummonPc.mentions : Option SummonPc → List ImpId
  | some (.ready imp) => [imp]
  | _ => []

@[simp] theorem mentions_summonCheck (h : Heart) (ok : Bool) :
    SummonPc.mentions (summonCheck h ok) = [] := by
  rcases summonCheck_cases h ok with ⟨-, heq⟩ | ⟨-, heq⟩ <;> simp [heq, SummonPc.mentions]

/-- The imps a worker holds pointers to. -/
def WorkerPc.mentions : WorkerPc → List ImpId
  | .idle => []
  | .soul imp nested => imp :: SummonPc.mentions nested
  | .fetched imp => [imp]
  | .cancelling imp => [imp]
  | .reducting imp _ => [imp]
  | .storing imp _ => [imp]
  | .testing imp => [imp]
  | .killed imp => [imp]
  | .marking imp => [imp]
  | .terminating imp => [imp]
  | .wakeup imp => [imp]
  | .looping imp _ => [imp]
  | .publishing imp _ _ => [imp]
  | .arming imp _ _ => [imp]
  | .sleeping imp => [imp]
  | .rerunning imp => [imp]
  | .returned imp => [imp]

/-- The imps the epoll thread holds pointers to. -/
def EpollerPc.mentions : EpollerPc → List ImpId
  | .waiting => []
  | .entry imp rest => imp :: rest
  | .waking imp rest => imp :: rest
  | .woken imp rest => imp :: rest
  | .running imp rest => imp :: rest
  | .logging imp rest => imp :: rest

@[simp] theorem mentions_nextEntry (batch : List ImpId) : (nextEntry batch).mentions = batch := by
  cases batch <;> rfl

section Sound

variable {h h' : Heart} {ps : List ImpId}

theorem Routine.sound (hr : Routine ps h h') (hs : h.Sound) (hps : ∀ imp ∈ ps, h.Known imp) :
    h'.Sound where
  run imp hmem := (hr.run imp hmem).elim (fun hold => hr.known (hs.run imp hold))
    fun hnew => hr.known (hps imp hnew)
  term imp hmem := (hr.term imp hmem).elim (fun hold => hr.known (hs.term imp hold))
    fun hnew => hr.known (hps imp hnew)
  regs fd reg hreg ha := by
    rcases hr.epoll fd reg hreg with ⟨armed, hold, himp⟩ | ⟨hnew, -⟩
    · have hk : h.Known reg.data := hs.regs fd { reg with armed := armed } hold (himp ha)
      exact hr.known hk
    · exact hr.known (hps _ hnew)
  carries fd reg hreg := by
    rcases hr.epoll fd reg hreg with ⟨armed, hold, -⟩ | ⟨-, hnew⟩
    · have hc : fd.Carries reg.data := hs.carries fd { reg with armed := armed } hold
      exact hc
    · exact hnew

/-- Queues and registrations that did not change stay sound when no imp is forgotten. -/
theorem Heart.Sound.mono (hs : h.Sound) (hk : ∀ imp, h.Known imp → h'.Known imp)
    (hrun : h'.runQueue = h.runQueue)
    (hterm : ∀ imp ∈ h'.terminatedQueue.toList, imp ∈ h.terminatedQueue.toList)
    (hepoll : h'.epoll = h.epoll) : h'.Sound where
  run imp hmem := hk imp (hs.run imp (hrun ▸ hmem))
  term imp hmem := hk imp (hs.term imp (hterm imp hmem))
  regs fd reg hreg ha := hk _ (hs.regs fd reg (hepoll ▸ hreg) ha)
  carries fd reg hreg := hs.carries fd reg (hepoll ▸ hreg)

variable {created counted dismissing : ImpId → ℤ} {due : ℤ}

theorem Ledger.known_ne_next (hl : Ledger h created counted dismissing due) {imp : ImpId}
    (hk : h.Known imp) : imp ≠ h.nextId := by
  rintro rfl
  have hun := hl.fresh h.nextId (Nat.le_refl _)
  rcases hk with hk | hk <;> exact absurd (hun.symm.trans hk) (by simp)

/-- Overwriting an imp that is not known, or that stays known, forgets nobody. -/
theorem known_modifyImp {imp q : ImpId} {f : Imp → Imp} (hq : h.Known q)
    (hf : h.Known imp → (f (h.imps imp)).life = .summoned ∨ (f (h.imps imp)).life = .freed) :
    (h.modifyImp imp f).Known q := by
  unfold Heart.Known
  by_cases heq : q = imp
  · rw [heq, modifyImp_self]
    exact hf (heq ▸ hq)
  · rw [modifyImp_of_ne h imp q f heq]
    exact hq

/-- A summoner only holds imps at the stage of life its counter says. -/
theorem Ledger.life_of_created (hl : Ledger h created counted dismissing due) {imp : ImpId}
    (hcr : 1 ≤ created imp) : (h.imps imp).life = .created := by
  rw [hl.created_eq] at hcr
  exact of_flag_pos (by omega)

theorem Ledger.life_of_counted (hl : Ledger h created counted dismissing due) {imp : ImpId}
    (hco : 1 ≤ counted imp) : (h.imps imp).life = .counted := by
  rw [hl.counted_eq] at hco
  exact of_flag_pos (by omega)

/-- A step of `imp_summon` forgets nobody. -/
theorem summonStep_known (hl : Ledger h created counted dismissing due) {pc : SummonPc}
    (hcr : ∀ q, atCreated q (some pc) ≤ created q) (hco : ∀ q, atCounted q (some pc) ≤ counted q)
    {q : ImpId} (hq : h.Known q) : (summonStep h pc).1.Known q := by
  cases pc with
  | checked ok =>
    cases ok with
    | false => exact hq
    | true =>
      have hsame : (summonStep h (.checked true)).1.imps q = h.imps q :=
        Function.update_of_ne (hl.known_ne_next hq) _ _
      unfold Heart.Known
      rw [hsame]
      exact hq
  | created imp =>
    show (h.modifyImp imp fun i => { i with life := .counted }).Known q
    refine known_modifyImp hq fun hk => ?_
    have hlife := hl.life_of_created ((flag_eq_one rfl).symm.trans_le (hcr imp))
    rcases hk with hk | hk <;> exact absurd (hlife.symm.trans hk) (by simp)
  | counted imp =>
    show (h.modifyImp imp fun i => { i with waitio := some false, life := .summoned }).Known q
    exact known_modifyImp hq fun _ => .inl rfl
  | ready imp => exact hq

/-- A step of `imp_summon` keeps the references. -/
theorem summonStep_sound (hl : Ledger h created counted dismissing due) {pc : SummonPc}
    (hcr : ∀ q, atCreated q (some pc) ≤ created q) (hco : ∀ q, atCounted q (some pc) ≤ counted q)
    (hs : h.Sound) (hps : ∀ imp ∈ SummonPc.mentions (some pc), h.Known imp) :
    (summonStep h pc).1.Sound := by
  have hk : ∀ q, h.Known q → (summonStep h pc).1.Known q := fun q => summonStep_known hl hcr hco
  cases pc with
  | checked ok =>
    cases ok with
    | false => exact hs.mono hk rfl (fun _ hmem => hmem) rfl
    | true =>
      refine ⟨fun imp hmem => hk imp (hs.run imp hmem), fun imp hmem => hk imp (hs.term imp hmem),
        fun fd reg hreg ha => ?_, fun fd reg hreg => ?_⟩
      · rcases impNew_epoll hreg with hold | rfl
        · exact hk _ (hs.regs fd reg hold ha)
        · cases ha
      · rcases impNew_epoll hreg with hold | rfl
        · exact hs.carries fd reg hold
        · cases fd <;> first | exact .inl rfl | trivial
  | created imp => exact hs.mono hk rfl (fun _ hmem => hmem) rfl
  | counted imp => exact hs.mono hk rfl (fun _ hmem => hmem) rfl
  | ready imp => exact (Routine.impRun (List.mem_singleton.mpr rfl)).sound hs hps

/-- The imp that `imp_summon` hands to the run queue has been begun. -/
theorem summonStep_mentions {pc : SummonPc} :
    ∀ q ∈ SummonPc.mentions (summonStep h pc).2, (summonStep h pc).1.Known q := by
  intro q hq
  cases pc with
  | checked ok => cases ok <;> cases hq
  | created imp => cases hq
  | counted imp =>
    obtain rfl := List.mem_singleton.mp hq
    left
    show ((h.modifyImp q fun i =>
      { i with waitio := some false, life := .summoned }).imps q).life = _
    rw [modifyImp_self]
  | ready imp => cases hq

end Sound

/-! ## Routine steps of the threads -/

section Steps

variable {h h' : Heart}

/-- Every step of a worker outside `imp_summon` is routine for the imps it mentions. -/
theorem WorkerMove.routine {pc pc' : WorkerPc} {act : WorkerAct} (hm : WorkerMove h pc act h' pc')
    (hout : pc.summoning = none) : Routine pc.mentions h h' := by
  cases hm with
  | fetch hq => exact .dequeue hq
  | timeout | noTimeout | cancel | reduct | store | enter | clear | setTimer | fetchJob | publish =>
    dsimp only [cleanupTimer, impCancelTimer, cleanupEvent, storeEventMask, beginSoul, setWaitio,
      askTimer, Dungeon.fetchJob]
    exact .modifyImp (fun _ => rfl) fun _ => rfl
  | setIoev | mark =>
    dsimp only [impSetIoev, appendJob]
    refine .modifyImp (fun i => ?_) fun i => ?_ <;> split <;> rfl
  | closeFd => exact .closeFd _
  | nested => cases hout
  | term => exact .impTerm (List.mem_singleton.mpr rfl)
  | arm => exact .setPollAction (List.mem_singleton.mpr rfl) _ _
  | sleep => exact .nrWaitio _
  | rerun => exact .impRun (List.mem_singleton.mpr rfl)
  | kill | alert | summon | retTerm | ret | wakeup | doneSleep | doneRun | leave => exact .refl

/-- A worker outside `imp_summon` gets new pointers from the run queue only. -/
theorem WorkerMove.mentions {pc pc' : WorkerPc} {act : WorkerAct} (hm : WorkerMove h pc act h' pc')
    (hout : pc.summoning = none) :
    ∀ q ∈ pc'.mentions, q ∈ pc.mentions ∨ q ∈ h.runQueue.toList := by
  intro q hq
  cases hm with
  | fetch hdeq =>
    obtain rfl := List.mem_singleton.mp hq
    exact .inr ((Queue.queueDequeueNb_eq_some hdeq).1 ▸ List.mem_cons_self)
  | nested => cases hout
  | summon =>
    rw [WorkerPc.mentions, mentions_summonCheck] at hq
    exact .inl hq
  | leave => cases hq
  | _ => exact .inl hq

/-- Outside `imp_summon` a worker has no share in births, and gets none. -/
theorem WorkerMove.no_birth {pc pc' : WorkerPc} {act : WorkerAct} (hm : WorkerMove h pc act h' pc')
    (hout : pc.summoning = none) (q : ImpId) :
    (atCreated q pc.summoning = 0 ∧ atCreated q pc'.summoning = 0) ∧
      (atCounted q pc.summoning = 0 ∧ atCounted q pc'.summoning = 0) := by
  cases hm with
  | nested => cases hout
  | summon =>
    exact ⟨⟨rfl, atCreated_summonCheck q h _⟩, rfl, atCounted_summonCheck q h _⟩
  | _ => exact ⟨⟨rfl, rfl⟩, rfl, rfl⟩

theorem EpollerMove.routine {pc pc' : EpollerPc} (hm : EpollerMove h pc h' pc') :
    Routine pc.mentions h h' := by
  cases hm with
  | wait hb => exact .reported hb
  | cancel | wake =>
    dsimp only [impCancelTimer, setWaitio]
    exact .modifyImp (fun _ => rfl) fun _ => rfl
  | uncount => exact .nrWaitio _
  | run => exact .impRun List.mem_cons_self
  | awake | log => exact .refl

theorem EpollerMove.mentions {pc pc' : EpollerPc} (hm : EpollerMove h pc h' pc') (hs : h.Sound)
    (hps : ∀ q ∈ pc.mentions, h.Known q) : ∀ q ∈ pc'.mentions, h.Known q := by
  intro q hq
  cases hm with
  | wait hb =>
    rw [mentions_nextEntry] at hq
    obtain ⟨fd, reg, hreg, ha, -, rfl⟩ := hb.source q hq
    exact hs.regs fd reg hreg ha
  | log =>
    rw [mentions_nextEntry] at hq
    exact hps q (List.mem_cons_of_mem _ hq)
  | _ => exact hps q hq

theorem EnvMove.routine {act : EnvAct} (hm : EnvMove h act h') : Routine [] h h' := by
  cases hm with
  | expire | post | kill => exact .modifyImp (fun _ => rfl) fun _ => rfl
  | scribble => exact .scribble _

end Steps

/-! ## The books of the system -/

/-- A sum over everybody who may be inside `imp_summon`. -/
def Sys.summoners (s : Sys W R) (f : Option SummonPc → ℤ) : ℤ :=
  tally Finset.univ (fun pc : WorkerPc => f pc.summoning) s.worker + tally Finset.univ f s.initer

/-- The ledger and the references of a state. -/
structure Books (s : Sys W R) : Prop where
  ledger : Ledger s.heart (fun imp => s.summoners (atCreated imp))
    (fun imp => s.summoners (atCounted imp))
    (fun imp => flag (s.maintainer.touches = some imp)) (flag (s.maintainer = .dec))
  sound : s.heart.Sound
  worker : ∀ w, ∀ imp ∈ (s.worker w).mentions, s.heart.Known imp
  initer : ∀ r, ∀ imp ∈ SummonPc.mentions (s.initer r), s.heart.Known imp
  epoller : ∀ imp ∈ s.epoller.mentions, s.heart.Known imp
  maintainer : ∀ imp ∈ s.maintainer.touches, s.heart.Known imp

section Summoners

variable {s : Sys W R} {f : Option SummonPc → ℤ}

theorem worker_le_summoners (hf : ∀ pc, 0 ≤ f pc) (w : Fin W) :
    f (s.worker w).summoning ≤ s.summoners f := by
  have hw : f (s.worker w).summoning ≤ _ :=
    single_le_tally (f := fun pc : WorkerPc => f pc.summoning) (g := s.worker)
      (fun pc => hf pc.summoning) (Finset.mem_univ w)
  have hr : 0 ≤ tally Finset.univ f s.initer := tally_nonneg hf
  unfold Sys.summoners
  omega

theorem initer_le_summoners (hf : ∀ pc, 0 ≤ f pc) (r : Fin R) :
    f (s.initer r) ≤ s.summoners f := by
  have hr : f (s.initer r) ≤ _ := single_le_tally (g := s.initer) hf (Finset.mem_univ r)
  have hw : 0 ≤ tally Finset.univ (fun pc : WorkerPc => f pc.summoning) s.worker :=
    tally_nonneg fun pc => hf pc.summoning
  unfold Sys.summoners
  omega

theorem summoners_worker (sh : Shared) (w : Fin W) (pc : WorkerPc) :
    Sys.summoners { s with shared := sh, worker := Function.update s.worker w pc } f
      = s.summoners f - f (s.worker w).summoning + f pc.summoning := by
  unfold Sys.summoners
  dsimp only
  rw [tally_update (Finset.mem_univ w)]
  omega

theorem summoners_initer (sh : Shared) (r : Fin R) (pc : Option SummonPc) :
    Sys.summoners { s with shared := sh, initer := Function.update s.initer r pc } f
      = s.summoners f - f (s.initer r) + f pc := by
  unfold Sys.summoners
  dsimp only
  rw [tally_update (Finset.mem_univ r)]
  omega

end Summoners

variable {s s' : Sys W R} {a : Act W R} {debug : Bool}

theorem atCreated_nonneg (imp : ImpId) (pc : Option SummonPc) : 0 ≤ atCreated imp pc :=
  flag_nonneg _

theorem atCounted_nonneg (imp : ImpId) (pc : Option SummonPc) : 0 ≤ atCounted imp pc :=
  flag_nonneg _

/-- A worker's shares in the births are below the sums. -/
theorem births_worker (s : Sys W R) (w : Fin W) :
    (∀ q, atCreated q (s.worker w).summoning ≤ s.summoners (atCreated q)) ∧
      ∀ q, atCounted q (s.worker w).summoning ≤ s.summoners (atCounted q) :=
  ⟨fun q => worker_le_summoners (atCreated_nonneg q) w,
    fun q => worker_le_summoners (atCounted_nonneg q) w⟩

/-- So are those of an outside summoner. -/
theorem births_initer {s : Sys W R} {r : Fin R} {pc : Option SummonPc} (hpc : s.initer r = pc) :
    (∀ q, atCreated q pc ≤ s.summoners (atCreated q)) ∧
      ∀ q, atCounted q pc ≤ s.summoners (atCounted q) := by
  subst hpc
  exact ⟨fun q => initer_le_summoners (atCreated_nonneg q) r,
    fun q => initer_le_summoners (atCounted_nonneg q) r⟩

/-- The maintainer never dismisses an imp that is still to be born. -/
theorem Books.dismissing_next (hb : Books s) :
    flag (s.maintainer.touches = some s.heart.nextId) = 0 :=
  flag_eq_zero fun heq => hb.ledger.known_ne_next (hb.maintainer _ heq) rfl

theorem books_boot {h : Heart} (hi : h.Initial) : Books (Sys.boot W R h) := by
  obtain ⟨nrImpMax, hmax, run, runBelow, term, termBelow, hlt, rfl⟩ := hi
  have hzero : ∀ f : Option SummonPc → ℤ, f none = 0 →
      (Sys.boot W R (dungeonInit hmax run runBelow term termBelow)).summoners f = 0 := by
    intro f hf
    have hw : tally Finset.univ (fun pc : WorkerPc => f pc.summoning)
        (fun _ : Fin W => WorkerPc.idle) = 0 := tally_eq_zero fun _ _ => hf
    have hr : tally Finset.univ f (fun _ : Fin R => none) = 0 := tally_eq_zero fun _ _ => hf
    show tally _ _ _ + tally _ _ _ = 0
    rw [Sys.boot]
    dsimp only
    rw [hw, hr, add_zero]
  refine ⟨?_, ⟨?_, ?_, ?_, ?_⟩, ?_, ?_, ?_, ?_⟩
  · exact
      { null := rfl
        next_pos := Nat.one_pos
        fresh := fun _ _ => rfl
        max_lt := hlt
        run_max := rfl
        term_max := rfl
        created_eq := fun imp => hzero _ rfl
        counted_eq := fun imp => hzero _ rfl
        dismissals_eq := fun _ => rfl
        total_eq := rfl }
  all_goals intros; contradiction

/-- What a worker's step has to establish: the heart's part, and that the pointers it
ends with are known. -/
theorem Books.of_worker (hb : Books s) {w : Fin W} {sh : Shared} {pc : WorkerPc}
    (hk : ∀ q, s.heart.Known q → sh.heart.Known q) (hpc : ∀ q ∈ pc.mentions, sh.heart.Known q)
    (hs : sh.heart.Sound)
    (hl : Ledger sh.heart
      (fun q => s.summoners (atCreated q) - atCreated q (s.worker w).summoning
        + atCreated q pc.summoning)
      (fun q => s.summoners (atCounted q) - atCounted q (s.worker w).summoning
        + atCounted q pc.summoning)
      (fun q => flag (s.maintainer.touches = some q)) (flag (s.maintainer = .dec))) :
    Books { s with shared := sh, worker := Function.update s.worker w pc } := by
  refine ⟨?_, hs, ?_, fun r q hq => hk q (hb.initer r q hq), fun q hq => hk q (hb.epoller q hq),
    fun q hq => hk q (hb.maintainer q hq)⟩
  · refine { hl with created_eq := fun q => ?_, counted_eq := fun q => ?_ }
    · rw [summoners_worker]
      exact hl.created_eq q
    · rw [summoners_worker]
      exact hl.counted_eq q
  · intro v q hq
    change q ∈ (Function.update s.worker w pc v).mentions at hq
    by_cases hv : v = w
    · rw [hv, Function.update_self] at hq
      exact hpc q hq
    · rw [Function.update_of_ne hv] at hq
      exact hk q (hb.worker v q hq)

/-- A step of a worker keeps the books. -/
theorem Books.worker_move (hb : Books s) {w : Fin W} {act : WorkerAct} {sh : Shared} {pc : WorkerPc}
    (hm : WorkerMove s.heart (s.worker w) act sh.heart pc) :
    Books { s with shared := sh, worker := Function.update s.worker w pc } := by
  obtain ⟨hcr, hco⟩ := births_worker s w
  cases hsum : (s.worker w).summoning with
  | none =>
    have hr := hm.routine hsum
    have hk : ∀ q, s.heart.Known q → sh.heart.Known q := fun q => hr.known
    refine hb.of_worker hk ?_ (hr.sound hb.sound (hb.worker w)) ?_
    · intro q hq
      rcases hm.mentions hsum q hq with hold | hrun
      · exact hk q (hb.worker w q hold)
      · exact hk q (hb.sound.run q hrun)
    · have hl := hr.ledger hb.ledger
      refine { hl with created_eq := fun q => ?_, counted_eq := fun q => ?_ }
      · obtain ⟨⟨h₀, h₁⟩, -⟩ := hm.no_birth hsum q
        rw [h₀, h₁, sub_zero, add_zero]
        exact hl.created_eq q
      · obtain ⟨-, h₀, h₁⟩ := hm.no_birth hsum q
        rw [h₀, h₁, sub_zero, add_zero]
        exact hl.counted_eq q
  | some spc =>
    obtain ⟨imp, hpc, hheart, rfl⟩ := hm.of_nested hsum
    rw [hpc] at hcr hco
    have hk : ∀ q, s.heart.Known q → (summonStep s.heart spc).1.Known q :=
      fun q => summonStep_known hb.ledger hcr hco
    have hown : ∀ q ∈ SummonPc.mentions (some spc), s.heart.Known q := fun q hq =>
      hb.worker w q (hpc ▸ List.mem_cons_of_mem imp hq)
    refine hb.of_worker (hheart ▸ hk) ?_ ?_ ?_
    · rw [hheart]
      intro q hq
      rcases List.mem_cons.mp hq with rfl | hq
      · exact hk q (hb.worker w q (hpc ▸ List.mem_cons_self))
      · exact summonStep_mentions q hq
    · rw [hheart]
      exact summonStep_sound hb.ledger hcr hco hb.sound hown
    · rw [hheart, hpc]
      exact hb.ledger.summonStep hb.dismissing_next hcr hco

/-- A step of an outside summoner keeps the books. -/
theorem Books.initer_move (hb : Books s) {r : Fin R} {pc : SummonPc} (hpc : s.initer r = some pc) :
    Books { s with
      shared := { s.shared with heart := (summonStep s.heart pc).1 }
      initer := Function.update s.initer r (summonStep s.heart pc).2 } := by
  obtain ⟨hcr, hco⟩ := births_initer hpc
  have hk : ∀ q, s.heart.Known q → (summonStep s.heart pc).1.Known q :=
    fun q => summonStep_known hb.ledger hcr hco
  have hown : ∀ q ∈ SummonPc.mentions (some pc), s.heart.Known q :=
    fun q hq => hb.initer r q (hpc ▸ hq)
  have hl := hb.ledger.summonStep hb.dismissing_next hcr hco
  refine ⟨?_, summonStep_sound hb.ledger hcr hco hb.sound hown,
    fun w q hq => hk q (hb.worker w q hq), ?_, fun q hq => hk q (hb.epoller q hq),
    fun q hq => hk q (hb.maintainer q hq)⟩
  · refine { hl with created_eq := fun q => ?_, counted_eq := fun q => ?_ }
    · rw [summoners_initer, hpc]
      exact hl.created_eq q
    · rw [summoners_initer, hpc]
      exact hl.counted_eq q
  · intro v q hq
    change q ∈ SummonPc.mentions (Function.update s.initer r _ v) at hq
    by_cases hv : v = r
    · rw [hv, Function.update_self] at hq
      exact summonStep_mentions q hq
    · rw [Function.update_of_ne hv] at hq
      exact hk q (hb.initer v q hq)

/-- A routine step of a thread other than the workers and the summoners keeps the books,
given the pointers the thread ends with. -/
theorem Books.of_routine (hb : Books s) {ps : List ImpId} {sh : Shared}
    (hr : Routine ps s.heart sh.heart) (hps : ∀ q ∈ ps, s.heart.Known q)
    {epc : EpollerPc} (hepc : ∀ q ∈ epc.mentions, s.heart.Known q)
    {mpc : MaintainerPc} (hmpc : mpc.touches = s.maintainer.touches)
    (hdec : (mpc = .dec) = (s.maintainer = .dec)) (dpc : DestroyerPc) :
    Books { s with shared := sh, epoller := epc, maintainer := mpc, destroyer := dpc } where
  ledger := by
    have hl := hr.ledger hb.ledger
    simp only [← hmpc, ← hdec] at hl
    exact hl
  sound := hr.sound hb.sound hps
  worker w q hq := hr.known (hb.worker w q hq)
  initer r q hq := hr.known (hb.initer r q hq)
  epoller q hq := hr.known (hepc q hq)
  maintainer q hq := hr.known (hb.maintainer q (hmpc ▸ hq))

/-- What a step of the maintainer that takes, frees or uncounts an imp establishes. -/
theorem Books.of_death (hb : Books s) {sh : Shared} {pc : MaintainerPc}
    (hk : ∀ q, s.heart.Known q → sh.heart.Known q) (hs : sh.heart.Sound)
    (hpc : ∀ q ∈ pc.touches, sh.heart.Known q)
    (hl : Ledger sh.heart (fun q => s.summoners (atCreated q)) (fun q => s.summoners (atCounted q))
      (fun q => flag (pc.touches = some q)) (flag (pc = .dec))) :
    Books { s with shared := sh, maintainer := pc } :=
  ⟨hl, hs, fun w q hq => hk q (hb.worker w q hq), fun r q hq => hk q (hb.initer r q hq),
    fun q hq => hk q (hb.epoller q hq), hpc⟩

/-- A step of the maintainer keeps the books, unless it frees a freed imp. -/
theorem Books.maintainer_move (hb : Books s) {closing : Closing} {sh : Shared} {pc : MaintainerPc}
    (hlive : ∀ imp ∈ s.maintainer.touches, (s.heart.imps imp).life ≠ .freed)
    (hm : MaintainerMove s.heart s.maintainer closing sh.heart pc) :
    Books { s with shared := sh, maintainer := pc } := by
  have hl := hb.ledger
  have hown := hb.maintainer
  generalize hpc₀ : s.maintainer = pc₀ at hm hlive hl hown
  generalize hh : sh.heart = h' at hm
  -- the dequeue and the free change the ledger; the other steps are routine
  cases hm with
  | idle h₀ h₁ =>
    have hr : Routine [] s.heart sh.heart := by rw [hh]; exact .refl
    refine hb.of_routine hr (by simp) hb.epoller ?_ ?_ _ <;> rw [hpc₀]
    · rcases h₀ with rfl | rfl | rfl | rfl <;> rcases h₁ with rfl | rfl | rfl | rfl | rfl <;> rfl
    · rcases h₀ with rfl | rfl | rfl | rfl <;> rcases h₁ with rfl | rfl | rfl | rfl | rfl <;> simp
  | delete =>
    have hr : Routine [] s.heart sh.heart := by rw [hh]; exact .fsmDelete _ _
    exact hb.of_routine hr (by simp) hb.epoller (by rw [hpc₀]; rfl) (by rw [hpc₀]; simp) _
  | drop =>
    have hr : Routine [] s.heart sh.heart := by
      rw [hh]
      dsimp only [emptyRequests]
      exact .modifyImp (fun _ => rfl) fun _ => rfl
    exact hb.of_routine hr (by simp) hb.epoller (by rw [hpc₀]; rfl) (by rw [hpc₀]; simp) _
  | body =>
    have hr : Routine [] s.heart sh.heart := by rw [hh]; exact .impBodyDelete _
    exact hb.of_routine hr (by simp) hb.epoller (by rw [hpc₀]; rfl) (by rw [hpc₀]; simp) _
  | @take imp q _ hq =>
    obtain ⟨hlist, hmax, -⟩ := Queue.queueDequeueNb_eq_some hq
    have hmem : imp ∈ s.heart.terminatedQueue.toList := hlist ▸ List.mem_cons_self
    have hk : ∀ p, s.heart.Known p → sh.heart.Known p := by
      rw [hh]
      exact fun p hp => known_modifyImp hp fun hi => hi
    refine hb.of_death hk (hb.sound.mono hk (by rw [hh]; rfl) ?_ (by rw [hh]; rfl)) ?_ ?_
    · rw [hh, hlist]
      exact fun p hp => List.mem_cons_of_mem imp hp
    · intro p hp
      obtain rfl := Option.some.inj hp
      exact hk _ (hb.sound.term _ hmem)
    · rw [hh]
      refine hl.beginDismiss hmax fun p => ?_
      by_cases hp : p = imp
      · simp [hp, MaintainerPc.touches]
      · have hne : imp ≠ p := fun heq => hp heq.symm
        simp [hp, hne, MaintainerPc.touches]
  | @free imp =>
    have hlife : (s.heart.imps imp).life = .summoned := by
      rcases hown imp rfl with hk | hk
      · exact hk
      · exact absurd hk (hlive imp rfl)
    have hk : ∀ p, s.heart.Known p → sh.heart.Known p := by
      rw [hh]
      exact fun p hp => known_modifyImp hp fun _ => .inr rfl
    refine hb.of_death hk (hb.sound.mono hk (by rw [hh]; rfl) ?_ (by rw [hh]; rfl)) ?_ ?_
    · rw [hh]
      exact fun p hp => hp
    · intro p hp
      cases hp
    · rw [hh]
      refine hl.freeImp hlife fun p => ?_
      by_cases hp : p = imp
      · simp [hp, MaintainerPc.touches]
      · have hne : imp ≠ p := fun heq => hp heq.symm
        simp [hp, hne, MaintainerPc.touches]
  | uncount =>
    have hk : ∀ p, s.heart.Known p → sh.heart.Known p := by
      rw [hh]
      exact fun p hp => hp
    refine hb.of_death hk (hb.sound.mono hk (by rw [hh]; rfl) ?_ (by rw [hh]; rfl)) ?_ ?_
    · rw [hh]
      exact fun p hp => hp
    · intro p hp
      cases hp
    · rw [hh]
      exact hl.uncountImp

/-- Every move keeps the books, unless it touches a freed imp. -/
theorem Books.move (hb : Books s) (hlive : s.useAfterFree debug a = false) (hm : s.Move a s') :
    Books s' := by
  cases hm with
  | worker hm => exact hb.worker_move hm
  | initer hpc => exact hb.initer_move hpc
  | @initerCheck r ok hpc =>
    -- the check of `imp_summon` puts nobody at a birth
    have hno : ∀ f : Option SummonPc → ℤ, f none = 0 → f (summonCheck s.heart ok) = 0 →
        Sys.summoners { s with initer := Function.update s.initer r (summonCheck s.heart ok) } f
          = s.summoners f := by
      intro f h₀ h₁
      rw [summoners_initer s.shared r, hpc, h₀, h₁]
      omega
    refine ⟨?_, hb.sound, hb.worker, ?_, hb.epoller, hb.maintainer⟩
    · refine { hb.ledger with created_eq := fun q => ?_, counted_eq := fun q => ?_ }
      · rw [hno _ rfl (atCreated_summonCheck q s.heart ok)]
        exact hb.ledger.created_eq q
      · rw [hno _ rfl (atCounted_summonCheck q s.heart ok)]
        exact hb.ledger.counted_eq q
    · intro v q hq
      change q ∈ SummonPc.mentions (Function.update s.initer r _ v) at hq
      by_cases hv : v = r
      · rw [hv, Function.update_self, mentions_summonCheck] at hq
        cases hq
      · rw [Function.update_of_ne hv] at hq
        exact hb.initer v q hq
  | epoller hm =>
    exact hb.of_routine hm.routine hb.epoller (hm.mentions hb.sound hb.epoller) rfl rfl _
  | maintainer hm =>
    refine hb.maintainer_move (fun imp hi hf => ?_) hm
    exact (useAfterFree_eq_false.mp hlive).1 imp hi hf
  | @destroyer sh _ hh =>
    have hr : Routine [] s.heart sh.heart := by rw [hh]; exact .refl
    exact hb.of_routine hr (by simp) hb.epoller rfl rfl _
  | env hm => exact hb.of_routine hm.routine (by simp) hb.epoller rfl rfl _

/-- **The books hold in every run**, whatever races it has, up to the first step that
touches a freed imp. -/
theorem books_reach {ok : Sys W R → Act W R → Prop} (hr : (dungeon debug).Reach ok s) :
    Books s := by
  refine hr.invariant ?_ ?_
  · rintro s ⟨h, hi, rfl⟩
    exact books_boot hi
  · intro s a s' _ hb _ hs
    obtain ⟨-, ⟨-, rfl⟩ | ⟨hlive, hm⟩⟩ := step_move hs
    · exact ⟨hb.ledger, hb.sound, hb.worker, hb.initer, hb.epoller, hb.maintainer⟩
    · exact hb.move hlive (move_move hm)

end Dungeon

import Mathlib.Data.Fintype.Basic
import Dungeon.Lib.Machine
import Dungeon.Lib.Tally

/-!
# Monitors: one mutex, condition variables, any number of threads

A shared object whose operations are critical sections. An operation that cannot go on
waits on its condition variable; an operation that completes may signal one. A signal
makes one waiting thread runnable, if there is any, and which one is not determined.
A waiting thread may also wake up without a signal.

- `Monitor`: the object's operations. `enter` is one critical section: `none` when the
  operation has to wait, otherwise the new object and the condition it signals.
- `Monitor.Phase`: where a thread is. A thread whose operation is *pending* holds or
  awaits the mutex and will test its condition; a waiting one sleeps.
- `Monitor.machine`: all interleavings of the threads of `T`, by critical sections.
- `KeepsUp`: what a move must do with the number `avail` of threads that could go ahead in the
  operations of one kind for signals not to get lost, and `CoveredIn.step`: then, as long as
  somebody waits in one of them, that number is at most the number of threads signalled there.
- `Counts`: what every operation must do for that where a kind has a condition of its own, and
  `Counts.covered`: then it holds in every reachable state.
-/

/-- A shared object under one mutex. `cond` is the condition variable an operation waits
on and `env` what the surroundings may do to the object between two sections. -/
structure Monitor (σ Op Cond Env : Type*) where
  cond : Op → Option Cond
  enter : σ → Op → Option (σ × Option Cond)
  env : σ → Env → Option σ

namespace Monitor

/-- Where a thread is with respect to the monitor. -/
inductive Phase (Op : Type*) where
  /-- outside -/
  | idle
  /-- before its critical section -/
  | entering (op : Op)
  /-- asleep on the operation's condition variable -/
  | waiting (op : Op)
  /-- woken by a signal, its condition not yet tested again -/
  | signalled (op : Op)
  /-- woken without a signal, its condition not yet tested again -/
  | spurious (op : Op)
  deriving DecidableEq

/-- The operation whose critical section the thread is about to run. -/
def Phase.pending {Op : Type*} : Phase Op → Option Op
  | .entering op | .signalled op | .spurious op => some op
  | .idle | .waiting _ => none

/-- The object and the threads. -/
structure State (σ Op T : Type*) where
  object : σ
  phase : T → Phase Op

/-- One move: a thread calls an operation, runs a critical section (`woken` receives its
signal) or wakes up by itself; or the surroundings touch the object. -/
inductive Action (Op T Env : Type*) where
  | call (t : T) (op : Op)
  | run (t : T) (woken : Option T)
  | spurious (t : T)
  | env (e : Env)

variable {σ Op Cond Env T : Type*} [DecidableEq Cond] [DecidableEq T] [Fintype T]
variable (M : Monitor σ Op Cond Env)

/-- The thread sleeps on `c`. -/
def waitsOn (c : Cond) : Phase Op → Bool
  | .waiting op => M.cond op = some c
  | _ => false

/-- The thread has been signalled on `c` and has not yet tested its condition again. -/
def signalledOn (c : Cond) : Phase Op → Bool
  | .signalled op => M.cond op = some c
  | _ => false

/-- `pthread_cond_signal`: the thread `woken` becomes runnable. It must be one of the
waiting threads, and only when there is none the signal wakes nobody. -/
def wake (phase : T → Phase Op) : Option Cond → Option T → Option (T → Phase Op)
  | none, none => some phase
  | none, some _ => none
  | some c, none => if ∀ t, M.waitsOn c (phase t) = false then some phase else none
  | some c, some t =>
    match phase t with
    | .waiting op =>
      if M.cond op = some c then some (Function.update phase t (.signalled op)) else none
    | _ => none

/-- One move of the threads. A section that has to wait releases the mutex and sleeps. -/
def step (s : State σ Op T) : Action Op T Env → Option (State σ Op T)
  | .call t op =>
    match s.phase t with
    | .idle => some { s with phase := Function.update s.phase t (.entering op) }
    | _ => none
  | .run t woken =>
    -- the first run of a call's section, or another one after a wait
    match (s.phase t).pending with
    | none => none
    | some op =>
      match M.enter s.object op with
      | none =>
        if (M.cond op).isSome ∧ woken = none then
          some { s with phase := Function.update s.phase t (.waiting op) }
        else none
      | some (object, sig) =>
        (M.wake (Function.update s.phase t .idle) sig woken).map fun phase => ⟨object, phase⟩
  | .spurious t =>
    match s.phase t with
    | .waiting op => some { s with phase := Function.update s.phase t (.spurious op) }
    | _ => none
  | .env e => (M.env s.object e).map fun object => { s with object := object }

variable (T) in
/-- The threads of `T` over an object that starts as `init` says, all of them outside. -/
def machine (init : σ → Prop) : Machine (State σ Op T) (Action Op T Env) where
  init s := init s.object ∧ ∀ t, s.phase t = .idle
  step := M.step

/-- No thread is about to run a critical section. -/
def Quiet (s : State σ Op T) : Prop := ∀ t, (s.phase t).pending = none

/-- How many threads have been signalled on `c` and not yet tested their condition. -/
def nrSignalled (c : Cond) (phase : T → Phase Op) : ℕ :=
  (Finset.univ.filter fun t => M.signalledOn c (phase t) = true).card

variable {M} {phase phase' : T → Phase Op} {s s' : State σ Op T}

/-- What a signal does: it finds nobody, or it makes one waiting thread runnable. -/
theorem wake_cases {sig : Option Cond} {woken : Option T}
    (h : M.wake phase sig woken = some phase') :
    (phase' = phase ∧ ∀ c, sig = some c → ∀ t, M.waitsOn c (phase t) = false) ∨
    ∃ c t op, sig = some c ∧ woken = some t ∧ phase t = .waiting op ∧ M.cond op = some c ∧
      phase' = Function.update phase t (.signalled op) := by
  unfold wake at h
  split at h
  next => exact .inl ⟨(Option.some.inj h).symm, nofun⟩
  next => cases h
  next c =>
    split at h
    next hnone =>
      refine .inl ⟨(Option.some.inj h).symm, ?_⟩
      rintro _ ⟨⟩
      exact hnone
    next => cases h
  next c t =>
    split at h
    next op hop =>
      split at h
      next hc => exact .inr ⟨c, t, op, rfl, rfl, hop, hc, (Option.some.inj h).symm⟩
      next => cases h
    next => cases h

/-- **What one move does.** Only a completed section and the surroundings change the
object. -/
theorem step_cases {a : Action Op T Env} (h : M.step s a = some s') :
    (∃ t op, a = .call t op ∧ s.phase t = .idle ∧
      s' = ⟨s.object, Function.update s.phase t (.entering op)⟩) ∨
    (∃ t op c, a = .run t none ∧ (s.phase t).pending = some op ∧
      M.enter s.object op = none ∧ M.cond op = some c ∧
      s' = ⟨s.object, Function.update s.phase t (.waiting op)⟩) ∨
    (∃ t op sig woken, a = .run t woken ∧ (s.phase t).pending = some op ∧
      M.enter s.object op = some (s'.object, sig) ∧
      M.wake (Function.update s.phase t .idle) sig woken = some s'.phase) ∨
    (∃ t op, a = .spurious t ∧ s.phase t = .waiting op ∧
      s' = ⟨s.object, Function.update s.phase t (.spurious op)⟩) ∨
    (∃ e, a = .env e ∧ M.env s.object e = some s'.object ∧ s'.phase = s.phase) := by
  cases a with
  | call t op =>
    dsimp only [step] at h
    split at h
    next hidle => exact .inl ⟨t, op, rfl, hidle, (Option.some.inj h).symm⟩
    next => cases h
  | run t woken =>
    dsimp only [step] at h
    split at h
    next => cases h
    next op hop =>
      split at h
      next hwait =>
        split at h
        next hc =>
          obtain ⟨hcond, rfl⟩ := hc
          obtain ⟨c, hc⟩ := Option.isSome_iff_exists.mp hcond
          exact .inr (.inl ⟨t, op, c, rfl, hop, hwait, hc, (Option.some.inj h).symm⟩)
        next => cases h
      next object sig hdone =>
        obtain ⟨phase, hwake, rfl⟩ := Option.map_eq_some_iff.mp h
        exact .inr (.inr (.inl ⟨t, op, sig, woken, rfl, hop, hdone, hwake⟩))
  | spurious t =>
    dsimp only [step] at h
    split at h
    next op hop => exact .inr (.inr (.inr (.inl ⟨t, op, rfl, hop, (Option.some.inj h).symm⟩)))
    next => cases h
  | env e =>
    obtain ⟨object, he, rfl⟩ := Option.map_eq_some_iff.mp h
    exact .inr (.inr (.inr (.inr ⟨e, rfl, he, rfl⟩)))

/-! ## Sleepers of one kind -/

section Kind

variable (kind : Op → Bool) (avail : σ → ℕ)

/-- The thread sleeps in an operation of the kind. -/
def sleepsIn : Phase Op → Bool
  | .waiting op => kind op
  | _ => false

/-- The thread has been signalled in an operation of the kind and has not yet tested its
condition again. -/
def signalledIn : Phase Op → Bool
  | .signalled op => kind op
  | _ => false

/-- How many threads have been signalled in an operation of the kind. -/
def nrSignalledIn (phase : T → Phase Op) : ℕ :=
  (Finset.univ.filter fun t => signalledIn kind (phase t) = true).card

/-- Whoever sleeps in an operation of the kind does so because what is available is spoken for. -/
def CoveredIn (s : State σ Op T) : Prop :=
  (∃ t, sleepsIn kind (s.phase t) = true) → avail s.object ≤ nrSignalledIn kind s.phase

variable (M) in
/-- The signal goes to a condition on which all sleepers of the kind sleep, and no others. -/
def Reaches (s : State σ Op T) (sig : Option Cond) : Prop :=
  ∃ c, sig = some c ∧ ∀ t op, s.phase t = .waiting op → (M.cond op = some c ↔ kind op = true)

variable (M) in
/-- What an action must do with the number `avail` of threads of the kind that could go ahead: an
operation of the kind sleeps only when there is none; and while one sleeps, an operation of
the kind that goes ahead uses one up, and none makes more than one available, nor one without a
signal that reaches the sleepers. -/
structure KeepsUp (s : State σ Op T) (a : Action Op T Env) : Prop where
  wait : ∀ {t op}, a = .run t none → (s.phase t).pending = some op →
    M.enter s.object op = none → kind op = true → avail s.object = 0
  enter : ∀ {t op woken o sig}, a = .run t woken → (s.phase t).pending = some op →
    M.enter s.object op = some (o, sig) → (∃ u, sleepsIn kind (s.phase u) = true) →
    avail o + (if kind op then 1 else 0) ≤ avail s.object ∨
      (avail o + (if kind op then 1 else 0) ≤ avail s.object + 1 ∧ M.Reaches kind s sig)
  env : ∀ {e o}, a = .env e → M.env s.object e = some o → avail o ≤ avail s.object

variable {kind avail}

omit [DecidableEq T] in
theorem nrSignalledIn_eq_tally : (nrSignalledIn kind phase : ℤ)
    = Tally.tally Finset.univ (fun p => Tally.flag (signalledIn kind p)) phase :=
  (Tally.tally_flag_eq_card ..).symm

variable (kind) in
/-- One thread changes place. -/
theorem nrSignalledIn_update (phase : T → Phase Op) (t : T) (p : Phase Op) :
    (nrSignalledIn kind (Function.update phase t p) : ℤ)
      = nrSignalledIn kind phase - Tally.flag (signalledIn kind (phase t))
        + Tally.flag (signalledIn kind p) := by
  rw [nrSignalledIn_eq_tally, nrSignalledIn_eq_tally, Tally.tally_update (Finset.mem_univ t)]

omit [Fintype T] in
/-- Who sleeps after one thread changed place slept before, unless it is that thread. -/
theorem sleepsIn_of_update {t : T} {p : Phase Op} (hp : sleepsIn kind p = false)
    (h : ∃ u, sleepsIn kind (Function.update phase t p u) = true) :
    ∃ u, sleepsIn kind (phase u) = true := by
  obtain ⟨u, hu⟩ := h
  refine ⟨u, ?_⟩
  by_cases hut : u = t
  · rw [hut, Function.update_self, hp] at hu
    cases hu
  · rwa [Function.update_of_ne hut] at hu

variable (kind) in
/-- A thread that is about to run an operation was signalled for that operation only. -/
theorem flag_signalledIn_le {p : Phase Op} {op : Op} (h : p.pending = some op) :
    Tally.flag (signalledIn kind p) ≤ ((if kind op then 1 else 0 : ℕ) : ℤ) := by
  cases p with
  | entering | spurious => exact Int.natCast_nonneg _
  | signalled op' =>
    obtain rfl := Option.some.inj h
    show Tally.flag (kind op') ≤ _
    cases kind op' with
    | true => exact Tally.flag_le_one _
    | false => exact Int.le_refl 0
  | idle | waiting => cases h

/-- A completed section keeps the sleepers covered. -/
theorem CoveredIn.enter {t : T} {op : Op} {o : σ} {sig : Option Cond} {woken : Option T}
    (hs : CoveredIn kind avail s) (hop : (s.phase t).pending = some op)
    (hcount : (∃ u, sleepsIn kind (s.phase u) = true) →
      avail o + (if kind op then 1 else 0) ≤ avail s.object ∨
        (avail o + (if kind op then 1 else 0) ≤ avail s.object + 1 ∧ M.Reaches kind s sig))
    (hwake : M.wake (Function.update s.phase t .idle) sig woken = some phase') :
    CoveredIn kind avail ⟨o, phase'⟩ := by
  intro hwait
  show avail o ≤ nrSignalledIn kind phase'
  have hown := flag_signalledIn_le kind hop
  have hleft := nrSignalledIn_update kind s.phase t .idle
  rw [show Tally.flag (signalledIn kind (.idle : Phase Op)) = 0 from rfl] at hleft
  rcases wake_cases hwake with ⟨rfl, hnobody⟩ | ⟨c, w, op', rfl, -, hw, hc, rfl⟩
  · -- the signal, if there was one, found nobody
    have hslept := sleepsIn_of_update rfl hwait
    have hbefore := hs hslept
    rcases hcount hslept with hle | ⟨-, c, rfl, hon⟩
    · generalize (if kind op then 1 else 0 : ℕ) = used at hle hown
      omega
    · obtain ⟨u, hu⟩ := hslept
      have hne : u ≠ t := by
        rintro rfl
        cases hphase : s.phase u <;> rw [hphase] at hu hop <;> first | cases hu | cases hop
      have hno := hnobody c rfl u
      rw [Function.update_of_ne hne] at hno
      cases hphase : s.phase u with
      | waiting op' =>
        rw [hphase] at hu hno
        exact absurd ((hon u op' hphase).mpr hu) (of_decide_eq_false hno)
      | idle | entering | signalled | spurious =>
        rw [hphase] at hu
        cases hu
  · -- the signal took a sleeper along: one more is signalled, if it is one of the kind
    have hone := nrSignalledIn_update kind (Function.update s.phase t .idle) w
      (.signalled op')
    rw [hw, show Tally.flag (signalledIn kind (.waiting op')) = 0 from rfl] at hone
    have hslept : ∃ u, sleepsIn kind (s.phase u) = true :=
      sleepsIn_of_update (t := t) (p := .idle) rfl (sleepsIn_of_update rfl hwait)
    have hbefore := hs hslept
    have hnonneg : 0 ≤ Tally.flag (signalledIn kind (.signalled op')) := Tally.flag_nonneg _
    rcases hcount hslept with hle | ⟨hle, c', heq, hon⟩
    · generalize (if kind op then 1 else 0 : ℕ) = used at hle hown
      omega
    · obtain rfl := Option.some.inj heq
      have hwaits : s.phase w = .waiting op' := by
        by_cases hwt : w = t
        · rw [hwt, Function.update_self] at hw
          cases hw
        · rwa [Function.update_of_ne hwt] at hw
      have hkind : signalledIn kind (.signalled op') = true := (hon w op' hwaits).mp hc
      rw [hkind, Tally.flag_true] at hone
      generalize (if kind op then 1 else 0 : ℕ) = used at hle hown
      omega

/-- **One move keeps the sleepers covered.** -/
theorem CoveredIn.step {a : Action Op T Env} (hs : CoveredIn kind avail s)
    (h : M.KeepsUp kind avail s a) (ha : M.step s a = some s') : CoveredIn kind avail s' := by
  rcases step_cases ha with ⟨t, op, -, hidle, rfl⟩ | ⟨t, op, c, rfl, hop, hempty, -, rfl⟩ |
    ⟨t, op, sig, woken, rfl, hop, hdone, hwake⟩ | ⟨t, op, -, hwaits, rfl⟩ | ⟨e, rfl, he, hphase⟩
  · intro hwait
    have hcount := nrSignalledIn_update kind s.phase t (.entering op)
    rw [hidle, show Tally.flag (signalledIn kind (.idle : Phase Op)) = 0 from rfl,
      show Tally.flag (signalledIn kind (.entering op)) = 0 from rfl] at hcount
    have hbefore := hs (sleepsIn_of_update rfl hwait)
    show avail s.object ≤ nrSignalledIn kind (Function.update s.phase t (.entering op))
    omega
  · intro hwait
    show avail s.object ≤ nrSignalledIn kind (Function.update s.phase t (.waiting op))
    cases hkind : kind op with
    | true =>
      rw [h.wait rfl hop hempty hkind]
      exact Nat.zero_le _
    | false =>
      -- it sleeps in an operation of another kind, and was not signalled in one of this kind
      have hown := flag_signalledIn_le kind hop
      rw [hkind, if_neg Bool.false_ne_true] at hown
      have hcount := nrSignalledIn_update kind s.phase t (.waiting op)
      rw [show Tally.flag (signalledIn kind (.waiting op)) = 0 from rfl] at hcount
      have hasleep : sleepsIn kind (.waiting op) = false := hkind
      have hbefore := hs (sleepsIn_of_update hasleep hwait)
      omega
  · exact hs.enter hop (h.enter rfl hop hdone) hwake
  · intro hwait
    have hcount := nrSignalledIn_update kind s.phase t (.spurious op)
    rw [hwaits, show Tally.flag (signalledIn kind (.waiting op)) = 0 from rfl,
      show Tally.flag (signalledIn kind (.spurious op)) = 0 from rfl] at hcount
    have hbefore := hs (sleepsIn_of_update rfl hwait)
    show avail s.object ≤ nrSignalledIn kind (Function.update s.phase t (.spurious op))
    omega
  · intro hwait
    rw [hphase] at hwait ⊢
    exact (h.env rfl he).trans (hs hwait)

/-- Somebody sleeps after a move who slept before, or goes to sleep by it. -/
theorem sleepsIn_of_step {a : Action Op T Env} (ha : M.step s a = some s')
    (h : ∃ u, sleepsIn kind (s'.phase u) = true) :
    (∃ u, sleepsIn kind (s.phase u) = true) ∨
      ∃ t op, a = .run t none ∧ (s.phase t).pending = some op ∧ M.enter s.object op = none ∧
        kind op = true := by
  rcases step_cases ha with ⟨t, op, -, -, rfl⟩ | ⟨t, op, c, rfl, hop, hempty, -, rfl⟩ |
    ⟨t, op, sig, woken, -, -, -, hwake⟩ | ⟨t, op, -, -, rfl⟩ | ⟨e, -, -, hphase⟩
  · exact .inl (sleepsIn_of_update rfl h)
  · cases hkind : kind op with
    | true => exact .inr ⟨t, op, rfl, hop, hempty, hkind⟩
    | false =>
      have hasleep : sleepsIn kind (.waiting op) = false := hkind
      exact .inl (sleepsIn_of_update hasleep h)
  · rcases wake_cases hwake with ⟨heq, -⟩ | ⟨_, _, _, -, -, -, -, heq⟩
    · rw [heq] at h
      exact .inl (sleepsIn_of_update rfl h)
    · rw [heq] at h
      exact .inl (sleepsIn_of_update rfl (sleepsIn_of_update rfl h))
  · exact .inl (sleepsIn_of_update rfl h)
  · rw [hphase] at h
    exact .inl h

omit [DecidableEq T] in
/-- A sleeper that could go ahead is about to get company. -/
theorem CoveredIn.exists_signalled (h : CoveredIn kind avail s)
    (hwait : ∃ t, sleepsIn kind (s.phase t) = true) (hpos : 0 < avail s.object) :
    ∃ t, signalledIn kind (s.phase t) = true := by
  have hcard : 0 < (Finset.univ.filter fun t => signalledIn kind (s.phase t) = true).card :=
    Nat.lt_of_lt_of_le hpos (h hwait)
  obtain ⟨t, ht⟩ := Finset.card_pos.mp hcard
  exact ⟨t, (Finset.mem_filter.mp ht).2⟩

omit [DecidableEq T] in
/-- So while nobody is about to run a section, none could go ahead. -/
theorem CoveredIn.quiet (h : CoveredIn kind avail s) (hquiet : Quiet s)
    (hwait : ∃ t, sleepsIn kind (s.phase t) = true) : avail s.object = 0 := by
  by_contra hne
  obtain ⟨t, ht⟩ := h.exists_signalled hwait (Nat.pos_of_ne_zero hne)
  have hpending := hquiet t
  cases hphase : s.phase t with
  | signalled op =>
    rw [hphase] at hpending
    cases hpending
  | idle | entering | waiting | spurious =>
    rw [hphase] at ht
    cases ht

end Kind

/-! ## Signals that keep up with what is available -/

variable (M) in
/-- Signals on `c` keep up with `avail`, the number of threads that could go ahead: an
operation sleeps on `c` only when there is none, one that goes ahead uses one up, and no
operation makes more than one available, nor one without a signal. -/
structure Counts (c : Cond) (avail : σ → ℕ) : Prop where
  wait : ∀ {o op}, M.enter o op = none → M.cond op = some c → avail o = 0
  enter : ∀ {o op o' sig}, M.enter o op = some (o', sig) →
    avail o' + (if M.cond op = some c then 1 else 0)
      ≤ avail o + (if sig = some c then 1 else 0)
  env : ∀ {o e o'}, M.env o e = some o' → avail o' ≤ avail o

variable (M) in
/-- Whoever sleeps on `c` does so because what is available is spoken for. -/
def Covered (c : Cond) (avail : σ → ℕ) (s : State σ Op T) : Prop :=
  (∃ t, M.waitsOn c (s.phase t) = true) → avail s.object ≤ M.nrSignalled c s.phase

variable (M) in
/-- The operations that sleep on `c` are a kind. -/
def on (c : Cond) (op : Op) : Bool := M.cond op = some c

variable {c : Cond} {avail : σ → ℕ}

theorem waitsOn_eq (c : Cond) (p : Phase Op) : M.waitsOn c p = sleepsIn (M.on c) p := by
  cases p <;> rfl

theorem signalledOn_eq (c : Cond) (p : Phase Op) :
    M.signalledOn c p = signalledIn (M.on c) p := by
  cases p <;> rfl

omit [DecidableEq T] in
theorem covered_iff : M.Covered c avail s ↔ CoveredIn (M.on c) avail s := by
  unfold Covered CoveredIn nrSignalled nrSignalledIn
  simp only [waitsOn_eq, signalledOn_eq]

omit [DecidableEq T] [Fintype T] in
/-- An operation whose signals keep up with `avail` in every state does so in this one. -/
theorem Counts.keepsUp (h : M.Counts c avail) (a : Action Op T Env) :
    M.KeepsUp (M.on c) avail s a where
  wait _ _ hempty hkind := h.wait hempty (of_decide_eq_true hkind)
  enter := by
    intro t op woken o sig _ _ hdone _
    have henter := h.enter hdone
    have hused : (if M.on c op then 1 else 0 : ℕ) = if M.cond op = some c then 1 else 0 :=
      if_congr decide_eq_true_iff rfl rfl
    rw [hused]
    by_cases hsig : sig = some c
    · rw [if_pos hsig] at henter
      exact .inr ⟨henter, c, hsig, fun _ _ _ => decide_eq_true_iff.symm⟩
    · rw [if_neg hsig] at henter
      exact .inl henter
  env _ he := h.env he

/-- **Signal rule**: where signals keep up, whoever sleeps in a reachable state is covered
by threads that have been signalled and are about to test their condition. -/
theorem Counts.covered {init : σ → Prop} (h : M.Counts c avail)
    (hr : (M.machine T init).Reach Machine.Always s) : M.Covered c avail s := by
  refine hr.invariant ?_ fun s a _ _ hI _ ha =>
    covered_iff.mpr ((covered_iff.mp hI).step (h.keepsUp a) ha)
  rintro s ⟨-, hidle⟩ ⟨t, ht⟩
  rw [hidle t] at ht
  cases ht

omit [DecidableEq T] in
/-- A sleeper whose condition holds is about to get company. -/
theorem Covered.exists_signalled (h : M.Covered c avail s)
    (hwait : ∃ t, M.waitsOn c (s.phase t) = true) (hpos : 0 < avail s.object) :
    ∃ t, M.signalledOn c (s.phase t) = true := by
  simp only [waitsOn_eq, signalledOn_eq] at hwait ⊢
  exact (covered_iff.mp h).exists_signalled hwait hpos

end Monitor

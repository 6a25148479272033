import Mathlib.Data.Fintype.Basic
import Dungeon.Llist
import Dungeon.Lib.Monitor

/-!
# Sleeping on the linked list

`llist_append` sleeps while the list is full, `llist_get_head` and `llist_fetch_head`
while it is empty, all three on the one condition variable of the list. They and
`llist_fetch_match` signal it when they are through; `llist_append_nb` and
`llist_fetch_head_nb` do not. A signal wakes one sleeper of either kind, and a woken
thread that has to sleep again does not pass the signal on.

- `llistMonitor`: the calls as critical sections of a monitor.
- `Stranded`: nobody is about to run inside these functions, and somebody sleeps although
  it could go ahead.
- `CallOk`: a call that signals nobody changes the list only while nobody sleeps to whom the
  change matters, and a thread goes to sleep only while no thread of the other kind does.
- `Awaited`: consumers and producers never sleep together, and whoever sleeps is covered by
  threads of its kind that have been signalled. `Awaited.step`: kept by every such call.
- `not_stranded`: so a run of such calls strands nobody; `stranded_by_append_nb`,
  `stranded_by_fetch_head_nb` and `stranded_by_signal` are three runs that do, one for each part
  of the condition.
-/

namespace Dungeon

variable {α T : Type}

/-- A call of one of the list's functions with what its system calls return. -/
inductive LlistCall (α : Type) where
  | append (data : α) (malloc : Bool)
  | appendNb (data : α) (lock malloc : Bool)
  | getHead
  | fetchHead
  | fetchHeadNb (lock : Bool)
  | fetchMatch (matchFunc : α → α → ℤ) (needle : α)

/-- The blocking calls sleep on the list's condition variable. -/
def LlistCall.cond : LlistCall α → Option Unit
  | .append .. | .getHead | .fetchHead => some ()
  | .appendNb .. | .fetchHeadNb _ | .fetchMatch .. => none

/-- The call that sleeps while the list is full. -/
def LlistCall.produces : LlistCall α → Bool
  | .append .. => true
  | .appendNb .. | .getHead | .fetchHead | .fetchHeadNb _ | .fetchMatch .. => false

/-- The calls that sleep while the list is empty. -/
def LlistCall.consumes : LlistCall α → Bool
  | .getHead | .fetchHead => true
  | .append .. | .appendNb .. | .fetchHeadNb _ | .fetchMatch .. => false

/-- One critical section: the list it leaves and whether it signals; `none` where the call
has to wait. -/
def Llist.enter (ll : Llist α) : LlistCall α → Option (Llist α × Option Unit)
  | .append data malloc => (llistAppend ll data malloc).map fun r => (r.2, some ())
  | .appendNb data lock malloc => some ((llistAppendNb ll data lock malloc).2, none)
  | .getHead => (llistGetHead ll).map fun _ => (ll, some ())
  | .fetchHead => (llistFetchHead ll).map fun r => (ll.after r, some ())
  | .fetchHeadNb lock => some (ll.after (llistFetchHeadNb ll lock), none)
  | .fetchMatch matchFunc needle =>
    some (ll.after (llistFetchMatch ll matchFunc needle), some ())

/-- The list under its mutex. -/
def llistMonitor (α : Type) : Monitor (Llist α) (LlistCall α) Unit Empty where
  cond := LlistCall.cond
  enter := Llist.enter
  env _ := nofun

/-- Any threads on a fresh list of positive volume. -/
def llistThreads (α T : Type) [DecidableEq T] [Fintype T] :
    Machine (Monitor.State (Llist α) (LlistCall α) T) (Monitor.Action (LlistCall α) T Empty) :=
  (llistMonitor α).machine T fun ll => ∃ max : ℤ, 1 ≤ max ∧ ll = llistNew max

/-! ## Sleepers -/

variable (s s' : Monitor.State (Llist α) (LlistCall α) T)

/-- Somebody sleeps in `llist_append`. -/
def ProducerSleeps : Prop := ∃ t, Monitor.sleepsIn LlistCall.produces (s.phase t) = true

/-- Somebody sleeps in `llist_get_head` or `llist_fetch_head`. -/
def ConsumerSleeps : Prop := ∃ t, Monitor.sleepsIn LlistCall.consumes (s.phase t) = true

/-- Some sleeper could go ahead: there is an element for a consumer or a place for a
producer. -/
def SleeperReady : Prop :=
  (ConsumerSleeps s ∧ s.object.nodes ≠ []) ∨
    (ProducerSleeps s ∧ s.object.nrNodes < s.object.volume)

/-- A sleeper that could go ahead while no thread is about to run inside the functions. -/
def Stranded : Prop := Monitor.Quiet s ∧ SleeperReady s

/-- The section of a call leaves the sleepers their signals. -/
def CallOk : LlistCall α → Prop
  -- it goes to sleep only while no consumer does
  | .append .. => s.object.volume ≤ s.object.nrNodes → ¬ ConsumerSleeps s
  -- they go to sleep only while no producer does
  | .getHead | .fetchHead => s.object.nrNodes ≤ 0 → ¬ ProducerSleeps s
  -- it adds an element, and signals nobody, only while no consumer sleeps
  | .appendNb _ lock malloc =>
    lock = true → malloc = true → s.object.nrNodes < s.object.volume → ¬ ConsumerSleeps s
  -- it takes an element, and signals nobody, only while no producer sleeps
  | .fetchHeadNb lock => lock = true → s.object.nodes ≠ [] → ¬ ProducerSleeps s
  -- it always signals
  | .fetchMatch .. => True

/-- If the move is a section, it is one that leaves the sleepers their signals. -/
def SectionOk : Monitor.Action (LlistCall α) T Empty → Prop
  | .run t _ => ∀ op, (s.phase t).pending = some op → CallOk s op
  | .call .. | .spurious _ | .env _ => True

section Decide

variable [DecidableEq T] [Fintype T]

instance : Decidable (ProducerSleeps s) := by unfold ProducerSleeps; infer_instance

instance : Decidable (ConsumerSleeps s) := by unfold ConsumerSleeps; infer_instance

instance : Decidable (SleeperReady s) := by unfold SleeperReady; infer_instance

instance : Decidable (Monitor.Quiet s) :=
  decidable_of_iff (∀ t, (s.phase t).pending.isNone = true)
    (forall_congr' fun _ => Option.isNone_iff_eq_none)

instance : Decidable (Stranded s) := by unfold Stranded; infer_instance

instance : ∀ op : LlistCall α, Decidable (CallOk s op)
  | .append .. | .getHead | .fetchHead | .appendNb .. | .fetchHeadNb _ | .fetchMatch .. => by
    unfold CallOk
    infer_instance

instance (a : Monitor.Action (LlistCall α) T Empty) : Decidable (SectionOk s a) :=
  match a with
  | .run t _ => pendingOk (s.phase t).pending
  | .call .. | .spurious _ | .env _ => .isTrue trivial
where
  pendingOk : ∀ pending : Option (LlistCall α), Decidable (∀ op, pending = some op → CallOk s op)
  | none => .isTrue nofun
  | some op => decidable_of_iff (CallOk s op)
      ⟨fun h _ heq => Option.some.inj heq ▸ h, fun h => h op rfl⟩

end Decide

/-! ## What a section leaves -/

variable {s s'} {ll ll' : Llist α} {op : LlistCall α} {sig : Option Unit}

/-- How many consumers could go ahead. -/
def Llist.elements (ll : Llist α) : ℕ := ll.nodes.length

/-- How many producers could go ahead. -/
def Llist.places (ll : Llist α) : ℕ := (ll.volume - ll.nrNodes).toNat

/-- A call waits because the list is full (a producer) or has nothing (a consumer). -/
theorem Llist.enter_eq_none (h : ll.enter op = none) :
    (∃ data malloc, op = .append data malloc ∧ ll.volume ≤ ll.nrNodes) ∨
    ((op = .getHead ∨ op = .fetchHead) ∧ ll.nrNodes ≤ 0) := by
  cases op with
  | append data malloc =>
    have hnone := Option.map_eq_none_iff.mp h
    unfold llistAppend at hnone
    split at hnone
    next hfull => exact .inl ⟨data, malloc, rfl, hfull⟩
    next => cases hnone
  | getHead =>
    have hnone := Option.map_eq_none_iff.mp h
    unfold llistGetHead at hnone
    split at hnone
    next hempty => exact .inr ⟨.inl rfl, hempty⟩
    next => cases hnone
  | fetchHead =>
    have hnone := Option.map_eq_none_iff.mp h
    unfold llistFetchHead at hnone
    split at hnone
    next hempty => exact .inr ⟨.inr rfl, hempty⟩
    next => cases hnone
  | appendNb | fetchHeadNb | fetchMatch => cases h

/-- What a section leaves: a bounded list of the same volume, with one element or one place more
at most. -/
structure Llist.Leaves (ll : Llist α) (op : LlistCall α) (ll' : Llist α) (sig : Option Unit) :
    Prop where
  bounded : ll'.Bounded
  volume : ll'.volume = ll.volume
  elements : sig = some () →
    ll'.elements + (if op.consumes then 1 else 0) ≤ ll.elements + 1
  places : sig = some () → ll'.places + (if op.produces then 1 else 0) ≤ ll.places + 1
  -- only `llist_append_nb` adds an element without a signal
  silentElements : sig = none → ll'.elements + (if op.consumes then 1 else 0) ≤ ll.elements ∨
    ∃ data, op = .appendNb data true true ∧ ll.nrNodes < ll.volume
  -- and only `llist_fetch_head_nb` makes a place without one
  silentPlaces : sig = none → ll'.places + (if op.produces then 1 else 0) ≤ ll.places ∨
    op = .fetchHeadNb true ∧ ll.nodes ≠ []

/-- A section that signals and changes nothing, or takes one element. -/
theorem Llist.Leaves.signal (hb : ll'.Bounded) (hv : ll'.volume = ll.volume)
    (hlen : ll'.nodes.length ≤ ll.nodes.length) (hnr : ll.nrNodes - 1 ≤ ll'.nrNodes)
    (hop : op.produces = true → ll.nrNodes ≤ ll'.nrNodes) : ll.Leaves op ll' (some ()) where
  bounded := hb
  volume := hv
  elements _ := by
    unfold Llist.elements
    split <;> omega
  places _ := by
    unfold Llist.places
    split
    next hp =>
      have hle := hop hp
      omega
    next => omega
  silentElements := nofun
  silentPlaces := nofun

/-- A section that neither signals nor changes anything. -/
theorem Llist.Leaves.silent (hb : ll.Bounded) (hc : op.consumes = false)
    (hp : op.produces = false) : ll.Leaves op ll none where
  bounded := hb
  volume := rfl
  elements := nofun
  places := nofun
  silentElements _ := by
    rw [hc]
    exact .inl (Nat.le_refl _)
  silentPlaces _ := by
    rw [hp]
    exact .inl (Nat.le_refl _)

/-- What `llist_append_unlocked` leaves. -/
theorem Llist.Bounded.appendUnlocked (h : ll.Bounded) (data : α) (malloc : Bool) :
    ((llistAppendUnlocked ll data malloc).2 = ll ∨
      malloc = true ∧ ll.nrNodes < ll.volume ∧ (llistAppendUnlocked ll data malloc).2
        = { ll with nodes := ll.nodes ++ [data], nrNodes := ll.nrNodes + 1 }) ∧
      (llistAppendUnlocked ll data malloc).2.Bounded := by
  refine ⟨?_, h.append data malloc⟩
  rcases appendUnlocked_cases ll data malloc with ⟨hroom, hmalloc, heq⟩ | ⟨-, heq⟩
  · exact .inr ⟨hmalloc, hroom, congrArg Prod.snd heq⟩
  · exact .inl (congrArg Prod.snd heq)

/-- What `llist_append` leaves. -/
theorem Llist.Bounded.leaves_append (h : ll.Bounded) (data : α) (malloc : Bool) :
    ll.Leaves (.append data malloc) (llistAppendUnlocked ll data malloc).2 (some ()) := by
  have hvol := h.le_volume
  obtain ⟨hsame | ⟨-, -, hnew⟩, hb⟩ := h.appendUnlocked data malloc
  · rw [hsame]
    exact .signal h rfl (Nat.le_refl _) (Int.sub_le_self _ (by decide)) fun _ => Int.le_refl _
  · rw [hnew] at hb ⊢
    refine ⟨hb, rfl, fun _ => ?_, fun _ => ?_, nofun, nofun⟩
    · show (ll.nodes ++ [data]).length + 0 ≤ ll.nodes.length + 1
      rw [List.length_append]
      exact Nat.le_refl _
    · show (ll.volume - (ll.nrNodes + 1)).toNat + 1 ≤ (ll.volume - ll.nrNodes).toNat + 1
      omega

/-- What `llist_append_nb` leaves. -/
theorem Llist.Bounded.leaves_appendNb (h : ll.Bounded) (data : α) (lock malloc : Bool) :
    ll.Leaves (.appendNb data lock malloc) (llistAppendNb ll data lock malloc).2 none := by
  unfold llistAppendNb
  split
  next hlock =>
    obtain ⟨hsame | ⟨hmalloc, hroom, hnew⟩, hb⟩ := h.appendUnlocked data malloc
    · rw [hsame]
      exact .silent h rfl rfl
    · rw [hnew] at hb ⊢
      refine ⟨hb, rfl, nofun, nofun, fun _ => .inr ⟨data, ?_, hroom⟩, fun _ => .inl ?_⟩
      · rw [hlock, hmalloc]
      · show (ll.volume - (ll.nrNodes + 1)).toNat + 0 ≤ (ll.volume - ll.nrNodes).toNat
        omega
  next => exact .silent h rfl rfl

/-- What `llist_fetch_head` leaves. -/
theorem Llist.Bounded.leaves_fetchHead (h : ll.Bounded) :
    ll.Leaves .fetchHead (ll.after (llistFetchHeadUnlocked ll)) (some ()) := by
  have hvol := h.le_volume
  obtain ⟨hb, hnodes, hv, hnr⟩ := h.fetchHead
  refine .signal hb hv ?_ ?_ nofun
  · rw [hnodes, List.length_tail]
    exact Nat.sub_le _ _
  · rw [hnr]
    split <;> omega

/-- What `llist_fetch_head_nb` leaves. -/
theorem Llist.Bounded.leaves_fetchHeadNb (h : ll.Bounded) (lock : Bool) :
    ll.Leaves (.fetchHeadNb lock) (ll.after (llistFetchHeadNb ll lock)) none := by
  unfold llistFetchHeadNb
  split
  next hlock =>
    obtain ⟨hb, hnodes, hv, hnr⟩ := h.fetchHead
    refine ⟨hb, hv, nofun, nofun, fun _ => .inl ?_, fun _ => ?_⟩
    · show (ll.after (llistFetchHeadUnlocked ll)).nodes.length + 0 ≤ ll.nodes.length
      rw [hnodes, List.length_tail]
      omega
    · by_cases hnil : ll.nodes = []
      · refine .inl (Nat.le_of_eq ?_)
        show (_ - _ : ℤ).toNat + 0 = (ll.volume - ll.nrNodes).toNat
        rw [hv, hnr, if_pos hnil]
        rfl
      · exact .inr ⟨by rw [hlock], hnil⟩
  next => exact .silent h rfl rfl

/-- **Every section** leaves such a list. -/
theorem Llist.Bounded.enter (h : ll.Bounded) (he : ll.enter op = some (ll', sig)) :
    ll.Leaves op ll' sig := by
  cases op with
  | append data malloc =>
    obtain ⟨r, hr, heq⟩ := Option.map_eq_some_iff.mp he
    obtain ⟨rfl, rfl⟩ := Prod.mk.inj heq
    unfold llistAppend at hr
    split at hr
    next => cases hr
    next =>
      obtain rfl := Option.some.inj hr
      exact h.leaves_append data malloc
  | appendNb data lock malloc =>
    obtain ⟨rfl, rfl⟩ := Prod.mk.inj (Option.some.inj he)
    exact h.leaves_appendNb data lock malloc
  | getHead =>
    obtain ⟨_, -, heq⟩ := Option.map_eq_some_iff.mp he
    obtain ⟨rfl, rfl⟩ := Prod.mk.inj heq
    exact .signal h rfl (Nat.le_refl _) (Int.sub_le_self _ (by decide)) nofun
  | fetchHead =>
    obtain ⟨r, hr, heq⟩ := Option.map_eq_some_iff.mp he
    obtain ⟨rfl, rfl⟩ := Prod.mk.inj heq
    unfold llistFetchHead at hr
    split at hr
    next => cases hr
    next =>
      obtain rfl := Option.some.inj hr
      exact h.leaves_fetchHead
  | fetchHeadNb lock =>
    obtain ⟨rfl, rfl⟩ := Prod.mk.inj (Option.some.inj he)
    exact h.leaves_fetchHeadNb lock
  | fetchMatch matchFunc needle =>
    obtain ⟨rfl, rfl⟩ := Prod.mk.inj (Option.some.inj he)
    obtain ⟨hb, hv, hlen, hnr⟩ := h.fetchMatch matchFunc needle
    exact .signal hb hv hlen hnr nofun

/-! ## Nobody is stranded -/

variable [DecidableEq T] [Fintype T]

/-- Consumers and producers do not sleep together; and whoever sleeps, those who could go ahead
have been signalled and are about to run. -/
structure Awaited (s : Monitor.State (Llist α) (LlistCall α) T) : Prop where
  bounded : s.object.Bounded
  consumers : Monitor.CoveredIn LlistCall.consumes Llist.elements s
  producers : Monitor.CoveredIn LlistCall.produces Llist.places s
  apart : ¬ (ConsumerSleeps s ∧ ProducerSleeps s)

namespace Awaited

omit [Fintype T] [DecidableEq T] in
/-- While all sleepers are of one kind, a signal reaches these. -/
theorem reaches {kind : LlistCall α → Bool}
    (hkind : ∀ op : LlistCall α, kind op = true → op.cond = some ())
    (honly : ∀ t op, s.phase t = .waiting op → op.cond = some () → kind op = true) :
    (llistMonitor α).Reaches kind s (some ()) :=
  ⟨(), rfl, fun t op ht => ⟨honly t op ht, hkind op⟩⟩

/-- A call that sleeps on the list's condition produces or consumes. -/
theorem kind_of_cond (h : op.cond = some ()) : op.produces = true ∨ op.consumes = true := by
  cases op <;> first | exact .inl rfl | exact .inr rfl | cases h

theorem cond_of_kind (h : op.produces = true ∨ op.consumes = true) : op.cond = some () := by
  cases op <;> first | rfl | (rcases h with h | h <;> cases h)

/-- No call does both. -/
theorem not_produces (h : op.consumes = true) : op.produces = false := by
  cases op <;> first | rfl | cases h

omit [DecidableEq T] in
/-- The signals keep up with the elements of the list, -/
theorem keepsUp_consumers (hs : Awaited s) {a : Monitor.Action (LlistCall α) T Empty}
    (hok : SectionOk s a) :
    (llistMonitor α).KeepsUp LlistCall.consumes Llist.elements s a where
  wait := by
    intro t op _ _ hempty hkind
    have hle := hs.bounded.length_le
    rcases Llist.enter_eq_none hempty with ⟨_, _, rfl, -⟩ | ⟨-, hzero⟩
    · cases hkind
    · show s.object.nodes.length = 0
      omega
  enter := by
    rintro t op woken ll' sig rfl hop hdone hasleep
    have hleaves := hs.bounded.enter hdone
    cases sig with
    | some c =>
      refine .inr ⟨hleaves.elements rfl, reaches (fun _ h => cond_of_kind (.inr h)) ?_⟩
      intro u op' hu hcond
      refine (kind_of_cond hcond).resolve_left fun hp => hs.apart ⟨hasleep, u, ?_⟩
      rw [hu]
      exact hp
    | none =>
      refine .inl ((hleaves.silentElements rfl).resolve_right ?_)
      rintro ⟨data, rfl, hroom⟩
      exact hok _ hop rfl rfl hroom hasleep
  env := nofun

omit [DecidableEq T] in
/-- and with its places. -/
theorem keepsUp_producers (hs : Awaited s) {a : Monitor.Action (LlistCall α) T Empty}
    (hok : SectionOk s a) :
    (llistMonitor α).KeepsUp LlistCall.produces Llist.places s a where
  wait := by
    intro t op _ _ hempty hkind
    rcases Llist.enter_eq_none hempty with ⟨_, _, -, hfull⟩ | ⟨rfl | rfl, -⟩
    · show (s.object.volume - s.object.nrNodes).toNat = 0
      omega
    · cases hkind
    · cases hkind
  enter := by
    rintro t op woken ll' sig rfl hop hdone hasleep
    have hleaves := hs.bounded.enter hdone
    cases sig with
    | some c =>
      refine .inr ⟨hleaves.places rfl, reaches (fun _ h => cond_of_kind (.inl h)) ?_⟩
      intro u op' hu hcond
      refine (kind_of_cond hcond).resolve_right fun hc => hs.apart ⟨⟨u, ?_⟩, hasleep⟩
      rw [hu]
      exact hc
    | none =>
      refine .inl ((hleaves.silentPlaces rfl).resolve_right ?_)
      rintro ⟨rfl, hne⟩
      exact hok _ hop rfl hne hasleep
  env := nofun

/-- **One move** keeps the sleepers awaited. -/
theorem step (hs : Awaited s) {a : Monitor.Action (LlistCall α) T Empty} (hok : SectionOk s a)
    (ha : (llistMonitor α).step s a = some s') : Awaited s' := by
  refine ⟨?_, hs.consumers.step (hs.keepsUp_consumers hok) ha,
    hs.producers.step (hs.keepsUp_producers hok) ha, ?_⟩
  · rcases Monitor.step_cases ha with ⟨_, _, -, -, rfl⟩ | ⟨_, _, _, -, -, -, -, rfl⟩ |
      ⟨_, _, _, _, -, -, hdone, -⟩ | ⟨_, _, -, -, rfl⟩ | ⟨e, -⟩
    · exact hs.bounded
    · exact hs.bounded
    · exact (hs.bounded.enter hdone).bounded
    · exact hs.bounded
    · exact e.elim
  · rintro ⟨hc, hp⟩
    -- one of the two has just gone to sleep beside the other
    rcases Monitor.sleepsIn_of_step ha hc with hc | ⟨t, op, rfl, hop, hempty, hkind⟩
    · rcases Monitor.sleepsIn_of_step ha hp with hp | ⟨t, op, rfl, hop, hempty, hkind⟩
      · exact hs.apart ⟨hc, hp⟩
      · rcases Llist.enter_eq_none hempty with ⟨_, _, rfl, hfull⟩ | ⟨rfl | rfl, -⟩
        · exact hok _ hop hfull hc
        · cases hkind
        · cases hkind
    · rcases Monitor.sleepsIn_of_step ha hp with hp | ⟨t', op', heq, hop', -, hkind'⟩
      · rcases Llist.enter_eq_none hempty with ⟨_, _, rfl, -⟩ | ⟨rfl | rfl, hzero⟩
        · cases hkind
        · exact hok _ hop hzero hp
        · exact hok _ hop hzero hp
      · obtain ⟨rfl, -⟩ := Monitor.Action.run.inj heq
        obtain rfl := Option.some.inj (hop.symm.trans hop')
        rw [not_produces hkind] at hkind'
        cases hkind'

end Awaited

theorem awaited_reach (h : (llistThreads α T).Reach SectionOk s) : Awaited s := by
  refine h.invariant ?_ fun _ _ _ _ hI hok ha => hI.step hok ha
  rintro s ⟨⟨max, hmax, hs⟩, hidle⟩
  have hawake : ∀ kind : LlistCall α → Bool,
      ¬ ∃ t, Monitor.sleepsIn kind (s.phase t) = true := by
    rintro kind ⟨t, ht⟩
    rw [hidle t] at ht
    cases ht
  refine ⟨?_, fun hc => absurd hc (hawake _), fun hp => absurd hp (hawake _),
    fun h => hawake _ h.1⟩
  rw [hs]
  exact (Llist.exact_new (by omega)).bounded

/-- **Nobody is stranded** in a run of calls that leave the sleepers their signals: a consumer
sleeps only while the elements are no more than the consumers signalled and about to run, a
producer only while the places are no more than the producers signalled. -/
theorem not_stranded {s : Monitor.State (Llist α) (LlistCall α) T}
    (h : (llistThreads α T).Reach SectionOk s) :
    ¬ Stranded s ∧
      (ConsumerSleeps s →
        s.object.nodes.length ≤ Monitor.nrSignalledIn LlistCall.consumes s.phase) ∧
      (ProducerSleeps s →
        s.object.volume - s.object.nrNodes ≤ Monitor.nrSignalledIn LlistCall.produces s.phase) := by
  have hs := awaited_reach h
  refine ⟨?_, hs.consumers, fun hp => ?_⟩
  · rintro ⟨hquiet, ⟨hc, hne⟩ | ⟨hp, hroom⟩⟩
    · exact hne (List.length_eq_zero_iff.mp (hs.consumers.quiet hquiet hc))
    · have hzero : (s.object.volume - s.object.nrNodes).toNat = 0 := hs.producers.quiet hquiet hp
      omega
  · have hle : (s.object.volume - s.object.nrNodes).toNat ≤ _ := hs.producers hp
    omega

/-! ## Runs -/

/-- A fresh list of volume one. -/
private def oneNode (n : ℕ) : Monitor.State (Llist ℕ) (LlistCall ℕ) (Fin n) :=
  ⟨llistNew 1, fun _ => .idle⟩

private theorem oneNode_init (n : ℕ) : (llistThreads ℕ (Fin n)).init (oneNode n) :=
  ⟨⟨1, le_rfl, rfl⟩, fun _ => rfl⟩

/-- Asleep in `llist_fetch_head`. -/
def fetchSleeps : Monitor.Phase (LlistCall α) → Bool
  | .waiting .fetchHead => true
  | _ => false

/-- Woken by a signal in `llist_fetch_head`. -/
def fetchWoken : Monitor.Phase (LlistCall α) → Bool
  | .signalled .fetchHead => true
  | _ => false

theorem eq_of_fetchSleeps {p : Monitor.Phase (LlistCall α)} (h : fetchSleeps p = true) :
    p = .waiting .fetchHead := by
  unfold fetchSleeps at h
  split at h
  next => rfl
  next => cases h

theorem eq_of_fetchWoken {p : Monitor.Phase (LlistCall α)} (h : fetchWoken p = true) :
    p = .signalled .fetchHead := by
  unfold fetchWoken at h
  split at h
  next => rfl
  next => cases h

/-- A consumer that found the list empty and slept wakes up for what `llist_append`
adds. -/
theorem not_stranded_wokenByAppend :
    ∃ s : Monitor.State (Llist ℕ) (LlistCall ℕ) (Fin 2),
      (llistThreads ℕ (Fin 2)).Reach SectionOk s ∧
      s.object.nodes = [7] ∧ s.phase 0 = .signalled .fetchHead ∧ ¬ Stranded s := by
  obtain ⟨s, hreach, hs⟩ := Machine.exec_reach (oneNode_init 2)
    (show ((llistThreads ℕ (Fin 2)).exec SectionOk (oneNode 2)
      [.call 0 .fetchHead, .run 0 none, .call 1 (.append 7 true), .run 1 (some 0)]).map
      (fun s => decide (fetchWoken (s.phase 0) = true ∧ s.object.nodes = [7])) = some true
      by decide +kernel)
  obtain ⟨hwoken, hnodes⟩ := of_decide_eq_true hs
  exact ⟨s, hreach, hnodes, eq_of_fetchWoken hwoken, (not_stranded hreach).1⟩

/-- `llist_append_nb` adds an element while a consumer sleeps, and signals nobody. -/
theorem stranded_by_append_nb :
    ∃ s : Monitor.State (Llist ℕ) (LlistCall ℕ) (Fin 2),
      (llistThreads ℕ (Fin 2)).Reach Machine.Always s ∧ s.object.nodes = [7] ∧
      s.phase 0 = .waiting .fetchHead ∧ Stranded s := by
  obtain ⟨s, hreach, hs⟩ := Machine.exec_reach (oneNode_init 2)
    (show ((llistThreads ℕ (Fin 2)).exec Machine.Always (oneNode 2)
      [.call 0 .fetchHead, .run 0 none, .call 1 (.appendNb 7 true true), .run 1 none]).map
      (fun s => decide (fetchSleeps (s.phase 0) = true ∧ s.object.nodes = [7] ∧ Stranded s))
      = some true by decide +kernel)
  obtain ⟨hsleeps, hnodes, hstranded⟩ := of_decide_eq_true hs
  exact ⟨s, hreach, hnodes, eq_of_fetchSleeps hsleeps, hstranded⟩

/-- `llist_fetch_head_nb` makes a place while a producer sleeps, and signals nobody. -/
theorem stranded_by_fetch_head_nb :
    ∃ s : Monitor.State (Llist ℕ) (LlistCall ℕ) (Fin 2),
      (llistThreads ℕ (Fin 2)).Reach Machine.Always s ∧ s.object.nrNodes = 0 ∧
      ProducerSleeps s ∧ Stranded s := by
  obtain ⟨s, hreach, hs⟩ := Machine.exec_reach (oneNode_init 2)
    (show ((llistThreads ℕ (Fin 2)).exec Machine.Always (oneNode 2)
      [.call 0 (.append 7 true), .run 0 none, .call 0 (.append 8 true), .run 0 none,
        .call 1 (.fetchHeadNb true), .run 1 none]).map
      (fun s => decide (s.object.nrNodes = 0 ∧ ProducerSleeps s ∧ Stranded s)) = some true
      by decide +kernel)
  exact ⟨s, hreach, of_decide_eq_true hs⟩

/-- Only signalling calls: the consumer that takes the element wakes the other consumer,
not the producer waiting for the place. -/
theorem stranded_by_signal :
    ∃ s : Monitor.State (Llist ℕ) (LlistCall ℕ) (Fin 4),
      (llistThreads ℕ (Fin 4)).Reach Machine.Always s ∧ s.object.nrNodes = 0 ∧
      ProducerSleeps s ∧ Stranded s := by
  obtain ⟨s, hreach, hs⟩ := Machine.exec_reach (oneNode_init 4)
    (show ((llistThreads ℕ (Fin 4)).exec Machine.Always (oneNode 4)
      [.call 0 .fetchHead, .run 0 none, .call 1 .fetchHead, .run 1 none,
        .call 2 (.append 7 true), .run 2 (some 0), .call 3 (.append 8 true), .run 3 none,
        .run 0 (some 1), .run 1 none]).map
      (fun s => decide (s.object.nrNodes = 0 ∧ ProducerSleeps s ∧ Stranded s)) = some true
      by decide +kernel)
  obtain ⟨hnr, hproducer, hstranded⟩ := of_decide_eq_true hs
  exact ⟨s, hreach, hnr, hproducer, hstranded⟩

end Dungeon

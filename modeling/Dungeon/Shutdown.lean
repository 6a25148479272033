import Dungeon.Books

/-!
# Shutdown (`dungeon_delete`)

`dungeon_delete` joins the epoll thread, cancels and joins the workers wherever they are,
joins the maintainer, and then dismisses what it finds in the two queues. Imps that are
neither queued nor dismissed, a sleeping one above all, are left behind; and the rooms'
destructors come last and kill their listeners.

- `dungeonDelete`: the part of `dungeon_delete` that runs after the joins; `none` when it frees
  a mark or kills through a null pointer.
- `Drained`: what dismissing a list of imps does.
- `Released`: every imp ever summoned was dismissed once, `nr_total` is zero, and no freed
  imp was used.
- `Collectable`: every live imp is in one of the queues, once, with no mark among its requests,
  and nothing else is; and no call of `imp_summon` was cut off after its count.
- `dungeonDelete_released_iff`: `Released` holds exactly for collectable states and
  rooms that kill nobody.
- `sleeper_left_behind`: one sleeping imp is enough for it to fail.
-/

namespace Dungeon

open Tally Few

variable {W R : ℕ}

/-! ## The function -/

/-- The heart in the hands of `dungeon_delete`. `stale` records that a freed imp was
used. -/
structure Teardown where
  heart : Heart
  stale : Bool

/-- `imp_dismiss`, by `dungeon_delete`. -/
def Teardown.dismiss (t : Teardown) (closing : Closing) (imp : ImpId) : Option Teardown :=
  (impDismiss t.heart imp closing).map fun h =>
    ⟨h, t.stale || (t.heart.imps imp).life = .freed⟩

/-- The head of the run queue. -/
def popRun (h : Heart) : Option (ImpId × Heart) :=
  h.runQueue.queueDequeueNb.map fun r => (r.1, { h with runQueue := r.2 })

/-- The head of the terminated queue. -/
def popTerminated (h : Heart) : Option (ImpId × Heart) :=
  h.terminatedQueue.queueDequeueNb.map fun r => (r.1, { h with terminatedQueue := r.2 })

/-- `while (queue_dequeue_nb(..., &imp)==0) imp_dismiss(imp);`, at most `fuel` times.
`closing` is what each `fsm_delete` closes. -/
def drain (pop : Heart → Option (ImpId × Heart)) (closing : ImpId → Closing) :
    ℕ → Teardown → Option Teardown
  | 0, t => some t
  | fuel + 1, t =>
    match pop t.heart with
    | none => some t
    | some (imp, h) =>
      ({ t with heart := h }.dismiss (closing imp) imp).bind (drain pop closing fuel)

/-- The rooms of the repository, the two that summon a listener with its `id_listener`. -/
inductive Room where
  | dumb
  | echo (idListener : ImpId)
  | fakeHttpd (idListener : ImpId)
deriving DecidableEq

/-- The imp a room's `mod_destroy` kills. -/
def Room.kills : Room → Option ImpId
  | .dumb => none
  | .echo idListener => some idListener
  | .fakeHttpd idListener => some idListener

/-- A room's `mod_destroy`; `none` when it dereferences `NULL`. -/
def modDestroy (t : Teardown) (room : Room) : Option Teardown :=
  match room.kills with
  | none => some t
  | some 0 => none
  | some imp => some ⟨impKill t.heart imp, t.stale || (t.heart.imps imp).life = .freed⟩

/-- `dungeon_demolish_allrooms`. -/
def dungeonDemolishAllrooms : Teardown → List Room → Option Teardown
  | t, [] => some t
  | t, room :: rooms =>
    match modDestroy t room with
    | none => none
    | some t => dungeonDemolishAllrooms t rooms

/-- `close(dungeon_heart->epoll_fd)`. -/
def closeEpoll (t : Teardown) : Teardown :=
  { t with heart := { t.heart with epoll := fun _ => none } }

/-- The two drains, each with as much fuel as its queue has elements. -/
def drainQueues (closing : ImpId → Closing) (h : Heart) : Option Teardown :=
  (drain popRun closing h.runQueue.toList.length ⟨h, false⟩).bind fun t =>
    drain popTerminated closing t.heart.terminatedQueue.toList.length t

/-- `dungeon_delete` from the drain of the run queue to the `free` of the heart. -/
def dungeonDelete (closing : ImpId → Closing) (rooms : List Room) (h : Heart) : Option Teardown :=
  (drainQueues closing h).bind fun t => dungeonDemolishAllrooms (closeEpoll t) rooms

/-! ## Dismissing a list of imps -/

/-- `t'` is `t` after one `imp_dismiss` for each entry of `l`, in order. -/
structure Drained (l : List ImpId) (t t' : Teardown) : Prop where
  dismissals : ∀ q, (t'.heart.imps q).dismissals = (t.heart.imps q).dismissals + l.count q
  life : ∀ q, (t'.heart.imps q).life = if q ∈ l then .freed else (t.heart.imps q).life
  requests : ∀ q, (t'.heart.imps q).requestedEvents =
    if q ∈ l then [] else (t.heart.imps q).requestedEvents
  nrTotal : t'.heart.nrTotal = t.heart.nrTotal - l.length
  stale : t'.stale = false ↔
    t.stale = false ∧ l.Nodup ∧ ∀ q ∈ l, (t.heart.imps q).life ≠ .freed

namespace Drained

variable {l l' : List ImpId} {t t' t'' : Teardown}

theorem nil (himps : t'.heart.imps = t.heart.imps) (htotal : t'.heart.nrTotal = t.heart.nrTotal)
    (hstale : t'.stale = t.stale) : Drained [] t t' where
  dismissals q := by rw [himps]; rfl
  life q := by rw [himps]; rfl
  requests q := by rw [himps]; rfl
  nrTotal := by rw [htotal]; simp
  stale := by rw [hstale]; simp

/-- `imp_dismiss` once. -/
theorem singleton {closing : Closing} {imp : ImpId} (ht : t.dismiss closing imp = some t') :
    Drained [imp] t t' := by
  obtain ⟨h', hd, rfl⟩ := Option.map_eq_some_iff.mp ht
  have himps := impDismiss_imps hd
  refine ⟨fun q => ?_, fun q => ?_, fun q => ?_, impDismiss_nrTotal hd, ?_⟩
  · rw [himps]
    by_cases hq : q = imp
    · subst hq
      rw [Function.update_self, List.count_singleton_self]
    · rw [Function.update_of_ne hq, List.count_singleton]
      simp [Ne.symm hq]
  · rw [himps]
    by_cases hq : q = imp
    · subst hq
      rw [Function.update_self, if_pos (List.mem_singleton.mpr rfl)]
    · rw [Function.update_of_ne hq, if_neg fun hmem => hq (List.mem_singleton.mp hmem)]
  · rw [himps]
    by_cases hq : q = imp
    · subst hq
      rw [Function.update_self, if_pos (List.mem_singleton.mpr rfl)]
    · rw [Function.update_of_ne hq, if_neg fun hmem => hq (List.mem_singleton.mp hmem)]
  · show (t.stale || decide _) = false ↔ _
    rw [Bool.or_eq_false_iff, decide_eq_false_iff_not]
    simp

/-- Dismissing one list after another. -/
theorem append (h : Drained l t t') (h' : Drained l' t' t'') : Drained (l ++ l') t t'' := by
  refine ⟨fun q => ?_, fun q => ?_, fun q => ?_, ?_, ?_⟩
  · rw [h'.dismissals, h.dismissals, List.count_append]
    omega
  · rw [h'.life, h.life]
    by_cases hl : q ∈ l
    · simp [hl]
    · by_cases hl' : q ∈ l' <;> simp [hl, hl']
  · rw [h'.requests, h.requests]
    by_cases hl : q ∈ l
    · simp [hl]
    · by_cases hl' : q ∈ l' <;> simp [hl, hl']
  · rw [h'.nrTotal, h.nrTotal, List.length_append]
    omega
  · rw [h'.stale, h.stale, List.nodup_append]
    constructor
    · rintro ⟨⟨hs, hn, hl⟩, hn', hl'⟩
      refine ⟨hs, ⟨hn, hn', ?_⟩, ?_⟩
      · rintro p hp q hq rfl
        refine hl' p hq ?_
        rw [h.life, if_pos hp]
      · intro q hq
        rcases List.mem_append.mp hq with hq | hq
        · exact hl q hq
        · intro hf
          refine hl' q hq ?_
          rw [h.life, hf, ite_self]
    · rintro ⟨hs, ⟨hn, hn', hdis⟩, hl⟩
      refine ⟨⟨hs, hn, fun q hq => hl q (List.mem_append_left _ hq)⟩, hn', fun q hq => ?_⟩
      rw [h.life, if_neg fun hq' => hdis q hq' q hq rfl]
      exact hl q (List.mem_append_right _ hq)

end Drained

section Drains

variable {pop : Heart → Option (ImpId × Heart)} {queue : Heart → List ImpId}
  {closing : ImpId → Closing}

/-- A drain dismisses exactly what is in its queue, and leaves it empty. -/
theorem drain_drained (hnone : ∀ h, pop h = none → queue h = [])
    (hsome : ∀ h imp h', pop h = some (imp, h') → queue h = imp :: queue h' ∧
      h'.imps = h.imps ∧ h'.nrTotal = h.nrTotal)
    (hdismiss : ∀ h imp closing h', impDismiss h imp closing = some h' → queue h' = queue h)
    {fuel : ℕ} {t t' : Teardown} (hfuel : (queue t.heart).length ≤ fuel)
    (ht : drain pop closing fuel t = some t') : Drained (queue t.heart) t t' := by
  induction fuel generalizing t with
  | zero =>
    have hempty : queue t.heart = [] := List.eq_nil_of_length_eq_zero (Nat.le_zero.mp hfuel)
    obtain rfl := Option.some.inj ht
    rw [hempty]
    exact .nil rfl rfl rfl
  | succ fuel ih =>
    unfold drain at ht
    split at ht
    next hpop =>
      obtain rfl := Option.some.inj ht
      rw [hnone t.heart hpop]
      exact .nil rfl rfl rfl
    next imp h hpop =>
      obtain ⟨hqueue, himps, htotal⟩ := hsome t.heart imp h hpop
      obtain ⟨u, hu, ht⟩ := Option.bind_eq_some_iff.mp ht
      have hrest : queue u.heart = queue h := by
        obtain ⟨h', hd, rfl⟩ := Option.map_eq_some_iff.mp hu
        exact hdismiss h imp (closing imp) h' hd
      rw [hqueue, List.length_cons] at hfuel
      have hdrained := ih (by rw [hrest]; omega) ht
      rw [hrest] at hdrained
      have hpopped : Drained [] t { t with heart := h } := .nil himps htotal rfl
      rw [hqueue]
      exact (hpopped.append (.singleton hu)).append hdrained

variable (closing) in
/-- It comes to its end exactly when it finds no mark among the requests of these imps. -/
theorem drain_isSome (hnone : ∀ h, pop h = none → queue h = [])
    (hsome : ∀ h imp h', pop h = some (imp, h') → queue h = imp :: queue h' ∧
      h'.imps = h.imps ∧ h'.nrTotal = h.nrTotal)
    (hdismiss : ∀ h imp closing h', impDismiss h imp closing = some h' → queue h' = queue h)
    {fuel : ℕ} {t : Teardown} (hfuel : (queue t.heart).length ≤ fuel) :
    (drain pop closing fuel t).isSome ↔
      ∀ q ∈ queue t.heart, (t.heart.imps q).unmarked = true := by
  induction fuel generalizing t with
  | zero =>
    have hempty : queue t.heart = [] := List.eq_nil_of_length_eq_zero (Nat.le_zero.mp hfuel)
    rw [hempty]
    exact iff_of_true rfl nofun
  | succ fuel ih =>
    unfold drain
    split
    next hpop =>
      rw [hnone t.heart hpop]
      exact iff_of_true rfl nofun
    next imp h hpop =>
      obtain ⟨hqueue, himps, -⟩ := hsome t.heart imp h hpop
      rw [hqueue, List.length_cons] at hfuel
      rw [hqueue, List.forall_mem_cons, ← himps]
      cases hu : ({ t with heart := h } : Teardown).dismiss (closing imp) imp with
      | none =>
        refine iff_of_false nofun fun hall => ?_
        have hsome : (impDismiss h imp (closing imp)).isSome := impDismiss_isSome.mpr hall.1
        rw [Option.map_eq_none_iff.mp hu] at hsome
        cases hsome
      | some u =>
        have hmark : (h.imps imp).unmarked = true := by
          obtain ⟨h', hd, -⟩ := Option.map_eq_some_iff.mp hu
          exact impDismiss_isSome.mp (by rw [hd]; rfl)
        have hrest : queue u.heart = queue h := by
          obtain ⟨h', hd, rfl⟩ := Option.map_eq_some_iff.mp hu
          exact hdismiss h imp (closing imp) h' hd
        rw [Option.bind_some, ih (by rw [hrest]; omega), hrest, and_iff_right hmark]
        -- the imp itself has no request left, the others are as before
        refine forall₂_congr fun q _ => ?_
        have hreq := (Drained.singleton hu).requests q
        unfold Imp.unmarked at hmark ⊢
        rw [hreq]
        split
        next hmem =>
          rw [List.mem_singleton.mp hmem]
          exact iff_of_true rfl hmark
        next => rfl

end Drains

/-- What taking the head of a queue of the heart leaves. -/
theorem pop_spec (pop : Heart → Option (ImpId × Heart)) (queue : Heart → Queue ImpId)
    (put : Heart → Queue ImpId → Heart)
    (hpop : ∀ h, pop h = (queue h).queueDequeueNb.map fun r => (r.1, put h r.2))
    (hput : ∀ h q, queue (put h q) = q ∧ (put h q).imps = h.imps ∧ (put h q).nrTotal = h.nrTotal) :
    (∀ h, pop h = none → (queue h).toList = []) ∧
      ∀ h imp h', pop h = some (imp, h') → (queue h).toList = imp :: (queue h').toList ∧
        h'.imps = h.imps ∧ h'.nrTotal = h.nrTotal := by
  constructor
  · intro h hnone
    rw [hpop] at hnone
    exact Queue.queueDequeueNb_eq_none.mp (Option.map_eq_none_iff.mp hnone)
  · intro h imp h' hsome
    rw [hpop] at hsome
    obtain ⟨⟨p, q⟩, hq, heq⟩ := Option.map_eq_some_iff.mp hsome
    obtain ⟨rfl, rfl⟩ := Prod.mk.inj heq
    obtain ⟨hqueue, himps, htotal⟩ := hput h q
    exact ⟨hqueue.symm ▸ (Queue.queueDequeueNb_eq_some hq).1, himps, htotal⟩

section Queues

variable {closing : ImpId → Closing} {t t' : Teardown}

/-- What `drain_drained` asks of the run queue, -/
theorem popRun_spec : (∀ h, popRun h = none → h.runQueue.toList = []) ∧
    (∀ h imp h', popRun h = some (imp, h') → h.runQueue.toList = imp :: h'.runQueue.toList ∧
      h'.imps = h.imps ∧ h'.nrTotal = h.nrTotal) ∧
    ∀ h imp closing h', impDismiss h imp closing = some h' →
      h'.runQueue.toList = h.runQueue.toList := by
  obtain ⟨hnone, hsome⟩ := pop_spec popRun Heart.runQueue
    (fun h q => { h with runQueue := q }) (fun _ => rfl) fun _ _ => ⟨rfl, rfl, rfl⟩
  refine ⟨hnone, hsome, fun h imp closing h' hd => ?_⟩
  rw [impDismiss_runQueue hd]

/-- and of the terminated queue. -/
theorem popTerminated_spec : (∀ h, popTerminated h = none → h.terminatedQueue.toList = []) ∧
    (∀ h imp h', popTerminated h = some (imp, h') →
      h.terminatedQueue.toList = imp :: h'.terminatedQueue.toList ∧
        h'.imps = h.imps ∧ h'.nrTotal = h.nrTotal) ∧
    ∀ h imp closing h', impDismiss h imp closing = some h' →
      h'.terminatedQueue.toList = h.terminatedQueue.toList := by
  obtain ⟨hnone, hsome⟩ := pop_spec popTerminated Heart.terminatedQueue
    (fun h q => { h with terminatedQueue := q }) (fun _ => rfl) fun _ _ => ⟨rfl, rfl, rfl⟩
  refine ⟨hnone, hsome, fun h imp closing h' hd => ?_⟩
  rw [impDismiss_terminatedQueue hd]

/-- The drain of the run queue leaves the terminated queue alone. -/
theorem drain_run_terminated {fuel : ℕ} (ht : drain popRun closing fuel t = some t') :
    t'.heart.terminatedQueue = t.heart.terminatedQueue := by
  induction fuel generalizing t with
  | zero =>
    obtain rfl := Option.some.inj ht
    rfl
  | succ fuel ih =>
    unfold drain at ht
    split at ht
    next =>
      obtain rfl := Option.some.inj ht
      rfl
    next imp h hpop =>
      obtain ⟨r, -, heq⟩ := Option.map_eq_some_iff.mp hpop
      obtain ⟨-, rfl⟩ := Prod.mk.inj heq
      obtain ⟨u, hu, ht⟩ := Option.bind_eq_some_iff.mp ht
      obtain ⟨h', hd, rfl⟩ := Option.map_eq_some_iff.mp hu
      have hqueue := impDismiss_terminatedQueue hd
      exact (ih ht).trans hqueue

end Queues

/-! ## The rooms -/

/-- What the destructors of the rooms do: they use the imps they kill, and dismiss nobody. -/
theorem dungeonDemolishAllrooms_some {t t' : Teardown} {rooms : List Room}
    (h : dungeonDemolishAllrooms t rooms = some t') :
    (∀ q, (t'.heart.imps q).dismissals = (t.heart.imps q).dismissals) ∧
      t'.heart.nrTotal = t.heart.nrTotal ∧
      (t'.stale = false ↔ t.stale = false ∧
        ∀ room ∈ rooms, ∀ imp ∈ room.kills, (t.heart.imps imp).life ≠ .freed) ∧
      ∀ room ∈ rooms, ∀ imp ∈ room.kills, imp ≠ 0 := by
  induction rooms generalizing t with
  | nil =>
    obtain rfl := Option.some.inj h
    exact ⟨fun _ => rfl, rfl, by simp, by simp⟩
  | cons room rooms ih =>
    unfold dungeonDemolishAllrooms at h
    split at h
    next => cases h
    next u hu =>
      obtain ⟨hdis, htotal, hstale, hnull⟩ := ih h
      unfold modDestroy at hu
      split at hu
      next hkills =>
        obtain rfl := Option.some.inj hu
        refine ⟨hdis, htotal, hstale.trans ?_, ?_⟩
        · simp [hkills]
        · simpa [hkills] using hnull
      next => cases hu
      next imp hne hkills =>
        obtain rfl := Option.some.inj hu
        have hlife : ∀ q, ((impKill t.heart imp).imps q).life = (t.heart.imps q).life :=
          fun q => modifyImp_field t.heart imp q _ Imp.life fun _ => rfl
        have hsame : ∀ q, ((impKill t.heart imp).imps q).dismissals = (t.heart.imps q).dismissals :=
          fun q => modifyImp_field t.heart imp q _ Imp.dismissals fun _ => rfl
        refine ⟨fun q => (hdis q).trans (hsame q), htotal, hstale.trans ?_, ?_⟩
        · simp only [Bool.or_eq_false_iff, decide_eq_false_iff_not, hlife, List.forall_mem_cons,
            hkills, Option.mem_some_iff, forall_eq']
          exact and_assoc
        · intro r hr q hq
          rcases List.mem_cons.mp hr with rfl | hr
          · rw [hkills] at hq
            obtain rfl := Option.some.inj hq
            exact fun hzero => hne hzero
          · exact hnull r hr q hq

/-! ## What is released -/

/-- `dungeon_delete` has joined the threads. The epoll thread leaves only in front of
`epoll_wait`, the maintainer only by its test of the quit mark, and the outside calls of
`imp_summon` are over; the workers were cancelled wherever they were. -/
structure Sys.Joined (s : Sys W R) : Prop where
  epoller : s.epoller = .waiting
  initer : ∀ r, s.initer r = none
  destroyer : s.destroyer = .joining
  maintainer : s.maintainer = .exited

instance (s : Sys W R) : Decidable s.Joined :=
  decidable_of_iff (s.epoller = .waiting ∧ (∀ r, s.initer r = none) ∧ s.destroyer = .joining ∧
    s.maintainer = .exited) ⟨fun ⟨h₁, h₂, h₃, h₄⟩ => ⟨h₁, h₂, h₃, h₄⟩,
      fun ⟨h₁, h₂, h₃, h₄⟩ => ⟨h₁, h₂, h₃, h₄⟩⟩

/-- What shutdown is for: every imp ever summoned was dismissed once, none is counted any
more, and none was used after its dismissal. -/
structure Released (h : Heart) (t : Teardown) : Prop where
  once : ∀ imp, h.Known imp → (t.heart.imps imp).dismissals = 1
  total : t.heart.nrTotal = 0
  unused : t.stale = false

/-- The queues hold every live imp, once, and no other, and no mark is left among the requests of
one; and no call of `imp_summon` was cut off between its count and its end. -/
structure Collectable (h : Heart) : Prop where
  live : ∀ imp, (h.imps imp).life = .summoned → h.found.count imp = 1
  freed : ∀ imp, (h.imps imp).life = .freed → imp ∉ h.found
  counted : ∀ imp, (h.imps imp).life ≠ .counted
  unmarked : ∀ imp ∈ h.found, (h.imps imp).unmarked = true

section Release

variable {s : Sys W R} {debug : Bool} {rooms : List Room} {closing : ImpId → Closing} {t : Teardown}

/-- The drains dismiss what is in the two queues, -/
theorem drainQueues_drained {h : Heart} (ht : drainQueues closing h = some t) :
    Drained h.found ⟨h, false⟩ t := by
  obtain ⟨u, hu, ht⟩ := Option.bind_eq_some_iff.mp ht
  obtain ⟨hnone, hsome, hdismiss⟩ := popRun_spec
  have hrun := drain_drained hnone hsome hdismiss (t := ⟨h, false⟩) (Nat.le_refl _) hu
  obtain ⟨hnone, hsome, hdismiss⟩ := popTerminated_spec
  have hterm := drain_drained hnone hsome hdismiss (Nat.le_refl _) ht
  rw [drain_run_terminated hu] at hterm
  exact hrun.append hterm

variable (closing) in
/-- and come to their end when no mark is left among the requests there. -/
theorem drainQueues_isSome {h : Heart} :
    (drainQueues closing h).isSome ↔ ∀ q ∈ h.found, (h.imps q).unmarked = true := by
  unfold drainQueues Heart.found
  rw [List.forall_mem_append]
  obtain ⟨hnone, hsome, hdismiss⟩ := popRun_spec
  have hrun := drain_isSome closing hnone hsome hdismiss (t := ⟨h, false⟩) (Nat.le_refl _)
  cases hu : drain popRun closing h.runQueue.toList.length ⟨h, false⟩ with
  | none =>
    rw [hu] at hrun
    refine iff_of_false nofun fun hall => ?_
    cases hrun.mpr hall.1
  | some u =>
    rw [hu] at hrun
    have hall := hrun.mp rfl
    have hdrained := drain_drained hnone hsome hdismiss (t := ⟨h, false⟩) (Nat.le_refl _) hu
    obtain ⟨hnone, hsome, hdismiss⟩ := popTerminated_spec
    rw [Option.bind_some, and_iff_right hall,
      drain_isSome closing hnone hsome hdismiss (Nat.le_refl _), drain_run_terminated hu]
    refine forall₂_congr fun q _ => ?_
    have hreq := hdrained.requests q
    unfold Imp.unmarked at hall ⊢
    rw [hreq]
    split
    next hmem => exact iff_of_true rfl (hall q hmem)
    next => rfl

/-- What `dungeon_delete` does to the imps it finds, and to those its rooms kill. -/
theorem dungeonDelete_some {h : Heart} (hdel : dungeonDelete closing rooms h = some t) :
    (∀ q, (t.heart.imps q).dismissals = (h.imps q).dismissals + h.found.count q) ∧
      t.heart.nrTotal = h.nrTotal - h.found.length ∧
      (t.stale = false ↔ (h.found.Nodup ∧ ∀ q ∈ h.found, (h.imps q).life ≠ .freed) ∧
        ∀ room ∈ rooms, ∀ imp ∈ room.kills, imp ∉ h.found ∧ (h.imps imp).life ≠ .freed) ∧
      (∀ room ∈ rooms, ∀ imp ∈ room.kills, imp ≠ 0) ∧
      ∀ q ∈ h.found, (h.imps q).unmarked = true := by
  obtain ⟨u, hu, hdel⟩ := Option.bind_eq_some_iff.mp hdel
  have hdrained := drainQueues_drained hu
  have hunmarked := (drainQueues_isSome closing).mp (Option.isSome_of_eq_some hu)
  obtain ⟨hdis, htotal, hstale, hnull⟩ := dungeonDemolishAllrooms_some hdel
  have hkilled : ∀ imp, (u.heart.imps imp).life ≠ .freed ↔
      imp ∉ h.found ∧ (h.imps imp).life ≠ .freed := by
    intro imp
    rw [hdrained.life]
    by_cases hmem : imp ∈ h.found <;> simp [hmem]
  refine ⟨fun q => (hdis q).trans (hdrained.dismissals q), htotal.trans hdrained.nrTotal,
    hstale.trans (and_congr (hdrained.stale.trans ?_) ?_), hnull, hunmarked⟩
  · exact and_iff_right rfl
  · exact forall₄_congr fun _ _ imp _ => hkilled imp

/-- Rooms that kill nobody have nothing to dereference. -/
theorem dungeonDemolishAllrooms_none (t : Teardown) (hnone : ∀ room ∈ rooms, room.kills = none) :
    dungeonDemolishAllrooms t rooms = some t := by
  induction rooms with
  | nil => rfl
  | cons room rooms ih =>
    obtain ⟨hroom, hrooms⟩ := List.forall_mem_cons.mp hnone
    unfold dungeonDemolishAllrooms modDestroy
    rw [hroom]
    exact ih hrooms

/-- In a ledger with no dismissal on its way, `nr_total` counts the live and the counted. -/
theorem total_of_joined (hb : Books s) (hj : s.Joined) (hnd : s.heart.found.Nodup)
    (hfound : ∀ q, q ∈ s.heart.found ↔ (s.heart.imps q).life = .summoned) :
    s.heart.nrTotal = s.heart.found.length
      + tally (Finset.range s.heart.nextId) (fun i : Imp => flag (i.life = .counted))
        s.heart.imps := by
  have htotal := hb.ledger.total_eq
  rw [hj.maintainer] at htotal
  have hlength : (s.heart.found.length : ℤ) = tally (Finset.range s.heart.nextId)
      (fun i : Imp => flag (i.life = .summoned)) s.heart.imps := by
    refine length_eq_tally (p := fun i : Imp => decide (i.life = .summoned)) hnd fun q => ?_
    rw [hfound, decide_eq_true_iff, Finset.mem_range]
    refine (and_iff_right_of_imp fun hlife => ?_).symm
    by_contra hge
    exact absurd ((hb.ledger.fresh q (Nat.le_of_not_lt hge)).symm.trans hlife) nofun
  rw [htotal, hlength, ← tally_add]
  have hsplit : ∀ life : Life, flag life.isCounted
      = flag (decide (life = .summoned)) + flag (decide (life = .counted)) := by
    intro life
    cases life <;> rfl
  simp only [hsplit]
  simp

/-- With the maintainer gone, exactly the freed imps have been dismissed. -/
theorem dismissals_of_joined (hb : Books s) (hj : s.Joined) (q : ImpId) :
    ((s.heart.imps q).dismissals : ℤ) = flag ((s.heart.imps q).life = .freed) := by
  have heq := hb.ledger.dismissals_eq q
  rw [hj.maintainer] at heq
  simpa [MaintainerPc.touches] using heq

theorem known_of_found (hb : Books s) {q : ImpId} (hq : q ∈ s.heart.found) : s.heart.Known q :=
  (List.mem_append.mp hq).elim (hb.sound.run q) (hb.sound.term q)

/-- What is found is live, when the live are found and the freed are not. -/
theorem found_iff_live (hb : Books s)
    (hlive : ∀ q, (s.heart.imps q).life = .summoned → s.heart.found.count q = 1)
    (hfreed : ∀ q, (s.heart.imps q).life = .freed → q ∉ s.heart.found) (q : ImpId) :
    q ∈ s.heart.found ↔ (s.heart.imps q).life = .summoned := by
  constructor
  · intro hmem
    exact (known_of_found hb hmem).resolve_right fun hf => hfreed q hf hmem
  · intro hlife
    exact List.count_pos_iff.mp (by rw [hlive q hlife]; exact Nat.one_pos)

/-- Whatever is not in the two queues is not released. -/
theorem Released.collectable (hb : Books s) (hj : s.Joined) (hrel : Released s.heart t)
    (hdis : ∀ q, (t.heart.imps q).dismissals
      = (s.heart.imps q).dismissals + s.heart.found.count q)
    (htotal : t.heart.nrTotal = s.heart.nrTotal - s.heart.found.length)
    (hnd : s.heart.found.Nodup)
    (hunmarked : ∀ q ∈ s.heart.found, (s.heart.imps q).unmarked = true) :
    Collectable s.heart := by
  have hlive : ∀ q, (s.heart.imps q).life = .summoned → s.heart.found.count q = 1 := by
    intro q hlife
    have hone := hrel.once q (.inl hlife)
    have hzero := dismissals_of_joined hb hj q
    rw [hdis] at hone
    rw [hlife] at hzero
    simp at hzero
    omega
  have hfreed : ∀ q, (s.heart.imps q).life = .freed → q ∉ s.heart.found := by
    intro q hlife
    have hone := hrel.once q (.inr hlife)
    have hdone := dismissals_of_joined hb hj q
    rw [hdis] at hone
    rw [hlife] at hdone
    simp at hdone
    exact List.count_eq_zero.mp (by omega)
  refine ⟨hlive, hfreed, fun q hcounted => ?_, hunmarked⟩
  -- a counted imp would keep `nr_total` from zero
  have hcount := total_of_joined hb hj hnd (found_iff_live hb hlive hfreed)
  have hend := htotal.symm.trans hrel.total
  have hlt : q ∈ Finset.range s.heart.nextId := by
    rw [Finset.mem_range]
    by_contra hge
    exact absurd ((hb.ledger.fresh q (Nat.le_of_not_lt hge)).symm.trans hcounted) nofun
  have hle := single_le_tally (f := fun i : Imp => flag (i.life = .counted)) (g := s.heart.imps)
    (fun _ => flag_nonneg _) hlt
  rw [flag_eq_one hcounted] at hle
  omega

theorem Collectable.nodup (hc : Collectable s.heart) (hb : Books s) : s.heart.found.Nodup := by
  refine List.nodup_iff_count_le_one.mpr fun q => ?_
  by_cases hmem : q ∈ s.heart.found
  · exact (hc.live q ((found_iff_live hb hc.live hc.freed q).mp hmem)).le
  · rw [List.count_eq_zero.mpr hmem]
    exact Nat.zero_le 1

/-- What is in the two queues is released, if no room uses a freed imp. -/
theorem Collectable.released (hc : Collectable s.heart) (hb : Books s) (hj : s.Joined)
    (hdis : ∀ q, (t.heart.imps q).dismissals
      = (s.heart.imps q).dismissals + s.heart.found.count q)
    (htotal : t.heart.nrTotal = s.heart.nrTotal - s.heart.found.length)
    (hunused : t.stale = false) : Released s.heart t := by
  refine ⟨fun q hq => ?_, ?_, hunused⟩
  · have hdone := dismissals_of_joined hb hj q
    rw [hdis]
    rcases hq with hlife | hlife
    · rw [hlife] at hdone
      rw [hc.live q hlife]
      simp at hdone
      omega
    · rw [hlife] at hdone
      rw [List.count_eq_zero.mpr (hc.freed q hlife)]
      simp at hdone
      omega
  · have hcount := total_of_joined hb hj (hc.nodup hb) (found_iff_live hb hc.live hc.freed)
    have hzero : tally (Finset.range s.heart.nextId) (fun i : Imp => flag (i.life = .counted))
        s.heart.imps = 0 :=
      tally_eq_zero fun q _ => flag_eq_zero (hc.counted q)
    rw [htotal]
    omega

/-- **Shutdown.** `dungeon_delete` returns and has released every imp exactly when it finds every
live one in the queues, with no mark among its requests, and no room's destructor kills an imp. -/
theorem dungeonDelete_released_iff (hr : (dungeon debug).Reach Machine.Always s) (hj : s.Joined)
    (hrooms : ∀ room ∈ rooms, ∀ imp ∈ room.kills, imp ≠ 0 → s.heart.Known imp) :
    (∃ t, dungeonDelete closing rooms s.heart = some t ∧ Released s.heart t) ↔
      Collectable s.heart ∧ ∀ room ∈ rooms, room.kills = none := by
  have hb := books_reach hr
  constructor
  · rintro ⟨t, hdel, hrel⟩
    obtain ⟨hdis, htotal, hstale, hnull, hunmarked⟩ := dungeonDelete_some hdel
    obtain ⟨⟨hnd, -⟩, hkilled⟩ := hstale.mp hrel.unused
    have hc := hrel.collectable hb hj hdis htotal hnd hunmarked
    refine ⟨hc, fun room hroom => ?_⟩
    -- the drains have freed every imp that a room could still kill
    rw [Option.eq_none_iff_forall_not_mem]
    intro imp himp
    obtain ⟨hno, hnf⟩ := hkilled room hroom imp himp
    rcases hrooms room hroom imp himp (hnull room hroom imp himp) with hlife | hlife
    · exact hno ((found_iff_live hb hc.live hc.freed imp).mpr hlife)
    · exact hnf hlife
  · rintro ⟨hc, hnone⟩
    obtain ⟨u, hu⟩ := Option.isSome_iff_exists.mp
      ((drainQueues_isSome closing).mpr hc.unmarked)
    have hdel : dungeonDelete closing rooms s.heart = some (closeEpoll u) := by
      unfold dungeonDelete
      rw [hu]
      exact dungeonDemolishAllrooms_none _ hnone
    obtain ⟨hdis, htotal, hstale, -, -⟩ := dungeonDelete_some hdel
    refine ⟨_, hdel, hc.released hb hj hdis htotal (hstale.mpr ⟨⟨hc.nodup hb, ?_⟩, ?_⟩)⟩
    · exact fun q hmem hf => hc.freed q hf hmem
    · intro room hroom imp himp
      rw [hnone room hroom] at himp
      cases himp

end Release

/-- Two imps are summoned and one of them is dismissed in time; then the threads stop. -/
def stopQueued : List (Act 1 1) :=
  summons 0 ++ enters 0 ++ [.worker 0 (.ret toTerm)] ++ goes 0 3 ++ summons 0
    ++ List.replicate 7 (.maintainer .armed) ++ [.destroyer, .destroyer]
    ++ List.replicate 3 (.maintainer .armed)

theorem dungeonDelete_released_iff_stopQueued : ∃ s : Sys 1 1,
    (dungeon false).Reach Machine.Always s ∧ s.Joined ∧ s.heart.found = [2] ∧
      ((∃ t, dungeonDelete (fun _ => .armed) [.dumb] s.heart = some t ∧ Released s.heart t) ↔
        Collectable s.heart ∧ ∀ room ∈ [Room.dumb], room.kills = none) := by
  obtain ⟨s, hr, hp⟩ : ∃ s : Sys 1 1, (dungeon false).Reach Machine.Always s ∧
      decide (s.Joined ∧ s.heart.found = [2]) = true :=
    Machine.exec_reach (init_blank false Nat.two_pos (by decide))
      (show ((dungeon false).exec Machine.Always _ stopQueued).map _ = some true by decide +kernel)
  obtain ⟨hj, hfound⟩ := of_decide_eq_true hp
  refine ⟨s, hr, hj, hfound, dungeonDelete_released_iff hr hj ?_⟩
  intro room hroom imp himp
  rw [List.mem_singleton.mp hroom] at himp
  cases himp

/-- The imp sleeps on a descriptor when the threads stop. -/
def stopAsleep : List (Act 1 1) :=
  summons 0 ++ enters 0 ++ blocks 0 5 ++ goes 0 3 ++ [.destroyer, .destroyer]
    ++ [.maintainer .armed]

/-- A sleeping imp is never dismissed. -/
theorem sleeper_left_behind : ¬ ∀ (s : Sys 1 1) (closing : ImpId → Closing) (rooms : List Room)
    (t : Teardown), (dungeon false).Reach Machine.Always s → s.Joined →
    (∀ room ∈ rooms, ∀ imp ∈ room.kills, imp ≠ 0 → s.heart.Known imp) →
    dungeonDelete closing rooms s.heart = some t → Released s.heart t := by
  intro hall
  obtain ⟨s, hr, hp⟩ : ∃ s : Sys 1 1, (dungeon false).Reach Machine.Always s ∧
      decide (s.Joined ∧ (s.heart.imps 1).life = .summoned ∧
        (((dungeonDelete (fun _ => .armed) [] s.heart).map fun t =>
          (t.heart.imps 1).dismissals) = some 0)) = true :=
    Machine.exec_reach (init_blank false Nat.one_pos (by decide))
      (show ((dungeon false).exec Machine.Always _ stopAsleep).map _ = some true by decide +kernel)
  obtain ⟨hj, hlife, hdel⟩ := of_decide_eq_true hp
  obtain ⟨t, hdel, hzero⟩ := Option.map_eq_some_iff.mp hdel
  have hone := (hall s _ [] t hr hj (by simp) hdel).once 1 (.inl hlife)
  rw [hzero] at hone
  cases hone

end Dungeon

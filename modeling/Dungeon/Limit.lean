import Dungeon.Tokens

/-!
# The limit on imps, and room in the queues

`imp_summon` tests `nr_total` against `nr_max`, builds the imp, and only then counts it.
Calls between the test and the count are in flight; the limit holds in every run in
which a test passes only while the total and the calls in flight are below `nr_max`
(`CheckOk`, `limit_reach`). With the tokens of `Dungeon.Tokens` the limit gives room for every
enqueue of the scheduler (`enqueues_succeed`): both queues have `nr_max` cells, a queue never
holds an imp twice, and the thread that enqueues an imp has its token.

Two calls that overlap between test and count break the limit, and then the run queue
refuses an imp (`limit_overrun`).
-/

namespace Dungeon

open Tally Few

variable {W R : ℕ}

/-- A call of `imp_summon` that has passed the test, will not fail, and has not counted its
imp. -/
def inFlight : Option SummonPc → ℤ
  | some (.checked true) => 1
  | some (.created _) => 1
  | _ => 0

/-- If the test of `nr_total` passes, it would also pass with the calls in flight counted. -/
def Sys.Spare (s : Sys W R) : Prop :=
  s.heart.nrTotal < s.heart.nrMax → s.heart.nrTotal + s.summoners inFlight < s.heart.nrMax

instance (s : Sys W R) : Decidable s.Spare := by
  unfold Sys.Spare
  infer_instance

/-- No test of `imp_summon` passes on account of calls in flight. -/
def CheckOk (s : Sys W R) : Act W R → Prop
  | .worker _ (.soul (.summon true)) => s.Spare
  | .initer r true => s.initer r = none → s.Spare
  | _ => True

instance (s : Sys W R) (a : Act W R) : Decidable (CheckOk s a) :=
  match a with
  | .worker _ (.soul (.summon true)) => inferInstanceAs (Decidable s.Spare)
  | .initer _ true => inferInstanceAs (Decidable (_ → _))
  | .worker _ (.soul (.summon false)) | .worker _ (.soul (.setIoev ..))
  | .worker _ (.soul (.setTimer _)) | .worker _ (.soul (.closeFd _)) | .worker _ .go
  | .worker _ (.ctl _) | .worker _ (.ret _) | .initer _ false | .epoller _ | .maintainer _
  | .destroyer | .env _ => inferInstanceAs (Decidable True)

/-- The total and the calls in flight stay within the limit. -/
def Limit (s : Sys W R) : Prop := s.heart.nrTotal + s.summoners inFlight ≤ s.heart.nrMax

section Steps

variable {h : Heart}

/-- The calls in flight count for the imps they will add. -/
theorem summonStep_inFlight (pc : SummonPc) :
    (summonStep h pc).1.nrTotal + inFlight (summonStep h pc).2 = h.nrTotal + inFlight (some pc) ∧
      (summonStep h pc).1.nrMax = h.nrMax := by
  cases pc with
  | checked ok => cases ok <;> exact ⟨rfl, rfl⟩
  | created imp => exact ⟨add_zero _, rfl⟩
  | counted imp => exact ⟨rfl, rfl⟩
  | ready imp => exact ⟨rfl, rfl⟩

theorem inFlight_summonCheck (h : Heart) (ok : Bool) :
    inFlight (summonCheck h ok) = if h.nrTotal < h.nrMax then flag ok else 0 := by
  rcases summonCheck_cases h ok with ⟨hle, heq⟩ | ⟨hlt, heq⟩
  · rw [heq, if_neg (not_lt.mpr hle)]
    rfl
  · rw [heq, if_pos hlt]
    cases ok <;> rfl

/-- Outside `imp_summon` a worker is in no flight, and takes off only by the test. -/
theorem WorkerMove.takeOff {h' : Heart} {pc pc' : WorkerPc} {act : WorkerAct}
    (hm : WorkerMove h pc act h' pc') (hout : pc.summoning = none) :
    inFlight pc'.summoning = 0 ∨
      (act = .soul (.summon true) ∧ h.nrTotal < h.nrMax ∧ inFlight pc'.summoning = 1) := by
  cases hm with
  | @summon imp ok =>
    show inFlight (summonCheck h ok) = 0 ∨ _ ∧ _ ∧ inFlight (summonCheck h ok) = 1
    rw [inFlight_summonCheck]
    by_cases hlt : h.nrTotal < h.nrMax
    · rw [if_pos hlt]
      cases ok
      · exact .inl rfl
      · exact .inr ⟨rfl, hlt, rfl⟩
    · exact .inl (if_neg hlt)
  | nested => cases hout
  | _ => exact .inl rfl

/-- The maintainer only lowers the total. -/
theorem MaintainerMove.total_le {h' : Heart} {pc pc' : MaintainerPc} {closing : Closing}
    (hm : MaintainerMove h pc closing h' pc') : h'.nrTotal ≤ h.nrTotal ∧ h'.nrMax = h.nrMax := by
  cases hm with
  | uncount => exact ⟨Int.sub_le_self _ (by decide), rfl⟩
  | _ => exact ⟨le_refl _, rfl⟩

end Steps

variable {s s' : Sys W R} {a : Act W R} {debug : Bool}

theorem Limit.move (hl : Limit s) (hok : CheckOk s a) (hm : s.Move a s') : Limit s' := by
  unfold Limit at hl ⊢
  cases hm with
  | @worker w act shared pc hm =>
    rw [summoners_worker]
    show shared.heart.nrTotal + _ ≤ shared.heart.nrMax
    cases hsum : (s.worker w).summoning with
    | none =>
      have hr := hm.routine hsum
      rw [hr.nrTotal, hr.nrMax]
      have hzero : inFlight none = 0 := rfl
      -- a worker that passes the test finds a seat that no other summoner is after
      rcases hm.takeOff hsum with hno | ⟨rfl, hlt, hone⟩
      · omega
      · have hspare : s.Spare := hok
        have hroom := hspare hlt
        omega
    | some spc =>
      obtain ⟨imp, -, hheart, rfl⟩ := hm.of_nested hsum
      obtain ⟨htotal, hmax⟩ := summonStep_inFlight (h := s.heart) spc
      rw [hheart, hmax]
      show _ + (_ - _ + inFlight (summonStep s.heart spc).2) ≤ _
      omega
  | @initerCheck r ok hpc =>
    rw [summoners_initer s.shared r, hpc]
    show s.heart.nrTotal + _ ≤ s.heart.nrMax
    rw [inFlight_summonCheck]
    have hzero : inFlight none = 0 := rfl
    split
    next hlt =>
      cases ok with
      | false => rw [flag_false]; omega
      | true =>
        have hspare : s.Spare := hok hpc
        have hroom := hspare hlt
        rw [flag_true]
        omega
    next => omega
  | @initer r ok pc hpc =>
    obtain ⟨htotal, hmax⟩ := summonStep_inFlight (h := s.heart) pc
    rw [summoners_initer _ r, hpc]
    show (summonStep s.heart pc).1.nrTotal + _ ≤ ((summonStep s.heart pc).1.nrMax : ℤ)
    rw [hmax]
    omega
  | @epoller fds h' pc hm =>
    show h'.nrTotal + s.summoners inFlight ≤ h'.nrMax
    rw [hm.routine.nrTotal, hm.routine.nrMax]
    exact hl
  | @maintainer fds shared pc hm =>
    show shared.heart.nrTotal + s.summoners inFlight ≤ shared.heart.nrMax
    obtain ⟨hle, hmax⟩ := hm.total_le
    rw [hmax]
    omega
  | @destroyer shared pc hheart =>
    show shared.heart.nrTotal + s.summoners inFlight ≤ shared.heart.nrMax
    rw [hheart]
    exact hl
  | @env act h' hm =>
    show h'.nrTotal + s.summoners inFlight ≤ h'.nrMax
    rw [hm.routine.nrTotal, hm.routine.nrMax]
    exact hl

theorem limit_boot {h : Heart} (hi : h.Initial) : Limit (Sys.boot W R h) := by
  obtain ⟨nrImpMax, hmax, run, runBelow, term, termBelow, -, rfl⟩ := hi
  have hw : tally Finset.univ (fun pc : WorkerPc => inFlight pc.summoning)
      (fun _ : Fin W => WorkerPc.idle) = 0 := tally_eq_zero fun _ _ => rfl
  have hr : tally Finset.univ inFlight (fun _ : Fin R => none) = 0 :=
    tally_eq_zero fun _ _ => rfl
  show 0 + (tally _ _ (fun _ : Fin W => WorkerPc.idle) + tally _ _ (fun _ : Fin R => none))
    ≤ (nrImpMax : ℤ)
  rw [hw, hr]
  omega

theorem limit_reach (hr : (dungeon debug).Reach CheckOk s) : Limit s := by
  refine hr.invariant ?_ ?_
  · rintro s ⟨h, hi, rfl⟩
    exact limit_boot hi
  · intro s a s' _ hl hok hs
    obtain ⟨-, ⟨-, rfl⟩ | ⟨-, hm⟩⟩ := step_move hs
    · exact hl
    · exact hl.move hok (move_move hm)

/-! ## Room for every enqueue -/

/-- Some thread is about to call `queue_enqueue_uniq_nb` for `imp` in `imp_run`. -/
def Sys.Running (s : Sys W R) (imp : ImpId) : Prop :=
  (∃ w, s.worker w = .rerunning imp ∨ (s.worker w).summoning = some (.ready imp)) ∨
    (∃ r, s.initer r = some (.ready imp)) ∨ ∃ rest, s.epoller = .running imp rest

/-- Some worker is about to call `queue_enqueue_nb` for `imp` in `imp_term`. -/
def Sys.Terminating (s : Sys W R) (imp : ImpId) : Prop := ∃ w, s.worker w = .terminating imp

section Room

variable {strict : Bool} {imp : ImpId}

/-- The thread that is about to enqueue an imp has its token. -/
theorem running_token (hrun : s.Running imp) :
    heartShare .custody s.heart imp + 1 ≤ tokens .custody s imp := by
  rcases hrun with ⟨w, hw | hw⟩ | ⟨r, hr⟩ | ⟨rest, he⟩
  · exact token_of_unpublished (by rw [hw]; rfl)
  · exact token_of_ready hw
  · exact token_of_initer hr
  · exact token_of_wakes (by rw [he]; rfl)

theorem terminating_token (hterm : s.Terminating imp) :
    heartShare .custody s.heart imp + 1 ≤ tokens .custody s imp := by
  obtain ⟨w, hw⟩ := hterm
  exact token_of_unpublished (by rw [hw]; rfl)

theorem count_le_heartShare (h : Heart) (imp : ImpId) :
    (h.runQueue.toList.count imp : ℤ) + h.terminatedQueue.toList.count imp
      ≤ heartShare .custody h imp := by
  have hflag : 0 ≤ flagUp h imp := flagUp_nonneg
  show _ ≤ _ + 1 * _ + _
  omega

/-- An imp that a thread holds the token of, in front of a list that holds every imp at
most once with a token each: together they are no more than the imps counted. -/
theorem length_lt_total (hb : Books s) (hh : Held .custody strict s) {l : List ImpId}
    (hl : ∀ q, (l.count q : ℤ) ≤ heartShare .custody s.heart q)
    (himp : heartShare .custody s.heart imp + 1 ≤ tokens .custody s imp) :
    (l.length : ℤ) < s.heart.nrTotal := by
  have htokens : ∀ q, (l.count q : ℤ) ≤ tokens .custody s q := fun q =>
    (hl q).trans heartShare_le_tokens
  have hone : ∀ q, (l.count q : ℤ) ≤ 1 := fun q =>
    (htokens q).trans ((hh.tokens_le q).trans (Held.bound_le_one .custody _))
  have hnot : imp ∉ l := by
    intro hmem
    have hpos : 0 < l.count imp := List.count_pos_iff.mpr hmem
    have hbound := Held.bound_le_one .custody (s.heart.imps imp).life
    have htok := hh.tokens_le imp
    have hle := hl imp
    omega
  -- the imps of the list and `imp` are different ones, and all of them are counted
  have hnd : (imp :: l).Nodup := by
    rw [List.nodup_cons, List.nodup_iff_count_le_one]
    exact ⟨hnot, fun q => by exact_mod_cast hone q⟩
  have hlive : ∀ q ∈ imp :: l, q ∈ Finset.range s.heart.nextId ∧
      (s.heart.imps q).life.isCounted = true := by
    intro q hq
    have hpos : 1 ≤ tokens .custody s q := by
      rcases List.mem_cons.mp hq with rfl | hq
      · have hshare : 0 ≤ heartShare .custody s.heart q := heartShare_nonneg
        omega
      · have hcount : 0 < l.count q := List.count_pos_iff.mpr hq
        have hle := htokens q
        omega
    have hlife := hh.summoned_of_pos hpos
    exact ⟨Finset.mem_range.mpr (hb.ledger.lt_next (by rw [hlife]; simp)), by rw [hlife]; rfl⟩
  have hlen := length_le_tally (p := fun i : Imp => i.life.isCounted) (g := s.heart.imps) hnd hlive
  have htotal := hb.ledger.total_eq
  have hdue := flag_nonneg (decide (s.maintainer = .dec))
  rw [List.length_cons] at hlen
  push_cast at hlen
  omega

end Room

theorem total_le_max
    (hr : (dungeon debug).Reach (fun s a => CheckOk s a ∧ WakeOk false s a) s) :
    s.heart.nrTotal ≤ s.heart.nrMax := by
  have hlimit : Limit s := limit_reach (hr.mono fun _ _ h => h.1)
  have hflight : 0 ≤ s.summoners inFlight := by
    refine Int.add_nonneg (tally_nonneg fun pc => ?_) (tally_nonneg fun pc => ?_) <;>
    · unfold inFlight
      split <;> decide
  unfold Limit at hlimit
  omega

theorem running_room {imp : ImpId}
    (hr : (dungeon debug).Reach (fun s a => CheckOk s a ∧ WakeOk false s a) s)
    (hrun : s.Running imp) :
    s.heart.runQueue.toList.length < s.heart.runQueue.max := by
  have hb : Books s := books_reach hr
  have hlen := length_lt_total hb (held_reach (hr.mono fun _ _ h => h.2)) (fun q => by
    have hq := count_le_heartShare s.heart q
    omega : ∀ q, (s.heart.runQueue.toList.count q : ℤ) ≤ _) (running_token hrun)
  have hle := total_le_max hr
  rw [hb.ledger.run_max]
  omega

/-- The terminated queue has a cell for every imp on its way there. -/
theorem terminating_room {imp : ImpId}
    (hr : (dungeon debug).Reach (fun s a => CheckOk s a ∧ WakeOk false s a) s)
    (hterm : s.Terminating imp) :
    s.heart.terminatedQueue.toList.length < s.heart.terminatedQueue.max := by
  have hb : Books s := books_reach hr
  have hlen := length_lt_total hb (held_reach (hr.mono fun _ _ h => h.2)) (fun q => by
    have hq := count_le_heartShare s.heart q
    omega : ∀ q, (s.heart.terminatedQueue.toList.count q : ℤ) ≤ _) (terminating_token hterm)
  have hle := total_le_max hr
  rw [hb.ledger.term_max]
  omega

/-- **Room.** In every run whose tests and wake-ups meet the conditions, the total is within
the limit, and every enqueue of the scheduler succeeds: it returns 0 and appends the imp
(the run queue's duplicate search must not meet the imp in the word past its ring). -/
theorem enqueues_succeed
    (hr : (dungeon debug).Reach (fun s a => CheckOk s a ∧ WakeOk false s a) s) :
    s.heart.nrTotal ≤ s.heart.nrMax ∧
    (∀ imp, s.Running imp → (s.heart.runQueue.queueEnqueueUniqNb imp).1 = 0 ∧
      (s.heart.runQueue.past ≠ imp →
        (s.heart.runQueue.queueEnqueueUniqNb imp).2.toList = s.heart.runQueue.toList ++ [imp])) ∧
    (∀ imp, s.Terminating imp → (s.heart.terminatedQueue.queueEnqueueNb imp).1 = 0 ∧
      (s.heart.terminatedQueue.queueEnqueueNb imp).2.toList
        = s.heart.terminatedQueue.toList ++ [imp]) := by
  have hh : Held .custody false s := held_reach (hr.mono fun _ _ h => h.2)
  have hb : Books s := books_reach hr
  refine ⟨total_le_max hr, fun imp hrun => ?_, fun imp hterm => ?_⟩
  · have hroom := running_room hr hrun
    refine ⟨Queue.queueEnqueueUniqNb_code hroom imp, fun hpast => ?_⟩
    refine Queue.queueEnqueueUniqNb_of_room hroom (hb.ledger.run_max ▸ hb.ledger.max_lt) ?_ hpast
    -- the imp is not queued: its token is in the hands of the thread that enqueues it
    intro hmem
    have htoken := running_token hrun
    have hpos : 0 < s.heart.runQueue.toList.count imp := List.count_pos_iff.mpr hmem
    have hbound := Held.bound_le_one .custody (s.heart.imps imp).life
    have htok := hh.tokens_le imp
    have hq := count_le_heartShare s.heart imp
    omega
  · exact Queue.queueEnqueueNb_of_room (terminating_room hr hterm) imp

/-- Two outside calls of `imp_summon`, each alone. -/
def summonTwice : List (Act 1 2) := summons 0 ++ List.replicate 4 (.initer 1 true)

theorem enqueues_succeed_summonTwice : ∃ s : Sys 1 2,
    (dungeon false).Reach (fun s a => CheckOk s a ∧ WakeOk false s a) s ∧ s.Running 2 ∧
      s.heart.nrTotal ≤ s.heart.nrMax ∧ (s.heart.runQueue.queueEnqueueUniqNb 2).1 = 0 := by
  obtain ⟨s, hr, hp⟩ : ∃ s : Sys 1 2,
      (dungeon false).Reach (fun s a => CheckOk s a ∧ WakeOk false s a) s ∧
      decide (s.initer 1 = some (.ready 2)) = true :=
    Machine.exec_reach (init_blank false Nat.two_pos (by decide))
      (show ((dungeon false).exec (fun s a => CheckOk s a ∧ WakeOk false s a) _ summonTwice).map _
        = some true by decide +kernel)
  have hrun : s.Running 2 := .inr (.inl ⟨1, of_decide_eq_true hp⟩)
  obtain ⟨hle, henq, -⟩ := enqueues_succeed hr
  exact ⟨s, hr, hrun, hle, (henq 2 hrun).1⟩

/-- Two outside calls of `imp_summon` that both pass the test before either counts. -/
def overlappingSummons : List (Act 1 2) :=
  [.initer 0 true, .initer 1 true] ++ List.replicate 4 (.initer 0 true)
    ++ List.replicate 3 (.initer 1 true)

/-- Without the conditions two overlapping calls exceed a limit of one, and the run queue
refuses the second imp. -/
theorem limit_overrun : ¬ ∀ s : Sys 1 2, (dungeon false).Reach Machine.Always s →
    s.heart.nrTotal ≤ s.heart.nrMax ∧
    (∀ imp, s.Running imp → (s.heart.runQueue.queueEnqueueUniqNb imp).1 = 0) ∧
    (∀ imp, s.Terminating imp → (s.heart.terminatedQueue.queueEnqueueNb imp).1 = 0) := by
  intro hall
  obtain ⟨s, hr, hp⟩ : ∃ s : Sys 1 2, (dungeon false).Reach Machine.Always s ∧
      decide (s.heart.nrTotal = 2 ∧ s.heart.nrMax = 1 ∧ s.initer 1 = some (.ready 2) ∧
        (s.heart.runQueue.queueEnqueueUniqNb 2).1 = -1) = true :=
    Machine.exec_reach (init_blank false Nat.one_pos (by decide))
      (show ((dungeon false).exec Machine.Always _ overlappingSummons).map _ = some true
        by decide +kernel)
  obtain ⟨htotal, hmax, -, -⟩ := of_decide_eq_true hp
  obtain ⟨hle, -⟩ := hall s hr
  rw [htotal, hmax] at hle
  exact absurd hle (by decide)

end Dungeon

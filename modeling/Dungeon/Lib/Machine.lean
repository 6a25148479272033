import Mathlib.Logic.Relation

/-!
# Step machines and their conditional runs

A *machine* is a partial, executable step function over labelled actions. All
nondeterminism (which thread moves, what the environment answers) sits in the
action, so a finite run is a list of actions that can be replayed by evaluation.

- `Machine.Run ok`: runs all of whose steps meet the side condition `ok`, which
  looks at the state *before* the step and at the action. `ok := Always` gives
  every run.
- `Machine.Reach ok`: states reached from an initial state by such a run.
- `Reach.invariant`: the one induction every safety theorem goes through. The
  step hypothesis may use that the source state is itself reachable, so an
  invariant proved earlier can be used to prove the next one.
- `Reach.simulate`: a machine whose steps are answered by runs of another one.
- `Machine.exec`: replay of a list of actions, checking `ok` on the way;
  `exec_run` turns a successful replay into a run.
- `Machine.Along P`: every action of a list meets `P` where it is taken. `along_iff`: two
  conditions that agree as long as the second one has been met agree on whole replays.
-/

/-- A labelled transition system given by a partial step function. -/
structure Machine (σ α : Type*) where
  init : σ → Prop
  step : σ → α → Option σ

namespace Machine

variable {σ α : Type*} (M : Machine σ α)

/-- The side condition that excludes no step. -/
def Always (_ : σ) (_ : α) : Prop := True

instance (s : σ) (a : α) : Decidable (Always s a) := isTrue trivial

/-- One step by some action that meets `ok`. -/
def Step (ok : σ → α → Prop) (s s' : σ) : Prop :=
  ∃ a, ok s a ∧ M.step s a = some s'

/-- A finite run all of whose steps meet `ok`. -/
def Run (ok : σ → α → Prop) : σ → σ → Prop :=
  Relation.ReflTransGen (M.Step ok)

/-- States reached from an initial state by a run that meets `ok`. -/
def Reach (ok : σ → α → Prop) (s : σ) : Prop :=
  ∃ s₀, M.init s₀ ∧ M.Run ok s₀ s

variable {M} {ok ok' : σ → α → Prop} {s s' s₀ : σ}

theorem Run.refl : M.Run ok s s := Relation.ReflTransGen.refl

theorem Run.trans {t : σ} (h : M.Run ok s s') (h' : M.Run ok s' t) : M.Run ok s t :=
  Relation.ReflTransGen.trans h h'

theorem Run.tail {t : σ} {a : α} (h : M.Run ok s s') (hok : ok s' a)
    (hstep : M.step s' a = some t) : M.Run ok s t :=
  Relation.ReflTransGen.tail h ⟨a, hok, hstep⟩

/-- A property kept by every step that meets `ok` is kept by every such run. -/
theorem Run.preserves {I : σ → Prop} (h : M.Run ok s s') (hs : I s)
    (hstep : ∀ s a s', I s → ok s a → M.step s a = some s' → I s') : I s' := by
  induction h with
  | refl => exact hs
  | tail _ hlast ih =>
    obtain ⟨a, hok, ha⟩ := hlast
    exact hstep _ a _ ih hok ha

theorem Reach.start (h : M.init s) : M.Reach ok s := ⟨s, h, Run.refl⟩

theorem Reach.next {a : α} (h : M.Reach ok s) (hok : ok s a) (hstep : M.step s a = some s') :
    M.Reach ok s' := by
  obtain ⟨s₀, hinit, hrun⟩ := h
  exact ⟨s₀, hinit, hrun.tail hok hstep⟩

theorem Reach.run (h : M.Reach ok s) (hrun : M.Run ok s s') : M.Reach ok s' := by
  obtain ⟨s₀, hinit, hrun₀⟩ := h
  exact ⟨s₀, hinit, hrun₀.trans hrun⟩

/-- **Invariant rule**: what holds initially and is kept by every step that meets
`ok` holds in every state reached by such steps. -/
theorem Reach.invariant {I : σ → Prop} (h : M.Reach ok s)
    (hinit : ∀ s, M.init s → I s)
    (hstep : ∀ s a s', M.Reach ok s → I s → ok s a → M.step s a = some s' → I s') : I s := by
  obtain ⟨s₀, h₀, hrun⟩ := h
  have hboth : M.Reach ok s ∧ I s := by
    refine hrun.preserves (I := fun t => M.Reach ok t ∧ I t) ⟨Reach.start h₀, hinit s₀ h₀⟩ ?_
    rintro t a t' ⟨hreach, hI⟩ hok ha
    exact ⟨hreach.next hok ha, hstep t a t' hreach hI hok ha⟩
  exact hboth.2

/-- A weaker side condition allows more runs. -/
theorem Run.mono (hle : ∀ s a, ok s a → ok' s a) (h : M.Run ok s s') : M.Run ok' s s' := by
  induction h with
  | refl => exact Run.refl
  | tail _ hlast ih =>
    obtain ⟨a, hok, ha⟩ := hlast
    exact ih.tail (hle _ a hok) ha

theorem Reach.mono (hle : ∀ s a, ok s a → ok' s a) (h : M.Reach ok s) : M.Reach ok' s := by
  obtain ⟨s₀, hinit, hrun⟩ := h
  exact ⟨s₀, hinit, hrun.mono hle⟩

/-- **Simulation rule**: when every step that meets `ok` is answered by a run of the other
machine that leads to a related state, every state reached is related to one that the other
machine reaches. -/
theorem Reach.simulate {τ β : Type*} {N : Machine τ β} {okN : τ → β → Prop} {R : σ → τ → Prop}
    (h : M.Reach ok s) (hinit : ∀ s, M.init s → ∃ t, N.init t ∧ R s t)
    (hstep : ∀ s a s' t, M.Reach ok s → R s t → ok s a → M.step s a = some s' →
      ∃ t', N.Run okN t t' ∧ R s' t') : ∃ t, N.Reach okN t ∧ R s t := by
  refine h.invariant (I := fun s => ∃ t, N.Reach okN t ∧ R s t) (fun s hs => ?_)
    fun s a s' hreach hI hok ha => ?_
  · obtain ⟨t, ht, hR⟩ := hinit s hs
    exact ⟨t, Reach.start ht, hR⟩
  · obtain ⟨t, ht, hR⟩ := hI
    obtain ⟨t', hrun, hR'⟩ := hstep s a s' t hreach hR hok ha
    exact ⟨t', ht.run hrun, hR'⟩

/-! ## Replaying a list of actions -/

/-- Replay `as` from `s`; fails when an action is not enabled or breaks `ok`. -/
def exec (M : Machine σ α) (ok : σ → α → Prop) [∀ s a, Decidable (ok s a)] (s : σ) :
    List α → Option σ
  | [] => some s
  | a :: as =>
    if ok s a then
      match M.step s a with
      | none => none
      | some s' => M.exec ok s' as
    else none

/-- A successful replay is a run. -/
theorem exec_run [∀ s a, Decidable (ok s a)] {as : List α} (h : M.exec ok s as = some s') :
    M.Run ok s s' := by
  induction as generalizing s with
  | nil =>
    obtain rfl : s = s' := Option.some.inj h
    exact Run.refl
  | cons a as ih =>
    unfold exec at h
    split at h
    next hok =>
      split at h
      next => cases h
      next t ha => exact (Run.refl.tail hok ha).trans (ih h)
    next => cases h

theorem exec_cons [∀ s a, Decidable (ok s a)] {a : α} {as : List α} {t : σ} (hok : ok s a)
    (ha : M.step s a = some t) : M.exec ok s (a :: as) = M.exec ok t as := by
  rw [exec, if_pos hok, ha]

/-- A replay can be cut in two. -/
theorem exec_append [∀ s a, Decidable (ok s a)] {as bs : List α}
    (h : M.exec ok s (as ++ bs) = some s') :
    ∃ t, M.exec ok s as = some t ∧ M.exec ok t bs = some s' := by
  induction as generalizing s with
  | nil => exact ⟨s, rfl, h⟩
  | cons a as ih =>
    rw [List.cons_append, exec] at h
    split at h
    next hok =>
      split at h
      next => cases h
      next u ha =>
        obtain ⟨t, has, hbs⟩ := ih h
        exact ⟨t, (exec_cons hok ha).trans has, hbs⟩
    next => cases h

/-- A replay of one action is a step. -/
theorem exec_singleton [∀ s a, Decidable (ok s a)] {a : α} (h : M.exec ok s [a] = some s') :
    M.step s a = some s' := by
  unfold exec at h
  split at h
  next =>
    split at h
    next => cases h
    next ha => exact ha.trans h
  next => cases h

/-- Every action of a list meets `P` where it is taken. -/
def Along (M : Machine σ α) (P : σ → α → Prop) : σ → List α → Prop
  | _, [] => True
  | s, a :: as => P s a ∧ ∀ s', M.step s a = some s' → M.Along P s' as

/-- A replay that checks `P` meets it everywhere. -/
theorem exec_along {P : σ → α → Prop} [∀ s a, Decidable (P s a)] {as : List α}
    (h : M.exec P s as = some s') : M.Along P s as := by
  induction as generalizing s with
  | nil => trivial
  | cons a as ih =>
    unfold exec at h
    split at h
    next hp =>
      split at h
      next => cases h
      next t ha =>
        refine ⟨hp, fun t' ha' => ?_⟩
        obtain rfl := Option.some.inj (ha.symm.trans ha')
        exact ih h
    next => cases h

/-- **Comparison rule**: a condition on the actions of a replay comes to the same as another one,
when it does so in each state of an invariant that the other one keeps. -/
theorem along_iff {I : σ → Prop} {P Q : σ → α → Prop} {as : List α} (hs : I s)
    (hstep : ∀ s a s', I s → M.step s a = some s' → (P s a ↔ Q s a) ∧ (Q s a → I s'))
    (hrun : M.exec Always s as = some s') : M.Along P s as ↔ M.Along Q s as := by
  induction as generalizing s with
  | nil => exact Iff.rfl
  | cons a as ih =>
    rw [exec, if_pos (show Always s a from trivial)] at hrun
    split at hrun
    next => cases hrun
    next t ha =>
      obtain ⟨hiff, hkeep⟩ := hstep s a t hs ha
      rw [Along, Along, hiff]
      refine and_congr_right fun hq => forall_congr' fun t' => imp_congr_right fun ha' => ?_
      obtain rfl := Option.some.inj (ha.symm.trans ha')
      exact ih (hkeep hq) hrun

/-- A replay from an initial state that ends where `p` holds reaches such a state. -/
theorem exec_reach [∀ s a, Decidable (ok s a)] {as : List α} {p : σ → Bool}
    (hinit : M.init s₀) (h : (M.exec ok s₀ as).map p = some true) :
    ∃ s, M.Reach ok s ∧ p s = true := by
  obtain ⟨s, hs, hp⟩ := Option.map_eq_some_iff.mp h
  exact ⟨s, ⟨s₀, hinit, exec_run hs⟩, hp⟩

end Machine

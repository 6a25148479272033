import Mathlib.Data.Nat.Notation

/-!
# Loops that may not end

A loop is the function that makes one turn of it.

- `Turn`: a turn leads to another one, ends the loop, or has no defined outcome. `Turn.whileDo`: the
  turn of a loop with a condition.
- `Loop.run`: at most so many turns. `Loop.Ends`: the loop ends with a result, after some number
  of turns.
- `Ends.unique`: with one result at most. `ends_next`: whether a loop ends does not change from
  turn to turn.
- `not_ends`: a loop with an invariant that no last turn meets does not end.
- `ends_iff`, `reaches_iff`: a loop whose states are known by their number.
-/

variable {σ ρ : Type*}

/-- What one turn of a loop leads to. -/
inductive Turn (σ ρ : Type*) where
  | next (s : σ)
  | done (r : ρ)
  | undefined

/-- `while (goes) body`, where both can be undefined. -/
def Turn.whileDo (goes : σ → Option Bool) (body : σ → Option σ) (s : σ) : Turn σ σ :=
  match goes s with
  | none => .undefined
  | some false => .done s
  | some true =>
    match body s with
    | none => .undefined
    | some s' => .next s'

namespace Loop

/-- The result of a loop that ends within `n` turns. -/
def run (turn : σ → Turn σ ρ) : ℕ → σ → Option ρ
  | 0, _ => none
  | n + 1, s =>
    match turn s with
    | .next s' => run turn n s'
    | .done r => some r
    | .undefined => none

/-- The loop ends with the result `r`. -/
def Ends (turn : σ → Turn σ ρ) (s : σ) (r : ρ) : Prop := ∃ n, run turn n s = some r

variable {turn : σ → Turn σ ρ} {s s' : σ} {r r' : ρ} {n m : ℕ}

theorem run_next (h : turn s = .next s') : run turn (n + 1) s = run turn n s' := by
  rw [run, h]

theorem run_done (h : turn s = .done r) : run turn (n + 1) s = some r := by
  rw [run, h]

theorem run_undefined (h : turn s = .undefined) : run turn n s = none := by
  cases n with
  | zero => rfl
  | succ n => rw [run, h]

/-- More turns change nothing. -/
theorem run_mono (h : run turn n s = some r) (hle : n ≤ m) : run turn m s = some r := by
  induction n generalizing m s with
  | zero => cases h
  | succ n ih =>
    have hpos := Nat.lt_of_lt_of_le n.succ_pos hle
    obtain ⟨m, rfl⟩ := Nat.exists_eq_succ_of_ne_zero (Nat.ne_of_gt hpos)
    cases hs : turn s with
    | next s' =>
      rw [run_next hs] at h ⊢
      exact ih h (Nat.le_of_succ_le_succ hle)
    | done t =>
      rw [run_done hs] at h ⊢
      exact h
    | undefined =>
      rw [run_undefined hs] at h
      cases h

theorem run_whileDo {goes : σ → Option Bool} {body : σ → Option σ} {t : σ}
    (hgoes : goes s = some true) (hbody : body s = some t) :
    run (Turn.whileDo goes body) (n + 1) s = run (Turn.whileDo goes body) n t :=
  run_next (by rw [Turn.whileDo, hgoes, hbody])

theorem run_whileDo_done {goes : σ → Option Bool} {body : σ → Option σ}
    (hgoes : goes s = some false) : run (Turn.whileDo goes body) (n + 1) s = some s :=
  run_done (by rw [Turn.whileDo, hgoes])

theorem Ends.unique (h : Ends turn s r) (h' : Ends turn s r') : r = r' := by
  obtain ⟨n, hn⟩ := h
  obtain ⟨m, hm⟩ := h'
  exact Option.some.inj ((run_mono hn (Nat.le_max_left n m)).symm.trans
    (run_mono hm (Nat.le_max_right n m)))

theorem Ends.done (h : turn s = .done r) : Ends turn s r := ⟨1, run_done h⟩

/-- **One turn** does not decide whether a loop ends. -/
theorem ends_next (h : turn s = .next s') : Ends turn s r ↔ Ends turn s' r := by
  constructor
  · rintro ⟨n, hn⟩
    cases n with
    | zero => cases hn
    | succ n => exact ⟨n, (run_next h).symm.trans hn⟩
  · rintro ⟨n, hn⟩
    exact ⟨n + 1, (run_next h).trans hn⟩

/-- **Invariant rule**: no end, while the invariant allows no last turn. -/
theorem not_ends {I : σ → Prop} (hs : I s)
    (hstep : ∀ s, I s → turn s = .undefined ∨ ∃ s', turn s = .next s' ∧ I s') :
    ¬ Ends turn s r := by
  rintro ⟨n, hn⟩
  induction n generalizing s with
  | zero => cases hn
  | succ n ih =>
    rcases hstep s hs with hundef | ⟨s', hnext, hs'⟩
    · rw [run_undefined hundef] at hn
      cases hn
    · rw [run_next hnext] at hn
      exact ih hs' hn

/-! ## Numbered states -/

/-- The states that the turns lead to. -/
inductive Reaches (turn : σ → Turn σ ρ) (s : σ) : σ → Prop
  | refl : Reaches turn s s
  | next {t t'} (h : Reaches turn s t) (ht : turn t = .next t') : Reaches turn s t'

section Numbered

variable {f : ℕ → σ} {k : ℕ}

/-- The loop ends in the first state whose turn is the last one, if it gets there. Each turn that
goes on goes to the next number. -/
theorem ends_iff (h : ∀ j, (∀ i < j, turn (f i) = .next (f (i + 1))) →
    ∀ s', turn (f j) = .next s' → s' = f (j + 1)) :
    Ends turn (f 0) r ↔
      ∃ k, (∀ j < k, turn (f j) = .next (f (j + 1))) ∧ turn (f k) = .done r := by
  constructor
  · rintro ⟨n, hn⟩
    suffices hat : ∀ i, run turn n (f i) = some r → (∀ j < i, turn (f j) = .next (f (j + 1))) →
        ∃ k, (∀ j < k, turn (f j) = .next (f (j + 1))) ∧ turn (f k) = .done r from hat 0 hn nofun
    clear hn
    induction n with
    | zero => exact fun i hi => nomatch hi
    | succ n ih =>
      intro i hi hbefore
      cases hturn : turn (f i) with
      | next s' =>
        obtain rfl := h i hbefore s' hturn
        rw [run_next hturn] at hi
        refine ih (i + 1) hi fun j hj => ?_
        rcases Nat.lt_or_eq_of_le (Nat.le_of_lt_succ hj) with hlt | rfl
        · exact hbefore j hlt
        · exact hturn
      | done r' =>
        rw [run_done hturn] at hi
        obtain rfl := Option.some.inj hi
        exact ⟨i, hbefore, hturn⟩
      | undefined =>
        rw [run_undefined hturn] at hi
        cases hi
  · rintro ⟨k, hbefore, hdone⟩
    clear h
    induction k generalizing f with
    | zero => exact .done hdone
    | succ k ih =>
      refine (ends_next (hbefore 0 (Nat.succ_pos k))).mpr ?_
      exact ih (f := fun j => f (j + 1)) (fun j hj => hbefore (j + 1) (Nat.succ_lt_succ hj)) hdone

/-- The loop ends in the turn after the last one that goes on, and not before. -/
theorem run_numbered (hbefore : ∀ j < k, turn (f j) = .next (f (j + 1)))
    (hdone : turn (f k) = .done r) :
    run turn (k + 1) (f 0) = some r ∧ ∀ n ≤ k, run turn n (f 0) = none := by
  induction k generalizing f with
  | zero => exact ⟨run_done hdone, fun n hn => by rw [Nat.le_zero.mp hn, run]⟩
  | succ k ih =>
    have hfirst := hbefore 0 (Nat.succ_pos k)
    obtain ⟨hrun, hnone⟩ := ih (f := fun j => f (j + 1))
      (fun j hj => hbefore (j + 1) (Nat.succ_lt_succ hj)) hdone
    refine ⟨(run_next hfirst).trans hrun, fun n hn => ?_⟩
    cases n with
    | zero => rfl
    | succ n => exact (run_next hfirst).trans (hnone n (Nat.le_of_succ_le_succ hn))

/-- The states reached, in the same way. -/
theorem reaches_iff (h : ∀ j, (∀ i < j, turn (f i) = .next (f (i + 1))) →
    ∀ s', turn (f j) = .next s' → s' = f (j + 1)) :
    Reaches turn (f 0) s ↔ ∃ k, s = f k ∧ ∀ j < k, turn (f j) = .next (f (j + 1)) := by
  constructor
  · intro hs
    induction hs with
    | refl => exact ⟨0, rfl, nofun⟩
    | next _ ht ih =>
      obtain ⟨k, rfl, hk⟩ := ih
      obtain rfl := h k hk _ ht
      refine ⟨k + 1, rfl, fun j hj => ?_⟩
      rcases Nat.lt_or_eq_of_le (Nat.le_of_lt_succ hj) with hlt | rfl
      · exact hk j hlt
      · exact ht
  · rintro ⟨k, rfl, hk⟩
    induction k with
    | zero => exact .refl
    | succ k ih =>
      exact (ih fun j hj => hk j (Nat.lt_succ_of_lt hj)).next (hk k (Nat.lt_succ_self k))

end Numbered

end Loop

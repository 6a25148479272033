import Mathlib.Algebra.BigOperators.Group.Finset.Basic
import Mathlib.Algebra.BigOperators.Ring.Finset
import Mathlib.Algebra.Order.BigOperators.Group.Finset
import Mathlib.Data.Int.Basic
import Mathlib.Data.Set.Card

/-!
# Tallies over a family of states

A shared counter is correct when it equals a sum over the parties: one for every
thread that still owes an increment, one for every object in a given condition.
A step changes one party, so the sum changes by that party's share.

- `sum_update`: a sum over the parties after one of them changed.
- `tally s f g`: the sum of `f (g i)` over `i ∈ s`.
- `tally_update`: changing `g` at one point changes the tally by the difference.
- `flag`: the 0/1 share of a Boolean condition.
-/

namespace Tally

variable {ι β : Type*}

/-- A sum over the parties after one of them changed: what it had goes, what it has now
comes. -/
theorem sum_update [DecidableEq ι] {M : Type*} [AddCommMonoid M] {s : Finset ι} {i : ι}
    (hi : i ∈ s) (f : β → M) (g : ι → β) (v : β) :
    (∑ j ∈ s, f (Function.update g i v j)) + f (g i) = (∑ j ∈ s, f (g j)) + f v := by
  have hshares : (fun j => f (Function.update g i v j))
      = Function.update (fun j => f (g j)) i (f v) := Function.comp_update f g i v
  have hrest : ∑ j ∈ s, f (g j) = f (g i) + ∑ j ∈ s \ {i}, f (g j) :=
    Finset.sum_eq_add_sum_sdiff_singleton_of_mem hi _
  rw [hshares, Finset.sum_update_of_mem hi, hrest, add_comm (f v), add_comm (f (g i)),
    add_right_comm]

/-- The share of a condition: one when it holds. -/
def flag (b : Bool) : ℤ := if b then 1 else 0

@[simp] theorem flag_true : flag true = 1 := rfl

@[simp] theorem flag_false : flag false = 0 := rfl

theorem flag_nonneg (b : Bool) : 0 ≤ flag b := by
  cases b <;> decide

theorem flag_le_one (b : Bool) : flag b ≤ 1 := by
  cases b <;> decide

/-- The sum of the shares `f (g i)` of the parties in `s`. -/
def tally (s : Finset ι) (f : β → ℤ) (g : ι → β) : ℤ := ∑ i ∈ s, f (g i)

theorem tally_nonneg {s : Finset ι} {f : β → ℤ} {g : ι → β} (hf : ∀ b, 0 ≤ f b) :
    0 ≤ tally s f g :=
  Finset.sum_nonneg fun i _ => hf (g i)

/-- Changing one party changes the tally by the difference of its shares. -/
theorem tally_update [DecidableEq ι] {s : Finset ι} {f : β → ℤ} {g : ι → β} {i : ι} (hi : i ∈ s)
    (v : β) :
    tally s f (Function.update g i v) = tally s f g - f (g i) + f v := by
  have hsum : tally s f (Function.update g i v) + f (g i) = tally s f g + f v :=
    sum_update hi f g v
  omega

/-- A change outside the tallied set does not show. -/
theorem tally_update_notMem [DecidableEq ι] {s : Finset ι} {f : β → ℤ} {g : ι → β} {i : ι}
    (hi : i ∉ s) (v : β) :
    tally s f (Function.update g i v) = tally s f g := by
  refine Finset.sum_congr rfl fun j hj => ?_
  rw [Function.update_of_ne]
  rintro rfl
  exact hi hj

/-- Parties whose shares agree have the same tally. -/
theorem tally_congr {s : Finset ι} {f : β → ℤ} {g g' : ι → β} (h : ∀ i ∈ s, f (g' i) = f (g i)) :
    tally s f g' = tally s f g :=
  Finset.sum_congr rfl h

/-- Two shares of the same parties. -/
theorem tally_add (s : Finset ι) (f f' : β → ℤ) (g : ι → β) :
    tally s (fun b => f b + f' b) g = tally s f g + tally s f' g :=
  Finset.sum_add_distrib

/-- One more party. -/
theorem tally_range_succ (f : β → ℤ) (g : ℕ → β) (n : ℕ) :
    tally (Finset.range (n + 1)) f g = tally (Finset.range n) f g + f (g n) :=
  Finset.sum_range_succ _ n

/-- Counting the parties that meet a condition. -/
theorem tally_flag_eq_card (s : Finset ι) (p : β → Bool) (g : ι → β) :
    tally s (fun b => flag (p b)) g = (s.filter fun i => p (g i) = true).card := by
  unfold tally flag
  exact Finset.sum_boole _ _

/-- Counting all that meet a condition, when the tally covers them. -/
theorem tally_flag_eq_ncard {s : Finset ι} {p : β → Bool} {g : ι → β}
    (hs : ∀ i, p (g i) = true → i ∈ s) :
    tally s (fun b => flag (p b)) g = ({i | p (g i) = true} : Set ι).ncard := by
  have hset : ({i | p (g i) = true} : Set ι) = ↑(s.filter fun i => p (g i) = true) := by
    ext i
    rw [Finset.mem_coe, Finset.mem_filter]
    exact ⟨fun hp => ⟨hs i hp, hp⟩, fun hp => hp.2⟩
  rw [hset, Set.ncard_coe_finset]
  exact tally_flag_eq_card s p g

/-- A tally in which nobody has a share is zero. -/
theorem tally_eq_zero {s : Finset ι} {f : β → ℤ} {g : ι → β} (h : ∀ i ∈ s, f (g i) = 0) :
    tally s f g = 0 :=
  Finset.sum_eq_zero h

/-- One party's share is at most the whole tally. -/
theorem single_le_tally {s : Finset ι} {f : β → ℤ} {g : ι → β} (hf : ∀ b, 0 ≤ f b) {i : ι}
    (hi : i ∈ s) : f (g i) ≤ tally s f g :=
  Finset.single_le_sum (f := fun j => f (g j)) (fun j _ => hf (g j)) hi

/-- Two parties' shares together are at most the whole tally. -/
theorem pair_le_tally [DecidableEq ι] {s : Finset ι} {f : β → ℤ} {g : ι → β} (hf : ∀ b, 0 ≤ f b)
    {i j : ι} (hi : i ∈ s) (hj : j ∈ s) (hne : i ≠ j) : f (g i) + f (g j) ≤ tally s f g := by
  have hj' : j ∈ s.erase i := Finset.mem_erase.mpr ⟨hne.symm, hj⟩
  unfold tally
  rw [← Finset.add_sum_erase s _ hi]
  have hle : f (g j) ≤ ∑ k ∈ s.erase i, f (g k) :=
    Finset.single_le_sum (f := fun k => f (g k)) (fun k _ => hf (g k)) hj'
  omega

/-- A duplicate-free list of parties, each with a full share, is no longer than the tally. -/
theorem length_le_tally [DecidableEq ι] {s : Finset ι} {p : β → Bool} {g : ι → β} {l : List ι}
    (hnd : l.Nodup) (hl : ∀ i ∈ l, i ∈ s ∧ p (g i) = true) :
    (l.length : ℤ) ≤ tally s (fun b => flag (p b)) g := by
  have hsub : l.toFinset ⊆ s := by
    intro i hi
    exact (hl i (List.mem_toFinset.mp hi)).1
  calc (l.length : ℤ) = ∑ _i ∈ l.toFinset, (1 : ℤ) := by
        rw [Finset.sum_const, List.toFinset_card_of_nodup hnd]
        simp
    _ = ∑ i ∈ l.toFinset, flag (p (g i)) := by
        refine Finset.sum_congr rfl fun i hi => ?_
        rw [(hl i (List.mem_toFinset.mp hi)).2, flag_true]
    _ ≤ tally s (fun b => flag (p b)) g :=
        Finset.sum_le_sum_of_subset_of_nonneg hsub fun i _ _ => flag_nonneg _

/-- A duplicate-free list of exactly the parties with a share is as long as the tally. -/
theorem length_eq_tally [DecidableEq ι] {s : Finset ι} {p : β → Bool} {g : ι → β} {l : List ι}
    (hnd : l.Nodup) (hl : ∀ i, i ∈ l ↔ i ∈ s ∧ p (g i) = true) :
    (l.length : ℤ) = tally s (fun b => flag (p b)) g := by
  have hset : l.toFinset = s.filter fun i => p (g i) = true := by
    ext i
    rw [List.mem_toFinset, hl, Finset.mem_filter]
  rw [tally_flag_eq_card, ← hset, List.toFinset_card_of_nodup hnd]

end Tally

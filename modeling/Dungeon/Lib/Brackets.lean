import Mathlib.Algebra.BigOperators.Group.List.Basic
import Mathlib.Algebra.Ring.Int.Defs
import Mathlib.Data.List.Infix

/-!
# Balanced brackets

Symbols that raise a level, lower it, or leave it alone.

- `level`: the level behind some symbols.
- `Balanced`: it is zero at the end, and never below on the way.
- `balanced_flat`, `Balanced.append`, `Balanced.enclose`: how balanced words are made.
- `Balanced.open_pos`: inside a pair of brackets the level is positive.
-/

namespace Brackets

variable {α : Type*} {weight : α → ℤ} {a b : α} {s t p : List α}

/-- The level behind some symbols. -/
def level (weight : α → ℤ) (s : List α) : ℤ := (s.map weight).sum

@[simp] theorem level_nil : level weight [] = 0 := rfl

@[simp] theorem level_cons : level weight (a :: s) = weight a + level weight s := by
  simp [level]

@[simp] theorem level_append : level weight (s ++ t) = level weight s + level weight t := by
  simp [level]

/-- The level is zero at the end, and never below zero before. -/
structure Balanced (weight : α → ℤ) (s : List α) : Prop where
  level_eq : level weight s = 0
  nonneg : ∀ p, p <+: s → 0 ≤ level weight p

/-- Symbols that leave the level alone. -/
theorem balanced_flat (h : ∀ a ∈ s, weight a = 0) : Balanced weight s := by
  have hflat : ∀ p, p <+: s → level weight p = 0 := by
    intro p hp
    induction p with
    | nil => rfl
    | cons a p ih =>
      rw [level_cons, h a (hp.subset List.mem_cons_self), zero_add]
      refine List.sum_eq_zero fun n hn => ?_
      obtain ⟨b, hb, rfl⟩ := List.mem_map.mp hn
      exact h b (hp.subset (List.mem_cons_of_mem a hb))
  exact ⟨hflat s (List.prefix_refl s), fun p hp => Int.le_of_eq (hflat p hp).symm⟩

namespace Balanced

theorem append (hs : Balanced weight s) (ht : Balanced weight t) : Balanced weight (s ++ t) where
  level_eq := by rw [level_append, hs.level_eq, ht.level_eq, add_zero]
  nonneg p hp := by
    rcases List.prefix_or_prefix_of_prefix hp (List.prefix_append s t) with hshort | ⟨q, rfl⟩
    · exact hs.nonneg p hshort
    · rw [level_append, hs.level_eq, zero_add]
      exact ht.nonneg q ((List.prefix_append_right_inj s).mp hp)

/-- Inside a pair of brackets the level is positive. -/
theorem open_pos (hs : Balanced weight s) (ha : weight a = 1) (hp : p <+: a :: (s ++ [b]))
    (hnil : p ≠ []) (hne : p ≠ a :: (s ++ [b])) : 0 < level weight p := by
  obtain ⟨q, rfl, hq⟩ := (List.prefix_cons_iff.mp hp).resolve_left hnil
  rcases List.prefix_concat_iff.mp hq with hall | hq
  · exact absurd (congrArg (a :: ·) hall) hne
  · have hle := hs.nonneg q hq
    rw [level_cons, ha]
    omega

theorem enclose (hs : Balanced weight s) (ha : weight a = 1) (hb : weight b = -1) :
    Balanced weight (a :: (s ++ [b])) where
  level_eq := by
    rw [level_cons, level_append, hs.level_eq, level_cons, level_nil, ha, hb]
    rfl
  nonneg p hp := by
    by_cases hnil : p = []
    · exact hnil ▸ Int.le_refl 0
    · by_cases hall : p = a :: (s ++ [b])
      · rw [hall, level_cons, level_append, hs.level_eq, level_cons, level_nil, ha, hb]
        decide
      · exact Int.le_of_lt (hs.open_pos ha hp hnil hall)

end Balanced

end Brackets

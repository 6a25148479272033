import Mathlib.Algebra.Group.Nat.Defs
import Mathlib.Order.Lattice
import Mathlib.Order.Defs.LinearOrder

/-!
# The descriptor limit (`main.c`)

`rlimit_try` looks for the largest limit that the process may set, between two bounds, by setting
what it tries. An unprivileged process may not go above its hard limit, and each success lowers
that to what was set.

- `setrlimit`, `rlimitTry`: the probe and the search. The arithmetic is that of numbers below
  `2^64` that never leave it.
- `rlimitTry_low`: from a hard limit equal to the lower bound nothing more can be set.
- `rlimitTry_eq`: so the first probe that succeeds is the result, and the probes go down from the
  upper bound by halving the distance to the lower one.
- `rlimit_try_iff`: it is the best limit exactly when that is one of the probes.
-/

namespace Dungeon

/-- `struct rlimit`. -/
structure Rlimit where
  rlimCur : ℕ
  rlimMax : ℕ
deriving DecidableEq

/-- `setrlimit` with `rlim_cur` and `rlim_max` both `v`, in an unprivileged process. -/
def setrlimit (r : Rlimit) (v : ℕ) : Option Rlimit :=
  if v ≤ r.rlimMax then some ⟨v, v⟩ else none

/-- `rlimit_try`: the result, and the limits of the process. -/
def rlimitTry (left right : ℕ) (r : Rlimit) : ℕ × Rlimit :=
  if left > right then rlimitTry right left r
  else if left = right ∨ left = right - 1 then (left, r)
  else
    match setrlimit r right with
    | some r => (right, r)
    | none =>
      match setrlimit r ((right - left) / 2 + left) with
      | some r => rlimitTry ((right - left) / 2 + left) right r
      | none => rlimitTry left ((right - left) / 2 + left) r
termination_by right - left + 2 * (left - right)

/-- The result is the best limit there is up to `right`, and the process has it. -/
def FindsLimit (limit : Rlimit → ℕ) (left right : ℕ) (r : Rlimit) : Prop :=
  (rlimitTry left right r).1 = min right r.rlimMax ∧
    (rlimitTry left right r).1 ≤ limit (rlimitTry left right r).2

/-- The probes: the upper bound, and then half way from the lower one to the last probe. -/
def rlimitProbe (left right j : ℕ) : ℕ := left + (right - left) / 2 ^ j

namespace Rlimit

variable {left right v : ℕ} {r r' : Rlimit}

theorem setrlimit_eq_some : setrlimit r v = some r' ↔ v ≤ r.rlimMax ∧ r' = ⟨v, v⟩ := by
  rw [setrlimit, Option.ite_none_right_eq_some, Option.some.injEq, eq_comm (b := r')]

theorem setrlimit_eq_none : setrlimit r v = none ↔ r.rlimMax < v := by
  rw [setrlimit, ite_eq_right_iff, ← Nat.not_le]
  exact ⟨fun h hle => Option.some_ne_none _ (h hle), fun h hle => absurd hle h⟩

/-- With the lower bound for a hard limit, nothing is set and the lower bound comes out. -/
theorem rlimitTry_low (hle : left ≤ right) (hlow : r.rlimMax = left) :
    rlimitTry left right r = (left, r) := by
  fun_induction rlimitTry left right r with
  | case1 left right r hgt ih => exact absurd hle (Nat.not_le.mpr hgt)
  | case2 left right r hle hbase => rfl
  | case3 left right r hle hbase r' hright =>
    obtain ⟨hfits, -⟩ := setrlimit_eq_some.mp hright
    omega
  | case4 left right r hle hbase hright r' hmid ih =>
    obtain ⟨hfits, -⟩ := setrlimit_eq_some.mp hmid
    omega
  | case5 left right r hle hbase hright hmid ih => exact ih (by omega) hlow

/-- The probes of the lower half. -/
theorem rlimitProbe_half (left right j : ℕ) :
    rlimitProbe left ((right - left) / 2 + left) j = rlimitProbe left right (j + 1) := by
  rw [rlimitProbe, rlimitProbe, Nat.add_sub_cancel, Nat.div_div_eq_div_mul, Nat.pow_succ']

theorem rlimitProbe_zero (hle : left ≤ right) : rlimitProbe left right 0 = right := by
  rw [rlimitProbe, Nat.pow_zero, Nat.div_one, Nat.add_sub_cancel' hle]

/-- **The search**, below the upper bound: it ends with the first probe that the hard limit allows.
Where that is the lower bound it has not been tried. -/
theorem rlimitTry_eq (hlow : left ≤ r.rlimMax) (hhigh : r.rlimMax < right) :
    ∃ j, rlimitProbe left right j ≤ r.rlimMax ∧ (∀ i < j, r.rlimMax < rlimitProbe left right i) ∧
      rlimitTry left right r = (rlimitProbe left right j,
        if r.rlimMax = left then r else ⟨rlimitProbe left right j, rlimitProbe left right j⟩) := by
  fun_induction rlimitTry left right r with
  | case1 left right r hgt ih => omega
  | case2 left right r hle hbase =>
    have hmax : r.rlimMax = left := by omega
    have hone : rlimitProbe left right 1 = left := by
      rw [rlimitProbe, show right - left = 1 by omega]
      rfl
    refine ⟨1, by omega, fun i hi => ?_, ?_⟩
    · obtain rfl : i = 0 := by omega
      rwa [rlimitProbe_zero (by omega)]
    · rw [hone, if_pos hmax]
  | case3 left right r hle hbase r' hright =>
    obtain ⟨hfits, -⟩ := setrlimit_eq_some.mp hright
    omega
  | case4 left right r hle hbase hright r' hmid ih =>
    obtain ⟨hfits, rfl⟩ := setrlimit_eq_some.mp hmid
    have hone : rlimitProbe left right 1 = (right - left) / 2 + left := Nat.add_comm ..
    refine ⟨1, by omega, fun i hi => ?_, ?_⟩
    · obtain rfl : i = 0 := by omega
      rwa [rlimitProbe_zero (by omega)]
    · have hmax : r.rlimMax ≠ left := by omega
      rw [hone, if_neg hmax]
      exact rlimitTry_low (by omega) rfl
  | case5 left right r hle hbase hright hmid ih =>
    obtain ⟨j, hj, hbefore, heq⟩ := ih hlow (setrlimit_eq_none.mp hmid)
    simp only [rlimitProbe_half] at hj hbefore heq
    refine ⟨j + 1, hj, fun i hi => ?_, heq⟩
    cases i with
    | zero => rwa [rlimitProbe_zero (by omega)]
    | succ i => exact hbefore i (by omega)

/-- From the upper bound on nothing is searched. -/
theorem rlimitTry_high (hle : left ≤ right) (hgap : right ≠ left + 1) (hhigh : right ≤ r.rlimMax) :
    rlimitTry left right r = (right, if left = right then r else ⟨right, right⟩) := by
  rw [rlimitTry, if_neg (Nat.not_lt.mpr hle)]
  by_cases heq : left = right
  · rw [if_pos (.inl heq), if_pos heq, heq]
  · have hbase : ¬ (left = right ∨ left = right - 1) := by omega
    rw [if_neg hbase, if_neg heq, setrlimit_eq_some.mpr ⟨hhigh, rfl⟩]

/-- The limits that are found: the upper bound, where it is allowed, and the probes. -/
def Findable (left right : ℕ) (r : Rlimit) : Prop :=
  right ≤ r.rlimMax ∨ ∃ j, r.rlimMax = rlimitProbe left right j

/-- What comes out is the best limit exactly when that is one of the probes. -/
theorem rlimitTry_min_iff (hle : left ≤ right) (hgap : right ≠ left + 1)
    (hlow : left ≤ r.rlimMax) :
    (rlimitTry left right r).1 = min right r.rlimMax ↔ Findable left right r := by
  rcases Nat.lt_or_ge r.rlimMax right with hlt | hge
  · obtain ⟨j, hj, hbefore, heq⟩ := rlimitTry_eq hlow hlt
    rw [heq, min_eq_right (Nat.le_of_lt hlt)]
    constructor
    · exact fun h => .inr ⟨j, h.symm⟩
    · rintro (hge | ⟨i, hi⟩)
      · omega
      · -- the probes go down, so the first one that is allowed is the largest
        have hji : j ≤ i := Nat.not_lt.mp fun hij => Nat.ne_of_lt (hbefore i hij) hi
        have hmono : rlimitProbe left right i ≤ rlimitProbe left right j :=
          Nat.add_le_add_left (Nat.div_le_div_left (Nat.pow_le_pow_right (by decide) hji)
            (Nat.pow_pos (by decide))) left
        omega
  · rw [rlimitTry_high hle hgap hge, min_eq_left hge]
    exact iff_of_true rfl (.inl hge)

/-- The hard limit ends no lower than the result. -/
theorem rlimitTry_le_max (hle : left ≤ right) (hgap : right ≠ left + 1) (hlow : left ≤ r.rlimMax) :
    (rlimitTry left right r).1 ≤ (rlimitTry left right r).2.rlimMax := by
  rcases Nat.lt_or_ge r.rlimMax right with hlt | hge
  · obtain ⟨j, hj, -, heq⟩ := rlimitTry_eq hlow hlt
    rw [heq]
    show rlimitProbe left right j ≤ (if _ then _ else _ : Rlimit).rlimMax
    split
    next => exact hj
    next => exact Nat.le_refl _
  · rw [rlimitTry_high hle hgap hge]
    show right ≤ (if _ then _ else _ : Rlimit).rlimMax
    split
    next => exact hge
    next => exact Nat.le_refl _

/-- The soft limit ends lower when nothing was set and it was lower before. -/
theorem rlimitTry_le_cur_iff (hle : left ≤ right) (hgap : right ≠ left + 1)
    (hlow : left ≤ r.rlimMax) :
    (rlimitTry left right r).1 ≤ (rlimitTry left right r).2.rlimCur ↔
      (left = right ∨ r.rlimMax = left → left ≤ r.rlimCur) := by
  rcases Nat.lt_or_ge r.rlimMax right with hlt | hge
  · obtain ⟨j, hj, -, heq⟩ := rlimitTry_eq hlow hlt
    rw [heq]
    by_cases hmax : r.rlimMax = left
    · have hprobe : rlimitProbe left right j = left :=
        Nat.le_antisymm (hmax ▸ hj) (Nat.le_add_right ..)
      rw [if_pos hmax, hprobe]
      exact ⟨fun h _ => h, fun h => h (.inr hmax)⟩
    · rw [if_neg hmax]
      exact iff_of_true (Nat.le_refl _) fun h => by omega
  · rw [rlimitTry_high hle hgap hge]
    by_cases heq : left = right
    · rw [if_pos heq, ← heq]
      exact ⟨fun h _ => h, fun h => h (.inl rfl)⟩
    · rw [if_neg heq]
      exact iff_of_true (Nat.le_refl _) fun h => by omega

/-- **Where `rlimit_try` finds the best limit.** For all bounds that are not next to each other
and every hard limit from the lower one on, the search ends, and its result is the best limit and
no more than the hard limit it leaves exactly when the upper bound is allowed, or the hard limit is
the lower bound plus the distance halved some number of times. For the soft limit one more thing
is needed: where nothing can be set it was no lower before. -/
theorem rlimit_try_iff (hle : left ≤ right) (hgap : right ≠ left + 1) (hlow : left ≤ r.rlimMax) :
    (FindsLimit Rlimit.rlimMax left right r ↔ Findable left right r) ∧
      (FindsLimit Rlimit.rlimCur left right r ↔
        Findable left right r ∧ (left = right ∨ r.rlimMax = left → left ≤ r.rlimCur)) := by
  constructor
  · rw [FindsLimit, rlimitTry_min_iff hle hgap hlow]
    exact and_iff_left (rlimitTry_le_max hle hgap hlow)
  · rw [FindsLimit, rlimitTry_min_iff hle hgap hlow, rlimitTry_le_cur_iff hle hgap hlow]

/-- A hard limit that is hit: the third probe. -/
theorem rlimit_try_thirdProbe : FindsLimit Rlimit.rlimCur 1024 101024 ⟨1024, 26024⟩ :=
  ((rlimit_try_iff (r := ⟨1024, 26024⟩) (by decide) (by decide) (by decide)).2).mpr
    ⟨.inr ⟨2, by decide⟩, by decide⟩

/-- The default of the configuration with a hard limit of 60000: the first half is allowed, and
makes all that is above it forbidden. And with equal bounds the soft limit is not looked at. -/
theorem rlimit_try_short : rlimitTry 1024 101024 ⟨1024, 60000⟩ = (51024, ⟨51024, 51024⟩) ∧
    ¬ FindsLimit Rlimit.rlimMax 1024 101024 ⟨1024, 60000⟩ ∧
    rlimitTry 1024 1024 ⟨256, 4096⟩ = (1024, ⟨256, 4096⟩) := by
  have htry : rlimitTry 1024 101024 ⟨1024, 60000⟩ = (51024, ⟨51024, 51024⟩) := by
    rw [rlimitTry, if_neg (by decide), if_neg (by decide)]
    have hle : 51024 ≤ 101024 := by decide
    exact rlimitTry_low hle rfl
  refine ⟨htry, fun hfinds => ?_, by rw [rlimitTry]; rfl⟩
  obtain ⟨hmin, -⟩ := hfinds
  rw [htry] at hmin
  exact absurd hmin (by decide)

end Rlimit

end Dungeon

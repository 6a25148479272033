import Mathlib.Data.Int.Notation
import Mathlib.Order.Basic
import Dungeon.Lib.CInt

/-!
# Times in seconds and nanoseconds (`util_misc.c`)

- `Timespec`: `struct timespec`. Its fields are integers here: the results are about times whose
  seconds are far from the limits of `time_t`, and the nanoseconds of two canonical times never
  leave a `long`. Products of `int`s are those of `Dungeon.Lib.CInt`.
- `Exact`: a canonical time that stands for a given number of nanoseconds.
- `normalize_of_excess`, `normalize_of_le`, `normalize_of_neg`: what `timespec_normalize` makes
  of excess, canonical, and negative nanoseconds; exactly one second of them counts as canonical
  there.
- `timespec_exact_iff`: when sums, differences and normalized times are exact.
- `timespec_add_ms_iff`: when adding milliseconds is adding their time.
-/

namespace Dungeon

/-- `CONST_NANOSEC_1sec`. -/
def constNanosec1sec : ℤ := 1 * 1000 * 1000 * 1000

/-- `struct timespec`. -/
structure Timespec where
  tvSec : ℤ
  tvNsec : ℤ
deriving DecidableEq

/-- `timespec_normalize`. -/
def timespecNormalize (ts : Timespec) : Timespec :=
  if ts.tvNsec > constNanosec1sec then
    { tvSec := ts.tvSec + ts.tvNsec.tdiv constNanosec1sec
      tvNsec := ts.tvNsec.tmod constNanosec1sec }
  else if ts.tvNsec < 0 then
    { tvSec := ts.tvSec - ts.tvNsec.tdiv constNanosec1sec
      tvNsec := ts.tvNsec.tmod constNanosec1sec + constNanosec1sec }
  else ts

/-- `timespec_sub`. -/
def timespecSub (ts1 ts2 : Timespec) : Timespec :=
  timespecNormalize ⟨ts1.tvSec - ts2.tvSec, ts1.tvNsec - ts2.tvNsec⟩

/-- `timespec_add`. -/
def timespecAdd (ts1 ts2 : Timespec) : Timespec :=
  timespecNormalize ⟨ts1.tvSec + ts2.tvSec, ts1.tvNsec + ts2.tvNsec⟩

/-- `timespec_add_ms`. -/
def timespecAddMs (ts1 : Timespec) (ms : ℤ) : Option Timespec :=
  (CInt.mul ms 1000).bind fun us => (CInt.mul us 1000).map fun ns =>
    timespecNormalize ⟨ts1.tvSec, ts1.tvNsec + ns⟩

/-- `timespec_by_ms`. -/
def timespecByMs (ms : ℤ) : Option Timespec :=
  (CInt.mul (ms.tmod 1000) 1000).bind fun us => (CInt.mul us 1000).map fun ns =>
    ⟨ms.tdiv 1000, ns⟩

namespace Timespec

/-- The nanoseconds that a time stands for. -/
def nanoseconds (ts : Timespec) : ℤ := ts.tvSec * constNanosec1sec + ts.tvNsec

/-- The nanoseconds are less than a second. -/
def Canonical (ts : Timespec) : Prop := 0 ≤ ts.tvNsec ∧ ts.tvNsec < constNanosec1sec

/-- The canonical time of `ns` nanoseconds. -/
def Exact (ts : Timespec) (ns : ℤ) : Prop := ts.Canonical ∧ ts.nanoseconds = ns

instance (ts : Timespec) : Decidable ts.Canonical := inferInstanceAs (Decidable (_ ∧ _))

instance (ts : Timespec) (ns : ℤ) : Decidable (ts.Exact ns) := inferInstanceAs (Decidable (_ ∧ _))

variable {ts ts' a b : Timespec} {ns ms : ℤ}

theorem nanosec_eq : constNanosec1sec = 1000000000 := rfl

/-- There is one canonical time for a number of nanoseconds. -/
theorem Exact.unique (h : ts.Exact ns) (h' : ts'.Exact ns) : ts = ts' := by
  obtain ⟨⟨hlow, hhigh⟩, hns⟩ := h
  obtain ⟨⟨hlow', hhigh'⟩, hns'⟩ := h'
  obtain ⟨sec, nsec⟩ := ts
  obtain ⟨sec', nsec'⟩ := ts'
  simp only [nanoseconds, nanosec_eq] at *
  have hsec : sec = sec' := by omega
  have hnsec : nsec = nsec' := by omega
  rw [hsec, hnsec]

/-! ## Normalizing -/

/-- An excess is carried. -/
theorem normalize_of_excess (h : constNanosec1sec < ts.tvNsec) :
    (timespecNormalize ts).Exact ts.nanoseconds := by
  have hpos : 0 ≤ ts.tvNsec := by simp only [nanosec_eq] at h; omega
  rw [timespecNormalize, if_pos h, Int.tdiv_eq_ediv_of_nonneg hpos, Int.tmod_eq_emod_of_nonneg hpos]
  simp only [Exact, Canonical, nanoseconds, nanosec_eq]
  omega

theorem normalize_of_le (hlow : 0 ≤ ts.tvNsec) (hhigh : ts.tvNsec ≤ constNanosec1sec) :
    timespecNormalize ts = ts := by
  have hgt : ¬ ts.tvNsec > constNanosec1sec := Int.not_lt.mpr hhigh
  rw [timespecNormalize, if_neg hgt, if_neg (Int.not_lt.mpr hlow)]

/-- Negative nanoseconds: division in C rounds toward zero, so the whole seconds of them have a
minus sign already, and with a second one they are added. The second that is lent to the rest is
not taken off either. -/
theorem normalize_of_neg (h : ts.tvNsec < 0) :
    timespecNormalize ts = ⟨ts.tvSec + -ts.tvNsec / constNanosec1sec,
      constNanosec1sec - -ts.tvNsec % constNanosec1sec⟩ := by
  have hpos : 0 ≤ -ts.tvNsec := by omega
  have hdiv : ts.tvNsec.tdiv constNanosec1sec = -(-ts.tvNsec / constNanosec1sec) := by
    rw [← Int.tdiv_eq_ediv_of_nonneg hpos, Int.neg_tdiv, Int.neg_neg]
  have hmod : ts.tvNsec.tmod constNanosec1sec = -(-ts.tvNsec % constNanosec1sec) := by
    rw [← Int.tmod_eq_emod_of_nonneg hpos, Int.neg_tmod, Int.neg_neg]
  have hgt : ¬ ts.tvNsec > constNanosec1sec := by simp only [nanosec_eq]; omega
  rw [timespecNormalize, if_neg hgt, if_pos h, hdiv, hmod, Int.sub_neg, Int.add_comm (-_),
    ← Int.sub_eq_add_neg]

/-- What normalizing leaves is later than it should be. -/
theorem nanoseconds_normalize_of_neg (h : ts.tvNsec < 0) :
    ts.nanoseconds < (timespecNormalize ts).nanoseconds := by
  rw [normalize_of_neg h]
  simp only [nanoseconds, nanosec_eq]
  omega

/-- **Normalizing** is right but for negative nanoseconds and exactly a second of them. -/
theorem normalize_exact_iff : (timespecNormalize ts).Exact ts.nanoseconds ↔
    0 ≤ ts.tvNsec ∧ ts.tvNsec ≠ constNanosec1sec := by
  rcases Int.lt_or_le ts.tvNsec 0 with hneg | hpos
  · refine iff_of_false (fun hexact => ?_) fun h => absurd h.1 (Int.not_le.mpr hneg)
    exact absurd hexact.2 (Int.ne_of_gt (nanoseconds_normalize_of_neg hneg))
  · rw [and_iff_right hpos]
    rcases Int.lt_or_le constNanosec1sec ts.tvNsec with hgt | hle
    · exact iff_of_true (normalize_of_excess hgt) (Int.ne_of_gt hgt)
    · rw [normalize_of_le hpos hle]
      constructor
      · exact fun hexact => Int.ne_of_lt hexact.1.2
      · exact fun hne => ⟨⟨hpos, Int.lt_iff_le_and_ne.mpr ⟨hle, hne⟩⟩, rfl⟩

/-- Two ways to write a time are normalized to the same one, unless just one of them has exactly a
second of nanoseconds. -/
theorem normalize_eq_iff (hns : ts.nanoseconds = ts'.nanoseconds) (hpos : 0 ≤ ts.tvNsec)
    (hpos' : 0 ≤ ts'.tvNsec) : timespecNormalize ts = timespecNormalize ts' ↔
      (ts.tvNsec = constNanosec1sec ↔ ts'.tvNsec = constNanosec1sec) := by
  by_cases h : ts.tvNsec = constNanosec1sec <;> by_cases h' : ts'.tvNsec = constNanosec1sec
  · refine iff_of_true (congrArg _ ?_) (iff_of_true h h')
    obtain ⟨sec, nsec⟩ := ts
    obtain ⟨sec', nsec'⟩ := ts'
    simp only [nanoseconds, nanosec_eq] at *
    have hsec : sec = sec' := by omega
    rw [hsec, h, h']
  · refine iff_of_false (fun heq => ?_) fun hiff => h' (hiff.mp h)
    have hexact := normalize_exact_iff.mpr ⟨hpos', h'⟩
    rw [← heq, normalize_of_le hpos (Int.le_of_eq h)] at hexact
    exact Int.ne_of_lt hexact.1.2 h
  · refine iff_of_false (fun heq => ?_) fun hiff => h (hiff.mpr h')
    have hexact := normalize_exact_iff.mpr ⟨hpos, h⟩
    rw [heq, normalize_of_le hpos' (Int.le_of_eq h')] at hexact
    exact Int.ne_of_lt hexact.1.2 h'
  · refine iff_of_true ?_ (iff_of_false h h')
    have hexact := normalize_exact_iff.mpr ⟨hpos', h'⟩
    rw [← hns] at hexact
    exact (normalize_exact_iff.mpr ⟨hpos, h⟩).unique hexact

/-! ## Sums and differences -/

theorem nanoseconds_add (a b : Timespec) :
    nanoseconds ⟨a.tvSec + b.tvSec, a.tvNsec + b.tvNsec⟩ = a.nanoseconds + b.nanoseconds := by
  simp only [nanoseconds, nanosec_eq]
  omega

theorem nanoseconds_sub (a b : Timespec) :
    nanoseconds ⟨a.tvSec - b.tvSec, a.tvNsec - b.tvNsec⟩ = a.nanoseconds - b.nanoseconds := by
  simp only [nanoseconds, nanosec_eq]
  omega

theorem add_exact_iff (ha : a.Canonical) (hb : b.Canonical) :
    (timespecAdd a b).Exact (a.nanoseconds + b.nanoseconds) ↔
      a.tvNsec + b.tvNsec ≠ constNanosec1sec := by
  rw [timespecAdd, ← nanoseconds_add, normalize_exact_iff]
  exact and_iff_right (Int.add_nonneg ha.1 hb.1)

theorem sub_exact_iff (ha : a.Canonical) (hb : b.Canonical) :
    (timespecSub a b).Exact (a.nanoseconds - b.nanoseconds) ↔ b.tvNsec ≤ a.tvNsec := by
  rw [timespecSub, ← nanoseconds_sub, normalize_exact_iff, Int.sub_nonneg, and_iff_left_iff_imp]
  intro _
  show a.tvNsec - b.tvNsec ≠ constNanosec1sec
  obtain ⟨⟨hlow, hhigh⟩, hlow', hhigh'⟩ := And.intro ha hb
  omega

/-- A difference that borrows is late. -/
theorem nanoseconds_sub_of_borrow (h : a.tvNsec < b.tvNsec) :
    a.nanoseconds - b.nanoseconds < (timespecSub a b).nanoseconds := by
  rw [timespecSub, ← nanoseconds_sub]
  exact nanoseconds_normalize_of_neg (Int.sub_neg_of_lt h)

/-- Taking off again what was added: there is no way back over the turn of a second. -/
theorem sub_add_eq_iff (ha : a.Canonical) (hb : b.Canonical) :
    timespecSub (timespecAdd a b) b = a ↔ a.tvNsec + b.tvNsec ≤ constNanosec1sec := by
  have hnonneg : 0 ≤ a.tvNsec + b.tvNsec := Int.add_nonneg ha.1 hb.1
  obtain ⟨⟨hlow, hhigh⟩, hlow', hhigh'⟩ := And.intro ha hb
  rcases Int.lt_or_le constNanosec1sec (a.tvNsec + b.tvNsec) with hgt | hle
  · refine iff_of_false (fun heq => ?_) (Int.not_le.mpr hgt)
    have hsum : (timespecAdd a b).Exact (a.nanoseconds + b.nanoseconds) :=
      (add_exact_iff ha hb).mpr (Int.ne_of_gt hgt)
    -- the sum has less nanoseconds than `b`
    have hborrow : (timespecAdd a b).tvNsec < b.tvNsec := by
      obtain ⟨⟨hlow₁, hhigh₁⟩, hns⟩ := hsum
      simp only [nanoseconds, nanosec_eq] at *
      omega
    have hlate := nanoseconds_sub_of_borrow hborrow
    rw [heq, hsum.2] at hlate
    omega
  · have hsum : timespecAdd a b = ⟨a.tvSec + b.tvSec, a.tvNsec + b.tvNsec⟩ :=
      normalize_of_le hnonneg hle
    refine iff_of_true ?_ hle
    rw [hsum, timespecSub, Int.add_sub_cancel, Int.add_sub_cancel]
    exact normalize_of_le hlow (Int.le_of_lt hhigh)

/-- **Where the arithmetic is exact.** For all canonical times: a sum is canonical and exact unless
the nanoseconds add up to exactly a second, a difference unless it borrows, and a sum is taken
back unless it carries; a time is normalized exactly unless its nanoseconds are negative or
exactly a second. -/
theorem timespec_exact_iff (ha : a.Canonical) (hb : b.Canonical) :
    ((timespecAdd a b).Exact (a.nanoseconds + b.nanoseconds) ↔
        a.tvNsec + b.tvNsec ≠ constNanosec1sec) ∧
      ((timespecSub a b).Exact (a.nanoseconds - b.nanoseconds) ↔ b.tvNsec ≤ a.tvNsec) ∧
      (timespecSub (timespecAdd a b) b = a ↔ a.tvNsec + b.tvNsec ≤ constNanosec1sec) ∧
      ∀ ts : Timespec, (timespecNormalize ts).Exact ts.nanoseconds ↔
        0 ≤ ts.tvNsec ∧ ts.tvNsec ≠ constNanosec1sec :=
  ⟨add_exact_iff ha hb, sub_exact_iff ha hb, sub_add_eq_iff ha hb, fun _ => normalize_exact_iff⟩

/-- A sum without a carry, taken back, and a difference without a borrow. -/
theorem timespec_exact_quarters :
    Exact (timespecAdd ⟨2, 500000000⟩ ⟨1, 250000000⟩) 3750000000 ∧
      Exact (timespecSub ⟨2, 500000000⟩ ⟨1, 250000000⟩) 1250000000 ∧
      timespecSub (timespecAdd ⟨2, 500000000⟩ ⟨1, 250000000⟩) ⟨1, 250000000⟩ = ⟨2, 500000000⟩ ∧
      Exact (timespecNormalize ⟨0, 2500000000⟩) 2500000000 := by
  obtain ⟨hadd, hsub, hback, hnormalize⟩ :=
    timespec_exact_iff (a := ⟨2, 500000000⟩) (b := ⟨1, 250000000⟩) (by decide) (by decide)
  exact ⟨hadd.mpr (by decide), hsub.mpr (by decide), hback.mpr (by decide),
    (hnormalize ⟨0, 2500000000⟩).mpr (by decide)⟩

/-- Half a second twice is a second of nanoseconds; a nanosecond less than a second is a
nanosecond less than two; and minus one nanosecond is nearly a second. -/
theorem timespec_off :
    timespecAdd ⟨0, 500000000⟩ ⟨0, 500000000⟩ = ⟨0, 1000000000⟩ ∧
      timespecSub ⟨1, 0⟩ ⟨0, 1⟩ = ⟨1, 999999999⟩ ∧
      timespecSub (timespecAdd ⟨0, 600000000⟩ ⟨0, 600000000⟩) ⟨0, 600000000⟩
        = ⟨1, 600000000⟩ ∧
      timespecNormalize ⟨0, -1⟩ = ⟨0, 999999999⟩ ∧
      ¬ ∀ a b : Timespec, a.Canonical → b.Canonical →
        (timespecSub a b).Exact (a.nanoseconds - b.nanoseconds) := by
  refine ⟨rfl, rfl, rfl, rfl, fun hall => ?_⟩
  exact absurd (hall ⟨1, 0⟩ ⟨0, 1⟩ (by decide) (by decide)) (by decide)

/-! ## Milliseconds -/

/-- Adding milliseconds is adding the time they are, and both are defined. -/
def AddsMs (ts : Timespec) (ms : ℤ) : Prop :=
  ∃ d, timespecByMs ms = some d ∧ timespecAddMs ts ms = some (timespecAdd ts d)

/-- `timespec_by_ms` scales less than a second. -/
theorem byMs_eq (hms : 0 ≤ ms) :
    timespecByMs ms = some ⟨ms / 1000, ms % 1000 * 1000 * 1000⟩ := by
  have hmod : ms.tmod 1000 = ms % 1000 := Int.tmod_eq_emod_of_nonneg hms
  have hdiv : ms.tdiv 1000 = ms / 1000 := Int.tdiv_eq_ediv_of_nonneg hms
  rw [timespecByMs, hmod, hdiv, CInt.mul, CInt.fit_of_isInt (by omega) (by omega),
    Option.bind_some, CInt.mul, CInt.fit_of_isInt (by omega) (by omega), Option.map_some]

/-- `timespec_add_ms` scales everything. -/
theorem addMs_of_le (hms : 0 ≤ ms) (hle : ms ≤ 2147) : timespecAddMs ts ms
    = some (timespecNormalize ⟨ts.tvSec, ts.tvNsec + ms * 1000 * 1000⟩) := by
  rw [timespecAddMs, CInt.mul, CInt.fit_of_isInt (by omega) (by omega), Option.bind_some,
    CInt.mul, CInt.fit_of_isInt (by omega) (by omega), Option.map_some]

theorem addMs_of_gt (hgt : 2147 < ms) : timespecAddMs ts ms = none := by
  rw [timespecAddMs, CInt.mul]
  rcases Int.lt_or_le 2147483647 (ms * 1000) with hover | hfits
  · rw [CInt.fit_of_gt hover, Option.bind_none]
  · rw [CInt.fit_of_isInt (by omega) hfits, Option.bind_some, CInt.mul,
      CInt.fit_of_gt (by omega), Option.map_none]

/-- **Where adding milliseconds is adding their time.** For every canonical time and every `int`
that is not negative: exactly up to 2147 of them, unless from a second on either way meets exactly
a second of nanoseconds, which is not normalized. -/
theorem timespec_add_ms_iff (hts : ts.Canonical) (hms : 0 ≤ ms) :
    AddsMs ts ms ↔ ms ≤ 2147 ∧ ¬ (ts.tvNsec = 0 ∧ ms = 1000) ∧
      ¬ (1000 ≤ ms ∧ ts.tvNsec + ms % 1000 * 1000000 = constNanosec1sec) := by
  rcases Int.lt_or_le 2147 ms with hgt | hle
  · refine iff_of_false ?_ fun h => Int.not_lt.mpr h.1 hgt
    rintro ⟨d, -, hadd⟩
    rw [addMs_of_gt hgt] at hadd
    exact Option.some_ne_none _ hadd.symm
  · obtain ⟨hlow, hhigh⟩ := hts
    have hsame : AddsMs ts ms ↔ timespecNormalize ⟨ts.tvSec, ts.tvNsec + ms * 1000 * 1000⟩
        = timespecNormalize ⟨ts.tvSec + ms / 1000, ts.tvNsec + ms % 1000 * 1000 * 1000⟩ := by
      unfold AddsMs
      rw [byMs_eq hms, addMs_of_le hms hle]
      constructor
      · rintro ⟨d, hd, hadd⟩
        obtain rfl := Option.some.inj hd
        exact Option.some.inj hadd
      · exact fun heq => ⟨_, rfl, congrArg some heq⟩
    rw [hsame, normalize_eq_iff]
    · simp only [nanosec_eq] at *
      omega
    · simp only [nanoseconds, nanosec_eq]
      omega
    · show 0 ≤ ts.tvNsec + ms * 1000 * 1000
      omega
    · show 0 ≤ ts.tvNsec + ms % 1000 * 1000 * 1000
      omega

theorem timespec_add_ms_twoSeconds :
    AddsMs ⟨5, 250000000⟩ 2100 ∧ timespecAddMs ⟨5, 250000000⟩ 2100 = some ⟨7, 350000000⟩ :=
  ⟨(timespec_add_ms_iff (by decide) (by decide)).mpr (by decide), rfl⟩

/-- More than two seconds overflow; and a second and no nanoseconds, or half a second added to
one and a half, differ by whether the second is carried. -/
theorem timespec_add_ms_off :
    timespecAddMs ⟨0, 0⟩ 2148 = none ∧ ¬ AddsMs ⟨0, 0⟩ 2148 ∧
      timespecAddMs ⟨0, 0⟩ 1000 = some ⟨0, 1000000000⟩ ∧ timespecByMs 1000 = some ⟨1, 0⟩ ∧
      timespecAdd ⟨0, 0⟩ ⟨1, 0⟩ = ⟨1, 0⟩ ∧
      timespecAddMs ⟨0, 500000000⟩ 1500 = some ⟨2, 0⟩ ∧
      timespecAdd ⟨0, 500000000⟩ ⟨1, 500000000⟩ = ⟨1, 1000000000⟩ := by
  refine ⟨rfl, ?_, rfl, rfl, rfl, rfl, rfl⟩
  rintro ⟨d, -, hadd⟩
  exact Option.some_ne_none (timespecAdd ⟨0, 0⟩ d) hadd.symm

end Timespec

end Dungeon

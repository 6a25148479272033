import Mathlib.Algebra.Ring.Int.Defs
import Mathlib.Data.BitVec
import Dungeon.Conn
import Dungeon.Lib.Loop

/-!
# Writing JSON to a descriptor (`cJSON.c`)

`cJSON_fdPrint` renders an item and writes the string in a loop, with whatever `write` takes.

- `Printer`: the variables of the function, and what was written. `printTurn`: one turn of its loop,
  for any results of `write`. The variable that is returned is not set before the loop.
- `printer`: the variables after so many calls, by what these took.
- `turn_of_lt`, `turn_of_eq`: the turn from there, before the last byte and with it.
- `SaysAll`: everything is written and counted, or `-1` comes out after a part of it.
- `fd_print_iff`: that is so exactly when the call that takes the last byte takes all of them.
-/

namespace Dungeon

/-- What `write` gives: it takes up to so many bytes, or fails. -/
inductive WriteResult where
  | taken (n : ℕ)
  | error (errno : ℕ)
deriving DecidableEq

/-- An error that ends the loop. -/
def WriteResult.Persistent : WriteResult → Prop
  | .taken _ => False
  | .error errno => ¬ (errno = eintr ∨ errno = eagain)

instance WriteResult.decidablePersistent (r : WriteResult) : Decidable r.Persistent :=
  match r with
  | .taken _ => isFalse id
  | .error _ => inferInstanceAs (Decidable (¬ _))

namespace FdPrint

/-- The variables of `cJSON_fdPrint`. -/
structure Printer where
  pos : ℕ
  len : ℤ
  /-- `none` before the first call -/
  ret : Option ℤ
  count : ℤ
  /-- how often `write` was called -/
  calls : ℕ
  /-- the bytes that it took -/
  written : List UInt8
deriving DecidableEq

/-- What the function returns, and what it has written. -/
structure Printed where
  ret : ℤ
  written : List UInt8
deriving DecidableEq

/-- `strlen(str)` as an `int`. -/
def intLength (str : List UInt8) : ℤ := (BitVec.ofNat 32 str.length).toInt

/-- The variables before the loop. -/
def start (str : List UInt8) : Printer where
  pos := 0
  len := intLength str
  ret := none
  count := 0
  calls := 0
  written := []

/-- One turn of the loop; after it, `ret` is returned, and not `count`. -/
def printTurn (str : List UInt8) (write : ℕ → WriteResult) (p : Printer) : Turn Printer Printed :=
  if p.len > 0 then
    match write p.calls with
    | .error errno =>
      if errno = eintr ∨ errno = eagain then
        .next { p with ret := some (-1), calls := p.calls + 1 }
      else .done ⟨-1, p.written⟩
    | .taken n =>
      let ret := min n p.len.toNat
      .next
        { pos := p.pos + ret
          len := p.len - ret
          ret := some ret
          count := p.count + ret
          calls := p.calls + 1
          written := p.written ++ (str.drop p.pos).take ret }
  else
    match p.ret with
    | some ret => .done ⟨ret, p.written⟩
    | none => .undefined

/-- `cJSON_fdPrint` returns; `str` is what `cJSON_Print` makes of the item. -/
def FdPrints (str : Option (List UInt8)) (write : ℕ → WriteResult) (r : Printed) : Prop :=
  match str with
  | none => r = ⟨-1, []⟩
  | some str => Loop.Ends (printTurn str write) (start str) r

/-- The loop is defined; when it ends with a number, everything is written and that is how much it
was, and when it ends with `-1`, a part is. -/
structure SaysAll (str : List UInt8) (write : ℕ → WriteResult) : Prop where
  defined : ∀ p, Loop.Reaches (printTurn str write) (start str) p →
    printTurn str write p ≠ .undefined
  printed : ∀ r, FdPrints (some str) write r → 0 ≤ r.ret →
    r.written = str ∧ r.ret = str.length
  failed : ∀ r, FdPrints (some str) write r → r.ret < 0 → r.ret = -1 ∧ r.written <+: str

/-! ## What the calls take -/

/-- What a call takes, if `size` bytes are left. -/
def takes (size : ℕ) : WriteResult → ℕ
  | .taken n => min n size
  | .error _ => 0

/-- What the first calls have taken of `size` bytes. -/
def taken (write : ℕ → WriteResult) (size : ℕ) : ℕ → ℕ
  | 0 => 0
  | k + 1 => taken write size k + takes (size - taken write size k) (write k)

/-- The value of a call, if `size` bytes are left. -/
def value (size : ℕ) : WriteResult → ℤ
  | .taken n => (min n size : ℕ)
  | .error _ => -1

/-- The value of the last one of so many calls. -/
def lastRet (write : ℕ → WriteResult) (size : ℕ) : ℕ → Option ℤ
  | 0 => none
  | k + 1 => some (value (size - taken write size k) (write k))

/-- The variables after so many calls. -/
def printer (str : List UInt8) (write : ℕ → WriteResult) (size k : ℕ) : Printer where
  pos := taken write size k
  len := size - taken write size k
  ret := lastRet write size k
  count := taken write size k
  calls := k
  written := str.take (taken write size k)

/-- The call after `k` others takes the last one of `size` bytes. -/
def Completes (write : ℕ → WriteResult) (size k : ℕ) : Prop :=
  (∀ j < k, ¬ (write j).Persistent) ∧ taken write size k < size ∧
    taken write size (k + 1) = size

variable {str : List UInt8} {write : ℕ → WriteResult} {size k : ℕ} {p : Printer} {r : Printed}

theorem takes_le (size : ℕ) (r : WriteResult) : takes size r ≤ size := by
  cases r with
  | taken n => exact Nat.min_le_right n size
  | error errno => exact Nat.zero_le size

theorem taken_le (write : ℕ → WriteResult) (size k : ℕ) : taken write size k ≤ size := by
  induction k with
  | zero => exact Nat.zero_le size
  | succ k ih =>
    have hle := takes_le (size - taken write size k) (write k)
    rw [taken]
    omega

/-- **A turn** with bytes left is the next call, unless that fails. -/
theorem turn_of_lt (hlt : taken write size k < size) :
    printTurn str write (printer str write size k)
      = if (write k).Persistent then .done ⟨-1, str.take (taken write size k)⟩
        else .next (printer str write size (k + 1)) := by
  have hpos : (printer str write size k).len > 0 := by
    show (0 : ℤ) < size - taken write size k
    omega
  rw [printTurn, if_pos hpos]
  show (match write k with | .error _ => _ | .taken _ => _) = _
  cases hw : write k with
  | error errno =>
    by_cases hagain : errno = eintr ∨ errno = eagain
    · have hplain : ¬ (WriteResult.error errno).Persistent := not_not.mpr hagain
      rw [if_neg hplain]
      simp only [hagain, if_true, printer, taken, lastRet, hw, takes, value, Nat.add_zero]
    · have hpersistent : (WriteResult.error errno).Persistent := hagain
      rw [if_pos hpersistent]
      simp only [hagain, if_false, printer]
  | taken n =>
    have hplain : ¬ (WriteResult.taken n).Persistent := id
    have hleft : (printer str write size k).len.toNat = size - taken write size k := by
      show ((size : ℤ) - taken write size k).toNat = _
      omega
    rw [if_neg hplain]
    simp only [hleft]
    simp only [printer, taken, lastRet, hw, takes, value, List.take_add, Turn.next.injEq,
      Printer.mk.injEq, true_and, and_true]
    omega

/-- With no bytes left it is the end, and what comes out is the value of the last call. -/
theorem turn_of_eq (heq : taken write size (k + 1) = size) :
    printTurn str write (printer str write size (k + 1))
      = .done ⟨value (size - taken write size k) (write k), str.take size⟩ := by
  have hpos : ¬ (printer str write size (k + 1)).len > 0 := by
    show ¬ (0 : ℤ) < size - taken write size (k + 1)
    omega
  rw [printTurn, if_neg hpos]
  simp only [printer, heq, lastRet]

/-! ## The ends of the loop -/

/-- The call after `k` others fails. -/
def Fails (write : ℕ → WriteResult) (size k : ℕ) : Prop :=
  (∀ j < k, ¬ (write j).Persistent) ∧ taken write size k < size ∧ (write k).Persistent

theorem start_eq (hsize : intLength str = size) : start str = printer str write size 0 := by
  rw [start, hsize]
  simp [printer, taken, lastRet]

/-- The loop goes on while bytes are left and no call fails. -/
theorem turn_next_iff (hpos : 0 < size) :
    printTurn str write (printer str write size k) = .next p ↔
      taken write size k < size ∧ ¬ (write k).Persistent ∧ p = printer str write size (k + 1) := by
  rcases Nat.lt_or_eq_of_le (taken_le write size k) with hlt | heq
  · rw [turn_of_lt hlt, and_iff_right hlt]
    by_cases hpersistent : (write k).Persistent
    · rw [if_pos hpersistent]
      exact iff_of_false nofun fun h => h.1 hpersistent
    · rw [if_neg hpersistent, and_iff_right hpersistent, Turn.next.injEq]
      exact eq_comm
  · refine iff_of_false ?_ fun h => Nat.ne_of_lt h.1 heq
    cases k with
    | zero => exact absurd heq (Nat.ne_of_lt hpos)
    | succ k =>
      rw [turn_of_eq heq]
      exact nofun

/-- The turns before the `k`th all go on just when the calls are good and do not take everything. -/
theorem turns_next_iff (hpos : 0 < size) :
    (∀ j < k, printTurn str write (printer str write size j)
      = .next (printer str write size (j + 1))) ↔
      ∀ j < k, taken write size j < size ∧ ¬ (write j).Persistent := by
  refine forall₂_congr fun j _ => ?_
  rw [turn_next_iff hpos, and_iff_left rfl]

theorem taken_mono (write : ℕ → WriteResult) (size : ℕ) {j : ℕ} (hle : j ≤ k) :
    taken write size j ≤ taken write size k := by
  induction hle with
  | refl => exact Nat.le_refl _
  | step _ ih => exact Nat.le_trans ih (Nat.le_add_right _ _)

/-- The call that takes the last byte does not fail, and its value is how many it takes. -/
theorem Completes.last (h : Completes write size k) : ¬ (write k).Persistent ∧
    value (size - taken write size k) (write k) = size - taken write size k := by
  obtain ⟨-, hlt, heq⟩ := h
  rw [taken] at heq
  cases hw : write k with
  | error errno =>
    rw [hw] at heq
    exact absurd heq (Nat.ne_of_lt hlt)
  | taken n =>
    rw [hw] at heq
    have heq : taken write size k + min n (size - taken write size k) = size := heq
    refine ⟨id, ?_⟩
    rw [value]
    omega

/-- **How the loop ends**: with a call that fails, or with the call that takes the last byte. -/
theorem ends_iff (hsize : intLength str = size) (hpos : 0 < size) :
    FdPrints (some str) write r ↔
      (∃ k, Fails write size k ∧ r = ⟨-1, str.take (taken write size k)⟩) ∨
        ∃ k, Completes write size k ∧ r = ⟨size - taken write size k, str.take size⟩ := by
  have hends := Loop.ends_iff (f := printer str write size) (r := r) fun j _ s' h =>
    ((turn_next_iff hpos).mp h).2.2
  rw [FdPrints, start_eq hsize, hends]
  simp only [turns_next_iff hpos]
  constructor
  · rintro ⟨k, hbefore, hdone⟩
    rcases Nat.lt_or_eq_of_le (taken_le write size k) with hlt | heq
    · rw [turn_of_lt hlt] at hdone
      split at hdone
      next hpersistent =>
        exact .inl ⟨k, ⟨fun j hj => (hbefore j hj).2, hlt, hpersistent⟩,
          (Turn.done.inj hdone).symm⟩
      next => cases hdone
    · cases k with
      | zero => exact absurd heq (Nat.ne_of_lt hpos)
      | succ k =>
        obtain ⟨hlt, -⟩ := hbefore k (Nat.lt_succ_self k)
        have hcompletes : Completes write size k :=
          ⟨fun j hj => (hbefore j (Nat.lt_succ_of_lt hj)).2, hlt, heq⟩
        rw [turn_of_eq heq, hcompletes.last.2] at hdone
        exact .inr ⟨k, hcompletes, (Turn.done.inj hdone).symm⟩
  · rintro (⟨k, ⟨hbefore, hlt, hpersistent⟩, rfl⟩ | ⟨k, hcompletes, rfl⟩)
    · refine ⟨k, fun j hj => ⟨?_, hbefore j hj⟩, ?_⟩
      · exact Nat.lt_of_le_of_lt (taken_mono write size (Nat.le_of_lt hj)) hlt
      · rw [turn_of_lt hlt, if_pos hpersistent]
    · refine ⟨k + 1, fun j hj => ⟨?_, ?_⟩, ?_⟩
      · exact Nat.lt_of_le_of_lt (taken_mono write size (Nat.le_of_lt_succ hj)) hcompletes.2.1
      · rcases Nat.lt_or_eq_of_le (Nat.le_of_lt_succ hj) with hlt | rfl
        · exact hcompletes.1 j hlt
        · exact hcompletes.last.1
      · rw [turn_of_eq hcompletes.2.2, hcompletes.last.2]

/-- The loop meets no variable that is not set, but for a length that is not positive. -/
theorem defined_iff : (∀ p, Loop.Reaches (printTurn str write) (start str) p →
    printTurn str write p ≠ .undefined) ↔ 0 < intLength str := by
  constructor
  · intro h
    by_contra hpos
    have hlen : ¬ (start str).len > 0 := hpos
    refine h _ .refl ?_
    rw [printTurn, if_neg hlen]
    rfl
  · intro hpos p hp
    obtain ⟨size, hsize⟩ := Int.eq_ofNat_of_zero_le (Int.le_of_lt hpos)
    have hpos : 0 < size := by omega
    rw [start_eq hsize] at hp
    obtain ⟨k, rfl, -⟩ := (Loop.reaches_iff (f := printer str write size) fun j _ s' h =>
      ((turn_next_iff hpos).mp h).2.2).mp hp
    rcases Nat.lt_or_eq_of_le (taken_le write size k) with hlt | heq
    · rw [turn_of_lt hlt]
      split <;> exact nofun
    · cases k with
      | zero => exact absurd heq (Nat.ne_of_lt hpos)
      | succ k =>
        rw [turn_of_eq heq]
        exact nofun

/-- As an `int` a length is never more than it is. -/
theorem intLength_le (str : List UInt8) : intLength str ≤ str.length := by
  have hmod : str.length % 2 ^ 32 ≤ str.length := Nat.mod_le _ _
  rw [intLength, BitVec.toInt_eq_toNat_cond, BitVec.toNat_ofNat]
  split <;> omega

/-- **Where `cJSON_fdPrint` says what it has written.** For every string and any results of
`write`: exactly when the length is positive as an `int`, and the call that takes the last byte, if
one does, takes all bytes of the string. -/
theorem fd_print_iff (str : List UInt8) (write : ℕ → WriteResult) :
    SaysAll str write ↔ 0 < intLength str ∧ ∀ k, Completes write (intLength str).toNat k →
      taken write (intLength str).toNat k = 0 ∧ intLength str = str.length := by
  by_cases hpos : 0 < intLength str
  · obtain ⟨size, hsize⟩ := Int.eq_ofNat_of_zero_le (Int.le_of_lt hpos)
    have hsize' : 0 < size := by omega
    have hle : size ≤ str.length := by
      have hle := intLength_le str
      omega
    rw [hsize, Int.toNat_natCast]
    constructor
    · rintro ⟨-, hprinted, -⟩
      refine ⟨by omega, fun k hcompletes => ?_⟩
      have hlt := hcompletes.2.1
      obtain ⟨hwritten, hret⟩ := hprinted _
        ((ends_iff hsize hsize').mpr (.inr ⟨k, hcompletes, rfl⟩)) (by dsimp only; omega)
      have hlen := congrArg List.length hwritten
      dsimp only at hret hlen
      rw [List.length_take] at hlen
      omega
    · rintro ⟨-, hall⟩
      refine ⟨defined_iff.mpr hpos, fun r hr hret => ?_, fun r hr hret => ?_⟩
      · obtain ⟨k, -, rfl⟩ | ⟨k, hcompletes, rfl⟩ := (ends_iff hsize hsize').mp hr
        · exact absurd hret (show ¬ (0 : ℤ) ≤ -1 by decide)
        · obtain ⟨hzero, heq⟩ := hall k hcompletes
          have hlen : size = str.length := by omega
          refine ⟨?_, ?_⟩
          · dsimp only
            rw [hlen, List.take_length]
          · dsimp only
            omega
      · obtain ⟨k, -, rfl⟩ | ⟨k, hcompletes, rfl⟩ := (ends_iff hsize hsize').mp hr
        · exact ⟨rfl, List.take_prefix _ _⟩
        · have hlt := hcompletes.2.1
          dsimp only at hret
          omega
  · exact iff_of_false (fun h => hpos (defined_iff.mp h.defined)) fun h => hpos h.1

/-- The number 10 is written digit by digit: all is written, and what comes out is one. -/
theorem fd_print_lastFragment :
    FdPrints (some [49, 48]) (fun _ => .taken 1) ⟨1, [49, 48]⟩ ∧
      ¬ SaysAll [49, 48] fun _ => .taken 1 := by
  have hprints : FdPrints (some [49, 48]) (fun _ => .taken 1) ⟨1, [49, 48]⟩ := ⟨3, rfl⟩
  refine ⟨hprints, fun h => ?_⟩
  exact absurd (h.printed _ hprints (by decide)).2 (by decide)

end FdPrint

end Dungeon

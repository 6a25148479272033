import Mathlib.Algebra.Group.Int.Defs
import Dungeon.Lib.Frees
import Dungeon.Lib.Machine
import Dungeon.Lib.Words

/-!
# The log targets (`util_log.c`)

A set of targets, a counter for them and two stream handles, all static variables that the calls
change one by one.

- `mylogSetTarget`, `mylogClearTarget`, `mylogReset`: the calls. `fopen` is what it returns.
- `logging`: sequences of calls. `fopen` never returns the address of an open stream; that of a
  closed one it may.
- `Consistent`, `ConsistentAfter`: what should hold after each call.
- `Careful`: a call that opens the log file again after it was closed, or the console, or sets the
  system log a second time, is not.
- `Kept`: the invariant of careful calls.
- `log_targets_iff`: along any calls the bookkeeping is consistent exactly when all are careful.
-/

namespace Dungeon

/-- `enum log_target_en`. -/
inductive LogTarget where
  | file
  | syslog
  | console
  | stderr
deriving DecidableEq

/-- The number of a target's bit. -/
def LogTarget.bit : LogTarget → ℕ
  | .file => 0
  | .syslog => 1
  | .console => 2
  | .stderr => 3

/-- The value of a target. -/
def LogTarget.code (t : LogTarget) : BitVec 32 := BitVec.twoPow 32 t.bit

/-- The static variables, and the streams. Handles are addresses, `none` is `NULL`; a stream keeps
the path it was opened with. -/
structure MyLog (A : Type) where
  flogFp : Option A
  clogFp : Option A
  logTargetSet : BitVec 32
  logTargetsCount : ℤ
  streams : Allocs (Option A) String

namespace MyLog

variable {A : Type}

/-- At the start of the program. -/
def start : MyLog A := ⟨none, none, 0, 0, .empty⟩

/-- `log_target_set & t`. -/
def IsOn (s : MyLog A) (t : LogTarget) : Prop := s.logTargetSet &&& t.code ≠ 0

instance (s : MyLog A) (t : LogTarget) : Decidable (s.IsOn t) :=
  inferInstanceAs (Decidable (_ ≠ _))

/-- `log_target_set |= t` and `++log_targets_count`. -/
def turnOn (s : MyLog A) (t : LogTarget) : MyLog A :=
  { s with logTargetSet := s.logTargetSet ||| t.code, logTargetsCount := s.logTargetsCount + 1 }

/-- `log_target_set &= ~t` and `--log_targets_count`. -/
def turnOff (s : MyLog A) (t : LogTarget) : MyLog A :=
  { s with logTargetSet := s.logTargetSet &&& ~~~t.code, logTargetsCount := s.logTargetsCount - 1 }

/-- The counter is returned. -/
def counted (s : MyLog A) : ℤ × MyLog A := (s.logTargetsCount, s)

/-- `mylog_set_target`. The path is the argument for a file. -/
def mylogSetTarget [DecidableEq A] (s : MyLog A) (code : BitVec 32) (path : String)
    (fopen : Option A) : ℤ × MyLog A :=
  if code &&& LogTarget.file.code ≠ 0 then
    match fopen with
    | none => (-1, s)
    | some fp =>
      let streams := s.streams.malloc (some fp) path
      if s.flogFp ≠ none then
        counted { s with streams := streams.free s.flogFp, flogFp := some fp }
      else counted (turnOn { s with streams := streams, flogFp := some fp } .file)
  else if code &&& LogTarget.syslog.code ≠ 0 then counted (s.turnOn .syslog)
  else if code &&& LogTarget.console.code ≠ 0 then
    if s.clogFp = none then
      match fopen with
      | none => (-1, s)
      | some fp =>
        let streams := s.streams.malloc (some fp) "/dev/console"
        counted (turnOn { s with streams := streams, clogFp := some fp } .console)
    else s.counted
  else if code &&& LogTarget.stderr.code ≠ 0 then
    if ¬ s.IsOn .stderr then counted (s.turnOn .stderr) else s.counted
  else (-1, s)

/-- `mylog_clear_target`. -/
def mylogClearTarget [DecidableEq A] (s : MyLog A) (code : BitVec 32) : ℤ × MyLog A :=
  if code &&& LogTarget.file.code ≠ 0 then
    if s.IsOn .file then
      counted (turnOff { s with streams := s.streams.free s.flogFp } .file)
    else s.counted
  else if code &&& LogTarget.syslog.code ≠ 0 then
    if s.IsOn .syslog then counted (s.turnOff .syslog) else s.counted
  else if code &&& LogTarget.console.code ≠ 0 then
    if s.IsOn .console then
      counted (turnOff { s with streams := s.streams.free s.clogFp } .console)
    else s.counted
  else if code &&& LogTarget.stderr.code ≠ 0 then
    if s.IsOn .stderr then counted (s.turnOff .stderr) else s.counted
  else (-1, s)

/-- `mylog_reset`. -/
def mylogReset [DecidableEq A] (s : MyLog A) : MyLog A :=
  [LogTarget.file, .syslog, .console, .stderr].foldl
    (fun s t => (s.mylogClearTarget t.code).2) s

/-- The streams that `do_mylog` writes to, besides `stderr`. -/
def doMylog (s : MyLog A) : List (Option A) :=
  (if s.IsOn .file then [s.flogFp] else []) ++ if s.IsOn .console then [s.clogFp] else []

/-- A call, with what `fopen` returns in it. -/
inductive Call (A : Type) where
  | set (t : LogTarget) (path : String) (fopen : Option A)
  | clear (t : LogTarget)
  | reset

/-- What a call returns and leaves. -/
def Call.run [DecidableEq A] (s : MyLog A) : Call A → ℤ × MyLog A
  | .set t path fopen => s.mylogSetTarget t.code path fopen
  | .clear t => s.mylogClearTarget t.code
  | .reset => (0, s.mylogReset)

/-- `fopen` returns no open stream. -/
def Call.Possible (s : MyLog A) : Call A → Prop
  | .set _ _ (some fp) => ¬ s.streams.Live (some fp)
  | _ => True

instance [DecidableEq A] (s : MyLog A) : (c : Call A) → Decidable (c.Possible s)
  | .set _ _ (some fp) => inferInstanceAs (Decidable (¬ s.streams.Live (some fp)))
  | .set _ _ none | .clear _ | .reset => isTrue trivial

/-- Sequences of calls. -/
def logging (A : Type) [DecidableEq A] : Machine (MyLog A) (Call A) where
  init s := s = start
  step s c := if c.Possible s then some (c.run s).2 else none

/-- The counter counts the bits, the handles of the targets that are on are open, and no stream
was closed twice, nor something that is none. -/
structure Consistent (s : MyLog A) : Prop where
  count : s.logTargetsCount = Words.bitCount s.logTargetSet
  file : s.IsOn .file → s.streams.Live s.flogFp
  console : s.IsOn .console → s.streams.Live s.clogFp
  closed : ∀ b ∈ s.streams.blocks, b.frees ≤ 1
  stray : s.streams.wild = []

/-- A call leaves the variables consistent, and its target on if it does not fail to set it. -/
def ConsistentAfter [DecidableEq A] (s : MyLog A) (c : Call A) : Prop :=
  Consistent (c.run s).2 ∧
    ∀ t path fopen, c = .set t path fopen → (c.run s).1 ≠ -1 → (c.run s).2.IsOn t

/-- A handle left from a stream that was closed is not used again, and the system log is set only
when it is off. -/
def Careful (s : MyLog A) : Call A → Prop
  | .set .file _ (some _) => s.flogFp ≠ none → s.IsOn .file
  | .set .syslog _ _ => ¬ s.IsOn .syslog
  | .set .console _ _ => s.clogFp ≠ none → s.IsOn .console
  | _ => True

/-- What careful calls keep: the handles of targets that are on belong to different open streams. -/
structure Kept (s : MyLog A) : Prop where
  count : s.logTargetsCount = Words.bitCount s.logTargetSet
  file : s.IsOn .file → s.flogFp ≠ none ∧ s.streams.Live s.flogFp
  console : s.IsOn .console → s.clogFp ≠ none ∧ s.streams.Live s.clogFp
  apart : s.IsOn .file → s.IsOn .console → s.flogFp ≠ s.clogFp
  sound : s.streams.Sound
  stray : s.streams.wild = []

variable {s s' : MyLog A} {t t' : LogTarget} {fp : A} {path : String} {c : Call A}

/-! ## The set of targets -/

theorem isOn_iff : s.IsOn t ↔ s.logTargetSet.getLsbD t.bit = true := by
  unfold IsOn LogTarget.code
  rw [BitVec.and_twoPow]
  cases s.logTargetSet.getLsbD t.bit with
  | false => simp
  | true =>
    refine iff_of_true ?_ rfl
    cases t <;> decide

theorem bit_lt (t : LogTarget) : t.bit < 32 := by cases t <;> decide

theorem bit_inj : t.bit = t'.bit ↔ t = t' := by cases t <;> cases t' <;> decide

@[simp] theorem isOn_turnOn : (s.turnOn t).IsOn t' ↔ t' = t ∨ s.IsOn t' := by
  rw [isOn_iff, isOn_iff, turnOn, LogTarget.code, BitVec.getLsbD_or, BitVec.getLsbD_twoPow,
    decide_eq_true (bit_lt t), Bool.true_and, Bool.or_eq_true, decide_eq_true_eq, bit_inj,
    eq_comm (a := t), or_comm]

@[simp] theorem isOn_turnOff : (s.turnOff t).IsOn t' ↔ t' ≠ t ∧ s.IsOn t' := by
  rw [isOn_iff, isOn_iff, turnOff, LogTarget.code, BitVec.getLsbD_and, BitVec.getLsbD_not,
    BitVec.getLsbD_twoPow, decide_eq_true (bit_lt t), decide_eq_true (bit_lt t'), Bool.true_and,
    Bool.true_and, Bool.and_eq_true, Bool.not_eq_true', decide_eq_false_iff_not, bit_inj,
    eq_comm (a := t), and_comm]

/-- Setting a bit counts just when it was off. -/
theorem count_turnOn (hcount : s.logTargetsCount = Words.bitCount s.logTargetSet) :
    (s.turnOn t).logTargetsCount = Words.bitCount (s.turnOn t).logTargetSet ↔ ¬ s.IsOn t := by
  show s.logTargetsCount + 1 = Words.bitCount (s.logTargetSet ||| BitVec.twoPow 32 t.bit) ↔ _
  rw [isOn_iff]
  cases hbit : s.logTargetSet.getLsbD t.bit with
  | false =>
    rw [Words.bitCount_or_twoPow (bit_lt t) hbit]
    exact iff_of_true (by omega) Bool.false_ne_true
  | true =>
    rw [Words.or_twoPow_of_set hbit]
    exact iff_of_false (by omega) (not_not.mpr rfl)

theorem count_turnOff (hcount : s.logTargetsCount = Words.bitCount s.logTargetSet)
    (hon : s.IsOn t) :
    (s.turnOff t).logTargetsCount = Words.bitCount (s.turnOff t).logTargetSet := by
  have hbit := Words.bitCount_andNot_twoPow (bit_lt t) (isOn_iff.mp hon)
  show s.logTargetsCount - 1 = Words.bitCount (s.logTargetSet &&& ~~~BitVec.twoPow 32 t.bit)
  omega

/-! ## What careful calls keep -/

theorem kept_start : Kept (start : MyLog A) := by
  have hoff (t : LogTarget) : ¬ (start : MyLog A).IsOn t := not_not.mpr BitVec.zero_and
  have hcount : (0 : ℤ) = Words.bitCount (0 : BitVec 32) := by decide
  exact ⟨hcount, fun hon => absurd hon (hoff _), fun hon => absurd hon (hoff _),
    fun hon => absurd hon (hoff _), Allocs.sound_empty, rfl⟩

theorem Kept.consistent (h : Kept s) : Consistent s :=
  ⟨h.count, fun hon => (h.file hon).2, fun hon => (h.console hon).2, h.sound.frees_le, h.stray⟩

/-- So `do_mylog` writes to open streams. -/
theorem Consistent.doMylog_live (h : Consistent s) : ∀ fp ∈ s.doMylog, s.streams.Live fp := by
  intro fp hfp
  rcases List.mem_append.mp hfp with hfp | hfp
  · by_cases hon : s.IsOn .file
    · rw [if_pos hon] at hfp
      exact List.mem_singleton.mp hfp ▸ h.file hon
    · rw [if_neg hon] at hfp
      cases hfp
  · by_cases hon : s.IsOn .console
    · rw [if_pos hon] at hfp
      exact List.mem_singleton.mp hfp ▸ h.console hon
    · rw [if_neg hon] at hfp
      cases hfp

/-- Targets without a stream are put on. -/
theorem Kept.turnOn (h : Kept s) (hoff : ¬ s.IsOn t) (hfile : t ≠ .file) (hconsole : t ≠ .console) :
    Kept (s.turnOn t) := by
  have hfile : (s.turnOn t).IsOn .file → s.IsOn .file := fun hon =>
    (isOn_turnOn.mp hon).resolve_left hfile.symm
  have hconsole : (s.turnOn t).IsOn .console → s.IsOn .console := fun hon =>
    (isOn_turnOn.mp hon).resolve_left hconsole.symm
  exact ⟨(count_turnOn h.count).mpr hoff, fun hon => h.file (hfile hon),
    fun hon => h.console (hconsole hon), fun hon hon' => h.apart (hfile hon) (hconsole hon'),
    h.sound, h.stray⟩

theorem Kept.turnOff (h : Kept s) (hon : s.IsOn t) : Kept (s.turnOff t) :=
  ⟨count_turnOff h.count hon, fun hon => h.file (isOn_turnOff.mp hon).2,
    fun hon => h.console (isOn_turnOff.mp hon).2,
    fun hon hon' => h.apart (isOn_turnOff.mp hon).2 (isOn_turnOff.mp hon').2, h.sound, h.stray⟩

/-- The log file is opened for the first time. -/
theorem Kept.openFile (h : Kept s) (hoff : ¬ s.IsOn .file) (hnew : ¬ s.streams.Live (some fp)) :
    Kept (MyLog.turnOn { s with
      streams := s.streams.malloc (some fp) path, flogFp := some fp } .file) where
  count := (count_turnOn h.count).mpr hoff
  file _ := ⟨Option.some_ne_none fp, Allocs.live_malloc.mpr (.inl rfl)⟩
  console hon := by
    obtain ⟨hne, hlive⟩ := h.console ((isOn_turnOn.mp hon).resolve_left nofun)
    exact ⟨hne, Allocs.live_malloc.mpr (.inr hlive)⟩
  apart _ hon heq := by
    obtain ⟨-, hlive⟩ := h.console ((isOn_turnOn.mp hon).resolve_left nofun)
    have heq : some fp = s.clogFp := heq
    exact hnew (heq ▸ hlive)
  sound := h.sound.malloc hnew
  stray := h.stray

/-- The console is opened for the first time. -/
theorem Kept.openConsole (h : Kept s) (hoff : ¬ s.IsOn .console)
    (hnew : ¬ s.streams.Live (some fp)) :
    Kept (MyLog.turnOn { s with
      streams := s.streams.malloc (some fp) path, clogFp := some fp } .console) where
  count := (count_turnOn h.count).mpr hoff
  file hon := by
    obtain ⟨hne, hlive⟩ := h.file ((isOn_turnOn.mp hon).resolve_left nofun)
    exact ⟨hne, Allocs.live_malloc.mpr (.inr hlive)⟩
  console _ := ⟨Option.some_ne_none fp, Allocs.live_malloc.mpr (.inl rfl)⟩
  apart hon _ heq := by
    obtain ⟨-, hlive⟩ := h.file ((isOn_turnOn.mp hon).resolve_left nofun)
    have heq : s.flogFp = some fp := heq
    exact hnew (heq ▸ hlive)
  sound := h.sound.malloc hnew
  stray := h.stray

variable [DecidableEq A]

/-- The log file is replaced. -/
theorem Kept.replaceFile (h : Kept s) (hon : s.IsOn .file) (hnew : ¬ s.streams.Live (some fp)) :
    Kept { s with
      streams := (s.streams.malloc (some fp) path).free s.flogFp, flogFp := some fp } := by
  obtain ⟨-, hold⟩ := h.file hon
  have hopened : (s.streams.malloc (some fp) path).Sound := h.sound.malloc hnew
  obtain ⟨hsound, hwild, hlive, -⟩ := hopened.free (Allocs.live_malloc.mpr (.inr hold))
  refine ⟨h.count, fun _ => ⟨Option.some_ne_none fp, (hlive _).mpr ⟨?_, ?_⟩⟩, fun hon' => ?_,
    fun _ hon' heq => ?_, hsound, hwild.trans h.stray⟩
  · exact Allocs.live_malloc.mpr (.inl rfl)
  · intro heq
    have heq : some fp = s.flogFp := heq
    exact hnew (heq ▸ hold)
  · obtain ⟨hne, hopen⟩ := h.console hon'
    exact ⟨hne, (hlive _).mpr ⟨Allocs.live_malloc.mpr (.inr hopen), Ne.symm (h.apart hon hon')⟩⟩
  · have heq : some fp = s.clogFp := heq
    exact hnew (heq ▸ (h.console hon').2)

theorem Kept.closeFile (h : Kept s) (hon : s.IsOn .file) :
    Kept (MyLog.turnOff { s with streams := s.streams.free s.flogFp } .file) := by
  obtain ⟨hsound, hwild, hlive, -⟩ := h.sound.free (h.file hon).2
  refine ⟨count_turnOff h.count hon, fun hon' => absurd rfl (isOn_turnOff.mp hon').1,
    fun hon' => ?_, fun hon' => absurd rfl (isOn_turnOff.mp hon').1, hsound, hwild.trans h.stray⟩
  have hconsole : s.IsOn .console := (isOn_turnOff.mp hon').2
  obtain ⟨hne, hopen⟩ := h.console hconsole
  exact ⟨hne, (hlive _).mpr ⟨hopen, Ne.symm (h.apart hon hconsole)⟩⟩

theorem Kept.closeConsole (h : Kept s) (hon : s.IsOn .console) :
    Kept (MyLog.turnOff { s with streams := s.streams.free s.clogFp } .console) := by
  obtain ⟨hsound, hwild, hlive, -⟩ := h.sound.free (h.console hon).2
  refine ⟨count_turnOff h.count hon, fun hon' => ?_,
    fun hon' => absurd rfl (isOn_turnOff.mp hon').1,
    fun _ hon' => absurd rfl (isOn_turnOff.mp hon').1, hsound, hwild.trans h.stray⟩
  have hfile : s.IsOn .file := (isOn_turnOff.mp hon').2
  obtain ⟨hne, hopen⟩ := h.file hfile
  exact ⟨hne, (hlive _).mpr ⟨hopen, h.apart hfile hon⟩⟩

/-! ## Calls -/

/-- Clearing a target keeps everything in order. -/
theorem Kept.clear (h : Kept s) (t : LogTarget) : Kept (s.mylogClearTarget t.code).2 := by
  by_cases hon : s.IsOn t
  · cases t with
    | file =>
      have heq : s.mylogClearTarget LogTarget.file.code = counted _ := if_pos hon
      rw [heq]
      exact h.closeFile hon
    | syslog =>
      have heq : s.mylogClearTarget LogTarget.syslog.code = counted _ := if_pos hon
      rw [heq]
      exact h.turnOff hon
    | console =>
      have heq : s.mylogClearTarget LogTarget.console.code = counted _ := if_pos hon
      rw [heq]
      exact h.closeConsole hon
    | stderr =>
      have heq : s.mylogClearTarget LogTarget.stderr.code = counted _ := if_pos hon
      rw [heq]
      exact h.turnOff hon
  · have heq : (s.mylogClearTarget t.code).2 = s := by
      cases t <;> exact congrArg Prod.snd (if_neg hon)
    rw [heq]
    exact h

theorem Kept.reset (h : Kept s) : Kept s.mylogReset :=
  (((h.clear .file).clear .syslog).clear .console).clear .stderr

/-- **A careful call to set a target** keeps everything in order, and sets it unless it fails. -/
theorem Kept.set (h : Kept s) {fopen : Option A} (hpossible : (Call.set t path fopen).Possible s)
    (hcareful : Careful s (.set t path fopen)) :
    Kept (s.mylogSetTarget t.code path fopen).2 ∧
      ((s.mylogSetTarget t.code path fopen).1 ≠ -1 →
        (s.mylogSetTarget t.code path fopen).2.IsOn t) := by
  cases t with
  | file =>
    cases fopen with
    | none => exact ⟨h, fun hne => absurd rfl hne⟩
    | some fp =>
      by_cases hfp : s.flogFp ≠ none
      · have heq : s.mylogSetTarget LogTarget.file.code path (some fp) = counted _ := if_pos hfp
        rw [heq]
        exact ⟨h.replaceFile (hcareful hfp) hpossible, fun _ => hcareful hfp⟩
      · have heq : s.mylogSetTarget LogTarget.file.code path (some fp) = counted _ := if_neg hfp
        rw [heq]
        exact ⟨h.openFile (fun hon => hfp (h.file hon).1) hpossible,
          fun _ => isOn_turnOn.mpr (.inl rfl)⟩
  | syslog => exact ⟨h.turnOn hcareful nofun nofun, fun _ => isOn_turnOn.mpr (.inl rfl)⟩
  | console =>
    by_cases hfp : s.clogFp = none
    · cases fopen with
      | none =>
        have heq : s.mylogSetTarget LogTarget.console.code path none = (-1, s) := if_pos hfp
        rw [heq]
        exact ⟨h, fun hne => absurd rfl hne⟩
      | some fp =>
        have heq : s.mylogSetTarget LogTarget.console.code path (some fp) = counted _ := if_pos hfp
        rw [heq]
        exact ⟨h.openConsole (fun hon => (h.console hon).1 hfp) hpossible,
          fun _ => isOn_turnOn.mpr (.inl rfl)⟩
    · have heq : s.mylogSetTarget LogTarget.console.code path fopen = counted _ := if_neg hfp
      rw [heq]
      exact ⟨h, fun _ => hcareful hfp⟩
  | stderr =>
    by_cases hoff : ¬ s.IsOn .stderr
    · have heq : s.mylogSetTarget LogTarget.stderr.code path fopen = counted _ := if_pos hoff
      rw [heq]
      exact ⟨h.turnOn hoff nofun nofun, fun _ => isOn_turnOn.mpr (.inl rfl)⟩
    · have heq : s.mylogSetTarget LogTarget.stderr.code path fopen = counted _ := if_neg hoff
      rw [heq]
      exact ⟨h, fun _ => not_not.mp hoff⟩

/-- **A careless call** shows: it returns as if its target were on, or counts it twice. -/
theorem Kept.careless (h : Kept s) (hcareless : ¬ Careful s c) : ¬ ConsistentAfter s c := by
  have hne : s.logTargetsCount ≠ -1 := by
    have hcount := h.count
    omega
  cases c with
  | clear t => exact absurd trivial hcareless
  | reset => exact absurd trivial hcareless
  | set t path fopen =>
    rintro ⟨hconsistent, hset⟩
    have hset := hset t path fopen rfl
    cases t with
    | file =>
      cases fopen with
      | none => exact hcareless trivial
      | some fp =>
        obtain ⟨hfp, hoff⟩ := Classical.not_imp.mp hcareless
        have heq : (Call.set .file path (some fp)).run s = counted _ := if_pos hfp
        rw [heq] at hset
        exact hoff (hset hne)
    | syslog => exact hcareless ((count_turnOn h.count).mp hconsistent.count)
    | console =>
      obtain ⟨hfp, hoff⟩ := Classical.not_imp.mp hcareless
      have heq : (Call.set .console path fopen).run s = counted _ := if_neg hfp
      rw [heq] at hset
      exact hoff (hset hne)
    | stderr => exact hcareless trivial

/-- **One call** leaves the bookkeeping consistent exactly when it is careful. -/
theorem Kept.call (h : Kept s) (hpossible : c.Possible s) :
    (ConsistentAfter s c ↔ Careful s c) ∧ (Careful s c → Kept (c.run s).2) := by
  have hkeep (hcareful : Careful s c) : Kept (c.run s).2 ∧ ConsistentAfter s c := by
    cases c with
    | set t path fopen =>
      obtain ⟨hkept, hon⟩ := h.set hpossible hcareful
      refine ⟨hkept, hkept.consistent, ?_⟩
      rintro t' path' fopen' heq
      obtain ⟨rfl, rfl, rfl⟩ := Call.set.inj heq
      exact hon
    | clear t => exact ⟨h.clear t, (h.clear t).consistent, nofun⟩
    | reset => exact ⟨h.reset, h.reset.consistent, nofun⟩
  refine ⟨⟨fun hafter => ?_, fun hcareful => (hkeep hcareful).2⟩, fun hcareful =>
    (hkeep hcareful).1⟩
  by_contra hcareless
  exact h.careless hcareless hafter

/-- **When the log targets are kept consistently.** For any calls, whatever `fopen` returns: after
each of them the counter counts the bits, a call that does not fail to set a target has set it, the
handles in use are open and no stream is closed twice, exactly when no call opens the file or the
console again after they were closed, and none sets the system log twice. -/
theorem log_targets_iff {calls : List (Call A)}
    (hrun : (logging A).exec Machine.Always start calls = some s) :
    (logging A).Along ConsistentAfter start calls ↔ (logging A).Along Careful start calls := by
  refine Machine.along_iff kept_start (fun s c s' h hstep => ?_) hrun
  obtain ⟨hpossible, hs'⟩ := Option.ite_none_right_eq_some.mp hstep
  obtain rfl := Option.some.inj hs'
  exact h.call hpossible

instance (s : MyLog A) : (c : Call A) → Decidable (Careful s c)
  | .set .file _ (some _) => inferInstanceAs (Decidable (s.flogFp ≠ none → s.IsOn .file))
  | .set .syslog _ _ => inferInstanceAs (Decidable (¬ s.IsOn .syslog))
  | .set .console _ _ => inferInstanceAs (Decidable (s.clogFp ≠ none → s.IsOn .console))
  | .set .file _ none | .set .stderr _ _ | .clear _ | .reset => isTrue trivial

/-- The calls of `log_init` in `main.c`, with the last one for the level `L_DEBUG`. -/
def logInit (debug : Bool) : List (Call A) :=
  [.reset, .set .stderr "" none, .set .syslog "" none] ++
    if debug then [.set .stderr "" none] else []

/-- Then a log file, another one in its place, and the end. -/
theorem log_targets_consistent_logInit :
    ((logging ℕ).exec Machine.Always start (logInit true ++
      [.set .file "dungeon.log" (some 1), .set .file "dungeon.log.1" (some 2), .reset])).isSome ∧
    (logging ℕ).Along ConsistentAfter start (logInit true ++
      [.set .file "dungeon.log" (some 1), .set .file "dungeon.log.1" (some 2), .reset]) :=
  ⟨rfl, (log_targets_iff (A := ℕ) (s := _) rfl).mpr (Machine.exec_along rfl)⟩

/-- A log file that is opened again after it was closed, the system log set twice, and the console
opened again. The first file is closed twice. -/
theorem log_targets_drift :
    ¬ (logging ℕ).Along ConsistentAfter start
        [.set .file "a" (some 1), .clear .file, .set .file "b" (some 2)] ∧
      (∃ s, (logging ℕ).exec Machine.Always start
          [.set .file "a" (some 1), .clear .file, .set .file "b" (some 2)] = some s ∧
        ∃ b ∈ s.streams.blocks, b.frees = 2) ∧
      ¬ (logging ℕ).Along ConsistentAfter start [.set .syslog "" none, .set .syslog "" none] ∧
      ¬ (logging ℕ).Along ConsistentAfter start
        [.set .console "" (some 1), .clear .console, .set .console "" (some 2)] := by
  refine ⟨?_, ⟨_, rfl, by decide⟩, ?_, ?_⟩
  · rintro ⟨-, h⟩
    obtain ⟨-, h⟩ := h _ rfl
    obtain ⟨⟨-, hset⟩, -⟩ := h _ rfl
    exact absurd (hset .file "b" (some 2) rfl (by decide)) (by decide)
  · rintro ⟨-, h⟩
    obtain ⟨⟨hconsistent, -⟩, -⟩ := h _ rfl
    exact absurd hconsistent.count (by decide)
  · rintro ⟨-, h⟩
    obtain ⟨-, h⟩ := h _ rfl
    obtain ⟨⟨-, hset⟩, -⟩ := h _ rfl
    exact absurd (hset .console "" (some 2) rfl (by decide)) (by decide)

end MyLog

end Dungeon

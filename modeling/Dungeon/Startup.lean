import Dungeon.Conf
import Dungeon.Rlimit
import Dungeon.Lib.CInt

/-!
# Starting the server (`main.c`, `conf.c`, `dungeon.c`)

What `main` takes from a configuration that has passed `conf_check_legal`, from `server_start` up
to the check that `dungeon_init` makes of its arguments.

- `confGetWorkersInternal`, `confGetWorkingDirInternal`: the readers that the check does not ask.
- `rlimitInit`, `dungeonInitCheck`, `serverStart`: their use.
- `CanStart`: nothing overflows, the directory is there, and `dungeon_init` goes on.
- `can_start_iff`: a configuration that passes the check can start the server exactly when it has
  no number that is out of range and no working directory that is not a string.
-/

namespace Dungeon

/-- `conf_get_workers_internal`. -/
def confGetWorkersInternal (conf : Json) (n : ℤ) : ℤ :=
  match cjsonGetObjectItem conf "Workers" with
  | some (.number valueint) => if valueint = 0 then n else valueint
  | _ => n

/-- `conf_get_working_dir_internal`; `DEFAULT_WORK_DIR` is `INSTALL_PREFIX`. -/
def confGetWorkingDirInternal (p : Platform) (conf : Json) : Option String :=
  confString conf "WorkingDir" p.installPrefix

/-- The number of descriptors that `rlimit_init` asks for, an `int`. -/
def rlimitBound (conf : Json) : Option ℤ :=
  (CInt.mul (confGetConcurrentMaxInternal conf) 5).bind (CInt.add · 1024)

/-- `rlimit_init`; the bound is converted to `rlim_t`. -/
def rlimitInit (conf : Json) (r : Rlimit) : Option (ℕ × Rlimit) :=
  (rlimitBound conf).map fun bound => rlimitTry 1024 (BitVec.ofInt 64 bound).toNat r

/-- The first check of `dungeon_init`, which returns `EINVAL` or goes on. -/
def dungeonInitCheck (nrWorkers nrImpMax : ℤ) : ℤ :=
  if nrWorkers < 1 ∨ nrImpMax < 1 then 22 else 0

/-- What `main` does from `server_start` on: its call of `chdir`, where `none` is `NULL`, the limits
of the process, and the arguments of `dungeon_init`. -/
structure ServerStart where
  chdir : Option String
  rlimit : Rlimit
  nrWorkers : ℤ
  nrImpMax : ℤ

/-- `main` from `server_start` up to `dungeon_init`, with the result of `get_nrcpu`. -/
def serverStart (p : Platform) (conf : Json) (nrcpu : ℤ) (r : Rlimit) : Option ServerStart :=
  (rlimitInit conf r).map fun limits =>
    let nrCpus := if nrcpu ≤ 0 then 1 else nrcpu
    { chdir := confGetWorkingDirInternal p conf
      rlimit := limits.2
      nrWorkers := confGetWorkersInternal conf nrCpus
      nrImpMax := confGetConcurrentMaxInternal conf }

/-- The server gets past the check of `dungeon_init`, with a directory to work in and without an
overflow. -/
def CanStart (p : Platform) (conf : Json) (nrcpu : ℤ) (r : Rlimit) : Prop :=
  ∃ s, serverStart p conf nrcpu r = some s ∧ s.chdir.isSome = true ∧
    1 ≤ s.nrWorkers ∧ 1 ≤ s.nrImpMax

/-- What the configuration has to be for that: `(INT_MAX-1024)/5` is 429496524. -/
structure Startable (conf : Json) : Prop where
  workers : ∀ m, cjsonGetObjectItem conf "Workers" = some (.number m) → 0 ≤ m
  concurrentMax : ∀ m, cjsonGetObjectItem conf "ConcurrentMax" = some (.number m) →
    1 ≤ m ∧ m ≤ 429496524
  workingDir : ∀ item, cjsonGetObjectItem conf "WorkingDir" = some item →
    ∃ dir, item = .string dir

variable {p : Platform} {conf : Json} {nrcpu n : ℤ} {r : Rlimit}

/-! ## The readers -/

/-- The number of workers: a negative one is handed on. -/
theorem workers_pos_iff (hn : 1 ≤ n) : 1 ≤ confGetWorkersInternal conf n ↔
    ∀ m, cjsonGetObjectItem conf "Workers" = some (.number m) → 0 ≤ m := by
  unfold confGetWorkersInternal
  split
  next valueint hitem =>
    constructor
    · intro h m hm
      obtain ⟨rfl⟩ := Json.number.inj (Option.some.inj (hitem.symm.trans hm))
      split at h <;> omega
    · intro h
      have hpos := h valueint hitem
      split <;> omega
  next hno => exact iff_of_true hn fun m hm => absurd hm (hno m)

/-- A reader of a directory returns one unless there is something else in its place. -/
theorem confString_isSome {name default : String} :
    (confString conf name default).isSome = true ↔
      ∀ item, cjsonGetObjectItem conf name = some item → ∃ dir, item = .string dir := by
  unfold confString
  split
  next hnone => exact iff_of_true rfl fun item hitem => by rw [hnone] at hitem; cases hitem
  next dir hstring =>
    refine iff_of_true rfl fun item hitem => ⟨dir, ?_⟩
    exact (Option.some.inj (hstring.symm.trans hitem)).symm
  next other hno hother =>
    refine iff_of_false Bool.false_ne_true fun h => ?_
    obtain ⟨dir, rfl⟩ := h other hother
    exact hno dir rfl

/-- A number that its reader accepts is the one in the configuration, or the default. -/
theorem confNumber_cases {name : String} {default : ℤ} (hpos : 0 ≤ confNumber conf name default) :
    (cjsonGetObjectItem conf name = none ∧ confNumber conf name default = default) ∨
      ∃ m, cjsonGetObjectItem conf name = some (.number m) ∧
        confNumber conf name default = m := by
  unfold confNumber at hpos ⊢
  split at hpos
  next hnone => exact .inl ⟨hnone, rfl⟩
  next m hm => exact .inr ⟨m, hm, rfl⟩
  next => exact absurd hpos (by decide)

/-- The bound fits an `int` up to `(INT_MAX-1024)/5`. -/
theorem rlimitBound_isSome (hpos : 0 ≤ confGetConcurrentMaxInternal conf) :
    (rlimitBound conf).isSome = true ↔ confGetConcurrentMaxInternal conf ≤ 429496524 := by
  unfold rlimitBound
  rcases Int.lt_or_le 2147483647 (confGetConcurrentMaxInternal conf * 5) with hover | hfits
  · rw [CInt.mul, CInt.fit_of_gt hover]
    exact iff_of_false Bool.false_ne_true (by omega)
  · rw [CInt.mul, CInt.fit_of_isInt (by omega) hfits, Option.bind_some, CInt.add, CInt.fit_isSome,
      CInt.IsInt]
    omega

/-- The number of imps: what is accepted and no default is in the configuration. -/
theorem concurrentMax_iff (hpos : 0 ≤ confGetConcurrentMaxInternal conf) :
    1 ≤ confGetConcurrentMaxInternal conf ∧ (rlimitBound conf).isSome = true ↔
      ∀ m, cjsonGetObjectItem conf "ConcurrentMax" = some (.number m) → 1 ≤ m ∧ m ≤ 429496524 := by
  rw [rlimitBound_isSome hpos]
  unfold confGetConcurrentMaxInternal at hpos ⊢
  obtain ⟨hnone, hdefault⟩ | ⟨m, hitem, hm⟩ := confNumber_cases hpos
  · rw [hdefault, hnone]
    exact iff_of_true (by decide) nofun
  · rw [hm, hitem]
    constructor
    · rintro h m' hm'
      obtain rfl := Json.number.inj (Option.some.inj hm')
      exact h
    · exact fun h => h m rfl

/-- `dungeon_init` goes on with positive numbers. -/
theorem dungeonInitCheck_eq_zero {nrWorkers nrImpMax : ℤ} :
    dungeonInitCheck nrWorkers nrImpMax = 0 ↔ 1 ≤ nrWorkers ∧ 1 ≤ nrImpMax := by
  unfold dungeonInitCheck
  split
  next h => exact iff_of_false (by decide) (by omega)
  next h => exact iff_of_true rfl (by omega)

/-! ## Starting -/

/-- `serverStart` gets to `dungeon_init` unless the bound overflows. -/
theorem canStart_iff : CanStart p conf nrcpu r ↔ (rlimitBound conf).isSome = true ∧
    (confGetWorkingDirInternal p conf).isSome = true ∧
    1 ≤ confGetWorkersInternal conf (if nrcpu ≤ 0 then 1 else nrcpu) ∧
    1 ≤ confGetConcurrentMaxInternal conf := by
  unfold CanStart serverStart rlimitInit
  cases rlimitBound conf with
  | none =>
    refine iff_of_false ?_ fun h => Bool.false_ne_true h.1
    rintro ⟨s, hs, -⟩
    exact Option.some_ne_none s hs.symm
  | some bound =>
    constructor
    · rintro ⟨s, hs, hdir, hworkers, hmax⟩
      obtain rfl := Option.some.inj hs
      exact ⟨rfl, hdir, hworkers, hmax⟩
    · rintro ⟨-, hdir, hworkers, hmax⟩
      exact ⟨_, rfl, hdir, hworkers, hmax⟩

/-- **Which configurations can start the server.** For every one that passes `conf_check_legal`,
and every number of processors: exactly those whose `Workers` is not a negative number, whose
`ConcurrentMax`, if it is there, is positive and at most `(INT_MAX-1024)/5`, and whose
`WorkingDir`, if it is there, is a string. -/
theorem can_start_iff (hlegal : confCheckLegal conf = 0) (p : Platform) (nrcpu : ℤ) (r : Rlimit) :
    CanStart p conf nrcpu r ↔ Startable conf := by
  obtain ⟨-, hpos, -⟩ := confCheckLegal_eq_zero.mp hlegal
  have hcpus : 1 ≤ if nrcpu ≤ 0 then 1 else nrcpu := by split <;> omega
  rw [canStart_iff, workers_pos_iff hcpus]
  unfold confGetWorkingDirInternal
  rw [confString_isSome]
  constructor
  · rintro ⟨hbound, hdir, hworkers, hmax⟩
    exact ⟨hworkers, (concurrentMax_iff hpos).mp ⟨hmax, hbound⟩, hdir⟩
  · rintro ⟨hworkers, hmax, hdir⟩
    obtain ⟨hmax, hbound⟩ := (concurrentMax_iff hpos).mpr hmax
    exact ⟨hbound, hdir, hworkers, hmax⟩

/-- A configuration that sets all of them. -/
def smallServer : Json := .object
  [("Workers", .number 2), ("ConcurrentMax", .number 100), ("WorkingDir", .string "/"),
    ("Modules", .array [])]

theorem can_start_smallServer :
    CanStart ⟨"/usr", "/usr/rooms", none⟩ smallServer 4 ⟨1024, 4096⟩ := by
  have hlegal : confCheckLegal smallServer = 0 := by decide
  refine (can_start_iff hlegal _ _ _).mpr ⟨?_, ?_, ?_⟩
  · rintro m ⟨⟩
    decide
  · rintro m ⟨⟩
    decide
  · rintro item ⟨⟩
    exact ⟨"/", rfl⟩

/-- A configuration with one member besides its modules. -/
def withMember (name : String) (item : Json) : Json :=
  .object [(name, item), ("Modules", .array [])]

/-- Configurations that pass the check: no imps, too many of them, less than no workers, a
directory that is a number. None of them can start the server. -/
theorem legal_cannot_start :
    (confCheckLegal (withMember "ConcurrentMax" (.number 0)) = 0 ∧
      ¬ CanStart ⟨"/usr", "/usr/rooms", none⟩ (withMember "ConcurrentMax" (.number 0)) 4
        ⟨1024, 4096⟩) ∧
    (confCheckLegal (withMember "ConcurrentMax" (.number 429496525)) = 0 ∧
      ¬ CanStart ⟨"/usr", "/usr/rooms", none⟩ (withMember "ConcurrentMax" (.number 429496525)) 4
        ⟨1024, 4096⟩) ∧
    (confCheckLegal (withMember "Workers" (.number (-1))) = 0 ∧
      ¬ CanStart ⟨"/usr", "/usr/rooms", none⟩ (withMember "Workers" (.number (-1))) 4
        ⟨1024, 4096⟩) ∧
    confCheckLegal (withMember "WorkingDir" (.number 1)) = 0 ∧
      ¬ CanStart ⟨"/usr", "/usr/rooms", none⟩ (withMember "WorkingDir" (.number 1)) 4
        ⟨1024, 4096⟩ := by
  simp only [canStart_iff]
  refine ⟨⟨by decide, ?_⟩, ⟨by decide, ?_⟩, ⟨by decide, ?_⟩, by decide, ?_⟩
  · exact fun h => absurd h.2.2.2 (by decide)
  · exact fun h => absurd h.1 (by decide)
  · exact fun h => absurd h.2.2.1 (by decide)
  · exact fun h => absurd h.2.1 (by decide)

end Dungeon

import Dungeon.Cjson

/-!
# The configuration (`conf.c`)

One tree, `global_conf`, that the rest of the program reads. Files and parsed trees are
checked before they are installed; the built-in default is not.

- `confCheckLegal` and the readers it is made of.
- `confNew`, `confLoadJson`, `confReload`, `confDelete`: the calls. A call that uses a `NULL`
  string has no result on a machine where that faults.
- `AllLegal`: along a sequence of calls, each returns, a failed one changes nothing, and the
  readers find what they need.
- `conf_legal_iff`: that is so exactly when the default is never asked for.
-/

namespace Dungeon

/-- What the build and the machine add: two directories, and what `strdup` makes of `NULL`,
if it returns. -/
structure Platform where
  installPrefix : String
  modDir : String
  strdupNull : Option String

/-- `DEFAULT_CONCURRENT_MAX`. -/
def defaultConcurrentMax : ℤ := 20000

/-- `DEFAULT_MONITOR_PORT`. -/
def defaultMonitorPort : ℤ := 19990

/-! ## Reading a configuration -/

/-- What the readers of a number share: a default for a missing one, `-1` for another type. -/
def confNumber (conf : Json) (name : String) (default : ℤ) : ℤ :=
  match cjsonGetObjectItem conf name with
  | none => default
  | some (.number valueint) => valueint
  | some _ => -1

/-- What the readers of a directory share: a default for a missing one, `NULL` for another
type. -/
def confString (conf : Json) (name default : String) : Option String :=
  match cjsonGetObjectItem conf name with
  | none => some default
  | some (.string valuestring) => some valuestring
  | some _ => none

/-- `conf_get_concurrent_max_internal`. -/
def confGetConcurrentMaxInternal (conf : Json) : ℤ :=
  confNumber conf "ConcurrentMax" defaultConcurrentMax

/-- `conf_get_log_level_internal`. -/
def confGetLogLevelInternal (conf : Json) : ℤ := confNumber conf "LogLevel" 6

/-- `conf_get_module_dir_internal`. -/
def confGetModuleDirInternal (conf : Json) : Option String := confString conf "ModuleDir" "./"

/-- `conf_get_modules_desc_internal`: the items of the array. -/
def confGetModulesDescInternal (conf : Json) : Option (List Json) :=
  match cjsonGetObjectItem conf "Modules" with
  | some (.array items) => some items
  | _ => none

/-- `conf_check_legal`. -/
def confCheckLegal (conf : Json) : ℤ :=
  if confGetLogLevelInternal conf < 0 then -1
  else if confGetConcurrentMaxInternal conf < 0 then -1
  else if confGetModuleDirInternal conf = none then -1
  else if confGetModulesDescInternal conf = none then -1
  else 0

/-! ## The calls -/

/-- `conf_create_default_config`. `DEFAULT_WORKERS` is zero, so the string it makes of it
starts from `NULL`. -/
def confCreateDefaultConfig (p : Platform) : Option Json :=
  p.strdupNull.map fun workers => .object
    [("Debug", .true), ("MonitorPort", .number defaultMonitorPort),
      ("ConcurrentMax", .number defaultConcurrentMax), ("WorkingDir", .string p.installPrefix),
      ("ModuleDir", .string p.modDir), ("Workers", .string workers)]

/-- What a file name leads to. -/
inductive ConfFile where
  | missing
  | unparsable
  | holds (conf : Json)

/-- `cJSON_fParse`. -/
def ConfFile.parse : ConfFile → Option Json
  | .missing | .unparsable => none
  | .holds conf => some conf

/-- `conf_load_json`: the return code and `global_conf`. -/
def confLoadJson (globalConf conf : Option Json) : ℤ × Option Json :=
  match conf with
  | none => (-1, globalConf)
  | some conf => if confCheckLegal conf ≠ 0 then (-1, globalConf) else (0, some conf)

/-- `conf_new`. -/
def confNew (p : Platform) (globalConf : Option Json) :
    Option ConfFile → Option (ℤ × Option Json)
  | some .missing => some (-1, globalConf)
  | some file => some (confLoadJson globalConf file.parse)
  -- the only path past the check
  | none => (confCreateDefaultConfig p).map fun conf => (0, some conf)

/-- `conf_reload`. -/
def confReload (globalConf : Option Json) : Option ConfFile → ℤ × Option Json
  | none => (-1, globalConf)
  | some .missing => (-1, globalConf)
  | some file => confLoadJson globalConf file.parse

/-- `conf_delete`. -/
def confDelete : Option Json → ℤ × Option Json
  | some _ => (0, none)
  | none => (-1, none)

/-- A call, with what its argument leads to. -/
inductive ConfCall where
  | new (file : Option ConfFile)
  | loadJson (conf : Option Json)
  | reload (file : Option ConfFile)
  | delete

/-- What a call returns and leaves. -/
def ConfCall.run (p : Platform) (globalConf : Option Json) : ConfCall → Option (ℤ × Option Json)
  | .new file => confNew p globalConf file
  | .loadJson conf => some (confLoadJson globalConf conf)
  | .reload file => some (confReload globalConf file)
  | .delete => some (confDelete globalConf)

/-! ## Legal configurations -/

/-- An installed configuration passes the check, and the readers find what they need. -/
def Legal (globalConf : Option Json) : Prop := ∀ conf ∈ globalConf,
  confCheckLegal conf = 0 ∧ 0 ≤ confGetLogLevelInternal conf ∧
    0 ≤ confGetConcurrentMaxInternal conf ∧
    (confGetModuleDirInternal conf).isSome = true ∧
    (confGetModulesDescInternal conf).isSome = true

/-- The calls all return; one that fails changes nothing; and what each leaves is legal. -/
def AllLegal (p : Platform) : Option Json → List ConfCall → Prop
  | _, [] => True
  | globalConf, c :: cs => ∃ ret conf, c.run p globalConf = some (ret, conf) ∧
      (ret < 0 → conf = globalConf) ∧ Legal conf ∧ AllLegal p conf cs

/-- The check finds out whether the readers find what they need. -/
theorem confCheckLegal_eq_zero {conf : Json} : confCheckLegal conf = 0 ↔
    0 ≤ confGetLogLevelInternal conf ∧ 0 ≤ confGetConcurrentMaxInternal conf ∧
      (confGetModuleDirInternal conf).isSome = true ∧
      (confGetModulesDescInternal conf).isSome = true := by
  unfold confCheckLegal
  constructor
  · intro h
    split at h
    next => cases h
    next hlevel =>
      split at h
      next => cases h
      next hmax =>
        split at h
        next => cases h
        next hdir =>
          split at h
          next => cases h
          next hmodules =>
            exact ⟨not_lt.mp hlevel, not_lt.mp hmax, Option.isSome_iff_ne_none.mpr hdir,
              Option.isSome_iff_ne_none.mpr hmodules⟩
  · rintro ⟨hlevel, hmax, hdir, hmodules⟩
    rw [if_neg (not_lt.mpr hlevel), if_neg (not_lt.mpr hmax),
      if_neg (Option.isSome_iff_ne_none.mp hdir), if_neg (Option.isSome_iff_ne_none.mp hmodules)]

theorem legal_some {conf : Json} (h : confCheckLegal conf = 0) : Legal (some conf) := by
  intro conf' hconf
  obtain rfl := Option.some.inj hconf
  exact ⟨h, confCheckLegal_eq_zero.mp h⟩

theorem legal_none : Legal none := nofun

/-- A call that returns, changes nothing when it fails, and leaves a legal configuration. -/
def KeepsLegal (globalConf : Option Json) (r : Option (ℤ × Option Json)) : Prop :=
  ∃ ret conf, r = some (ret, conf) ∧ (ret < 0 → conf = globalConf) ∧ Legal conf

/-- A tree is installed only when it passes the check. -/
theorem confLoadJson_legal {globalConf : Option Json} (hg : Legal globalConf)
    (conf : Option Json) : KeepsLegal globalConf (some (confLoadJson globalConf conf)) := by
  unfold confLoadJson
  cases conf with
  | none => exact ⟨-1, globalConf, rfl, fun _ => rfl, hg⟩
  | some conf =>
    dsimp only
    split
    next => exact ⟨-1, globalConf, rfl, fun _ => rfl, hg⟩
    next hcheck =>
      exact ⟨0, some conf, rfl, fun h => absurd h (lt_irrefl 0), legal_some (not_not.mp hcheck)⟩

/-- Every call but the one for the default keeps the configuration legal. -/
theorem ConfCall.run_legal (p : Platform) {globalConf : Option Json} (hg : Legal globalConf)
    {c : ConfCall} (hc : c ≠ .new none) : KeepsLegal globalConf (c.run p globalConf) := by
  have hfail : KeepsLegal globalConf (some (-1, globalConf)) :=
    ⟨-1, globalConf, rfl, fun _ => rfl, hg⟩
  cases c with
  | new file =>
    cases file with
    | none => exact absurd rfl hc
    | some file =>
      cases file with
      | missing => exact hfail
      | unparsable => exact hfail
      | holds conf => exact confLoadJson_legal hg (some conf)
  | loadJson conf => exact confLoadJson_legal hg conf
  | reload file =>
    cases file with
    | none => exact hfail
    | some file =>
      cases file with
      | missing => exact hfail
      | unparsable => exact hfail
      | holds conf => exact confLoadJson_legal hg (some conf)
  | delete =>
    cases globalConf with
    | none => exact hfail
    | some conf => exact ⟨0, none, rfl, fun h => absurd h (lt_irrefl 0), legal_none⟩

/-- The default has no modules, so it does not pass the check. -/
theorem default_not_legal {p : Platform} {conf : Json}
    (h : confCreateDefaultConfig p = some conf) :
    confGetModulesDescInternal conf = none ∧ confCheckLegal conf ≠ 0 := by
  obtain ⟨workers, -, rfl⟩ := Option.map_eq_some_iff.mp h
  -- names are compared without regard to case, and none of these is the one sought
  have hnames : ∀ name ∈ ["Debug", "MonitorPort", "ConcurrentMax", "WorkingDir", "ModuleDir",
      "Workers"], sameName name "Modules" = false := by decide
  simp only [List.forall_mem_cons] at hnames
  obtain ⟨hdebug, hport, hmax, hdir, hmod, hworkers, -⟩ := hnames
  have hnone : confGetModulesDescInternal (.object
      [("Debug", .true), ("MonitorPort", .number defaultMonitorPort),
        ("ConcurrentMax", .number defaultConcurrentMax),
        ("WorkingDir", .string p.installPrefix), ("ModuleDir", .string p.modDir),
        ("Workers", .string workers)]) = none := by
    unfold confGetModulesDescInternal cjsonGetObjectItem
    simp only [List.find?_cons, hdebug, hport, hmax, hdir, hmod, hworkers, List.find?_nil,
      Option.map_none]
  refine ⟨hnone, fun hcheck => ?_⟩
  obtain ⟨-, -, -, hmodules⟩ := confCheckLegal_eq_zero.mp hcheck
  rw [hnone] at hmodules
  cases hmodules

/-- **When the configuration is always legal.** For every sequence of calls from the start
of the program, whatever their files and trees hold: every call returns, one that fails
leaves the configuration as it was, and an installed configuration is legal, exactly when
none of the calls asks for the built-in default. -/
theorem conf_legal_iff (p : Platform) (calls : List ConfCall) :
    AllLegal p none calls ↔ .new none ∉ calls := by
  suffices h : ∀ globalConf, Legal globalConf →
      (AllLegal p globalConf calls ↔ .new none ∉ calls) from h none legal_none
  induction calls with
  | nil => exact fun _ _ => iff_of_true trivial List.not_mem_nil
  | cons c cs ih =>
    intro globalConf hg
    rw [List.mem_cons, not_or]
    constructor
    · rintro ⟨ret, conf, hrun, -, hlegal, hrest⟩
      refine ⟨?_, (ih conf hlegal).mp hrest⟩
      -- the default, were it returned, would be the one that fails the check
      rintro rfl
      obtain ⟨conf', hdefault, heq⟩ := Option.map_eq_some_iff.mp hrun
      obtain ⟨-, rfl⟩ := Prod.mk.inj heq
      exact (default_not_legal hdefault).2 (hlegal conf' rfl).1
    · rintro ⟨hne, hrest⟩
      obtain ⟨ret, conf, hrun, hkeep, hlegal⟩ := c.run_legal p hg (Ne.symm hne)
      exact ⟨ret, conf, hrun, hkeep, hlegal, (ih conf hlegal).mpr hrest⟩

/-- Where `NULL` can be read as a string, the default is installed and illegal, and the
reader of the modules returns `NULL`; elsewhere the call faults. -/
theorem default_unchecked :
    (∃ conf, ConfCall.run ⟨"/usr", "/usr/rooms", some ""⟩ none (.new none) = some (0, some conf) ∧
      confCheckLegal conf = -1 ∧ confGetModulesDescInternal conf = none) ∧
    ConfCall.run ⟨"/usr", "/usr/rooms", none⟩ none (.new none) = none ∧
    ∀ s, ¬ AllLegal ⟨"/usr", "/usr/rooms", s⟩ none [.new none] := by
  refine ⟨⟨_, rfl, rfl, rfl⟩, rfl, fun s => ?_⟩
  rintro ⟨ret, conf, hrun, -, hlegal, -⟩
  obtain ⟨conf', hdefault, heq⟩ := Option.map_eq_some_iff.mp hrun
  obtain ⟨-, rfl⟩ := Prod.mk.inj heq
  exact (default_not_legal hdefault).2 (hlegal conf' rfl).1

end Dungeon

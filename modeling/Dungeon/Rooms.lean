import Dungeon.Conf
import Dungeon.Llist

/-!
# Adding the rooms (`dungeon.c`)

`dungeon_add_rooms` goes through the descriptions of modules in the configuration and has each
module loaded, initialized and put into the list of rooms.

- `dungeonAddRoom`, `addRooms`, `dungeonAddRooms`: the functions, with all their ends: a `NULL`
  item that is looked into, an append that waits for room in the list, and `exit`.
- `described`, `wanted`: what a description should say, and the modules to load.
- `AddsAll`: just these are tried, once and in order, and the loaded ones are counted.
- `addRooms_keyed`: with all keys there, the loop is the one over the modules to load;
  `addRooms_unkeyed`: without, it does not get to the end.
- `add_rooms_iff`: everything goes well exactly when no key is missing, no initializer returns
  something unexpected, and the list has room for what is loaded.
-/

namespace Dungeon

/-- What loading a module comes to: `module_load_only` fails, or the initializer returns; `malloc`
is the outcome of the allocation of a node for the list of rooms. -/
inductive Load where
  | fails
  | initializes (ret : ℤ) (malloc : Bool)
deriving DecidableEq

/-- The ends of `dungeon_add_room`. -/
inductive AddRoom where
  | returns (ret : ℤ) (rooms : Llist ℕ)
  | waits
  | exits

/-- `dungeon_add_room`, for the module with the given number. -/
def dungeonAddRoom (rooms : Llist ℕ) (module : ℕ) : Load → AddRoom
  | .fails => .returns (-1) rooms
  | .initializes ret malloc =>
    if ret = 0 then
      match llistAppend rooms module malloc with
      | none => .waits
      | some (ret, rooms) => .returns ret rooms
    else if ret = -1 then .returns (-1) rooms
    else .exits

/-- The string that `snprintf` leaves in `pat[1024]`. -/
def roomPath (moduleDir path : String) : List UInt8 :=
  let pat := if path.toList.head? ≠ some '/' then moduleDir ++ "/" ++ path else path
  pat.toUTF8.toList.take 1023

/-- A call of `dungeon_add_room`. -/
structure Attempt where
  module : ℕ
  fname : List UInt8
  conf : List (String × Json)

/-- The loop: what was tried, the list of rooms, and `count`. -/
structure Rooms where
  attempts : List Attempt
  rooms : Llist ℕ
  count : ℤ

/-- The ends of `dungeon_add_rooms`. -/
inductive RoomsEnd where
  | returns (count : ℤ)
  /-- a `NULL` pointer is followed -/
  | faults
  | waits
  | exits
  | aborts

/-- One call of `dungeon_add_room`, and how the loop ends if it does. -/
def Rooms.attempt (s : Rooms) (load : ℕ → Load) (a : Attempt) : Rooms × Option RoomsEnd :=
  let attempts := s.attempts ++ [a]
  match dungeonAddRoom s.rooms a.module (load a.module) with
  | .returns ret rooms => (⟨attempts, rooms, if ret = 0 then s.count + 1 else s.count⟩, none)
  | .waits => (⟨attempts, s.rooms, s.count⟩, some .waits)
  | .exits => (⟨attempts, s.rooms, s.count⟩, some .exits)

/-- The loop of `dungeon_add_rooms` from the module with the number `i` on. -/
def addRooms (moduleDir : String) (load : ℕ → Load) : ℕ → List Json → Rooms → Rooms × RoomsEnd
  | _, [], s => (s, .returns s.count)
  | i, modDesc :: rest, s =>
    match cjsonGetObjectItem modDesc "Path" with
    | none => (s, .faults)
    | some (.string path) =>
      match cjsonGetObjectItem modDesc "Config" with
      | none => (s, .faults)
      | some (.object modConf) =>
        let r := s.attempt load ⟨i, roomPath moduleDir path, modConf⟩
        r.2.elim (addRooms moduleDir load (i + 1) rest r.1) fun e => (r.1, e)
      | some _ => addRooms moduleDir load (i + 1) rest s
    | some _ => addRooms moduleDir load (i + 1) rest s

/-- `dungeon_add_rooms`, with the list of rooms that `dungeon_init` has made. -/
def dungeonAddRooms (conf : Json) (load : ℕ → Load) (nrImpMax : ℤ) : Rooms × RoomsEnd :=
  let start : Rooms := ⟨[], llistNew nrImpMax, 0⟩
  match confGetModulesDescInternal conf with
  | none => (start, .aborts)
  | some confMods =>
    match confGetModuleDirInternal conf with
    | none => (start, .faults)
    | some moduleDir => addRooms moduleDir load 0 confMods start

/-! ## What it is for -/

/-- A description of a module: a path that is a string and a configuration that is an object. -/
def described (modDesc : Json) : Option (String × List (String × Json)) :=
  match cjsonGetObjectItem modDesc "Path", cjsonGetObjectItem modDesc "Config" with
  | some (.string path), some (.object modConf) => some (path, modConf)
  | _, _ => none

/-- The modules to load, from the number `i` on. -/
def wanted (moduleDir : String) (i : ℕ) : List Json → List Attempt
  | [] => []
  | modDesc :: rest =>
    match described modDesc with
    | some (path, modConf) =>
      ⟨i, roomPath moduleDir path, modConf⟩ :: wanted moduleDir (i + 1) rest
    | none => wanted moduleDir (i + 1) rest

/-- A module that is loaded, initialized and in the list of rooms. -/
def Load.succeeds (load : Load) : Bool := load = .initializes 0 true

/-- The modules of some attempts that are loaded. -/
def loaded (load : ℕ → Load) (attempts : List Attempt) : List ℕ :=
  (attempts.map Attempt.module).filter fun module => (load module).succeeds

/-- All modules are tried once and in order, and those that are loaded are in the list of rooms and
are counted. -/
structure AddsAll (load : ℕ → Load) (modules : List Attempt) (r : Rooms × RoomsEnd) : Prop where
  attempts : r.1.attempts = modules
  rooms : r.1.rooms.nodes = loaded load modules
  returns : r.2 = .returns (loaded load modules).length

/-- The loop over modules to load. -/
def tryAll (load : ℕ → Load) : List Attempt → Rooms → Rooms × RoomsEnd
  | [], s => (s, .returns s.count)
  | a :: rest, s =>
    (s.attempt load a).2.elim (tryAll load rest (s.attempt load a).1)
      fun e => ((s.attempt load a).1, e)

/-- No key is missing that is looked into. -/
def Keyed (modDesc : Json) : Prop :=
  ∃ item, cjsonGetObjectItem modDesc "Path" = some item ∧
    ∀ path, item = .string path → (cjsonGetObjectItem modDesc "Config").isSome = true

/-- The initializer returns zero or `-1`, if it is called. -/
def Load.Expected (load : Load) : Prop :=
  ∀ ret malloc, load = .initializes ret malloc → ret = 0 ∨ ret = -1

/-- Each module that is initialized finds room in the list. -/
def Fits (load : ℕ → Load) (room : ℤ) : List Attempt → Prop
  | [] => True
  | a :: rest => (∀ malloc, load a.module = .initializes 0 malloc → 0 < room) ∧
      Fits load (if (load a.module).succeeds then room - 1 else room) rest

namespace Rooms

variable {moduleDir : String} {load : ℕ → Load} {i : ℕ} {modDesc : Json} {rest items : List Json}
  {s : Rooms} {a : Attempt} {modules : List Attempt}

/-! ## Modules -/

/-- An attempt that goes on: the module is loaded and in the list, or neither. -/
structure GoesOn (load : ℕ → Load) (a : Attempt) (s s' : Rooms) : Prop where
  expected : (load a.module).Expected
  fits : ∀ malloc, load a.module = .initializes 0 malloc → s.rooms.nrNodes < s.rooms.volume
  attempts : s'.attempts = s.attempts ++ [a]
  nodes : s'.rooms.nodes = s.rooms.nodes ++ loaded load [a]
  count : s'.count = s.count + (loaded load [a]).length
  room : s'.rooms.volume - s'.rooms.nrNodes
    = if (load a.module).succeeds then s.rooms.volume - s.rooms.nrNodes - 1
      else s.rooms.volume - s.rooms.nrNodes

/-- A module that is not loaded changes nothing but that it was tried. -/
theorem goesOn_of_not_loaded (hno : (load a.module).succeeds = false)
    (hexpected : (load a.module).Expected)
    (hfits : ∀ malloc, load a.module = .initializes 0 malloc →
      s.rooms.nrNodes < s.rooms.volume) :
    GoesOn load a s ⟨s.attempts ++ [a], s.rooms, s.count⟩ := by
  have hloaded : loaded load [a] = [] := by simp [loaded, hno]
  refine ⟨hexpected, hfits, rfl, ?_, ?_, ?_⟩
  · rw [hloaded, List.append_nil]
  · rw [hloaded, List.length_nil, Int.natCast_zero, Int.add_zero]
  · rw [hno]
    rfl

/-- A module that is loaded gets a place in the list. -/
theorem goesOn_of_loaded (hload : load a.module = .initializes 0 true)
    (hroom : s.rooms.nrNodes < s.rooms.volume) :
    GoesOn load a s ⟨s.attempts ++ [a], { s.rooms with
      nodes := s.rooms.nodes ++ [a.module], nrNodes := s.rooms.nrNodes + 1 }, s.count + 1⟩ := by
  have hyes : (load a.module).succeeds = true := by rw [hload]; rfl
  have hloaded : loaded load [a] = [a.module] := by simp [loaded, hyes]
  refine ⟨?_, fun _ _ => hroom, rfl, ?_, ?_, ?_⟩
  · rintro ret malloc heq
    exact .inl (Load.initializes.inj (hload.symm.trans heq)).1.symm
  · rw [hloaded]
  · rw [hloaded]
    rfl
  · rw [hyes]
    show s.rooms.volume - (s.rooms.nrNodes + 1) = s.rooms.volume - s.rooms.nrNodes - 1
    omega

/-- An initializer that returns zero: its module is in the list if there is memory for a node. -/
theorem goesOn_of_zero {malloc : Bool} (hload : load a.module = .initializes 0 malloc)
    (hroom : s.rooms.nrNodes < s.rooms.volume) :
    ∃ s', s.attempt load a = (s', none) ∧ GoesOn load a s s' := by
  have hfree : ¬ s.rooms.nrNodes ≥ s.rooms.volume := Int.not_le.mpr hroom
  rw [attempt, hload, dungeonAddRoom, if_pos rfl, llistAppend, if_neg hfree, llistAppendUnlocked,
    if_pos hroom]
  cases malloc with
  | true => exact ⟨_, rfl, goesOn_of_loaded hload hroom⟩
  | false =>
    refine ⟨_, rfl, goesOn_of_not_loaded ?_ ?_ fun _ _ => hroom⟩
    · rw [hload]
      rfl
    · rintro ret malloc heq
      exact .inl (Load.initializes.inj (hload.symm.trans heq)).1.symm

/-- **One attempt** goes on, or is the end because of what the initializer returned or because the
list is full. -/
theorem attempt_cases (s : Rooms) (load : ℕ → Load) (a : Attempt) :
    (∃ s', s.attempt load a = (s', none) ∧ GoesOn load a s s') ∨
      ∃ s' e, s.attempt load a = (s', some e) ∧ (∀ n, e ≠ .returns n) ∧
        ¬ ((load a.module).Expected ∧ ∀ malloc, load a.module = .initializes 0 malloc →
          s.rooms.nrNodes < s.rooms.volume) := by
  cases hload : load a.module with
  | fails =>
    rw [attempt, hload]
    refine .inl ⟨_, rfl, goesOn_of_not_loaded ?_ ?_ ?_⟩ <;> rw [hload]
    · rfl
    · exact nofun
    · exact nofun
  | initializes ret malloc =>
    by_cases hzero : ret = 0
    · subst hzero
      rcases Int.lt_or_le s.rooms.nrNodes s.rooms.volume with hroom | hfull
      · exact .inl (goesOn_of_zero hload hroom)
      · rw [attempt, hload, dungeonAddRoom, if_pos rfl, llistAppend, if_pos hfull]
        exact .inr ⟨_, .waits, rfl, nofun, fun h => Int.not_lt.mpr hfull (h.2 malloc rfl)⟩
    · rw [attempt, hload, dungeonAddRoom, if_neg hzero]
      by_cases hone : ret = -1
      · subst hone
        refine .inl ⟨_, rfl, goesOn_of_not_loaded ?_ ?_ ?_⟩ <;> rw [hload]
        · rfl
        · rintro ret malloc' heq
          exact .inr (Load.initializes.inj heq).1.symm
        · exact nofun
      · rw [if_neg hone]
        refine .inr ⟨_, .exits, rfl, nofun, fun h => ?_⟩
        exact (h.1 ret malloc rfl).elim hzero hone

/-! ## Descriptions -/

/-- One description: it is looked into where a key is missing, skipped, or a module is tried. -/
theorem addRooms_cons (moduleDir : String) (load : ℕ → Load) (i : ℕ) (modDesc : Json)
    (rest : List Json) (s : Rooms) :
    (¬ Keyed modDesc ∧ addRooms moduleDir load i (modDesc :: rest) s = (s, .faults)) ∨
      (Keyed modDesc ∧ described modDesc = none ∧ addRooms moduleDir load i (modDesc :: rest) s
        = addRooms moduleDir load (i + 1) rest s) ∨
      ∃ path modConf, Keyed modDesc ∧ described modDesc = some (path, modConf) ∧
        addRooms moduleDir load i (modDesc :: rest) s
          = (s.attempt load ⟨i, roomPath moduleDir path, modConf⟩).2.elim
            (addRooms moduleDir load (i + 1) rest
              (s.attempt load ⟨i, roomPath moduleDir path, modConf⟩).1)
            fun e => ((s.attempt load ⟨i, roomPath moduleDir path, modConf⟩).1, e) := by
  rw [addRooms]
  cases hpath : cjsonGetObjectItem modDesc "Path" with
  | none =>
    refine .inl ⟨?_, rfl⟩
    rintro ⟨item, hitem, -⟩
    exact Option.some_ne_none item (hitem.symm.trans hpath)
  | some item =>
    cases item with
    | string path =>
      cases hconf : cjsonGetObjectItem modDesc "Config" with
      | none =>
        refine .inl ⟨?_, rfl⟩
        rintro ⟨item, hitem, hconfig⟩
        have hsome := hconfig path (Option.some.inj (hitem.symm.trans hpath))
        rw [hconf] at hsome
        cases hsome
      | some conf =>
        have hkeyed : Keyed modDesc := ⟨_, hpath, fun _ _ => by rw [hconf]; rfl⟩
        cases conf with
        | object modConf =>
          exact .inr (.inr ⟨path, modConf, hkeyed, by rw [described, hpath, hconf], rfl⟩)
        | false | true | null | number _ | string _ | array _ =>
          exact .inr (.inl ⟨hkeyed, by rw [described, hpath, hconf], rfl⟩)
    | false | true | null | number _ | array _ | object _ =>
      exact .inr (.inl ⟨⟨_, hpath, nofun⟩, by rw [described, hpath], rfl⟩)

/-- With all keys there, what is left is the loop over the modules to load. -/
theorem addRooms_keyed (hkeyed : ∀ modDesc ∈ items, Keyed modDesc) :
    addRooms moduleDir load i items s = tryAll load (wanted moduleDir i items) s := by
  induction items generalizing i s with
  | nil => rfl
  | cons modDesc rest ih =>
    obtain ⟨hdesc, hrest⟩ := List.forall_mem_cons.mp hkeyed
    obtain ⟨hnot, -⟩ | ⟨-, hnone, heq⟩ | ⟨path, modConf, -, hsome, heq⟩ :=
      addRooms_cons moduleDir load i modDesc rest s
    · exact absurd hdesc hnot
    · rw [heq, ih hrest, wanted, hnone]
    · rw [heq, ih hrest, wanted, hsome]
      rfl

/-- A description without a key is looked into, if the loop gets there. -/
theorem addRooms_unkeyed (hnot : ¬ ∀ modDesc ∈ items, Keyed modDesc) (n : ℤ) :
    (addRooms moduleDir load i items s).2 ≠ .returns n := by
  induction items generalizing i s with
  | nil => exact absurd nofun hnot
  | cons modDesc rest ih =>
    rw [List.forall_mem_cons, not_and] at hnot
    obtain ⟨-, heq⟩ | ⟨hdesc, -, heq⟩ | ⟨path, modConf, hdesc, -, heq⟩ :=
      addRooms_cons moduleDir load i modDesc rest s
    · rw [heq]
      exact nofun
    · rw [heq]
      exact ih (hnot hdesc)
    · obtain ⟨s', hgo, -⟩ | ⟨s', e, hend, hne, -⟩ :=
        attempt_cases s load ⟨i, roomPath moduleDir path, modConf⟩
      · rw [heq, hgo]
        exact ih (hnot hdesc)
      · rw [heq, hend]
        exact hne n

/-! ## The loop -/

/-- What the loop over some modules adds to what is there. -/
structure AddsMore (load : ℕ → Load) (modules : List Attempt) (s : Rooms)
    (r : Rooms × RoomsEnd) : Prop where
  attempts : r.1.attempts = s.attempts ++ modules
  nodes : r.1.rooms.nodes = s.rooms.nodes ++ loaded load modules
  returns : r.2 = .returns (s.count + (loaded load modules).length)

theorem loaded_cons (load : ℕ → Load) (a : Attempt) (modules : List Attempt) :
    loaded load (a :: modules) = loaded load [a] ++ loaded load modules := by
  simp only [loaded, List.map_cons, List.map_nil, List.filter_cons, List.filter_nil]
  split <;> rfl

/-- After an attempt that goes on, the rest adds the rest. -/
theorem GoesOn.addsMore {s' : Rooms} {r : Rooms × RoomsEnd} (h : GoesOn load a s s') :
    AddsMore load modules s' r ↔ AddsMore load (a :: modules) s r := by
  have hattempts : s'.attempts ++ modules = s.attempts ++ a :: modules := by
    rw [h.attempts, List.append_assoc, List.singleton_append]
  have hnodes : s'.rooms.nodes ++ loaded load modules
      = s.rooms.nodes ++ loaded load (a :: modules) := by
    rw [h.nodes, loaded_cons load a modules, List.append_assoc]
  have hcount : s'.count + (loaded load modules).length
      = s.count + (loaded load (a :: modules)).length := by
    rw [h.count, loaded_cons load a modules, List.length_append]
    omega
  constructor
  · rintro ⟨h₁, h₂, h₃⟩
    exact ⟨hattempts ▸ h₁, hnodes ▸ h₂, hcount ▸ h₃⟩
  · rintro ⟨h₁, h₂, h₃⟩
    exact ⟨hattempts ▸ h₁, hnodes ▸ h₂, hcount ▸ h₃⟩

/-- **The loop over modules** tries and adds all of them exactly when no initializer returns
something unexpected and each initialized module finds room. -/
theorem tryAll_iff : AddsMore load modules s (tryAll load modules s) ↔
    (∀ a ∈ modules, (load a.module).Expected) ∧
      Fits load (s.rooms.volume - s.rooms.nrNodes) modules := by
  induction modules generalizing s with
  | nil =>
    refine iff_of_true ⟨(List.append_nil _).symm, (List.append_nil _).symm, ?_⟩ ⟨nofun, trivial⟩
    exact congrArg RoomsEnd.returns (Int.add_zero _).symm
  | cons a modules ih =>
    rw [tryAll, List.forall_mem_cons, Fits]
    obtain ⟨s', hgo, hs'⟩ | ⟨s', e, hend, hne, hnot⟩ := attempt_cases s load a
    · rw [hgo, ← hs'.room, and_iff_right hs'.expected]
      have hroom : ∀ malloc, load a.module = .initializes 0 malloc →
          0 < s.rooms.volume - s.rooms.nrNodes := fun malloc hload =>
        Int.sub_pos_of_lt (hs'.fits malloc hload)
      rw [and_iff_right hroom, ← ih]
      exact hs'.addsMore.symm
    · rw [hend]
      refine iff_of_false (fun h => hne _ h.returns) ?_
      rintro ⟨⟨hexpected, -⟩, hroom, -⟩
      exact hnot ⟨hexpected, fun malloc hload => Int.lt_of_sub_pos (hroom malloc hload)⟩

theorem dungeonAddRooms_eq {conf : Json} (hitems : confGetModulesDescInternal conf = some items)
    (hdir : confGetModuleDirInternal conf = some moduleDir) (load : ℕ → Load) (nrImpMax : ℤ) :
    dungeonAddRooms conf load nrImpMax
      = addRooms moduleDir load 0 items ⟨[], llistNew nrImpMax, 0⟩ := by
  rw [dungeonAddRooms, hitems, hdir]

/-- **When adding the rooms tolerates its configuration.** For every configuration that passes
`conf_check_legal`, whatever loading the modules comes to and however many rooms there may be: no
`NULL` pointer is followed, the modules with a string for a path and an object for a configuration
are tried once each and in order, and those that are loaded are added and counted, exactly when
every description has a `Path`, and a `Config` if that is a string, no initializer that is called
returns anything but zero and `-1`, and each module that is initialized finds room in the list. -/
theorem add_rooms_iff {conf : Json} (hlegal : confCheckLegal conf = 0) (load : ℕ → Load)
    (nrImpMax : ℤ) : ∃ items moduleDir, confGetModulesDescInternal conf = some items ∧
      confGetModuleDirInternal conf = some moduleDir ∧
      (AddsAll load (wanted moduleDir 0 items) (dungeonAddRooms conf load nrImpMax) ↔
        (∀ modDesc ∈ items, Keyed modDesc) ∧
          (∀ a ∈ wanted moduleDir 0 items, (load a.module).Expected) ∧
          Fits load nrImpMax (wanted moduleDir 0 items)) := by
  obtain ⟨-, -, hdir, hitems⟩ := confCheckLegal_eq_zero.mp hlegal
  obtain ⟨moduleDir, hdir⟩ := Option.isSome_iff_exists.mp hdir
  obtain ⟨items, hitems⟩ := Option.isSome_iff_exists.mp hitems
  refine ⟨items, moduleDir, hitems, hdir, ?_⟩
  rw [dungeonAddRooms_eq hitems hdir]
  by_cases hkeyed : ∀ modDesc ∈ items, Keyed modDesc
  · have hmore : ∀ r, AddsAll load (wanted moduleDir 0 items) r ↔
        AddsMore load (wanted moduleDir 0 items) ⟨[], llistNew nrImpMax, 0⟩ r := by
      intro r
      constructor
      · exact fun h => ⟨h.attempts, h.rooms, by rw [h.returns, Int.zero_add]⟩
      · exact fun h => ⟨h.attempts, h.nodes, by rw [h.returns, Int.zero_add]⟩
    rw [and_iff_right hkeyed, addRooms_keyed hkeyed, hmore, tryAll_iff]
    show _ ∧ Fits load (nrImpMax - 0) _ ↔ _
    rw [Int.sub_zero]
  · exact iff_of_false (fun h => addRooms_unkeyed hkeyed _ h.returns) fun h => hkeyed h.1

/-- Four modules: a path that is a number, a module that is loaded, a configuration that is an
array, and a module that cannot be loaded. -/
def fourModules : Json := .object [("Modules", .array
  [.object [("Path", .number 1)],
    .object [("Path", .string "/echo.so"), ("Config", .object [])],
    .object [("path", .string "/x.so"), ("config", .array [])],
    .object [("Path", .string "/y.so"), ("Config", .object [])]])]

theorem add_rooms_fourModules :
    ∃ modules, modules.map Attempt.module = [1, 3] ∧
      AddsAll (fun module => if module = 1 then .initializes 0 true else .fails) modules
        (dungeonAddRooms fourModules
          (fun module => if module = 1 then .initializes 0 true else .fails) 1) := by
  have hlegal : confCheckLegal fourModules = 0 := by decide
  obtain ⟨items, moduleDir, hitems, -, hiff⟩ := add_rooms_iff hlegal
    (fun module => if module = 1 then .initializes 0 true else .fails) 1
  obtain rfl := Option.some.inj hitems
  refine ⟨_, rfl, hiff.mpr ⟨?_, ?_, ?_⟩⟩
  · simp only [List.forall_mem_cons]
    exact ⟨⟨_, rfl, nofun⟩, ⟨_, rfl, fun _ _ => rfl⟩, ⟨_, rfl, fun _ _ => rfl⟩,
      ⟨_, rfl, fun _ _ => rfl⟩, nofun⟩
  · show ∀ a ∈ [(_ : Attempt), _], _
    simp only [List.forall_mem_cons]
    refine ⟨?_, ?_, nofun⟩
    · rintro ret malloc heq
      exact .inl (Load.initializes.inj heq).1.symm
    · exact nofun
  · exact ⟨fun _ _ => by decide, nofun, trivial⟩

/-- A module without a path, and one whose configuration is missing; an initializer that returns
one; and a second module where there is room for one. -/
theorem add_rooms_ends :
    confCheckLegal (.object [("Modules", .array [.object [("Config", .object [])]])]) = 0 ∧
      (dungeonAddRooms (.object [("Modules", .array [.object [("Config", .object [])]])])
        (fun _ => .initializes 0 true) 9).2 = .faults ∧
      (dungeonAddRooms (.object [("Modules", .array [.object [("Path", .string "/a.so")]])])
        (fun _ => .initializes 0 true) 9).2 = .faults ∧
      (dungeonAddRooms fourModules (fun _ => .initializes 1 true) 9).2 = .exits ∧
      (dungeonAddRooms fourModules (fun _ => .initializes 0 true) 1).2 = .waits :=
  ⟨by decide, rfl, rfl, rfl, rfl⟩

end Rooms

end Dungeon

import Mathlib.Data.Nat.Notation
import Mathlib.Logic.Function.Basic

/-!
# Programs that take reader–writer locks

Computations on some data and a family of named locks. A computation has no result where it
asks for a lock that is taken: it does not get on.

- `RwLock`: a lock, with the number of its readers; `rdlock`, `wrlock`, `unlock`.
- `LockM`: the computations, with `data`, `modifyData` and the three operations on a lock.
- `Runs`: a computation has a result, and this is it. `Runs.bind` composes such runs.
- `runs_wrlock`, `runs_rdlock` and their `unlock`s: one lock is taken where all were free, and
  given back. `runs_forM`: a loop whose turns give back what they take.
- `wrlock_taken`, `rdlock_taken`: what a lock that was not given back does to the next to ask.
-/

/-- A reader–writer lock. -/
structure RwLock where
  readers : ℕ
  writer : Bool
  deriving DecidableEq

namespace RwLock

/-- Nobody has it. -/
def free : RwLock := ⟨0, false⟩

/-- One writer has it. -/
def writing : RwLock := ⟨0, true⟩

/-- One reader has it. -/
def reading : RwLock := ⟨1, false⟩

/-- Taken for reading, unless there is a writer. -/
def rdlock (l : RwLock) : Option RwLock :=
  if l.writer then none else some { l with readers := l.readers + 1 }

/-- Taken for writing, unless anybody has it. -/
def wrlock (l : RwLock) : Option RwLock :=
  if l.writer ∨ 0 < l.readers then none else some { l with writer := true }

/-- Given back. -/
def unlock (l : RwLock) : RwLock :=
  if l.writer then { l with writer := false } else { l with readers := l.readers - 1 }

end RwLock

/-- Data and the locks around it. -/
structure Guarded (ι δ : Type) where
  data : δ
  locks : ι → RwLock

/-- A computation on data and locks; `none` where it waits for a lock. -/
abbrev LockM (ι δ : Type) := StateT (Guarded ι δ) Option

namespace LockM

variable {ι δ α β : Type}

/-- A look at the data. -/
def data : LockM ι δ δ := fun s => some (s.data, s)

/-- A change of the data. -/
def modifyData (f : δ → δ) : LockM ι δ Unit := fun s => some ((), { s with data := f s.data })

/-! ## Runs -/

section Runs

variable {m : LockM ι δ α} {f : α → LockM ι δ β} {s s' s'' : Guarded ι δ} {a : α} {b : β}

/-- The computation ends with `a` and leaves `s'`. -/
def Runs (m : LockM ι δ α) (s : Guarded ι δ) (a : α) (s' : Guarded ι δ) : Prop :=
  m.run s = some (a, s')

theorem Runs.pure (a : α) (s : Guarded ι δ) : Runs (Pure.pure a : LockM ι δ α) s a s := rfl

theorem Runs.bind (h : Runs m s a s') (h' : Runs (f a) s' b s'') : Runs (m >>= f) s b s'' := by
  unfold Runs at *
  rw [StateT.run_bind, h]
  exact h'

theorem runs_data (s : Guarded ι δ) : Runs data s s.data s := rfl

theorem runs_modifyData (g : δ → δ) (s : Guarded ι δ) :
    Runs (modifyData g) s () { s with data := g s.data } := rfl

/-- What waits after a run waits as a whole. -/
theorem Runs.bind_eq_none (h : Runs m s a s') (h' : (f a).run s' = none) :
    (m >>= f).run s = none := by
  rw [StateT.run_bind, h]
  exact h'

/-- A computation that waits makes all that begins with it wait. -/
theorem bind_eq_none (h : m.run s = none) : (m >>= f).run s = none := by
  rw [StateT.run_bind, h]
  rfl

/-- All locks free. -/
def free : ι → RwLock := fun _ => .free

/-- A loop whose turns leave the locks free. -/
theorem runs_forM {γ : Type} {body : γ → LockM ι δ PUnit} {g : δ → γ → δ}
    (hbody : ∀ c d, Runs (body c) ⟨d, free⟩ () ⟨g d c, free⟩) (l : List γ) (d : δ) :
    Runs (l.forM body) ⟨d, free⟩ () ⟨l.foldl g d, free⟩ := by
  induction l generalizing d with
  | nil => exact Runs.pure () _
  | cons c l ih =>
    rw [List.foldl_cons]
    show Runs (body c >>= fun _ => l.forM body) _ _ _
    exact (hbody c d).bind (ih (g d c))

end Runs

/-! ## One lock at a time -/

variable [DecidableEq ι]

/-- Taking a lock for reading. -/
def rdlock (i : ι) : LockM ι δ Unit := fun s =>
  (s.locks i).rdlock.map fun l => ((), { s with locks := Function.update s.locks i l })

/-- Taking a lock for writing. -/
def wrlock (i : ι) : LockM ι δ Unit := fun s =>
  (s.locks i).wrlock.map fun l => ((), { s with locks := Function.update s.locks i l })

/-- Giving a lock back. -/
def unlock (i : ι) : LockM ι δ Unit := fun s =>
  some ((), { s with locks := Function.update s.locks i (s.locks i).unlock })

/-- One lock taken for writing. -/
def writing (i : ι) : ι → RwLock := Function.update free i .writing

/-- One lock taken for reading. -/
def reading (i : ι) : ι → RwLock := Function.update free i .reading

theorem update_writing (i : ι) : Function.update (writing i) i .free = free := by
  unfold writing
  rw [Function.update_idem]
  exact Function.update_eq_self i free

theorem update_reading (i : ι) : Function.update (reading i) i .free = free := by
  unfold reading
  rw [Function.update_idem]
  exact Function.update_eq_self i free

theorem writing_ne_free (i : ι) : writing i ≠ free := by
  intro heq
  have hi := congrFun heq i
  unfold writing at hi
  rw [Function.update_self] at hi
  cases hi

variable (i : ι) (d : δ)

theorem runs_wrlock : Runs (wrlock i) ⟨d, free⟩ () ⟨d, writing i⟩ := rfl

theorem runs_rdlock : Runs (rdlock i) ⟨d, free⟩ () ⟨d, reading i⟩ := rfl

theorem runs_unlock_writing : Runs (unlock i) ⟨d, writing i⟩ () ⟨d, free⟩ := by
  have hlock : (writing i i).unlock = .free := by
    unfold writing
    rw [Function.update_self]
    rfl
  show some ((), (⟨d, Function.update (writing i) i (writing i i).unlock⟩ : Guarded ι δ))
    = some ((), ⟨d, free⟩)
  rw [hlock, update_writing]

theorem runs_unlock_reading : Runs (unlock i) ⟨d, reading i⟩ () ⟨d, free⟩ := by
  have hlock : (reading i i).unlock = .free := by
    unfold reading
    rw [Function.update_self]
    rfl
  show some ((), (⟨d, Function.update (reading i) i (reading i i).unlock⟩ : Guarded ι δ))
    = some ((), ⟨d, free⟩)
  rw [hlock, update_reading]

/-- A lock that a writer kept is not to be had for writing. -/
theorem wrlock_taken : (wrlock i : LockM ι δ Unit).run ⟨d, writing i⟩ = none := by
  show ((writing i i).wrlock.map fun l => ((), _)) = none
  unfold writing
  rw [Function.update_self]
  rfl

/-- Nor for reading. -/
theorem rdlock_taken : (rdlock i : LockM ι δ Unit).run ⟨d, writing i⟩ = none := by
  show ((writing i i).rdlock.map fun l => ((), _)) = none
  unfold writing
  rw [Function.update_self]
  rfl

/-- A critical section: the data changes under a lock. -/
theorem runs_section (g : δ → δ) :
    Runs (do wrlock i; modifyData g; unlock i) ⟨d, free⟩ () ⟨g d, free⟩ :=
  (runs_wrlock i d).bind ((runs_modifyData g _).bind (runs_unlock_writing i (g d)))

end LockM

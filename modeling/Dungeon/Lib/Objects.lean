import Mathlib.Algebra.Group.Nat.Defs
import Mathlib.Algebra.Ring.Int.Defs
import Mathlib.Data.List.Basic

/-!
# Memory as objects

The memory of a C program as the objects made so far. A pointer is an object and an index in it,
and what reaches outside an object, or into one that was freed, is not defined.

- `Ptr`, `Obj`, `Objects`: a cell is `none` as long as nothing was written to it.
- `malloc`, `free`, `load`, `store`, `memcpy`, `memcmp`, `strlen`, `strdup`: `none` is undefined
  behaviour.
- `obj_add_of_ne`, `free_spec`, `write_spec`, `memcpy_malloc_spec`, `strdup_spec`: what each
  leaves, and that it keeps all other objects.
- `upToZero_eq_some`: what is before the first zero.
- `Owns`: a pointer to the start of an allocation with room enough.
-/

/-- A pointer that is not `NULL`. -/
structure Ptr where
  obj : ℕ
  off : ℕ
deriving DecidableEq

/-- An object: whether it is from `malloc`, and its cells. -/
structure Obj (α : Type) where
  heap : Bool
  cells : List (Option α)
deriving DecidableEq

/-- All objects in the order they were made; one that was freed is `none`. -/
structure Objects (α : Type) where
  objs : List (Option (Obj α))
deriving DecidableEq

namespace Objects

/-! ## Cells -/

section Cells

variable {α : Type}

/-- The values of cells that are all written. -/
def written : List (Option α) → Option (List α)
  | [] => some []
  | none :: _ => none
  | some a :: cs => (written cs).map (a :: ·)

/-- The values before the first zero; `none` when there is none, or an unwritten cell before it. -/
def upToZero [OfNat α 0] [DecidableEq α] : List (Option α) → Option (List α)
  | [] => none
  | none :: _ => none
  | some a :: cs => if a = 0 then some [] else (upToZero cs).map (a :: ·)

/-- The sign of the first difference. -/
def signDiff [DecidableEq α] [LT α] [DecidableLT α] : List α → List α → ℤ
  | a :: as, b :: bs => if a = b then signDiff as bs else if a < b then -1 else 1
  | _, _ => 0

@[simp] theorem written_map_some (xs : List α) : written (xs.map some) = some xs := by
  induction xs with
  | nil => rfl
  | cons a xs ih => simp [written, ih]

theorem written_eq_some {cs : List (Option α)} {xs : List α} :
    written cs = some xs ↔ cs = xs.map some := by
  constructor
  · intro h
    induction cs generalizing xs with
    | nil => simp [written] at h; simp [h]
    | cons c cs ih =>
      cases c with
      | none => simp [written] at h
      | some a =>
        obtain ⟨ys, hys, rfl⟩ := Option.map_eq_some_iff.mp h
        simp [ih hys]
  · rintro rfl
    exact written_map_some xs

/-- Lists of one length have no difference when they are equal. -/
theorem signDiff_eq_zero [DecidableEq α] [LT α] [DecidableLT α] {as bs : List α}
    (h : as.length = bs.length) : signDiff as bs = 0 ↔ as = bs := by
  induction as generalizing bs with
  | nil =>
    obtain rfl := List.eq_nil_of_length_eq_zero h.symm
    simp [signDiff]
  | cons a as ih =>
    cases bs with
    | nil => simp at h
    | cons b bs =>
      have hlen : as.length = bs.length := by simpa using h
      by_cases hab : a = b
      · simp [signDiff, hab, ih hlen]
      · by_cases hlt : a < b <;> simp [signDiff, hab, hlt]

variable [OfNat α 0] [DecidableEq α]

/-- What is before the first zero is in front, has no zero, and is followed by one. -/
theorem upToZero_eq_some {cs : List (Option α)} {xs : List α} :
    upToZero cs = some xs ↔ 0 ∉ xs ∧ (xs ++ [0]).map some <+: cs := by
  induction cs generalizing xs with
  | nil => simp [upToZero]
  | cons c cs ih =>
    cases c with
    | none => cases xs <;> simp [upToZero]
    | some a =>
      by_cases ha : a = 0
      · subst ha
        cases xs with
        | nil => simp [upToZero]
        | cons x xs =>
          -- the zero in front is the first one
          refine ⟨fun h => by simp [upToZero] at h, fun ⟨hzero, hpre⟩ => ?_⟩
          have hx : x = 0 := by
            simp only [List.cons_append, List.map_cons, List.cons_prefix_cons] at hpre
            exact Option.some.inj hpre.1
          exact absurd (hx ▸ List.mem_cons_self) hzero
      · cases xs with
        | nil => simp [upToZero, ha, eq_comm]
        | cons x xs =>
          simp only [upToZero, if_neg ha, Option.map_eq_some_iff, List.cons.injEq, ih,
            List.cons_append, List.map_cons, List.cons_prefix_cons, Option.some.injEq,
            List.mem_cons, not_or]
          constructor
          · rintro ⟨_, ⟨hzero, hpre⟩, rfl, rfl⟩
            exact ⟨⟨Ne.symm ha, hzero⟩, rfl, hpre⟩
          · rintro ⟨⟨-, hzero⟩, rfl, hpre⟩
            exact ⟨xs, ⟨hzero, hpre⟩, rfl, rfl⟩

end Cells

variable {α : Type}

/-! ## Operations -/

/-- The object of that number. -/
def obj (m : Objects α) (i : ℕ) : Option (Obj α) := m.objs[i]?.join

/-- The object of that number is now `o`. -/
def put (m : Objects α) (i : ℕ) (o : Option (Obj α)) : Objects α := ⟨m.objs.set i o⟩

/-- A new object, and the pointer to it. -/
def add (m : Objects α) (o : Obj α) : Objects α × Ptr := (⟨m.objs ++ [some o]⟩, ⟨m.objs.length, 0⟩)

/-- `malloc(n)` when there is memory. -/
abbrev malloc (m : Objects α) (n : ℕ) : Objects α × Ptr := m.add ⟨true, List.replicate n none⟩

/-- Where `free` is allowed: the start of an allocation that was not freed. -/
def Freeable (m : Objects α) (p : Ptr) : Prop :=
  p.off = 0 ∧ ∃ o ∈ m.obj p.obj, o.heap = true

instance (m : Objects α) (p : Ptr) : Decidable (m.Freeable p) :=
  inferInstanceAs (Decidable (_ ∧ ∃ _ ∈ m.obj p.obj, _))

/-- `free(p)`. -/
def free (m : Objects α) (p : Ptr) : Option (Objects α) := do
  let o ← m.obj p.obj
  if p.off = 0 ∧ o.heap = true then some (m.put p.obj none) else none

/-- The cells from `p` to the end of its object. -/
def rest (m : Objects α) (p : Ptr) : Option (List (Option α)) := do
  let o ← m.obj p.obj
  if p.off ≤ o.cells.length then some (o.cells.drop p.off) else none

/-- The `n` cells at `p`. -/
def read (m : Objects α) (p : Ptr) (n : ℕ) : Option (List (Option α)) := do
  let cs ← m.rest p
  if n ≤ cs.length then some (cs.take n) else none

/-- The `n` values at `p`. -/
def values (m : Objects α) (p : Ptr) (n : ℕ) : Option (List α) := (m.read p n).bind written

/-- `*p`. -/
def load (m : Objects α) (p : Ptr) : Option α := do
  let o ← m.obj p.obj
  o.cells[p.off]?.join

/-- `*p = a`. -/
def store (m : Objects α) (p : Ptr) (a : α) : Option (Objects α) := do
  let o ← m.obj p.obj
  if p.off < o.cells.length then
    some (m.put p.obj (some { o with cells := o.cells.set p.off (some a) }))
  else none

/-- The cells at `p` are now `cs`. -/
def write (m : Objects α) (p : Ptr) (cs : List (Option α)) : Option (Objects α) := do
  let o ← m.obj p.obj
  if p.off + cs.length ≤ o.cells.length then
    some (m.put p.obj (some { o with
      cells := o.cells.take p.off ++ cs ++ o.cells.drop (p.off + cs.length) }))
  else none

/-- `memcpy(dst, src, n)`. -/
def memcpy (m : Objects α) (dst src : Ptr) (n : ℕ) : Option (Objects α) := do
  let cs ← m.read src n
  m.write dst cs

/-- `memcmp(p, q, n)`. -/
def memcmp [DecidableEq α] [LT α] [DecidableLT α] (m : Objects α) (p q : Ptr) (n : ℕ) :
    Option ℤ := do
  let as ← m.values p n
  let bs ← m.values q n
  return signDiff as bs

section Strings

variable [OfNat α 0] [DecidableEq α]

/-- The string at `p`, without its terminator. -/
def str (m : Objects α) (p : Ptr) : Option (List α) := (m.rest p).bind upToZero

/-- `strlen(p)`. It reads one cell more, the terminator. -/
def strlen (m : Objects α) (p : Ptr) : Option ℕ := (m.str p).map List.length

/-- `strdup(p)`: what it returns, and how many cells it read from `p` on. -/
def strdup (m : Objects α) (p : Ptr) (mallocOk : Bool) :
    Option (Objects α × Option Ptr × ℕ) := do
  let n ← m.strlen p
  if mallocOk then
    let (m, q) := m.malloc (n + 1)
    let m ← m.memcpy q p (n + 1)
    return (m, some q, n + 1)
  else return (m, none, n + 1)

end Strings

/-- `p` is from `malloc` and not freed, and there is room for `n` cells. -/
def Owns (m : Objects α) (p : Option Ptr) (n : ℕ) : Prop :=
  ∃ q ∈ p, q.off = 0 ∧ ∃ o ∈ m.obj q.obj, o.heap = true ∧ n ≤ o.cells.length

instance (m : Objects α) (p : Option Ptr) (n : ℕ) : Decidable (m.Owns p n) :=
  inferInstanceAs (Decidable (∃ q ∈ p, _ ∧ ∃ _ ∈ m.obj q.obj, _))

/-! ## What they leave -/

variable {m m' : Objects α} {p q : Ptr} {i n : ℕ} {o : Obj α} {cs : List (Option α)} {xs : List α}

theorem lt_of_obj (h : m.obj i = some o) : i < m.objs.length := by
  by_contra hlt
  simp [obj, List.getElem?_eq_none (Nat.le_of_not_lt hlt)] at h

/-- An object that is there is not one that is gone, or not there yet. -/
theorem ne_of_obj {j : ℕ} (h : m.obj i = none) (h' : m.obj j = some o) : i ≠ j := by
  rintro rfl
  simp [h] at h'

@[simp] theorem obj_put_self (h : m.obj i = some o) (o' : Option (Obj α)) :
    (m.put i o').obj i = o' := by
  simp [obj, put, List.getElem?_set_self (lt_of_obj h)]

@[simp] theorem obj_put_of_ne {j : ℕ} (h : i ≠ j) (o' : Option (Obj α)) :
    (m.put i o').obj j = m.obj j := by
  simp [obj, put, List.getElem?_set_ne h]

@[simp] theorem off_add : (m.add o).2.off = 0 := rfl

/-- A new object is at no pointer there was. -/
theorem obj_add_fresh : m.obj (m.add o).2.obj = none := by
  simp [obj, add]

@[simp] theorem obj_add_self : (m.add o).1.obj (m.add o).2.obj = some o := by
  simp [obj, add]

/-- All other objects are kept. -/
theorem obj_add_of_ne {j : ℕ} (h : (m.add o).2.obj ≠ j) : (m.add o).1.obj j = m.obj j := by
  rcases Nat.lt_or_ge j m.objs.length with hlt | hge
  · simp only [obj, add, List.getElem?_append_left hlt]
  · have hlen : (m.objs ++ [some o]).length ≤ j := by
      simp only [add] at h
      simp only [List.length_append, List.length_singleton]
      omega
    simp only [obj, add, List.getElem?_eq_none hge, List.getElem?_eq_none hlen]

theorem ne_add {o' : Obj α} (h : m.obj i = some o') : (m.add o).2.obj ≠ i :=
  ne_of_obj obj_add_fresh h

/-- Where `free` is allowed, it takes the object away and keeps all others. -/
theorem free_spec (h : m.free p = some m') :
    m.Freeable p ∧ m'.obj p.obj = none ∧ ∀ j, p.obj ≠ j → m'.obj j = m.obj j := by
  obtain ⟨o, ho, hfree⟩ := Option.bind_eq_some_iff.mp h
  split at hfree
  · rename_i hcond
    obtain rfl := Option.some.inj hfree
    exact ⟨⟨hcond.1, o, ho, hcond.2⟩, obj_put_self ho none, fun j hj => obj_put_of_ne hj none⟩
  · cases hfree

theorem free_of_freeable (h : m.Freeable p) : ∃ m', m.free p = some m' := by
  obtain ⟨hoff, o, ho, hheap⟩ := h
  exact ⟨m.put p.obj none, by simp [free, Option.mem_def.mp ho, hoff, hheap]⟩

/-- A write changes its cells and keeps all other objects. -/
theorem write_spec (h : m.write p cs = some m') :
    ∃ o, m.obj p.obj = some o ∧ p.off + cs.length ≤ o.cells.length ∧
      m'.obj p.obj = some { o with
        cells := o.cells.take p.off ++ cs ++ o.cells.drop (p.off + cs.length) } ∧
      ∀ j, p.obj ≠ j → m'.obj j = m.obj j := by
  obtain ⟨o, ho, hwrite⟩ := Option.bind_eq_some_iff.mp h
  split at hwrite
  · rename_i hlen
    obtain rfl := Option.some.inj hwrite
    exact ⟨o, ho, hlen, obj_put_self ho _, fun j hj => obj_put_of_ne hj _⟩
  · cases hwrite

theorem write_of_le (h : m.obj p.obj = some o) (hlen : p.off + cs.length ≤ o.cells.length) :
    ∃ m', m.write p cs = some m' := by
  refine Option.isSome_iff_exists.mp ?_
  simp [write, h, hlen]

/-- A store changes one cell and keeps all other objects. -/
theorem store_spec {a : α} (h : m.store p a = some m') :
    ∃ o, m.obj p.obj = some o ∧ p.off < o.cells.length ∧
      m'.obj p.obj = some { o with cells := o.cells.set p.off (some a) } ∧
      ∀ j, p.obj ≠ j → m'.obj j = m.obj j := by
  obtain ⟨o, ho, hstore⟩ := Option.bind_eq_some_iff.mp h
  split at hstore
  · rename_i hlt
    obtain rfl := Option.some.inj hstore
    exact ⟨o, ho, hlt, obj_put_self ho _, fun j hj => obj_put_of_ne hj _⟩
  · cases hstore

theorem rest_eq_some :
    m.rest p = some cs ↔ ∃ o, m.obj p.obj = some o ∧ p.off ≤ o.cells.length ∧
      o.cells.drop p.off = cs := by
  simp only [rest, Option.bind_eq_bind, Option.bind_eq_some_iff, Option.ite_none_right_eq_some,
    Option.some.injEq]

/-- What a pointer reaches depends on its object only. -/
theorem rest_congr (h : m'.obj p.obj = m.obj p.obj) : m'.rest p = m.rest p := by
  simp only [rest, h]

theorem read_eq_some {cs' : List (Option α)} :
    m.read p n = some cs' ↔ ∃ cs, m.rest p = some cs ∧ n ≤ cs.length ∧ cs.take n = cs' := by
  simp only [read, Option.bind_eq_bind, Option.bind_eq_some_iff, Option.ite_none_right_eq_some,
    Option.some.injEq]

theorem read_congr (h : m'.obj p.obj = m.obj p.obj) : m'.read p n = m.read p n := by
  simp only [read, rest_congr h]

theorem length_of_read (h : m.read p n = some cs) : cs.length = n := by
  obtain ⟨cs', -, hle, rfl⟩ := read_eq_some.mp h
  exact List.length_take_of_le hle

theorem values_congr (h : m'.obj p.obj = m.obj p.obj) : m'.values p n = m.values p n := by
  simp only [values, read_congr h]

theorem load_congr (h : m'.obj p.obj = m.obj p.obj) : m'.load p = m.load p := by
  simp only [load, h]

theorem load_eq_some {a : α} :
    m.load p = some a ↔ ∃ o, m.obj p.obj = some o ∧ o.cells[p.off]? = some (some a) := by
  simp only [load, Option.bind_eq_bind, Option.bind_eq_some_iff, Option.join_eq_some_iff]

theorem store_of_lt {a : α} (h : m.obj p.obj = some o) (hlt : p.off < o.cells.length) :
    ∃ m', m.store p a = some m' :=
  Option.isSome_iff_exists.mp (by simp [store, h, hlt])

/-- What was loaded can be stored over. -/
theorem store_of_load {a b : α} (h : m.load p = some a) : ∃ m', m.store p b = some m' := by
  obtain ⟨o, ho, hcell⟩ := load_eq_some.mp h
  obtain ⟨hlt, -⟩ := List.getElem?_eq_some_iff.mp hcell
  exact store_of_lt ho hlt

theorem load_store {a : α} (h : m.store p a = some m') : m'.load p = some a := by
  obtain ⟨o, -, hlt, hself, -⟩ := store_spec h
  exact load_eq_some.mpr ⟨_, hself, List.getElem?_set_self hlt⟩

theorem load_store_of_ne {a : α} (h : m.store p a = some m') (hne : p ≠ q) :
    m'.load q = m.load q := by
  obtain ⟨o, ho, -, hself, hother⟩ := store_spec h
  by_cases hobj : p.obj = q.obj
  · have hoff : p.off ≠ q.off := fun hoff => hne (by cases p; cases q; simp_all)
    simp only [load, ← hobj, ho, hself, Option.bind_eq_bind, Option.bind_some,
      List.getElem?_set_ne hoff]
  · exact load_congr (hother q.obj hobj)

/-- New memory has no values. -/
theorem load_malloc : (m.malloc n).1.load q = m.load q := by
  by_cases hobj : (m.malloc n).2.obj = q.obj
  · have hnone : m.obj q.obj = none := hobj ▸ obj_add_fresh
    have hself : (m.malloc n).1.obj q.obj = some ⟨true, List.replicate n none⟩ :=
      hobj ▸ obj_add_self
    simp only [load, hself, hnone, Option.bind_eq_bind, Option.bind_some, Option.bind_none,
      List.getElem?_replicate]
    split <;> rfl
  · exact load_congr (obj_add_of_ne hobj)

/-- **A new object of one cell** with `a` in it. -/
theorem store_malloc (m : Objects α) (a : α) :
    ∃ m', (m.malloc 1).1.store (m.malloc 1).2 a = some m' ∧ m'.load (m.malloc 1).2 = some a ∧
      ∀ q, (m.malloc 1).2 ≠ q → m'.load q = m.load q := by
  obtain ⟨m', hm'⟩ : ∃ m', (m.malloc 1).1.store (m.malloc 1).2 a = some m' :=
    store_of_lt obj_add_self (by simp)
  exact ⟨m', hm', load_store hm', fun q hq => (load_store_of_ne hm' hq).trans load_malloc⟩

/-- Memory that is freed at once leaves all values. -/
theorem load_free_malloc (h : (m.malloc n).1.free (m.malloc n).2 = some m') :
    m'.load q = m.load q := by
  obtain ⟨-, hnone, hother⟩ := free_spec h
  by_cases hobj : (m.malloc n).2.obj = q.obj
  · have hfresh : m.obj q.obj = none := hobj ▸ obj_add_fresh
    exact load_congr ((hobj ▸ hnone).trans hfresh.symm)
  · exact (load_congr (hother q.obj hobj)).trans load_malloc

/-- The object of what can be read. -/
theorem obj_of_rest (h : m.rest p = some cs) : ∃ o, m.obj p.obj = some o := by
  obtain ⟨o, ho, -, -⟩ := rest_eq_some.mp h
  exact ⟨o, ho⟩

theorem obj_of_load {a : α} (h : m.load p = some a) : ∃ o, m.obj p.obj = some o := by
  obtain ⟨o, ho, -⟩ := Option.bind_eq_some_iff.mp h
  exact ⟨o, ho⟩

/-- The values at `p` are `xs`. -/
theorem values_eq_some :
    m.values p n = some xs ↔ xs.length = n ∧ ∃ cs, m.rest p = some cs ∧ xs.map some <+: cs := by
  simp only [values, Option.bind_eq_some_iff, written_eq_some, read_eq_some]
  constructor
  · rintro ⟨_, ⟨cs, hrest, hle, rfl⟩, htake⟩
    have hlen : xs.length = n := by
      have hmap : (cs.take n).length = (xs.map some).length := congrArg List.length htake
      rw [List.length_take_of_le hle, List.length_map] at hmap
      exact hmap.symm
    exact ⟨hlen, cs, hrest, htake ▸ List.take_prefix n cs⟩
  · rintro ⟨rfl, cs, hrest, hpre⟩
    have hle : xs.length ≤ cs.length := by simpa using hpre.length_le
    refine ⟨_, ⟨cs, hrest, hle, rfl⟩, ?_⟩
    have htake : xs.map some = cs.take (xs.map some).length := List.prefix_iff_eq_take.mp hpre
    rw [htake, List.length_map]

theorem values_take {k : ℕ} (h : m.values p n = some xs) (hk : k ≤ n) :
    m.values p k = some (xs.take k) := by
  obtain ⟨rfl, cs, hrest, hpre⟩ := values_eq_some.mp h
  refine values_eq_some.mpr ⟨List.length_take_of_le hk, cs, hrest, ?_⟩
  exact (List.map_take ▸ List.take_prefix k (xs.map some)).trans hpre

/-- Values are inside an object. -/
theorem le_of_values (h : m.values p n = some xs) (ho : m.obj p.obj = some o) :
    p.off + n ≤ o.cells.length := by
  obtain ⟨rfl, cs, hrest, hpre⟩ := values_eq_some.mp h
  obtain ⟨o', ho', hle, rfl⟩ := rest_eq_some.mp hrest
  obtain rfl := Option.some.inj (ho.symm.trans ho')
  have hlen : (xs.map some).length ≤ (o.cells.drop p.off).length := hpre.length_le
  simp only [List.length_map, List.length_drop] at hlen
  omega

/-- The values of a written object. -/
theorem values_of_obj {heap : Bool} (h : m.obj p.obj = some ⟨heap, xs.map some⟩)
    (hoff : p.off = 0) : m.values p xs.length = some xs := by
  refine values_eq_some.mpr ⟨rfl, xs.map some, rest_eq_some.mpr ⟨_, h, ?_, ?_⟩, List.prefix_rfl⟩
  · simp [hoff]
  · simp [hoff]

/-- `memcmp` is `0` where the values are the same. -/
theorem memcmp_eq_zero [DecidableEq α] [LT α] [DecidableLT α] :
    m.memcmp p q n = some 0 ↔ ∃ xs, m.values p n = some xs ∧ m.values q n = some xs := by
  simp only [memcmp, Option.bind_eq_bind, Option.bind_eq_some_iff, Option.pure_def,
    Option.some.injEq]
  constructor
  · rintro ⟨as, has, bs, hbs, hdiff⟩
    have hlen : as.length = bs.length :=
      (values_eq_some.mp has).1.trans (values_eq_some.mp hbs).1.symm
    exact ⟨as, has, (signDiff_eq_zero hlen).mp hdiff ▸ hbs⟩
  · rintro ⟨xs, hp, hq⟩
    exact ⟨xs, hp, xs, hq, (signDiff_eq_zero rfl).mpr rfl⟩

/-- A copy keeps all other objects. -/
theorem memcpy_spec (h : m.memcpy p q n = some m') :
    ∃ cs, m.read q n = some cs ∧ m.write p cs = some m' ∧ ∀ j, p.obj ≠ j → m'.obj j = m.obj j := by
  obtain ⟨cs, hread, hwrite⟩ := Option.bind_eq_some_iff.mp h
  obtain ⟨_, -, -, -, hother⟩ := write_spec hwrite
  exact ⟨cs, hread, hwrite, hother⟩

/-- **A copy into new memory** of `k` cells. -/
theorem memcpy_malloc_spec {k : ℕ} (h : (m.malloc k).1.memcpy (m.malloc k).2 p n = some m') :
    ∃ cs, (m.malloc k).1.read p n = some cs ∧ cs.length = n ∧
      m'.obj (m.malloc k).2.obj = some ⟨true, cs ++ List.replicate (k - n) none⟩ ∧
      ∀ j, (m.malloc k).2.obj ≠ j → m'.obj j = m.obj j := by
  obtain ⟨cs, hread, hwrite, hother⟩ := memcpy_spec h
  have hlen : cs.length = n := length_of_read hread
  obtain ⟨_, hself, -, hwritten, -⟩ := write_spec hwrite
  obtain rfl := Option.some.inj (obj_add_self.symm.trans hself)
  refine ⟨cs, hread, hlen, ?_, fun j hj => (hother j hj).trans (obj_add_of_ne hj)⟩
  rw [hwritten]
  simp [hlen]

/-- It is defined where there is something to copy, and room for it. -/
theorem memcpy_malloc {k : ℕ} (h : m.read p n = some cs) (hk : n ≤ k) :
    ∃ m', (m.malloc k).1.memcpy (m.malloc k).2 p n = some m' ∧
      m'.obj (m.malloc k).2.obj = some ⟨true, cs ++ List.replicate (k - n) none⟩ ∧
      ∀ j, (m.malloc k).2.obj ≠ j → m'.obj j = m.obj j := by
  have hlen : cs.length = n := length_of_read h
  obtain ⟨cs', hrest, -, -⟩ := read_eq_some.mp h
  obtain ⟨o, ho⟩ := obj_of_rest hrest
  have hread : (m.malloc k).1.read p n = some cs :=
    (read_congr (obj_add_of_ne (ne_add ho))).trans h
  obtain ⟨m', hm'⟩ : ∃ m', (m.malloc k).1.write (m.malloc k).2 cs = some m' :=
    write_of_le obj_add_self (by simp [hlen, hk])
  have hcpy : (m.malloc k).1.memcpy (m.malloc k).2 p n = some m' := by simp [memcpy, hread, hm']
  obtain ⟨cs'', hread', -, hself, hother⟩ := memcpy_malloc_spec hcpy
  obtain rfl := Option.some.inj (hread.symm.trans hread')
  exact ⟨m', hcpy, hself, hother⟩

/-! ## Owning -/

/-- Whoever changes neither kind nor length of an object leaves it to its owner. -/
theorem Owns.keep {p : Option Ptr} (h : m.Owns p n)
    (hkeep : ∀ q ∈ p, ∀ o ∈ m.obj q.obj, ∃ o' ∈ m'.obj q.obj, o'.heap = o.heap ∧
      o'.cells.length = o.cells.length) : m'.Owns p n := by
  obtain ⟨q, hq, hoff, o, ho, hheap, hlen⟩ := h
  obtain ⟨o', ho', hheap', hlen'⟩ := hkeep q hq o ho
  exact ⟨q, hq, hoff, o', ho', hheap'.trans hheap, hlen'.symm ▸ hlen⟩

theorem Owns.congr {p : Option Ptr} (h : m.Owns p n)
    (hobj : ∀ q ∈ p, ∀ o ∈ m.obj q.obj, m'.obj q.obj = some o) : m'.Owns p n :=
  h.keep fun q hq o ho => ⟨o, hobj q hq o ho, rfl, rfl⟩

theorem Owns.freeable {p : Option Ptr} (h : m.Owns p n) : ∀ q ∈ p, m.Freeable q := by
  obtain ⟨q, hq, hoff, o, ho, hheap, -⟩ := h
  intro q' hq'
  obtain rfl := Option.mem_unique hq hq'
  exact ⟨hoff, o, ho, hheap⟩

theorem Owns.add {p : Option Ptr} (h : m.Owns p n) : (m.add o).1.Owns p n :=
  h.congr fun _ _ _ ho => (obj_add_of_ne (ne_add ho)).trans ho

theorem Owns.store {p : Option Ptr} {a : α} (h : m.Owns p n) (hstore : m.store q a = some m') :
    m'.Owns p n := by
  obtain ⟨o, ho, -, hself, hother⟩ := store_spec hstore
  refine h.keep fun q' _ o' ho' => ?_
  by_cases hobj : q.obj = q'.obj
  · obtain rfl := Option.some.inj (ho.symm.trans ((congrArg m.obj hobj).trans ho'))
    refine ⟨{ o with cells := o.cells.set q.off (some a) }, ?_, rfl, List.length_set⟩
    rw [← hobj]
    exact hself
  · exact ⟨o', (hother q'.obj hobj).trans ho', rfl, rfl⟩

section Strings

variable [OfNat α 0] [DecidableEq α]

theorem str_congr (h : m'.obj p.obj = m.obj p.obj) : m'.str p = m.str p := by
  simp only [str, rest_congr h]

theorem obj_of_str (h : m.str p = some xs) : ∃ o, m.obj p.obj = some o := by
  obtain ⟨cs, hrest, -⟩ := Option.bind_eq_some_iff.mp h
  exact obj_of_rest hrest

/-- The string at `p` is `xs`. -/
theorem str_eq_some :
    m.str p = some xs ↔ 0 ∉ xs ∧ m.values p (xs.length + 1) = some (xs ++ [0]) := by
  simp only [str, Option.bind_eq_some_iff, upToZero_eq_some, values_eq_some, List.length_append,
    List.length_singleton, true_and]
  constructor
  · rintro ⟨cs, hrest, hzero, hpre⟩
    exact ⟨hzero, cs, hrest, hpre⟩
  · rintro ⟨hzero, cs, hrest, hpre⟩
    exact ⟨cs, hrest, hzero, hpre⟩

/-- **A copy of a string**: as long as the string with its terminator, which are read. -/
theorem strdup_spec (h : m.str p = some xs) :
    ∃ m' q, m.strdup p true = some (m', some q, xs.length + 1) ∧ q.off = 0 ∧ m.obj q.obj = none ∧
      m'.obj q.obj = some ⟨true, (xs ++ [0]).map some⟩ ∧
      ∀ j, q.obj ≠ j → m'.obj j = m.obj j := by
  obtain ⟨cs, hread, hwritten⟩ := Option.bind_eq_some_iff.mp (str_eq_some.mp h).2
  obtain rfl := written_eq_some.mp hwritten
  obtain ⟨m', hm', hself, hother⟩ := memcpy_malloc hread (Nat.le_refl _)
  rw [Nat.sub_self, List.replicate_zero, List.append_nil] at hself
  refine ⟨m', (m.malloc (xs.length + 1)).2, ?_, rfl, obj_add_fresh, hself, hother⟩
  simp [strdup, strlen, h, hm']

theorem strdup_false (h : m.str p = some xs) :
    m.strdup p false = some (m, none, xs.length + 1) := by
  simp [strdup, strlen, h]

/-- Nothing is copied where there is no string. -/
theorem strdup_eq_none {ok : Bool} (h : m.str p = none) : m.strdup p ok = none := by
  simp [strdup, strlen, h]

end Strings

end Objects

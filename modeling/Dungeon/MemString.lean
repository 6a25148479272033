import Dungeon.Lib.Machine
import Dungeon.Lib.Objects

/-!
# Counted strings (`ds_memvec.c`, `ds_string.c`)

A string is a record of a pointer and a size; the bytes need no terminator and may have zeros.

- `MemVec`, `Strings`: the records, and the memory of the bytes beside the memory of the records.
- `memvecNew`, `memvecDup`, `stringFromc`, `stringCpy` and so on: the functions; `none` is
  undefined behaviour. Whether `malloc` has memory is an argument.
- `Op`, `program`: what a program does with strings, and its runs.
- `stringCpy_spec`, `Copied`: `string_cpy` copies what is before the first zero and takes over the
  size.
- `EqualCopy`, `CopiesEqual`: what it is for. `CanCopy`: where it does that.
  `string_cpy_copies_iff`: the two are the same. `memvecDup_equal`: `memvec_dup` does it always.
- `nonEmpty_of_reach`, `owned_of_careful`: what holds of all strings of a program.
-/

namespace Dungeon

/-- `memvec_t`, which is `string_t` too. -/
structure MemVec where
  ptr : Option Ptr
  size : ℕ
deriving DecidableEq

/-- The bytes, and the records. -/
structure Strings where
  bytes : Objects UInt8
  vecs : Objects MemVec
deriving DecidableEq

namespace Strings

/-- `if (p) free(p)`. -/
def freeNonNull (m : Objects UInt8) : Option Ptr → Option (Objects UInt8)
  | some p => m.free p
  | none => some m

/-! ## `ds_memvec.c` -/

/-- `memvec_new`. -/
def memvecNew (s : Strings) (src : Option Ptr) (size : ℕ) (mallocOk : Bool) :
    Option (Strings × Option Ptr) :=
  if size ≤ 0 then some (s, none)
  else if mallocOk then do
    let (vecs, mv) := s.vecs.malloc 1
    let vecs ← vecs.store mv ⟨src, size⟩
    return ({ s with vecs := vecs }, some mv)
  else some (s, none)

/-- `memvec_delete`. -/
def memvecDelete (s : Strings) : Option Ptr → Option (Strings × ℤ)
  | some mv => do
    let v ← s.vecs.load mv
    let bytes ← freeNonNull s.bytes v.ptr
    let vecs ← s.vecs.store mv { v with ptr := none }
    let vecs ← vecs.free mv
    return (⟨bytes, vecs⟩, 0)
  | none => some (s, -1)

/-- `memvec_cmp`. -/
def memvecCmp (s : Strings) (mv1 mv2 : Ptr) : Option ℤ := do
  let v1 ← s.vecs.load mv1
  let v2 ← s.vecs.load mv2
  return if v1.size = v2.size ∧ v1.ptr = v2.ptr then 0 else -1

/-- `memvec_cmp_content`. -/
def memvecCmpContent (s : Strings) (mv1 mv2 : Ptr) : Option ℤ := do
  let v1 ← s.vecs.load mv1
  let v2 ← s.vecs.load mv2
  if v1.size = v2.size then
    let p1 ← v1.ptr
    let p2 ← v2.ptr
    s.bytes.memcmp p1 p2 v1.size
  else return if v1.size > v2.size then 1 else -1

/-- `memvec_dup`, with the answers to the allocation of the record and of the content. -/
def memvecDup (s : Strings) (src : Ptr) (recordOk contentOk : Bool) :
    Option (Strings × Option Ptr) :=
  if recordOk then do
    let (vecs, mv) := s.vecs.malloc 1
    let v ← vecs.load src
    if contentOk then
      let (bytes, p) := s.bytes.malloc v.size
      let q ← v.ptr
      let bytes ← bytes.memcpy p q v.size
      let vecs ← vecs.store mv ⟨some p, v.size⟩
      return (⟨bytes, vecs⟩, some mv)
    else
      let vecs ← vecs.free mv
      return ({ s with vecs := vecs }, none)
  else some (s, none)

/-- `memvec_serialize`: the content with a zero behind it. -/
def memvecSerialize (s : Strings) (mv : Ptr) (mallocOk : Bool) :
    Option (Strings × Option Ptr) := do
  let v ← s.vecs.load mv
  if mallocOk then
    let (bytes, tmp) := s.bytes.malloc (v.size + 1)
    let q ← v.ptr
    let bytes ← bytes.memcpy tmp q v.size
    let bytes ← bytes.store { tmp with off := v.size } 0
    return ({ s with bytes := bytes }, some tmp)
  else return (s, none)

/-! ## `ds_string.c` -/

/-- `string_fromc`. -/
def stringFromc (s : Strings) (str : Ptr) (mallocOk : Bool) : Option (Strings × Option Ptr) := do
  let n ← s.bytes.strlen str
  s.memvecNew (some str) n mallocOk

/-- `string_toc`. -/
def stringToc : Strings → Ptr → Bool → Option (Strings × Option Ptr) := memvecSerialize

/-- `string_cmp`. -/
def stringCmp : Strings → Ptr → Ptr → Option ℤ := memvecCmpContent

/-- `string_delete`. -/
def stringDelete : Strings → Option Ptr → Option (Strings × ℤ) := memvecDelete

/-- `string_cpy`: what it leaves, its return value, and how many bytes it read of `src`. -/
def stringCpy (s : Strings) (dest src : Ptr) (mallocOk : Bool) : Option (Strings × ℤ × ℕ) := do
  let d ← s.vecs.load dest
  let bytes ← freeNonNull s.bytes d.ptr
  let v ← s.vecs.load src
  let p ← v.ptr
  let (bytes, q, reads) ← bytes.strdup p mallocOk
  let vecs ← s.vecs.store dest { d with ptr := q }
  -- `src->size` is read after `dest->ptr` was set
  let v ← vecs.load src
  let vecs ← vecs.store dest ⟨q, v.size⟩
  return (⟨bytes, vecs⟩, 0, reads)

/-! ## Strings in a program -/

/-- What a program does with strings. `place` is for data of its own, `poke` for a byte that it
changes. -/
inductive Op where
  | place (o : Obj UInt8)
  | poke (p : Ptr) (b : UInt8)
  | memvecNew (src : Option Ptr) (size : ℕ) (mallocOk : Bool)
  | stringFromc (str : Ptr) (mallocOk : Bool)
  | memvecDup (src : Ptr) (recordOk contentOk : Bool)
  | stringToc (mv : Ptr) (mallocOk : Bool)
  | stringCpy (dest src : Ptr) (mallocOk : Bool)
  | stringDelete (mv : Option Ptr)

/-- One of them. -/
def step (s : Strings) : Op → Option Strings
  | .place o => some { s with bytes := (s.bytes.add o).1 }
  | .poke p b => (s.bytes.store p b).map fun bytes => { s with bytes := bytes }
  | .memvecNew src size ok => (s.memvecNew src size ok).map Prod.fst
  | .stringFromc str ok => (s.stringFromc str ok).map Prod.fst
  | .memvecDup src recordOk contentOk => (s.memvecDup src recordOk contentOk).map Prod.fst
  | .stringToc mv ok => (s.stringToc mv ok).map Prod.fst
  | .stringCpy dest src ok => (s.stringCpy dest src ok).map Prod.fst
  | .stringDelete mv => (s.stringDelete mv).map Prod.fst

/-- All runs of a program from an empty memory. -/
def program : Machine Strings Op where
  init s := s = ⟨⟨[]⟩, ⟨[]⟩⟩
  step := step

/-- A program that has made a string from `"x"`, and one of `size` of the bytes `xs`. -/
def twoStrings (xs : List UInt8) (size : ℕ) : Option Strings :=
  program.exec Machine.Always ⟨⟨[]⟩, ⟨[]⟩⟩
    [.place ⟨true, [some 120, some 0]⟩, .place ⟨true, xs.map some⟩, .stringFromc ⟨0, 0⟩ true,
      .memvecNew (some ⟨1, 0⟩) size true]

/-- Records of the same bytes have the same content. -/
theorem memvecCmpContent_of_memvecCmp {s : Strings} {mv1 mv2 p : Ptr} {v : MemVec}
    {xs : List UInt8} (h : s.memvecCmp mv1 mv2 = some 0) (hv : s.vecs.load mv1 = some v)
    (hp : v.ptr = some p) (hvals : s.bytes.values p v.size = some xs) :
    s.memvecCmpContent mv1 mv2 = some 0 := by
  simp only [memvecCmp, hv, Option.bind_eq_bind, Option.bind_some, Option.bind_eq_some_iff,
    Option.pure_def, Option.some.injEq] at h
  obtain ⟨v2, hv2, hcmp⟩ := h
  split at hcmp
  · rename_i heq
    simp only [memvecCmpContent, hv, hv2, ← heq.1, ← heq.2, hp, Option.bind_eq_bind,
      Option.bind_some, if_true]
    exact Objects.memcmp_eq_zero.mpr ⟨xs, hvals, hvals⟩
  · exact absurd hcmp (by decide)

/-! ## What `string_cpy` leaves -/

/-- The content of a string. -/
def content (s : Strings) (mv : Ptr) : Option (List (Option UInt8)) := do
  let v ← s.vecs.load mv
  let p ← v.ptr
  s.bytes.read p v.size

/-- The string at `dest` is an equal copy of the one at `src`, of which only the content was read
and which is as before. -/
structure EqualCopy (s s' : Strings) (dest src : Ptr) (reads : ℕ) : Prop where
  reads : ∃ v ∈ s.vecs.load src, reads ≤ v.size
  owns : ∃ d ∈ s'.vecs.load dest, s'.bytes.Owns d.ptr d.size
  cmp : s'.stringCmp dest src = some 0
  src_vec : s'.vecs.load src = s.vecs.load src
  src_content : s'.content src = s.content src

instance (s s' : Strings) (dest src : Ptr) (reads : ℕ) :
    Decidable (EqualCopy s s' dest src reads) :=
  decidable_of_iff
    ((∃ v ∈ s.vecs.load src, reads ≤ v.size) ∧
      (∃ d ∈ s'.vecs.load dest, s'.bytes.Owns d.ptr d.size) ∧ s'.stringCmp dest src = some 0 ∧
      s'.vecs.load src = s.vecs.load src ∧ s'.content src = s.content src)
    ⟨fun ⟨h₁, h₂, h₃, h₄, h₅⟩ => ⟨h₁, h₂, h₃, h₄, h₅⟩,
      fun ⟨h₁, h₂, h₃, h₄, h₅⟩ => ⟨h₁, h₂, h₃, h₄, h₅⟩⟩

/-- `string_cpy` is defined and makes an equal copy. -/
def CopiesEqual (s : Strings) (dest src : Ptr) (mallocOk : Bool) : Prop :=
  ∃ r ∈ s.stringCpy dest src mallocOk, r.2.1 = 0 ∧ EqualCopy s r.1 dest src r.2.2

instance (s : Strings) (dest src : Ptr) (mallocOk : Bool) :
    Decidable (s.CopiesEqual dest src mallocOk) :=
  inferInstanceAs (Decidable (∃ _ ∈ s.stringCpy dest src mallocOk, _))

/-- The bytes of `d` can be freed without those of `v`, and those of `v` end in their only
zero. -/
structure CanCopy (m : Objects UInt8) (d v : MemVec) (mallocOk : Bool) : Prop where
  memory : mallocOk = true
  freeable : ∀ p ∈ d.ptr, m.Freeable p
  apart : ∀ p ∈ d.ptr, ∀ q ∈ v.ptr, p.obj ≠ q.obj
  terminated : ∃ q ∈ v.ptr, ∃ xs, m.values q v.size = some (xs ++ [0]) ∧ 0 ∉ xs

/-- The record at `mv` is now `v`, and no other one changed. -/
structure Recorded (vecs vecs' : Objects MemVec) (mv : Ptr) (v : MemVec) : Prop where
  self : vecs'.load mv = some v
  other : ∀ w, mv ≠ w → vecs'.load w = vecs.load w

theorem Recorded.cases {vecs vecs' : Objects MemVec} {mv w : Ptr} {v u : MemVec}
    (h : Recorded vecs vecs' mv v) (hw : vecs'.load w = some u) :
    (mv = w ∧ v = u) ∨ (mv ≠ w ∧ vecs.load w = some u) := by
  by_cases hmv : mv = w
  · exact .inl ⟨hmv, Option.some.inj ((hmv ▸ h.self).symm.trans hw)⟩
  · exact .inr ⟨hmv, (h.other w hmv).symm.trans hw⟩

/-- What `string_cpy` leaves when there was memory: `xs` is what is before the first zero. -/
structure Copied (s s' : Strings) (dest : Ptr) (d v : MemVec) (p q : Ptr) (xs : List UInt8) :
    Prop where
  ptr : v.ptr = some p
  str : s.bytes.str p = some xs
  freeable : ∀ p' ∈ d.ptr, s.bytes.Freeable p'
  apart : ∀ p' ∈ d.ptr, p'.obj ≠ p.obj
  off : q.off = 0
  obj : s'.bytes.obj q.obj = some ⟨true, (xs ++ [0]).map some⟩
  others : ∀ j o, (∀ p' ∈ d.ptr, p'.obj ≠ j) → s.bytes.obj j = some o →
    q.obj ≠ j ∧ s'.bytes.obj j = some o
  vecs : Recorded s.vecs s'.vecs dest ⟨some q, v.size⟩

variable {s s' : Strings} {dest src p q : Ptr} {d v : MemVec} {ok : Bool} {xs : List UInt8}

theorem freeNonNull_spec {m m' : Objects UInt8} {p : Option Ptr} (h : freeNonNull m p = some m') :
    (∀ q ∈ p, m.Freeable q ∧ m'.obj q.obj = none) ∧
      ∀ j, (∀ q ∈ p, q.obj ≠ j) → m'.obj j = m.obj j := by
  cases p with
  | none =>
    obtain rfl := Option.some.inj h
    exact ⟨nofun, fun j _ => rfl⟩
  | some p =>
    obtain ⟨hfree, hnone, hother⟩ := Objects.free_spec h
    refine ⟨fun q hq => ?_, fun j hj => hother j (hj p rfl)⟩
    obtain rfl := Option.some.inj hq
    exact ⟨hfree, hnone⟩

theorem freeNonNull_of_freeable {m : Objects UInt8} {p : Option Ptr}
    (h : ∀ q ∈ p, m.Freeable q) : ∃ m', freeNonNull m p = some m' := by
  cases p with
  | none => exact ⟨m, rfl⟩
  | some p => exact Objects.free_of_freeable (h p rfl)

/-- What is freed cannot be read any more. -/
theorem apart_of_obj {m m' : Objects UInt8} {p : Option Ptr} {j : ℕ} {o : Obj UInt8}
    (hfree : freeNonNull m p = some m') (h : m'.obj j = some o) : ∀ q ∈ p, q.obj ≠ j := by
  intro q hq
  exact Objects.ne_of_obj ((freeNonNull_spec hfree).1 q hq).2 h

/-- It looks at both records. -/
theorem loads_of_stringCpy {res : Strings × ℤ × ℕ} (h : s.stringCpy dest src ok = some res) :
    ∃ d v, s.vecs.load dest = some d ∧ s.vecs.load src = some v := by
  obtain ⟨d, hd, hrest⟩ := Option.bind_eq_some_iff.mp h
  obtain ⟨bytes, -, hrest⟩ := Option.bind_eq_some_iff.mp hrest
  obtain ⟨v, hv, -⟩ := Option.bind_eq_some_iff.mp hrest
  exact ⟨d, v, hd, hv⟩

/-- **What `string_cpy` does.** The old bytes are freed first, then what is before the first zero
is copied, and the size is taken over. -/
theorem stringCpy_spec (hd : s.vecs.load dest = some d) (hv : s.vecs.load src = some v)
    (hne : dest ≠ src) {c : ℤ} {n : ℕ} (h : s.stringCpy dest src ok = some (s', c, n)) :
    c = 0 ∧ ∃ bytes q p, freeNonNull s.bytes d.ptr = some bytes ∧ v.ptr = some p ∧
      bytes.strdup p ok = some (s'.bytes, q, n) ∧
      Recorded s.vecs s'.vecs dest ⟨q, v.size⟩ := by
  simp only [stringCpy, hd, hv, Option.bind_eq_bind, Option.bind_some,
    Option.bind_eq_some_iff] at h
  obtain ⟨bytes, hfree, p, hp, ⟨bytes', q, n'⟩, hdup, vecs, hs₁, v', hv', vecs', hs₂, heq⟩ := h
  rw [Objects.load_store_of_ne hs₁ hne, hv] at hv'
  obtain rfl := Option.some.inj hv'
  simp only [Option.pure_def, Option.some.injEq, Prod.mk.injEq] at heq
  obtain ⟨rfl, rfl, rfl⟩ := heq
  refine ⟨rfl, bytes, q, p, hfree, hp, hdup, Objects.load_store hs₂, fun w hw => ?_⟩
  exact (Objects.load_store_of_ne hs₂ hw).trans (Objects.load_store_of_ne hs₁ hw)

/-- It is defined where the old bytes can be freed and there is a string to copy then. -/
theorem stringCpy_defined (hd : s.vecs.load dest = some d) (hv : s.vecs.load src = some v)
    (hne : dest ≠ src) (hp : v.ptr = some p) {bytes bytes' : Objects UInt8} {q : Option Ptr}
    {n : ℕ} (hfree : freeNonNull s.bytes d.ptr = some bytes)
    (hdup : bytes.strdup p ok = some (bytes', q, n)) :
    ∃ s', s.stringCpy dest src ok = some (s', 0, n) := by
  obtain ⟨vecs, hs₁⟩ := Objects.store_of_load (b := { d with ptr := q }) hd
  obtain ⟨vecs', hs₂⟩ := Objects.store_of_load (b := ⟨q, v.size⟩) (Objects.load_store hs₁)
  refine ⟨⟨bytes', vecs'⟩, ?_⟩
  simp [stringCpy, hd, hv, hfree, hp, hdup, hs₁, (Objects.load_store_of_ne hs₁ hne).trans hv, hs₂]

/-- **With memory for the copy**, `string_cpy` copies a string. -/
theorem copied_of_stringCpy (hd : s.vecs.load dest = some d) (hv : s.vecs.load src = some v)
    (hne : dest ≠ src) {c : ℤ} {n : ℕ} (h : s.stringCpy dest src true = some (s', c, n)) :
    ∃ p q xs, Copied s s' dest d v p q xs ∧ n = xs.length + 1 := by
  obtain ⟨-, bytes, q, p, hfree, hp, hdup, hvecs⟩ := stringCpy_spec hd hv hne h
  obtain ⟨hbytes, hkeep⟩ := freeNonNull_spec hfree
  cases hstr : bytes.str p with
  | none => simp [Objects.strdup_eq_none hstr] at hdup
  | some xs =>
    obtain ⟨m', q', hcopy, hoff, hfresh, hobj, hsame⟩ := Objects.strdup_spec hstr
    simp only [hcopy, Option.some.injEq, Prod.mk.injEq] at hdup
    obtain ⟨rfl, rfl, rfl⟩ := hdup
    obtain ⟨o, ho⟩ := Objects.obj_of_str hstr
    have hapart : ∀ p' ∈ d.ptr, p'.obj ≠ p.obj := apart_of_obj hfree ho
    have hothers : ∀ j o, (∀ p' ∈ d.ptr, p'.obj ≠ j) → s.bytes.obj j = some o →
        q'.obj ≠ j ∧ s'.bytes.obj j = some o := by
      intro j o hj hobj
      rw [← hkeep j hj] at hobj
      have hnew : q'.obj ≠ j := Objects.ne_of_obj hfresh hobj
      exact ⟨hnew, (hsame j hnew).trans hobj⟩
    refine ⟨p, q', xs, ?_, rfl⟩
    exact ⟨hp, (Objects.str_congr (hkeep p.obj hapart)).symm.trans hstr,
      fun p' hp' => (hbytes p' hp').1, hapart, hoff, hobj, hothers, hvecs⟩

/-- **The string that `string_cpy` needs.** Where the old bytes are freeable and apart, and there
is a string at `src`, it copies that. -/
theorem exists_copied (hd : s.vecs.load dest = some d) (hv : s.vecs.load src = some v)
    (hne : dest ≠ src) (hfree : ∀ p ∈ d.ptr, s.bytes.Freeable p)
    (hapart : ∀ p' ∈ d.ptr, p'.obj ≠ p.obj) (hp : v.ptr = some p)
    (hstr : s.bytes.str p = some xs) :
    ∃ s' q, s.stringCpy dest src true = some (s', 0, xs.length + 1) ∧
      Copied s s' dest d v p q xs := by
  obtain ⟨bytes, hbytes⟩ := freeNonNull_of_freeable hfree
  have hstr' : bytes.str p = some xs :=
    (Objects.str_congr ((freeNonNull_spec hbytes).2 p.obj hapart)).trans hstr
  obtain ⟨m', q', hcopy, -⟩ := Objects.strdup_spec hstr'
  obtain ⟨s', hs'⟩ := stringCpy_defined hd hv hne hp hbytes hcopy
  obtain ⟨p', q, ys, hcopied, -⟩ := copied_of_stringCpy hd hv hne hs'
  obtain rfl := Option.some.inj (hp.symm.trans hcopied.ptr)
  obtain rfl := Option.some.inj (hstr.symm.trans hcopied.str)
  exact ⟨s', q, hs', hcopied⟩

/-- **Without memory for the copy** nothing is left at `dest`. -/
theorem recorded_of_no_memory (hd : s.vecs.load dest = some d) (hv : s.vecs.load src = some v)
    (hne : dest ≠ src) {c : ℤ} {n : ℕ} (h : s.stringCpy dest src false = some (s', c, n)) :
    Recorded s.vecs s'.vecs dest ⟨none, v.size⟩ := by
  obtain ⟨-, bytes, q, p, -, -, hdup, hvecs⟩ := stringCpy_spec hd hv hne h
  cases hstr : bytes.str p with
  | none => simp [Objects.strdup_eq_none hstr] at hdup
  | some xs =>
    simp only [Objects.strdup_false hstr, Option.some.injEq, Prod.mk.injEq] at hdup
    obtain ⟨-, rfl, -⟩ := hdup
    exact hvecs

/-! ## Copies that are equal -/

/-- The copied bytes are as before. -/
theorem Copied.kept (h : Copied s s' dest d v p q xs) :
    s'.bytes.obj p.obj = s.bytes.obj p.obj := by
  obtain ⟨o, ho⟩ := Objects.obj_of_str h.str
  exact (h.others p.obj o h.apart ho).2.trans ho.symm

theorem Copied.load_src (h : Copied s s' dest d v p q xs) (hne : dest ≠ src) :
    s'.vecs.load src = s.vecs.load src := h.vecs.other src hne

/-- A copy owns the string with its terminator. -/
theorem Copied.owns_iff (h : Copied s s' dest d v p q xs) {n : ℕ} :
    s'.bytes.Owns (some q) n ↔ n ≤ xs.length + 1 := by
  simp [Objects.Owns, h.off, h.obj]

/-- A copy is equal as far as it is long enough. -/
theorem Copied.cmp_iff (h : Copied s s' dest d v p q xs) (hv : s.vecs.load src = some v)
    (hne : dest ≠ src) : s'.stringCmp dest src = some 0 ↔ v.size ≤ xs.length + 1 := by
  have hcmp : s'.stringCmp dest src = s'.bytes.memcmp q p v.size := by
    simp [stringCmp, memvecCmpContent, h.vecs.self, (h.load_src hne).trans hv, h.ptr]
  have hq : s'.bytes.values q (xs.length + 1) = some (xs ++ [0]) := by
    simpa using Objects.values_of_obj h.obj h.off
  have hp : s'.bytes.values p (xs.length + 1) = some (xs ++ [0]) := by
    rw [Objects.values_congr h.kept]
    exact (Objects.str_eq_some.mp h.str).2
  rw [hcmp, Objects.memcmp_eq_zero]
  constructor
  · rintro ⟨ys, hys, -⟩
    have hle := Objects.le_of_values hys h.obj
    simp only [h.off, Nat.zero_add, List.length_map, List.length_append,
      List.length_singleton] at hle
    exact hle
  · intro hle
    exact ⟨_, Objects.values_take hq hle, Objects.values_take hp hle⟩

/-- The original is as before. -/
theorem Copied.content_eq (h : Copied s s' dest d v p q xs) (hv : s.vecs.load src = some v)
    (hne : dest ≠ src) : s'.content src = s.content src := by
  simp only [content, h.load_src hne, hv, Option.bind_eq_bind, Option.bind_some, h.ptr,
    Objects.read_congr h.kept]

/-- **A copy of a string is equal, and reads no more than the content, when the terminator is the
last byte of the content.** -/
theorem Copied.equalCopy_iff (h : Copied s s' dest d v p q xs) (hv : s.vecs.load src = some v)
    (hne : dest ≠ src) :
    EqualCopy s s' dest src (xs.length + 1) ↔ xs.length + 1 = v.size := by
  constructor
  · rintro ⟨⟨v', hv', hreads⟩, ⟨d', hd', howns⟩, -⟩
    obtain rfl := Option.some.inj (hv.symm.trans hv')
    obtain rfl := Option.some.inj (h.vecs.self.symm.trans hd')
    exact Nat.le_antisymm hreads (h.owns_iff.mp howns)
  · intro hlen
    have hle : v.size ≤ xs.length + 1 := Nat.le_of_eq hlen.symm
    exact ⟨⟨v, hv, Nat.le_of_eq hlen⟩, ⟨_, h.vecs.self, h.owns_iff.mpr hle⟩,
      (h.cmp_iff hv hne).mpr hle, h.load_src hne, h.content_eq hv hne⟩

/-- **After `string_fromc`**, where the terminator is behind the content, the copy is equal all
the same; but the terminator was read and copied too. -/
theorem Copied.fromc (h : Copied s s' dest d v p q xs) (hv : s.vecs.load src = some v)
    (hne : dest ≠ src) (hsize : v.size = xs.length) :
    s'.stringCmp dest src = some 0 ∧ s'.bytes.Owns (some q) (v.size + 1) ∧
      ¬ EqualCopy s s' dest src (xs.length + 1) := by
  refine ⟨(h.cmp_iff hv hne).mpr (by omega), h.owns_iff.mpr (by omega), fun hequal => ?_⟩
  have hlen : xs.length + 1 = v.size := (h.equalCopy_iff hv hne).mp hequal
  omega

/-- Bytes that end in their only zero are a string. -/
theorem values_ends_iff {m : Objects UInt8} {n : ℕ} :
    (∃ xs, m.values q n = some (xs ++ [0]) ∧ 0 ∉ xs) ↔
      ∃ xs, m.str q = some xs ∧ xs.length + 1 = n := by
  constructor
  · rintro ⟨xs, hvals, hzero⟩
    have hlen : xs.length + 1 = n := by simpa using (Objects.values_eq_some.mp hvals).1
    exact ⟨xs, Objects.str_eq_some.mpr ⟨hzero, hlen ▸ hvals⟩, hlen⟩
  · rintro ⟨xs, hstr, rfl⟩
    obtain ⟨hzero, hvals⟩ := Objects.str_eq_some.mp hstr
    exact ⟨xs, hvals, hzero⟩

/-- **`string_cpy` makes an equal copy, and reads no more than the content, exactly when the
content ends in its only zero**, the old bytes can be freed and there is memory. -/
theorem string_cpy_copies_iff (hd : s.vecs.load dest = some d) (hv : s.vecs.load src = some v)
    (hne : dest ≠ src) : s.CopiesEqual dest src ok ↔ CanCopy s.bytes d v ok := by
  constructor
  · rintro ⟨⟨s', c, n⟩, hcpy, -, hequal⟩
    cases ok with
    | false =>
      obtain ⟨d', hd', q, hq, -⟩ := hequal.owns
      obtain rfl := Option.some.inj
        ((recorded_of_no_memory hd hv hne hcpy).self.symm.trans hd')
      cases hq
    | true =>
      obtain ⟨p, q, xs, hcopied, rfl⟩ := copied_of_stringCpy hd hv hne hcpy
      refine ⟨rfl, hcopied.freeable, fun p' hp' q' hq' => ?_, p, hcopied.ptr, ?_⟩
      · obtain rfl := Option.some.inj (hcopied.ptr.symm.trans hq')
        exact hcopied.apart p' hp'
      · exact values_ends_iff.mpr
          ⟨xs, hcopied.str, (hcopied.equalCopy_iff hv hne).mp hequal⟩
  · rintro ⟨rfl, hfree, hapart, p, hp, hends⟩
    obtain ⟨xs, hstr, hlen⟩ := values_ends_iff.mp hends
    obtain ⟨s', q, hcpy, hcopied⟩ :=
      exists_copied hd hv hne hfree (fun p' hp' => hapart p' hp' p hp) hp hstr
    exact ⟨_, hcpy, rfl, (hcopied.equalCopy_iff hv hne).mpr hlen⟩

theorem string_cpy_copies_terminated :
    ∃ s ∈ twoStrings [97, 98, 0] 3, s.CopiesEqual ⟨0, 0⟩ ⟨1, 0⟩ true ∧
      (s.CopiesEqual ⟨0, 0⟩ ⟨1, 0⟩ true ↔
        CanCopy s.bytes ⟨some ⟨0, 0⟩, 1⟩ ⟨some ⟨1, 0⟩, 3⟩ true) :=
  ⟨_, rfl, by decide, string_cpy_copies_iff rfl rfl (by decide)⟩

/-- With a zero inside, the copy is shorter than the size that is recorded for it. -/
theorem string_cpy_cuts_at_zero :
    ∃ s ∈ twoStrings [97, 98, 0, 99] 4, ¬ s.CopiesEqual ⟨0, 0⟩ ⟨1, 0⟩ true ∧
      ∃ r ∈ s.stringCpy ⟨0, 0⟩ ⟨1, 0⟩ true, ∃ d ∈ r.1.vecs.load ⟨0, 0⟩,
        d.size = 4 ∧ ¬ r.1.bytes.Owns d.ptr 4 :=
  ⟨_, rfl, by decide, by decide⟩

/-! ## New records -/

variable {src' : Option Ptr} {n : ℕ} {r : Option Ptr}

/-- `memvec_new` makes a record of what it is given, when it makes one. -/
theorem memvecNew_spec (h : s.memvecNew src' n ok = some (s', r)) :
    (s' = s ∧ r = none) ∨ ∃ mv, r = some mv ∧ 0 < n ∧ s'.bytes = s.bytes ∧
      s.vecs.obj mv.obj = none ∧ Recorded s.vecs s'.vecs mv ⟨src', n⟩ := by
  by_cases hn : n ≤ 0
  · simp only [memvecNew, if_pos hn, Option.some.injEq, Prod.mk.injEq] at h
    exact .inl ⟨h.1.symm, h.2.symm⟩
  · cases ok with
    | false =>
      simp only [memvecNew, if_neg hn, Bool.false_eq_true, if_false, Option.some.injEq,
        Prod.mk.injEq] at h
      exact .inl ⟨h.1.symm, h.2.symm⟩
    | true =>
      obtain ⟨vecs, hstore, hself, hother⟩ := Objects.store_malloc s.vecs ⟨src', n⟩
      simp only [memvecNew, if_neg hn, if_true, hstore, Option.bind_eq_bind, Option.bind_some,
        Option.pure_def, Option.some.injEq, Prod.mk.injEq] at h
      obtain ⟨rfl, rfl⟩ := h
      exact .inr ⟨_, rfl, Nat.lt_of_not_le hn, rfl, Objects.obj_add_fresh, hself, hother⟩

/-- `memvec_dup` makes a record of its own copy, when it makes one. -/
theorem memvecDup_spec {recordOk contentOk : Bool}
    (h : s.memvecDup src recordOk contentOk = some (s', r)) :
    (s'.bytes = s.bytes ∧ (∀ w, s'.vecs.load w = s.vecs.load w) ∧ r = none) ∨
      ∃ mv v p, r = some mv ∧ s.vecs.load src = some v ∧
        Recorded s.vecs s'.vecs mv ⟨some p, v.size⟩ ∧ s'.bytes.Owns (some p) v.size ∧
        s.bytes.obj p.obj = none ∧ ∀ j, p.obj ≠ j → s'.bytes.obj j = s.bytes.obj j := by
  cases recordOk with
  | false =>
    simp only [memvecDup, Bool.false_eq_true, if_false, Option.some.injEq, Prod.mk.injEq] at h
    obtain ⟨rfl, rfl⟩ := h
    exact .inl ⟨rfl, fun _ => rfl, rfl⟩
  | true =>
    simp only [memvecDup, if_true, Objects.load_malloc, Option.bind_eq_bind,
      Option.bind_eq_some_iff] at h
    obtain ⟨v, hv, h⟩ := h
    cases contentOk with
    | false =>
      simp only [Bool.false_eq_true, if_false, Option.bind_eq_some_iff, Option.pure_def,
        Option.some.injEq, Prod.mk.injEq] at h
      obtain ⟨vecs, hfree, rfl, rfl⟩ := h
      exact .inl ⟨rfl, fun w => Objects.load_free_malloc hfree, rfl⟩
    | true =>
      obtain ⟨vecs, hstore, hself, hother⟩ :=
        Objects.store_malloc s.vecs ⟨some (s.bytes.malloc v.size).2, v.size⟩
      simp only [if_true, Option.bind_eq_some_iff, hstore, Option.pure_def, Option.some.injEq,
        Prod.mk.injEq] at h
      obtain ⟨q, hq, bytes, hcpy, vecs', rfl, rfl, rfl⟩ := h
      obtain ⟨cs, -, hlen, hobj, hkeep⟩ := Objects.memcpy_malloc_spec hcpy
      refine .inr ⟨_, v, _, rfl, hv, ⟨hself, hother⟩, ?_, Objects.obj_add_fresh, hkeep⟩
      exact ⟨_, rfl, rfl, _, hobj, rfl, by simp [hlen]⟩

/-- `memvec_delete` takes the record away, and its bytes. -/
theorem memvecDelete_spec {mv : Ptr} {c : ℤ} (h : s.memvecDelete (some mv) = some (s', c)) :
    ∃ v, s.vecs.load mv = some v ∧ freeNonNull s.bytes v.ptr = some s'.bytes ∧
      s'.vecs.load mv = none ∧
      ∀ w u, s'.vecs.load w = some u → mv ≠ w ∧ s.vecs.load w = some u := by
  simp only [memvecDelete, Option.bind_eq_bind, Option.bind_eq_some_iff, Option.pure_def,
    Option.some.injEq, Prod.mk.injEq] at h
  obtain ⟨v, hv, bytes, hbytes, vecs, hstore, vecs', hfree, rfl, -⟩ := h
  obtain ⟨-, hnone, hother⟩ := Objects.free_spec hfree
  refine ⟨v, hv, hbytes, by simp [Objects.load, hnone], fun w u hw => ?_⟩
  obtain ⟨o, ho⟩ := Objects.obj_of_load hw
  have hobj : mv.obj ≠ w.obj := Objects.ne_of_obj hnone ho
  have hne : mv ≠ w := fun heq => hobj (congrArg Ptr.obj heq)
  rw [Objects.load_congr (hother w.obj hobj), Objects.load_store_of_ne hstore hne] at hw
  exact ⟨hne, hw⟩

/-- **`memvec_dup` makes an equal copy of any content**, of which it reads `size` bytes. -/
theorem memvecDup_equal (hv : s.vecs.load src = some v) (hp : v.ptr = some p)
    (hvals : s.bytes.values p v.size = some xs) :
    ∃ s' mv, s.memvecDup src true true = some (s', some mv) ∧ EqualCopy s s' mv src v.size := by
  obtain ⟨cs, hread, hwritten⟩ := Option.bind_eq_some_iff.mp hvals
  obtain rfl := Objects.written_eq_some.mp hwritten
  obtain ⟨bytes, hcpy, hobj, hkeep⟩ := Objects.memcpy_malloc hread (Nat.le_refl _)
  rw [Nat.sub_self, List.replicate_zero, List.append_nil] at hobj
  obtain ⟨vecs, hstore, hself, hother⟩ :=
    Objects.store_malloc s.vecs ⟨some (s.bytes.malloc v.size).2, v.size⟩
  have hlen : xs.length = v.size := (Objects.values_eq_some.mp hvals).1
  obtain ⟨o, ho⟩ := Objects.obj_of_load hv
  have hne : (s.vecs.malloc 1).2 ≠ src := fun heq =>
    Objects.ne_add ho (congrArg Ptr.obj heq)
  obtain ⟨cs', hrest, -⟩ := Objects.read_eq_some.mp hread
  obtain ⟨o', ho'⟩ := Objects.obj_of_rest hrest
  have hkept : bytes.obj p.obj = s.bytes.obj p.obj := hkeep p.obj (Objects.ne_add ho')
  refine ⟨⟨bytes, vecs⟩, (s.vecs.malloc 1).2, ?_, ⟨v, hv, Nat.le_refl _⟩, ?_, ?_,
    hother src hne, ?_⟩
  · simp only [memvecDup, if_true, Objects.load_malloc, hv, hp, hcpy, hstore,
      Option.bind_eq_bind, Option.bind_some, Option.pure_def]
  · exact ⟨_, hself, _, rfl, rfl, _, hobj, rfl, by simp [hlen]⟩
  · have hcopy : bytes.values (s.bytes.malloc v.size).2 v.size = some xs :=
      hlen ▸ Objects.values_of_obj hobj rfl
    simp only [stringCmp, memvecCmpContent, hself, (hother src hne).trans hv, hp,
      Option.bind_eq_bind, Option.bind_some, if_true]
    exact Objects.memcmp_eq_zero.mpr ⟨xs, hcopy, (Objects.values_congr hkept).trans hvals⟩
  · simp only [content, (hother src hne).trans hv, hv, hp, Option.bind_eq_bind,
      Option.bind_some, Objects.read_congr hkept]

/-! ## Strings of their own -/

/-- Every string owns its bytes, and no two share an allocation. -/
structure Owned (s : Strings) : Prop where
  owns : ∀ w u, s.vecs.load w = some u → s.bytes.Owns u.ptr u.size
  apart : ∀ w w' u u', s.vecs.load w = some u → s.vecs.load w' = some u' → w ≠ w' →
    ∀ p ∈ u.ptr, ∀ p' ∈ u'.ptr, p.obj ≠ p'.obj

/-- The data at `p` can be handed over to a string. -/
def Free (s : Strings) (p : Option Ptr) (n : ℕ) : Prop :=
  s.bytes.Owns p n ∧
    ∀ w u, s.vecs.load w = some u → ∀ q ∈ u.ptr, ∀ q' ∈ p, q.obj ≠ q'.obj

/-- Data is handed over once, and no string is copied that has a zero before its last byte. -/
def Careful (s : Strings) : Op → Prop
  | .memvecNew src size _ => s.Free src size
  | .stringFromc str _ => ∀ n ∈ s.bytes.strlen str, s.Free (some str) n
  | .stringCpy dest src ok => dest ≠ src ∧ ok = true ∧
      ∀ v ∈ s.vecs.load src, ∀ p ∈ v.ptr, ∀ n ∈ s.bytes.strlen p, v.size ≤ n + 1
  | _ => True

/-- What leaves the records and keeps the bytes of all strings. -/
theorem Owned.keep (h : Owned s)
    (hvecs : ∀ w u, s'.vecs.load w = some u → s.vecs.load w = some u)
    (hbytes : ∀ w u, s'.vecs.load w = some u → s.bytes.Owns u.ptr u.size →
      s'.bytes.Owns u.ptr u.size) : Owned s' where
  owns w u hw := hbytes w u hw (h.owns w u (hvecs w u hw))
  apart w w' u u' hw hw' := h.apart w w' u u' (hvecs w u hw) (hvecs w' u' hw')

/-- A record with bytes of its own, next to others that keep theirs. -/
theorem Owned.record {mv : Ptr} (h : Owned s) (hr : Recorded s.vecs s'.vecs mv v)
    (hown : s'.bytes.Owns v.ptr v.size)
    (hother : ∀ w u, mv ≠ w → s.vecs.load w = some u → s'.bytes.Owns u.ptr u.size ∧
      ∀ p ∈ u.ptr, ∀ q ∈ v.ptr, p.obj ≠ q.obj) : Owned s' where
  owns w u hw := by
    rcases hr.cases hw with ⟨rfl, rfl⟩ | ⟨hmv, hu⟩
    · exact hown
    · exact (hother w u hmv hu).1
  apart w w' u u' hw hw' hne p hp p' hp' := by
    rcases hr.cases hw with ⟨rfl, rfl⟩ | ⟨hmv, hu⟩ <;>
      rcases hr.cases hw' with ⟨rfl, rfl⟩ | ⟨hmv', hu'⟩
    · exact absurd rfl hne
    · exact ((hother w' u' hmv' hu').2 p' hp' p hp).symm
    · exact (hother w u hmv hu).2 p hp p' hp'
    · exact h.apart w w' u u' hu hu' hne p hp p' hp'

/-- What was there is there after `string_toc`. -/
theorem stringToc_keeps {mv : Ptr} (h : s.stringToc mv ok = some (s', r)) :
    s'.vecs = s.vecs ∧ ∀ j o, s.bytes.obj j = some o → s'.bytes.obj j = some o := by
  obtain ⟨v, hv, h⟩ := Option.bind_eq_some_iff.mp h
  cases ok with
  | false =>
    obtain ⟨rfl, -⟩ := Prod.mk.inj (Option.some.inj h)
    exact ⟨rfl, fun _ _ ho => ho⟩
  | true =>
    simp only [if_true, Option.bind_eq_bind, Option.bind_eq_some_iff, Option.pure_def,
      Option.some.injEq, Prod.mk.injEq] at h
    obtain ⟨q, hq, bytes, hcpy, bytes', hstore, rfl, -⟩ := h
    obtain ⟨-, -, -, hcopied⟩ := Objects.memcpy_spec hcpy
    obtain ⟨-, -, -, -, hstored⟩ := Objects.store_spec hstore
    refine ⟨rfl, fun j o ho => ?_⟩
    have hne := Objects.ne_add (o := ⟨true, List.replicate (v.size + 1) none⟩) ho
    rw [hstored j hne, hcopied j hne, Objects.obj_add_of_ne hne, ho]

/-- **`string_toc` returns the content with a zero behind it.** -/
theorem stringToc_values {mv : Ptr} (hv : s.vecs.load mv = some v) (hp : v.ptr = some p)
    (hvals : s.bytes.values p v.size = some xs) :
    ∃ s' t, s.stringToc mv true = some (s', some t) ∧
      s'.bytes.values t (v.size + 1) = some (xs ++ [0]) := by
  obtain ⟨cs, hread, hwritten⟩ := Option.bind_eq_some_iff.mp hvals
  obtain rfl := Objects.written_eq_some.mp hwritten
  have hlen : xs.length = v.size := (Objects.values_eq_some.mp hvals).1
  obtain ⟨bytes, hcpy, hobj, -⟩ := Objects.memcpy_malloc hread (Nat.le_succ v.size)
  obtain ⟨bytes', hstore⟩ := Objects.store_of_lt
    (p := { (s.bytes.malloc (v.size + 1)).2 with off := v.size }) (a := 0) hobj (by simp [hlen])
  obtain ⟨_, hobj', -, hstored, -⟩ := Objects.store_spec hstore
  obtain rfl := Option.some.inj (hobj.symm.trans hobj')
  refine ⟨⟨bytes', s.vecs⟩, (s.bytes.malloc (v.size + 1)).2, ?_, ?_⟩
  · simp [stringToc, memvecSerialize, hv, hp, hcpy, hstore]
  · have hcells : bytes'.obj (s.bytes.malloc (v.size + 1)).2.obj
        = some ⟨true, (xs ++ [0]).map some⟩ := by
      rw [hstored]
      simp [← hlen]
    simpa [hlen] using Objects.values_of_obj hcells rfl

/-- A string cannot be copied to itself: its bytes are freed first. -/
theorem stringCpy_self : s.stringCpy dest dest ok = none := by
  cases hd : s.vecs.load dest with
  | none => simp [stringCpy, hd]
  | some d =>
    cases hp : d.ptr with
    | none => simp [stringCpy, hd, hp, freeNonNull]
    | some p =>
      cases hfree : s.bytes.free p with
      | none => simp [stringCpy, hd, hp, freeNonNull, hfree]
      | some bytes =>
        have hstr : bytes.str p = none := by
          simp [Objects.str, Objects.rest, (Objects.free_spec hfree).2.1]
        simp [stringCpy, hd, hp, freeNonNull, hfree, Objects.strdup_eq_none hstr]

/-! ## Sizes -/

/-- No string is empty. -/
def NonEmpty (s : Strings) : Prop := ∀ w u, s.vecs.load w = some u → 0 < u.size

theorem NonEmpty.record {mv : Ptr} (h : s.NonEmpty) (hr : Recorded s.vecs s'.vecs mv v)
    (hv : 0 < v.size) : s'.NonEmpty := by
  intro w u hw
  rcases hr.cases hw with ⟨-, rfl⟩ | ⟨-, hu⟩
  · exact hv
  · exact h w u hu

theorem NonEmpty.memvecNew (h : s.NonEmpty) (hnew : s.memvecNew src' n ok = some (s', r)) :
    s'.NonEmpty := by
  rcases memvecNew_spec hnew with ⟨rfl, -⟩ | ⟨mv, -, hn, -, -, hr⟩
  · exact h
  · exact h.record hr hn

theorem NonEmpty.stringCpy (h : s.NonEmpty) {c : ℤ}
    (hcpy : s.stringCpy dest src ok = some (s', c, n)) : s'.NonEmpty := by
  by_cases hne : dest = src
  · simp [hne, stringCpy_self] at hcpy
  · obtain ⟨d, v, hd, hv⟩ := loads_of_stringCpy hcpy
    obtain ⟨-, bytes, q, p, -, -, -, hr⟩ := stringCpy_spec hd hv hne hcpy
    exact h.record hr (h src v hv)

theorem NonEmpty.step {op : Op} (h : s.NonEmpty) (hstep : s.step op = some s') :
    s'.NonEmpty := by
  cases op with
  | place o =>
    obtain rfl := Option.some.inj hstep
    exact h
  | poke p b =>
    obtain ⟨bytes, -, rfl⟩ := Option.map_eq_some_iff.mp hstep
    exact h
  | memvecNew src' n ok =>
    obtain ⟨⟨t, r⟩, hnew, rfl⟩ := Option.map_eq_some_iff.mp hstep
    exact h.memvecNew hnew
  | stringFromc str ok =>
    obtain ⟨⟨t, r⟩, hfrom, rfl⟩ := Option.map_eq_some_iff.mp hstep
    obtain ⟨n, -, hnew⟩ := Option.bind_eq_some_iff.mp hfrom
    exact h.memvecNew hnew
  | memvecDup src recordOk contentOk =>
    obtain ⟨⟨t, r⟩, hdup, rfl⟩ := Option.map_eq_some_iff.mp hstep
    rcases memvecDup_spec hdup with ⟨-, hload, -⟩ | ⟨mv, v, p, -, hv, hr, -⟩
    · intro w u hw
      exact h w u ((hload w).symm.trans hw)
    · exact h.record hr (h src v hv)
  | stringToc mv ok =>
    obtain ⟨⟨t, r⟩, htoc, rfl⟩ := Option.map_eq_some_iff.mp hstep
    intro w u hw
    exact h w u ((stringToc_keeps htoc).1 ▸ hw)
  | stringCpy dest src ok =>
    obtain ⟨⟨t, c, n⟩, hcpy, rfl⟩ := Option.map_eq_some_iff.mp hstep
    exact h.stringCpy hcpy
  | stringDelete mv =>
    obtain ⟨⟨t, c⟩, hdel, rfl⟩ := Option.map_eq_some_iff.mp hstep
    cases mv with
    | none =>
      obtain ⟨rfl, -⟩ := Prod.mk.inj (Option.some.inj hdel)
      exact h
    | some mv =>
      obtain ⟨v, -, -, -, hload⟩ := memvecDelete_spec hdel
      intro w u hw
      exact h w u (hload w u hw).2

/-- **No string of a program is empty**, whatever it copies. -/
theorem nonEmpty_of_reach (h : program.Reach Machine.Always s) : s.NonEmpty := by
  refine h.invariant ?_ fun s op s' _ hs _ hstep => hs.step hstep
  rintro _ rfl w u hw
  cases hw

/-! ## Owning -/

theorem Owned.memvecNew (h : Owned s) (hfree : s.Free src' n)
    (hnew : s.memvecNew src' n ok = some (s', r)) : Owned s' := by
  rcases memvecNew_spec hnew with ⟨rfl, -⟩ | ⟨mv, -, -, hbytes, hfresh, hr⟩
  · exact h
  · refine h.record hr (hbytes ▸ hfree.1) fun w u _ hw => ⟨hbytes ▸ h.owns w u hw, ?_⟩
    exact hfree.2 w u hw

theorem Owned.memvecDup (h : Owned s) {recordOk contentOk : Bool}
    (hdup : s.memvecDup src recordOk contentOk = some (s', r)) : Owned s' := by
  rcases memvecDup_spec hdup with ⟨hbytes, hload, -⟩ | ⟨mv, v, p, -, hv, hr, hown, hfresh, hkeep⟩
  · exact h.keep (fun w u hw => (hload w).symm.trans hw) fun w u _ hown => hbytes ▸ hown
  · have hapart : ∀ w u, s.vecs.load w = some u → ∀ q ∈ u.ptr, p.obj ≠ q.obj := by
      intro w u hw q hq
      obtain ⟨-, o, ho, -⟩ := (h.owns w u hw).freeable q hq
      exact Objects.ne_of_obj hfresh ho
    refine h.record hr hown fun w u _ hw => ⟨(h.owns w u hw).congr fun q hq o ho => ?_, ?_⟩
    · exact (hkeep q.obj (hapart w u hw q hq)).trans ho
    · rintro q hq q' hq'
      obtain rfl := Option.some.inj hq'
      exact (hapart w u hw q hq).symm

theorem Owned.stringCpy (h : Owned s) (hd : s.vecs.load dest = some d)
    (hv : s.vecs.load src = some v) (hne : dest ≠ src)
    (hlong : ∀ p ∈ v.ptr, ∀ k ∈ s.bytes.strlen p, v.size ≤ k + 1) {c : ℤ}
    (hcpy : s.stringCpy dest src true = some (s', c, n)) : Owned s' := by
  obtain ⟨p, q, xs, hcopied, -⟩ := copied_of_stringCpy hd hv hne hcpy
  have hlen : s.bytes.strlen p = some xs.length := by simp [Objects.strlen, hcopied.str]
  have hkept : ∀ w u, dest ≠ w → s.vecs.load w = some u → ∀ p' ∈ u.ptr, ∀ o ∈ s.bytes.obj p'.obj,
      q.obj ≠ p'.obj ∧ s'.bytes.obj p'.obj = some o := by
    intro w u hw hu p' hp' o ho
    exact hcopied.others p'.obj o (fun pd hpd => h.apart dest w d u hd hu hw pd hpd p' hp') ho
  refine h.record hcopied.vecs (hcopied.owns_iff.mpr (hlong p hcopied.ptr _ hlen))
    fun w u hw hu => ⟨(h.owns w u hu).congr fun p' hp' o ho => ?_, ?_⟩
  · exact (hkept w u hw hu p' hp' o ho).2
  · rintro p' hp' q' hq'
    obtain rfl := Option.some.inj hq'
    obtain ⟨-, o, ho, -⟩ := (h.owns w u hu).freeable p' hp'
    exact (hkept w u hw hu p' hp' o ho).1.symm

theorem Owned.stringDelete (h : Owned s) {mv : Option Ptr} {c : ℤ}
    (hdel : s.stringDelete mv = some (s', c)) : Owned s' := by
  cases mv with
  | none =>
    obtain ⟨rfl, -⟩ := Prod.mk.inj (Option.some.inj hdel)
    exact h
  | some mv =>
    obtain ⟨v, hv, hfree, -, hload⟩ := memvecDelete_spec hdel
    refine h.keep (fun w u hw => (hload w u hw).2) fun w u hw hown => hown.congr ?_
    intro q hq o ho
    obtain ⟨hne, hu⟩ := hload w u hw
    refine ((freeNonNull_spec hfree).2 q.obj fun p hp => ?_).trans ho
    exact h.apart mv w v u hv hu hne p hp q hq

theorem Owned.step {op : Op} (h : Owned s) (hcareful : s.Careful op)
    (hstep : s.step op = some s') : Owned s' := by
  cases op with
  | place o =>
    obtain rfl := Option.some.inj hstep
    exact h.keep (fun w u hw => hw) fun w u _ hown => hown.add
  | poke p b =>
    obtain ⟨bytes, hstore, rfl⟩ := Option.map_eq_some_iff.mp hstep
    exact h.keep (fun w u hw => hw) fun w u _ hown => hown.store hstore
  | memvecNew src' n ok =>
    obtain ⟨⟨t, r⟩, hnew, rfl⟩ := Option.map_eq_some_iff.mp hstep
    exact h.memvecNew hcareful hnew
  | stringFromc str ok =>
    obtain ⟨⟨t, r⟩, hfrom, rfl⟩ := Option.map_eq_some_iff.mp hstep
    obtain ⟨n, hn, hnew⟩ := Option.bind_eq_some_iff.mp hfrom
    exact h.memvecNew (hcareful n hn) hnew
  | memvecDup src recordOk contentOk =>
    obtain ⟨⟨t, r⟩, hdup, rfl⟩ := Option.map_eq_some_iff.mp hstep
    exact h.memvecDup hdup
  | stringToc mv ok =>
    obtain ⟨⟨t, r⟩, htoc, rfl⟩ := Option.map_eq_some_iff.mp hstep
    obtain ⟨hvecs, hkeep⟩ := stringToc_keeps htoc
    exact h.keep (fun w u hw => hvecs ▸ hw) fun w u _ hown =>
      hown.congr fun q _ o ho => hkeep q.obj o ho
  | stringCpy dest src ok =>
    obtain ⟨⟨t, c, n⟩, hcpy, rfl⟩ := Option.map_eq_some_iff.mp hstep
    obtain ⟨hne, rfl, hlong⟩ := hcareful
    obtain ⟨d, v, hd, hv⟩ := loads_of_stringCpy hcpy
    exact h.stringCpy hd hv hne (hlong v hv) hcpy
  | stringDelete mv =>
    obtain ⟨⟨t, c⟩, hdel, rfl⟩ := Option.map_eq_some_iff.mp hstep
    exact h.stringDelete hdel

/-- **In a careful program every string owns its bytes, and shares them with no other.** -/
theorem owned_of_careful (h : program.Reach Careful s) : Owned s := by
  refine h.invariant ?_ fun s op s' _ hs hcareful hstep => hs.step hcareful hstep
  rintro _ rfl
  exact ⟨nofun, nofun⟩

/-- **In a careful program `string_cpy` depends on the content alone**: it makes an equal copy and
reads no more than the content exactly when the content ends in its only zero. -/
theorem canCopy_of_careful (h : program.Reach Careful s) (hd : s.vecs.load dest = some d)
    (hv : s.vecs.load src = some v) (hne : dest ≠ src) :
    CanCopy s.bytes d v true ↔
      ∃ q ∈ v.ptr, ∃ xs, s.bytes.values q v.size = some (xs ++ [0]) ∧ 0 ∉ xs := by
  have howned := owned_of_careful h
  constructor
  · exact CanCopy.terminated
  · exact fun hends => ⟨rfl, (howned.owns dest d hd).freeable,
      howned.apart dest src d v hd hv hne, hends⟩

end Strings

end Dungeon

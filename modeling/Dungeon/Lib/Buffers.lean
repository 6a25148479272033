import Dungeon.Lib.Objects

/-!
# Strings written into allocations

How a C program composes a string: it allocates enough cells, writes one behind the other, and
frees what it does not return.

- `Leaves`: what a function does to the memory. All objects there were but some are kept, and of
  the new ones only some are left.
- `Buffer`: an allocation whose first cells are written.
- `Writer`, `Appends`: functions that write behind them, and what they write.
-/

/-- `p + n`. -/
def Ptr.plus (p : Ptr) (n : ℕ) : Ptr := ⟨p.obj, p.off + n⟩

@[simp] theorem Ptr.plus_obj (p : Ptr) (n : ℕ) : (p.plus n).obj = p.obj := rfl

@[simp] theorem Ptr.plus_off (p : Ptr) (n : ℕ) : (p.plus n).off = p.off + n := rfl

namespace Objects

variable {α : Type} {m m' m'' : Objects α} {p : Ptr} {i j n size : ℕ} {a : α}
  {as bs text : List α} {changed changed' live live' : List ℕ}

/-! ## What is left behind -/

/-- Objects that are not `changed` are kept, those that were freed stay so, and of the new ones
only `live` are left. -/
structure Leaves (m m' : Objects α) (changed live : List ℕ) : Prop where
  le : m.objs.length ≤ m'.objs.length
  kept : ∀ j < m.objs.length, j ∉ changed → m'.obj j = m.obj j
  dead : ∀ j < m.objs.length, m.obj j = none → m'.obj j = none
  left : ∀ j, m.objs.length ≤ j → m'.obj j ≠ none → j ∈ live

theorem obj_of_le (h : m.objs.length ≤ j) : m.obj j = none := by
  simp [obj, List.getElem?_eq_none h]

namespace Leaves

theorem refl : Leaves m m [] [] :=
  ⟨Nat.le_refl _, fun _ _ _ => rfl, fun _ _ h => h, fun _ hj hne => absurd (obj_of_le hj) hne⟩

theorem trans (h : Leaves m m' changed live) (h' : Leaves m' m'' changed' live') :
    Leaves m m'' (changed ++ changed') (live ++ live') := by
  refine ⟨Nat.le_trans h.le h'.le, fun j hj hnot => ?_, fun j hj hnone => ?_, fun j hj hne => ?_⟩
  · rw [List.mem_append, not_or] at hnot
    rw [h'.kept j (Nat.lt_of_lt_of_le hj h.le) hnot.2, h.kept j hj hnot.1]
  · exact h'.dead j (Nat.lt_of_lt_of_le hj h.le) (h.dead j hj hnone)
  · rcases Nat.lt_or_ge j m'.objs.length with hlt | hge
    · exact List.mem_append_left _ (h.left j hj fun hnone => hne (h'.dead j hlt hnone))
    · exact List.mem_append_right _ (h'.left j hge hne)

/-- Changes of new objects need not be told, and new objects that are gone again are not left. -/
theorem mono (h : Leaves m m' changed live)
    (hchanged : ∀ j ∈ changed, j < m.objs.length → j ∈ changed')
    (hlive : ∀ j ∈ live, m'.obj j ≠ none → j ∈ live') : Leaves m m' changed' live' := by
  refine ⟨h.le, fun j hj hnot => h.kept j hj fun hmem => hnot (hchanged j hmem hj), h.dead,
    fun j hj hne => hlive j (h.left j hj hne) hne⟩

/-- An object that is there is kept. -/
theorem obj_eq {o : Obj α} (h : Leaves m m' changed live) (ho : m.obj j = some o)
    (hj : j ∉ changed) : m'.obj j = some o :=
  (h.kept j (lt_of_obj ho) hj).trans ho

/-- What is gone stays so, however much more goes. -/
theorem gone_append {js' : List ℕ} (h : Leaves m m' changed live)
    (h' : Leaves m' m'' changed' live') (js : List ℕ) (hlt : ∀ j ∈ js, j < m.objs.length)
    (hgone : ∀ j ∈ js, m'.obj j = none) (hgone' : ∀ j ∈ js', m''.obj j = none) :
    ∀ j ∈ js ++ js', m''.obj j = none := by
  intro j hj
  rcases List.mem_append.mp hj with hj | hj
  · exact h'.dead j (Nat.lt_of_lt_of_le (hlt j hj) h.le) (hgone j hj)
  · exact hgone' j hj

end Leaves

theorem length_put (o : Option (Obj α)) : (m.put i o).objs.length = m.objs.length := by
  simp [put]

/-- An object that was there has changed. -/
theorem leaves_put {o : Obj α} (h : m.obj i = some o) (o' : Option (Obj α)) :
    Leaves m (m.put i o') [i] [] := by
  have hother : ∀ j, j ≠ i → (m.put i o').obj j = m.obj j := fun j hj =>
    obj_put_of_ne (Ne.symm hj) o'
  refine ⟨Nat.le_of_eq (length_put o').symm, fun j _ hnot => hother j (by simpa using hnot),
    fun j _ hnone => ?_, fun j hj hne => absurd (obj_of_le (length_put (m := m) o' ▸ hj)) hne⟩
  rw [hother j (by rintro rfl; rw [h] at hnone; cases hnone), hnone]

theorem leaves_add (o : Obj α) : Leaves m (m.add o).1 [] [(m.add o).2.obj] := by
  refine ⟨by simp [add], fun j hj _ => obj_add_of_ne (Nat.ne_of_gt hj), fun j hj hnone => ?_,
    fun j hj hne => ?_⟩
  · rw [obj_add_of_ne (Nat.ne_of_gt hj), hnone]
  · by_contra hnot
    rw [List.mem_singleton] at hnot
    rw [obj_add_of_ne (Ne.symm hnot)] at hne
    exact hne (obj_of_le hj)

theorem leaves_store (h : m.store p a = some m') : Leaves m m' [p.obj] [] := by
  obtain ⟨o, ho, hstore⟩ := Option.bind_eq_some_iff.mp h
  split at hstore
  · obtain rfl := Option.some.inj hstore
    exact leaves_put ho _
  · cases hstore

theorem leaves_write {cs : List (Option α)} (h : m.write p cs = some m') :
    Leaves m m' [p.obj] [] := by
  obtain ⟨o, ho, hwrite⟩ := Option.bind_eq_some_iff.mp h
  split at hwrite
  · obtain rfl := Option.some.inj hwrite
    exact leaves_put ho _
  · cases hwrite

theorem leaves_free (h : m.free p = some m') : Leaves m m' [p.obj] [] := by
  obtain ⟨o, ho, hfree⟩ := Option.bind_eq_some_iff.mp h
  split at hfree
  · obtain rfl := Option.some.inj hfree
    exact leaves_put ho _
  · cases hfree

/-! ## Buffers -/

/-- An allocation of `size` cells, the first of which are `text`. -/
def Buffer (m : Objects α) (i size : ℕ) (text : List α) : Prop :=
  ∃ junk, m.obj i = some ⟨true, text.map some ++ junk⟩ ∧ text.length + junk.length = size

namespace Buffer

theorem congr (h : m.Buffer i size text) (hobj : m'.obj i = m.obj i) : m'.Buffer i size text := by
  obtain ⟨junk, ho, hlen⟩ := h
  exact ⟨junk, hobj.trans ho, hlen⟩

theorem lt (h : m.Buffer i size text) : i < m.objs.length := by
  obtain ⟨junk, ho, -⟩ := h
  exact lt_of_obj ho

theorem kept (h : m.Buffer i size text) (hleaves : Leaves m m' changed live) (hi : i ∉ changed) :
    m'.Buffer i size text := h.congr (hleaves.kept i h.lt hi)

theorem shorten (h : m.Buffer i size (text ++ as)) : m.Buffer i size text := by
  obtain ⟨junk, ho, hlen⟩ := h
  refine ⟨as.map some ++ junk, by simpa using ho, ?_⟩
  simp only [List.length_append, List.length_map] at hlen ⊢
  omega

/-- What is written behind the text is behind it. -/
theorem write (h : m.Buffer i size text) (as : List α) (hle : text.length + as.length ≤ size) :
    ∃ m', m.write ⟨i, text.length⟩ (as.map some) = some m' ∧ m'.Buffer i size (text ++ as) ∧
      Leaves m m' [i] [] := by
  obtain ⟨junk, ho, hlen⟩ := h
  obtain ⟨m', hm'⟩ : ∃ m', m.write ⟨i, text.length⟩ (as.map some) = some m' :=
    write_of_le ho (by simp only [List.length_append, List.length_map]; omega)
  obtain ⟨o, ho', -, hself, -⟩ := write_spec hm'
  obtain rfl := Option.some.inj (ho.symm.trans ho')
  refine ⟨m', hm', ⟨junk.drop as.length, ?_, ?_⟩, leaves_write hm'⟩
  · rw [hself]
    simp [List.drop_append]
  · simp only [List.length_append, List.length_drop]
    omega

theorem store (h : m.Buffer i size text) (hlt : text.length < size) (a : α) :
    ∃ m', m.store ⟨i, text.length⟩ a = some m' ∧ m'.Buffer i size (text ++ [a]) ∧
      Leaves m m' [i] [] := by
  obtain ⟨junk, ho, hlen⟩ := h
  obtain ⟨m', hm'⟩ := store_of_lt (p := ⟨i, text.length⟩) (a := a) ho
    (by simp only [List.length_append, List.length_map]; omega)
  obtain ⟨o, ho', -, hself, -⟩ := store_spec hm'
  obtain rfl := Option.some.inj (ho.symm.trans ho')
  obtain ⟨c, junk, rfl⟩ : ∃ c js, junk = c :: js :=
    List.exists_cons_of_ne_nil (by rintro rfl; simp at hlen; omega)
  refine ⟨m', hm', ⟨junk, ?_, ?_⟩, leaves_store hm'⟩
  · rw [hself]
    simp
  · simp only [List.length_append, List.length_cons, List.length_nil] at hlen ⊢
    omega

theorem free (h : m.Buffer i size text) :
    ∃ m', m.free ⟨i, 0⟩ = some m' ∧ m'.obj i = none ∧ Leaves m m' [i] [] := by
  obtain ⟨junk, ho, -⟩ := h
  obtain ⟨m', hm'⟩ := free_of_freeable (p := ⟨i, 0⟩) ⟨rfl, _, ho, rfl⟩
  exact ⟨m', hm', (free_spec hm').2.1, leaves_free hm'⟩

variable [OfNat α 0] [DecidableEq α]

theorem str (h : m.Buffer i size (text ++ [0])) (hzero : 0 ∉ text) :
    m.str ⟨i, 0⟩ = some text := by
  obtain ⟨junk, ho, -⟩ := h
  refine Option.bind_eq_some_iff.mpr ⟨_, rest_eq_some.mpr ⟨_, ho, Nat.zero_le _, rfl⟩, ?_⟩
  exact upToZero_eq_some.mpr ⟨hzero, junk, rfl⟩

end Buffer

/-! ## Writers -/

/-- A function that writes at a pointer, and moves it on. -/
abbrev Writer (α : Type) := Objects α → Ptr → Option (Objects α × Ptr)

/-- `*p++ = a`. -/
def putc (a : α) : Writer α := fun m p => (m.store p a).map (·, p.plus 1)

/-- One after the other. -/
def Writer.seq (w w' : Writer α) : Writer α := fun m p => (w m p).bind fun r => w' r.1 r.2

/-- `*p++` for each of `as`. -/
def puts : List α → Writer α
  | [] => fun m p => some (m, p)
  | a :: as => (putc a).seq (puts as)

section Strings

variable [OfNat α 0]

/-- `*p = 0`. -/
def mark : Writer α := fun m p => (m.store p 0).map (·, p)

/-- `p += sprintf(p, ..)`, for the text that is printed. -/
def sprintf (as : List α) : Writer α := fun m p =>
  (m.write p ((as ++ [0]).map some)).map (·, p.plus as.length)

/-- `strcpy(p, q); p += strlen(q)`. The objects must not overlap. -/
def strcpy [DecidableEq α] (q : Ptr) : Writer α := fun m p =>
  if q.obj = p.obj then none else (m.str q).bind fun as => sprintf as m p

end Strings

/-- It writes `as` behind the text in the buffer `i`, and needs room for a terminator; all that
can be different from `m` is this buffer. -/
def Appends (m : Objects α) (i : ℕ) (w : Writer α) (as : List α) : Prop :=
  ∀ m₁ size text, Leaves m m₁ [i] [] → Buffer m₁ i size text → text.length + as.length < size →
    ∃ m₂, w m₁ ⟨i, text.length⟩ = some (m₂, ⟨i, (text ++ as).length⟩) ∧
      m₂.Buffer i size (text ++ as) ∧ Leaves m₁ m₂ [i] []

theorem Leaves.again (h : Leaves m m' [i] []) (h' : Leaves m' m'' [i] []) : Leaves m m'' [i] [] :=
  (h.trans h').mono (by simp) (by simp)

theorem Appends.run {w : Writer α} (h : Appends m i w as) (hm : m.Buffer i size text)
    (hlt : text.length + as.length < size) :
    ∃ m', w m ⟨i, text.length⟩ = some (m', ⟨i, (text ++ as).length⟩) ∧
      m'.Buffer i size (text ++ as) ∧ Leaves m m' [i] [] :=
  h m size text (Leaves.refl.mono (by simp) (by simp)) hm hlt

theorem appends_putc (a : α) : Appends m i (putc a) [a] := by
  intro m₁ size text _ h hlt
  obtain ⟨m₂, hstore, hm₂, hleaves⟩ := h.store (by simp at hlt; omega) a
  exact ⟨m₂, by simp [putc, hstore, Ptr.plus], hm₂, hleaves⟩

theorem Appends.seq {w w' : Writer α} (h : Appends m i w as) (h' : Appends m i w' bs) :
    Appends m i (w.seq w') (as ++ bs) := by
  intro m₁ size text hm hbuf hlt
  rw [List.length_append] at hlt
  obtain ⟨m₂, hw, hm₂, hleaves⟩ := h m₁ size text hm hbuf (by omega)
  obtain ⟨m₃, hw', hm₃, hleaves'⟩ := h' m₂ size (text ++ as) (hm.again hleaves) hm₂ (by
    rw [List.length_append]
    omega)
  rw [List.append_assoc] at hw' hm₃
  refine ⟨m₃, ?_, hm₃, hleaves.again hleaves'⟩
  rw [Writer.seq, hw]
  exact hw'

/-- The text ends with one more cell. -/
theorem Appends.finish {w : Writer α} (h : Appends m i w as) (hm : m.Buffer i size text)
    (hlt : text.length + as.length < size) (a : α) :
    ∃ m' p, (w.seq (putc a)) m ⟨i, text.length⟩ = some (m', p) ∧
      m'.Buffer i size (text ++ as ++ [a]) ∧ Leaves m m' [i] [] := by
  obtain ⟨m₁, hw, hm₁, hleaves⟩ := h.run hm hlt
  obtain ⟨m₂, hstore, hm₂, hleaves'⟩ := hm₁.store (by rwa [List.length_append]) a
  have hput : putc a m₁ ⟨i, (text ++ as).length⟩ = some (m₂, ⟨i, (text ++ as).length + 1⟩) := by
    rw [putc, hstore]
    rfl
  refine ⟨m₂, ⟨i, (text ++ as).length + 1⟩, ?_, hm₂, hleaves.again hleaves'⟩
  rw [Writer.seq, hw]
  exact hput

theorem appends_puts (as : List α) : Appends m i (puts as) as := by
  induction as with
  | nil =>
    intro m₁ size text _ h _
    exact ⟨m₁, by simp [puts], by simpa using h, Leaves.refl.mono (by simp) (by simp)⟩
  | cons a as ih => exact (appends_putc a).seq ih

section Strings

variable [OfNat α 0]

theorem appends_mark : Appends m i mark ([] : List α) := by
  intro m₁ size text _ h hlt
  obtain ⟨m₂, hstore, hm₂, hleaves⟩ := h.store (by simpa using hlt) 0
  exact ⟨m₂, by simp [mark, hstore], by simpa using hm₂.shorten, hleaves⟩

theorem Buffer.sprintf (h : m.Buffer i size text) (as : List α)
    (hlt : text.length + as.length < size) :
    ∃ m', Objects.sprintf as m ⟨i, text.length⟩ = some (m', ⟨i, (text ++ as).length⟩) ∧
      m'.Buffer i size (text ++ as ++ [0]) ∧ Leaves m m' [i] [] := by
  obtain ⟨m', hwrite, hm', hleaves⟩ := h.write (as ++ [0]) (by
    rw [List.length_append, List.length_singleton]
    omega)
  rw [← List.append_assoc] at hm'
  exact ⟨m', by simp only [Objects.sprintf, hwrite]; simp [Ptr.plus], hm', hleaves⟩

theorem appends_sprintf (as : List α) : Appends m i (sprintf as) as := by
  intro m₁ size text _ h hlt
  obtain ⟨m₂, hrun, hm₂, hleaves⟩ := h.sprintf _ hlt
  exact ⟨m₂, hrun, hm₂.shorten, hleaves⟩

theorem appends_strcpy [DecidableEq α] {q : Ptr} (hq : m.str q = some as) (hne : q.obj ≠ i) :
    Appends m i (strcpy q) as := by
  intro m₁ size text hm h hlt
  obtain ⟨o, ho⟩ := obj_of_str hq
  have hstr : m₁.str q = some as :=
    (str_congr (hm.kept q.obj (lt_of_obj ho) (by simpa using hne))).trans hq
  obtain ⟨m₂, hrun, hm₂, hleaves⟩ := h.sprintf _ hlt
  exact ⟨m₂, by simp [strcpy, hne, hstr, hrun], hm₂.shorten, hleaves⟩

end Strings

end Objects

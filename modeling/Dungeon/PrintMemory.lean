import Mathlib.Data.Nat.Digits.Lemmas
import Dungeon.CjsonPrint

/-!
# What printing JSON does to the memory (`cJSON.c`)

- `Printed`: the text of a value is all that is left of what a function allocates, or nothing is
  when a `malloc` has failed.
-/

namespace Dungeon

open JsonText

namespace Print

open Objects

variable {grant : ℕ → Bool} {h h' : Heap} {m m' : Objects Cell} {p q : Ptr} {i n size : ℕ}
  {text : Text} {a b c : ℕ}

/-! ## Texts in memory -/

theorem zero_notMem_bytes (hzero : (0 : UInt8) ∉ text) : (0 : Cell) ∉ bytes text := by
  intro hmem
  obtain ⟨c, hc, heq⟩ := List.mem_map.mp hmem
  exact hzero (Cell.byte.inj heq ▸ hc)

@[simp] theorem length_bytes : (bytes text).length = text.length := List.length_map _

@[simp] theorem bytes_append (s t : Text) : bytes (s ++ t) = bytes s ++ bytes t := List.map_append

/-- The text is in an allocation, from its start. -/
def IsText (m : Objects Cell) (p : Ptr) (text : Text) : Prop :=
  p.off = 0 ∧ ∃ size, m.Buffer p.obj size (bytes text ++ [0])

theorem IsText.str (hp : IsText m p text) (hzero : (0 : UInt8) ∉ text) :
    m.str p = some (bytes text) := by
  obtain ⟨hoff, size, hbuf⟩ := hp
  have hstr := hbuf.str (zero_notMem_bytes hzero)
  rwa [← hoff] at hstr

theorem IsText.strlen (hp : IsText m p text) (hzero : (0 : UInt8) ∉ text) :
    m.strlen p = some text.length := by
  rw [Objects.strlen, hp.str hzero, Option.map_some, length_bytes]

theorem IsText.kept {changed live : List ℕ} (hp : IsText m p text)
    (hleaves : Leaves m m' changed live) (hnot : p.obj ∉ changed) : IsText m' p text := by
  obtain ⟨hoff, size, hbuf⟩ := hp
  exact ⟨hoff, size, hbuf.kept hleaves hnot⟩

/-! ## Calls that fail -/

/-- One of the calls of `malloc` from `a` to `b` has failed. -/
def Refused (grant : ℕ → Bool) (a b : ℕ) : Prop := ∃ i, a ≤ i ∧ i < b ∧ grant i = false

theorem not_refused_self : ¬ Refused grant a a := by
  rintro ⟨i, hle, hlt, -⟩
  omega

theorem refused_succ : Refused grant a (a + 1) ↔ grant a = false := by
  constructor
  · rintro ⟨i, hle, hlt, hi⟩
    obtain rfl : i = a := by omega
    exact hi
  · intro ha
    exact ⟨a, Nat.le_refl a, Nat.lt_succ_self a, ha⟩

theorem refused_split (hab : a ≤ b) (hbc : b ≤ c) :
    Refused grant a c ↔ Refused grant a b ∨ Refused grant b c := by
  constructor
  · rintro ⟨i, hle, hlt, hi⟩
    rcases Nat.lt_or_ge i b with hb | hb
    · exact .inl ⟨i, hle, hb, hi⟩
    · exact .inr ⟨i, hb, hlt, hi⟩
  · rintro (⟨i, hle, hlt, hi⟩ | ⟨i, hle, hlt, hi⟩)
    · exact ⟨i, hle, by omega, hi⟩
    · exact ⟨i, by omega, hlt, hi⟩

/-- What a function that prints does: nothing is left but the text, or nothing at all when a
`malloc` has failed. -/
structure Printed (grant : ℕ → Bool) (h h' : Heap) (r : Option Ptr) (text : Text) : Prop where
  calls : h.calls ≤ h'.calls
  leaves : Leaves h.mem h'.mem [] (r.map Ptr.obj).toList
  fails : r = none ↔ Refused grant h.calls h'.calls
  fresh : ∀ p ∈ r, h.mem.objs.length ≤ p.obj
  text : ∀ p ∈ r, IsText h'.mem p text

/-- `malloc` fails, or gives an allocation with nothing in it. -/
theorem malloc_cases (grant : ℕ → Bool) (h : Heap) (n : ℕ) :
    (grant h.calls = false ∧ cJSONMalloc grant h n = (⟨h.mem, h.calls + 1⟩, none)) ∨
      ∃ mem p, grant h.calls = true ∧
        cJSONMalloc grant h n = (⟨mem, h.calls + 1⟩, some p) ∧ p.off = 0 ∧
        h.mem.objs.length ≤ p.obj ∧ mem.obj p.obj = some ⟨true, List.replicate n none⟩ ∧
        Leaves h.mem mem [] [p.obj] := by
  unfold cJSONMalloc
  cases hg : grant h.calls with
  | false => exact .inl ⟨rfl, rfl⟩
  | true =>
    exact .inr ⟨_, _, rfl, rfl, rfl, Nat.le_refl _, obj_add_self, leaves_add _⟩

theorem buffer_of_replicate (hobj : m.obj i = some ⟨true, List.replicate n none⟩) :
    m.Buffer i n [] := ⟨_, hobj, by simp⟩

/-- A call that fails leaves nothing. -/
theorem printed_none (hg : grant h.calls = false) :
    Printed grant h ⟨h.mem, h.calls + 1⟩ none text where
  calls := Nat.le_succ _
  leaves := Leaves.refl
  fails := iff_of_true rfl (refused_succ.mpr hg)
  fresh p hp := by cases hp
  text p hp := by cases hp

/-- One that is successful, and what is written into the allocation. -/
theorem printed_some {mem mem' : Objects Cell} (hg : grant h.calls = true)
    (hfresh : h.mem.objs.length ≤ p.obj) (hmalloc : Leaves h.mem mem [] [p.obj])
    (hwrite : Leaves mem mem' [p.obj] []) (htext : IsText mem' p text) :
    Printed grant h ⟨mem', h.calls + 1⟩ (some p) text where
  calls := Nat.le_succ _
  leaves := (hmalloc.trans hwrite).mono (by simp; omega) (by simp)
  fails := iff_of_false (by simp) (refused_succ.not.mpr (by simp [hg]))
  fresh q hq := Option.some.inj hq ▸ hfresh
  text q hq := Option.some.inj hq ▸ htext

theorem ptr_eq (hoff : p.off = 0) : (⟨p.obj, ([] : List Cell).length⟩ : Ptr) = p := by
  cases p
  simpa using hoff.symm

/-- **A string in a new allocation** that has room for it and its terminator. -/
theorem newString_spec (grant : ℕ → Bool) (h : Heap) (hlt : text.length < size) :
    ∃ h' r, newString grant h size text = some (h', r) ∧ Printed grant h h' r text := by
  unfold newString
  rcases malloc_cases grant h size with
    ⟨hg, hcall⟩ | ⟨mem, p, hg, hcall, hoff, hfresh, hobj, hleaves⟩
  · rw [hcall]
    exact ⟨_, _, rfl, printed_none hg⟩
  · rw [hcall]
    obtain ⟨mem', hrun, hbuf, hwrite⟩ := (buffer_of_replicate hobj).sprintf (bytes text)
      (by simpa using hlt)
    rw [ptr_eq hoff] at hrun
    exact ⟨_, _, by simp [hrun], printed_some hg hfresh hleaves hwrite ⟨hoff, size, hbuf⟩⟩

/-! ## Strings and numbers -/

/-- The characters that are counted twice are those with a letter of their own. -/
theorem length_escaped (c : UInt8) : (escaped c).length =
    1 + if c ∈ [quote, backslash, 0x08, 0x0C, newline, 0x0D, tab] then 1
      else if c < 32 then 5 else 0 := by
  by_cases hmem : c ∈ [quote, backslash, 0x08, 0x0C, newline, 0x0D, tab]
  · rw [if_pos hmem]
    simp only [List.mem_cons, List.not_mem_nil, or_false] at hmem
    rcases hmem with rfl | rfl | rfl | rfl | rfl | rfl | rfl <;> rfl
  · rw [if_neg hmem]
    simp only [List.mem_cons, List.not_mem_nil, or_false, not_or] at hmem
    obtain ⟨hquote, hesc, h8, hC, hn, hD, ht⟩ := hmem
    have hletter : escapeLetter c = none := by
      simp [escapeLetter, hquote, hesc, h8, hC, hn, hD, ht]
    by_cases hlt : c < 32
    · have hplain : ¬ Plain c := fun hp => by
        have h31 := hp.1
        rw [UInt8.lt_iff_toNat_lt] at hlt h31
        have h32 : (32 : UInt8).toNat = 32 := rfl
        have h31' : (31 : UInt8).toNat = 31 := rfl
        omega
      rw [escaped, if_neg hplain, hletter, if_pos hlt]
      rfl
    · have hplain : Plain c := by
        refine ⟨?_, hquote, hesc⟩
        rw [UInt8.lt_iff_toNat_lt] at hlt ⊢
        have h32 : (32 : UInt8).toNat = 32 := rfl
        have h31' : (31 : UInt8).toNat = 31 := rfl
        omega
      rw [escaped, if_pos hplain, if_neg hlt]
      rfl

theorem intNat_of_lt (hlt : n < 2 ^ 31) : intNat n = some n := if_pos hlt

theorem asInt_add (hlt : a + b < 2 ^ 31) : asInt (a + b) = ((a + b : ℕ) : ℤ) :=
  Int.bmod_eq_of_le_mul_two (by omega) (by omega)

theorem cJSONMallocInt_natCast (grant : ℕ → Bool) (h : Heap) (n : ℕ) :
    cJSONMallocInt grant h n = cJSONMalloc grant h n :=
  if_neg (Int.not_lt.mpr (Int.natCast_nonneg n))

/-- The loop counts the characters that are written, as long as an `int` can. -/
theorem countString_eq {len : ℕ} {str : Text}
    (hlt : len + (str.flatMap escaped).length < 2 ^ 31) :
    countString len str = some (len + (str.flatMap escaped).length) := by
  induction str generalizing len with
  | nil => rfl
  | cons c str ih =>
    rw [List.flatMap_cons, List.length_append, length_escaped, ← Nat.add_assoc,
      ← Nat.add_assoc] at hlt ⊢
    rw [countString, intNat_of_lt ((Nat.le_add_right _ _).trans_lt hlt)]
    exact ih hlt

theorem appends_printChar (m : Objects Cell) (i : ℕ) (c : UInt8) :
    Appends m i (printChar c) (bytes (escaped c)) := by
  unfold printChar escaped
  split
  · exact appends_putc _
  · refine (appends_putc _).seq ?_
    cases escapeLetter c with
    | none => exact appends_sprintf _
    | some letter => exact appends_putc _

theorem appends_printChars (m : Objects Cell) (i : ℕ) (str : Text) :
    Appends m i (printChars str) (bytes (str.flatMap escaped)) := by
  induction str with
  | nil => exact appends_puts []
  | cons c str ih =>
    rw [List.flatMap_cons, bytes_append]
    exact (appends_printChar m i c).seq ih

/-- **`print_string_ptr`** writes no more than it has counted. -/
theorem printStringPtr_spec (grant : ℕ → Bool) (h : Heap) {str : Option CString}
    (hshort : (renderString str).length < 2 ^ 29) :
    ∃ h' r, printStringPtr grant h str = some (h', r) ∧
      Printed grant h h' r (renderString str) := by
  cases str with
  | none => exact newString_spec grant h (Nat.lt_succ_self _)
  | some str =>
    have hlen : (str.1.flatMap escaped).length + 3 < 2 ^ 31 := by
      rw [renderString, List.length_cons, List.length_append, List.length_singleton] at hshort
      omega
    have hcount : countString 0 str.1 = some (str.1.flatMap escaped).length := by
      rw [countString_eq (by omega), Nat.zero_add]
    have hsize := intNat_of_lt hlen
    rcases malloc_cases grant h ((str.1.flatMap escaped).length + 3) with
      ⟨hg, hcall⟩ | ⟨mem, p, hg, hcall, hoff, hfresh, hobj, hleaves⟩
    · refine ⟨⟨h.mem, h.calls + 1⟩, none, ?_, printed_none hg⟩
      simp only [printStringPtr, hcount, Option.bind_eq_bind, Option.bind_some, hsize, hcall]
    · have happends := (appends_putc (m := mem) (i := p.obj) (.byte quote)).seq
        ((appends_printChars mem p.obj str.1).seq (appends_putc (.byte quote)))
      obtain ⟨mem', q, hrun, hbuf, hwrite⟩ := happends.finish (buffer_of_replicate hobj)
        (by simp) 0
      rw [ptr_eq hoff] at hrun
      refine ⟨⟨mem', h.calls + 1⟩, some p, ?_, printed_some hg hfresh hleaves hwrite
        ⟨hoff, (str.1.flatMap escaped).length + 3, ?_⟩⟩
      · simp only [printStringPtr, hcount, Option.bind_eq_bind, Option.bind_some, hsize, hcall,
          hrun, Option.map_some]
      · simpa [renderString, bytes] using hbuf

/-- No more than eleven characters for an `int`. -/
theorem length_decimal (v : Int32) : (decimal v.toInt).length ≤ 11 := by
  have hlt := v.toInt_lt
  have hle := v.le_toInt
  have hdigits : (Nat.digits 10 v.toInt.natAbs).length ≤ 10 :=
    (Nat.digits_length_le_iff (by decide) _).mpr (by omega)
  unfold decimal
  split <;> split <;> simp <;> omega

/-- The text of a number fits into what `print_number` allocates. -/
def Number.Fits : Number → Prop
  | .int _ => True
  | .double text => text.1.length < 64

theorem printNumber_spec (grant : ℕ → Bool) (h : Heap) {n : Number} (hn : Number.Fits n) :
    ∃ h' r, printNumber grant h n = some (h', r) ∧ Printed grant h h' r (renderNumber n) := by
  cases n with
  | int v => exact newString_spec grant h (Nat.lt_of_le_of_lt (length_decimal v) (by decide))
  | double text => exact newString_spec grant h hn

/-! ## Arrays of pointers -/

/-- The objects that the pointers point to. -/
def targets (ps : List (Option Ptr)) : List ℕ := ps.filterMap (·.map Ptr.obj)

@[simp] theorem targets_nil : targets [] = [] := rfl

@[simp] theorem targets_cons (p : Option Ptr) (ps : List (Option Ptr)) :
    targets (p :: ps) = (p.map Ptr.obj).toList ++ targets ps := by
  cases p <;> rfl

@[simp] theorem targets_append (ps qs : List (Option Ptr)) :
    targets (ps ++ qs) = targets ps ++ targets qs := List.filterMap_append

@[simp] theorem targets_replicate (n : ℕ) : targets (List.replicate n none) = [] := by
  induction n with
  | zero => rfl
  | succ n ih => simpa [List.replicate_succ] using ih

/-- The array at `t` is `ps`. -/
def Table (m : Objects Cell) (t : Ptr) (ps : List (Option Ptr)) : Prop :=
  t.off = 0 ∧ m.obj t.obj = some ⟨true, ps.map fun p => some (.pointer p)⟩

namespace Table

variable {t : Ptr} {ps qs : List (Option Ptr)} {changed live : List ℕ}

theorem kept (ht : Table m t ps) (hleaves : Leaves m m' changed live) (hnot : t.obj ∉ changed) :
    Table m' t ps := ⟨ht.1, hleaves.obj_eq ht.2 hnot⟩

theorem entryAt_eq {r : Option Ptr} (ht : Table m t (ps ++ r :: qs)) :
    entryAt m t ps.length = some r := by
  have hload : m.load (t.plus ps.length) = some (.pointer r) := by
    refine load_eq_some.mpr ⟨_, ht.2, ?_⟩
    simp [ht.1]
  rw [entryAt, hload]
  rfl

theorem entryAt_map {β : Type} {pre rs : List β} {r : β} (f : β → Option Ptr)
    (ht : Table m t ((pre ++ r :: rs).map f)) : entryAt m t pre.length = some (f r) := by
  rw [List.map_append, List.map_cons] at ht
  simpa using ht.entryAt_eq

theorem store {r : Option Ptr} (ht : Table m t (ps ++ r :: qs)) (r' : Option Ptr) :
    ∃ m', m.store (t.plus ps.length) (.pointer r') = some m' ∧ Table m' t (ps ++ r' :: qs) ∧
      Leaves m m' [t.obj] [] := by
  obtain ⟨m', hm'⟩ := store_of_lt (p := t.plus ps.length) (a := Cell.pointer r') ht.2
    (by simp [ht.1])
  obtain ⟨o, ho, -, hself, -⟩ := store_spec hm'
  have hleaves := leaves_store hm'
  simp only [Ptr.plus_obj, Ptr.plus_off] at ho hself hleaves
  obtain rfl := Option.some.inj (ht.2.symm.trans ho)
  refine ⟨m', hm', ⟨ht.1, ?_⟩, hleaves⟩
  rw [hself]
  simp [ht.1]

theorem free (ht : Table m t ps) :
    ∃ m', m.free t = some m' ∧ m'.obj t.obj = none ∧ Leaves m m' [t.obj] [] := by
  obtain ⟨m', hm'⟩ := free_of_freeable ⟨ht.1, _, ht.2, rfl⟩
  exact ⟨m', hm', (free_spec hm').2.1, leaves_free hm'⟩

end Table

theorem clearEntries_spec {t : Ptr} (hoff : t.off = 0)
    (hobj : m.obj t.obj = some ⟨true, List.replicate n none⟩) :
    ∃ m', clearEntries m t n = some m' ∧ Table m' t (List.replicate n none) ∧
      Leaves m m' [t.obj] [] := by
  obtain ⟨m', hm'⟩ : ∃ m', clearEntries m t n = some m' := write_of_le hobj (by simp [hoff])
  obtain ⟨o, ho, -, hself, -⟩ := write_spec hm'
  obtain rfl := Option.some.inj (hobj.symm.trans ho)
  refine ⟨m', hm', ⟨hoff, ?_⟩, leaves_write hm'⟩
  rw [hself]
  simp [hoff]

/-- What the pointers point to are the texts. -/
def Texts (m : Objects Cell) (ps : List (Option Ptr)) (texts : List Text) : Prop :=
  List.Forall₂ (fun r text => ∀ p ∈ r, IsText m p text) ps texts

theorem Texts.kept {ps : List (Option Ptr)} {texts : List Text} {changed live : List ℕ}
    (htexts : Texts m ps texts) (hleaves : Leaves m m' changed live)
    (hnot : ∀ j ∈ targets ps, j ∉ changed) : Texts m' ps texts := by
  induction htexts with
  | nil => exact .nil
  | cons hp _ ih =>
    rw [targets_cons, List.forall_mem_append] at hnot
    refine .cons (fun p hmem => (hp p hmem).kept hleaves (hnot.1 p.obj ?_)) (ih hnot.2)
    rw [Option.mem_def.mp hmem]
    exact List.mem_singleton_self _

/-- An array of nothing but `NULL`. -/
theorem texts_replicate (m : Objects Cell) (texts : List Text) :
    Texts m (List.replicate texts.length none) texts := by
  induction texts with
  | nil => exact .nil
  | cons text texts ih => exact .cons (fun p hp => by cases hp) ih

theorem Texts.lt {ps : List (Option Ptr)} {texts : List Text} (htexts : Texts m ps texts) :
    ∀ j ∈ targets ps, j < m.objs.length := by
  induction htexts with
  | nil => simp
  | @cons r text ps texts hp _ ih =>
    rw [targets_cons, List.forall_mem_append]
    refine ⟨fun j hj => ?_, ih⟩
    obtain ⟨p, hmem, rfl⟩ := Option.map_eq_some_iff.mp (Option.mem_toList.mp hj)
    obtain ⟨-, size, hbuf⟩ := hp p hmem
    exact hbuf.lt

/-! ## Freeing them -/

/-- Each of the strings is freed. -/
def freeAll : List (Option Ptr) → Objects Cell → Option (Objects Cell)
  | [], m => some m
  | none :: ps, m => freeAll ps m
  | some p :: ps, m => (m.free p).bind (freeAll ps)

theorem IsText.free (hp : IsText m p text) :
    ∃ m', m.free p = some m' ∧ m'.obj p.obj = none ∧ Leaves m m' [p.obj] [] := by
  obtain ⟨hoff, size, hbuf⟩ := hp
  have hfree := hbuf.free
  rwa [← hoff] at hfree

theorem freeAll_spec {ps : List (Option Ptr)} {texts : List Text} (htexts : Texts m ps texts)
    (hnodup : (targets ps).Nodup) :
    ∃ m', freeAll ps m = some m' ∧ (∀ j ∈ targets ps, m'.obj j = none) ∧
      Leaves m m' (targets ps) [] := by
  induction ps generalizing m texts with
  | nil => exact ⟨m, rfl, by simp, Leaves.refl⟩
  | cons r ps ih =>
    cases htexts with
    | cons hp htexts =>
      cases r with
      | none => exact ih htexts hnodup
      | some p =>
        obtain ⟨hnot, hnodup⟩ := List.nodup_cons.mp hnodup
        obtain ⟨m₁, hfree, hgone, hleaves⟩ := (hp p rfl).free
        have htexts₁ := Texts.kept htexts hleaves fun j hj hmem =>
          hnot (List.mem_singleton.mp hmem ▸ hj)
        obtain ⟨m', hall, hgone', hleaves'⟩ := ih htexts₁ hnodup
        refine ⟨m', by rw [freeAll, hfree]; exact hall, ?_, hleaves.trans hleaves'⟩
        refine hleaves.gone_append hleaves' [p.obj] ?_ (by simpa using hgone) hgone'
        exact fun j hj => Texts.lt (.cons hp htexts) j (List.mem_append_left _ hj)

theorem freeEntry_eq {t : Ptr} {r : Option Ptr} (hentry : entryAt m t i = some r) :
    freeEntry m t i = freeAll [r] m := by
  rw [freeEntry, hentry]
  cases r with
  | none => rfl
  | some p => exact (Option.bind_fun_some (m.free p)).symm

/-- Strings are freed, and what else there is stays. -/
theorem leaves_freeAll {ps : List (Option Ptr)} (hfree : freeAll ps m = some m') :
    Leaves m m' (targets ps) [] := by
  induction ps generalizing m with
  | nil =>
    obtain rfl := Option.some.inj hfree
    exact Leaves.refl
  | cons r ps ih =>
    cases r with
    | none => exact ih hfree
    | some p =>
      obtain ⟨m₁, hfree₁, hrest⟩ := Option.bind_eq_some_iff.mp hfree
      exact (leaves_free hfree₁).trans (ih hrest)

theorem freeAll_cons (r : Option Ptr) (ps : List (Option Ptr)) (m : Objects Cell) :
    freeAll (r :: ps) m = (freeAll [r] m).bind (freeAll ps) := by
  cases r with
  | none => rfl
  | some p =>
    rw [freeAll, freeAll, Option.bind_assoc]
    rfl

theorem freeItems_eq {t : Ptr} (pre : List (Option Ptr)) {ps : List (Option Ptr)}
    (ht : Table m t (pre ++ ps)) (hnot : t.obj ∉ targets ps) :
    freeItems t ps.length pre.length m = freeAll ps m := by
  induction ps generalizing m pre with
  | nil => rfl
  | cons r ps ih =>
    rw [targets_cons, List.mem_append, not_or] at hnot
    rw [List.length_cons, freeItems, freeEntry_eq ht.entryAt_eq, freeAll_cons r ps]
    refine Option.bind_congr fun m₁ hfree => ?_
    have ht₁ : Table m₁ t ((pre ++ [r]) ++ ps) := by
      rw [List.append_assoc]
      exact ht.kept (leaves_freeAll hfree) (by simpa using hnot.1)
    simpa using ih _ ht₁ hnot.2

/-- The pointers of two arrays, by their members. -/
def flat (ps : List (Option Ptr × Option Ptr)) : List (Option Ptr) := ps.flatMap fun p => [p.1, p.2]

theorem flat_cons (p : Option Ptr × Option Ptr) (ps : List (Option Ptr × Option Ptr)) :
    flat (p :: ps) = [p.1, p.2] ++ flat ps := rfl

theorem targets_flat_cons (r : Option Ptr × Option Ptr) (ps : List (Option Ptr × Option Ptr)) :
    targets (flat (r :: ps)) = targets [r.1] ++ (targets [r.2] ++ targets (flat ps)) := by
  rw [← targets_append, ← targets_append]
  rfl

theorem freeMembers_eq {names entries : Ptr} (pre : List (Option Ptr × Option Ptr))
    {ps : List (Option Ptr × Option Ptr)}
    (hnames : Table m names ((pre ++ ps).map Prod.fst))
    (hentries : Table m entries ((pre ++ ps).map Prod.snd))
    (hnot : names.obj ∉ targets (flat ps)) (hnot' : entries.obj ∉ targets (flat ps)) :
    freeMembers names entries ps.length pre.length m = freeAll (flat ps) m := by
  induction ps generalizing m pre with
  | nil => rfl
  | cons r ps ih =>
    simp only [targets_flat_cons, List.mem_append, not_or] at hnot hnot'
    obtain ⟨hnot₁, hnot₂, hnot⟩ := hnot
    obtain ⟨hnot₁', hnot₂', hnot'⟩ := hnot'
    rw [List.length_cons, freeMembers, freeEntry_eq (hnames.entryAt_map Prod.fst), flat_cons,
      List.cons_append, List.singleton_append, freeAll_cons r.1 (r.2 :: flat ps)]
    refine Option.bind_congr fun m₁ hfree => ?_
    have hnames₁ := hnames.kept (leaves_freeAll hfree) hnot₁
    have hentries₁ := hentries.kept (leaves_freeAll hfree) hnot₁'
    rw [freeEntry_eq (hentries₁.entryAt_map Prod.snd), freeAll_cons r.2 (flat ps)]
    refine Option.bind_congr fun m₂ hfree₂ => ?_
    have hnames₂ := hnames₁.kept (leaves_freeAll hfree₂) hnot₂
    have hentries₂ := hentries₁.kept (leaves_freeAll hfree₂) hnot₂'
    rw [List.append_cons] at hnames₂ hentries₂
    simpa using ih _ hnames₂ hentries₂ hnot hnot'

/-! ## Composing the output -/

/-- What a turn of a loop writes, and the strings it frees then. -/
theorem compose_turn {w : Writer Cell} {out : ℕ} {written as : List Cell}
    {ps : List (Option Ptr)} {texts : List Text} (hw : Appends m out w as)
    (hbuf : m.Buffer out size written) (hlt : written.length + as.length < size)
    (htexts : Texts m ps texts) (hnodup : (targets ps).Nodup) (hout : out ∉ targets ps) :
    ∃ m₁ m₂, w m ⟨out, written.length⟩ = some (m₁, ⟨out, (written ++ as).length⟩) ∧
      freeAll ps m₁ = some m₂ ∧ m₂.Buffer out size (written ++ as) ∧
      Leaves m m₁ [out] [] ∧ Leaves m₁ m₂ (targets ps) [] ∧ ∀ j ∈ targets ps, m₂.obj j = none := by
  obtain ⟨m₁, hrun, hbuf₁, hleaves⟩ := hw.run hbuf hlt
  have htexts₁ := htexts.kept hleaves fun j hj hmem => hout (List.mem_singleton.mp hmem ▸ hj)
  obtain ⟨m₂, hfree, hgone, hleaves₂⟩ := freeAll_spec htexts₁ hnodup
  exact ⟨m₁, m₂, hrun, hfree, hbuf₁.kept hleaves₂ hout, hleaves, hleaves₂, hgone⟩

/-- A turn of the last loop of `print_array`, without the `free`. -/
def writeItem (fmt : Bool) (n : ℕ) (entry : Ptr) : Writer Cell :=
  (strcpy entry).seq (if n = 0 then puts [] else (puts (bytes (separator fmt))).seq mark)

theorem composeItems_succ {fmt : Bool} {t : Ptr} {pre qs : List (Option Ptr)}
    (ht : Table m t (pre ++ some p :: qs)) :
    composeItems fmt t (n + 1) pre.length m q =
      (writeItem fmt n p m q).bind fun r => (freeAll [some p] r.1).bind fun m =>
        composeItems fmt t n (pre.length + 1) m r.2 := by
  have hfree : ∀ m, freeAll [some p] m = m.free p := fun m => Option.bind_fun_some _
  rw [composeItems, ht.entryAt_eq, writeItem, Writer.seq]
  by_cases hn : n = 0
  · simp [hn, hfree, puts]
  · simp [hn, hfree, Option.bind_assoc]

theorem appends_writeItem {fmt : Bool} {out : ℕ} (hp : IsText m p text)
    (hzero : (0 : UInt8) ∉ text) (hne : p.obj ≠ out) :
    Appends m out (writeItem fmt n p) (bytes (text ++ if n = 0 then [] else separator fmt)) := by
  rw [bytes_append]
  refine (appends_strcpy (hp.str hzero) hne).seq ?_
  split
  · exact appends_puts []
  · simpa using (appends_puts (bytes (separator fmt))).seq appends_mark

/-- **The last loop of `print_array`.** -/
theorem composeItems_spec (fmt : Bool) {t : Ptr} {out : ℕ} (pre : List (Option Ptr))
    {ps : List Ptr} {texts : List Text} {written : List Cell}
    (ht : Table m t (pre ++ ps.map some)) (htexts : Texts m (ps.map some) texts)
    (hzero : ∀ text ∈ texts, (0 : UInt8) ∉ text) (hnodup : (targets (ps.map some)).Nodup)
    (hnot : t.obj ∉ targets (ps.map some)) (hout : out ∉ targets (ps.map some))
    (hne : t.obj ≠ out) (hbuf : m.Buffer out size written)
    (hlt : written.length + (joinItems fmt texts).length < size) :
    ∃ m', composeItems fmt t ps.length pre.length m ⟨out, written.length⟩ =
        some (m', ⟨out, (written ++ bytes (joinItems fmt texts)).length⟩) ∧
      m'.Buffer out size (written ++ bytes (joinItems fmt texts)) ∧
      (∀ j ∈ targets (ps.map some), m'.obj j = none) ∧
      Leaves m m' (out :: targets (ps.map some)) [] := by
  induction ps generalizing m pre texts written with
  | nil =>
    cases htexts with
    | nil =>
      refine ⟨m, ?_, ?_, by simp, Leaves.refl.mono (by simp) (by simp)⟩
      · simp [composeItems, joinItems, bytes]
      · simpa [joinItems, bytes] using hbuf
  | cons p ps ih =>
    cases htexts with
    | @cons _ text _ texts hp htexts =>
      rw [List.map_cons, targets_cons] at hnodup hnot hout
      obtain ⟨hzero₁, hzero⟩ := List.forall_mem_cons.mp hzero
      obtain ⟨hnodup₁, hnodup, hdisj⟩ := List.nodup_append.mp hnodup
      rw [List.mem_append, not_or] at hnot hout
      have hlen : ps.length = 0 ↔ texts = [] := by
        rw [← List.length_map (f := some), List.Forall₂.length_eq htexts,
          List.length_eq_zero_iff]
      have hw : Appends m out (writeItem fmt ps.length p) _ :=
        appends_writeItem (hp p rfl) hzero₁ fun heq => hout.1 (by simp [heq])
      simp only [joinItems, List.length_append] at hlt
      simp only [hlen] at hw
      obtain ⟨m₁, m₂, hrun, hfree, hbuf₂, hleaves₁, hleaves₂, hgone⟩ := compose_turn hw hbuf
        (by simp only [List.length_append, length_bytes]; omega) (.cons hp .nil) (by simp)
        (by simpa using hout.1)
      have hleaves := hleaves₁.trans hleaves₂
      have hother : ∀ j ∈ targets (ps.map some), j ∉ [out] ++ targets [some p] := by
        intro j hj hmem
        rcases List.mem_cons.mp hmem with rfl | hmem
        · exact hout.2 hj
        · exact hdisj j (by simpa using hmem) j hj rfl
      have ht₂ := ht.kept hleaves (by simpa [hne] using hnot.1)
      rw [List.map_cons, List.append_cons] at ht₂
      obtain ⟨m', hrec, hbuf', hgone', hleaves'⟩ := ih _ ht₂
        (Texts.kept htexts hleaves hother) hzero hnodup hnot.2 hout.2 hbuf₂
        (by simp only [List.length_append, length_bytes]; omega)
      have hjoin : bytes (joinItems fmt (text :: texts)) =
          bytes (text ++ if texts = [] then [] else separator fmt) ++
            bytes (joinItems fmt texts) := by
        rw [joinItems, bytes_append]
      rw [List.length_append] at hrec
      rw [hjoin, ← List.append_assoc]
      refine ⟨m', ?_, hbuf', ?_, (hleaves.trans hleaves').mono ?_ (by simp)⟩
      · rw [List.length_cons, composeItems_succ ht, hrun, Option.bind_some, hfree]
        exact hrec
      · rw [List.map_cons, targets_cons]
        refine hleaves.gone_append hleaves' _ (fun j hj => ?_) (by simpa using hgone) hgone'
        exact Texts.lt (.cons hp htexts) j (List.mem_append_left _ hj)
      · intro j hj _
        simp only [List.map_cons, targets_cons, targets_nil, List.mem_append, List.mem_cons] at hj ⊢
        grind

/-- What `print_object` writes for a name, and for a value. -/
def writeName (fmt : Bool) (name : Ptr) : Writer Cell :=
  (strcpy name).seq (puts (bytes (colon :: formatted fmt tab)))

def writeEntry (fmt : Bool) (n : ℕ) (entry : Ptr) : Writer Cell :=
  (strcpy entry).seq ((puts (bytes ((if n = 0 then [] else [comma]) ++ formatted fmt newline))).seq
    mark)

theorem composeMembers_succ {fmt : Bool} {depth : ℕ} {names entries name entry : Ptr}
    {r₁ r₂ r₃ : Objects Cell × Ptr} (htabs : puts (bytes (tabs fmt depth)) m q = some r₁)
    (hname : entryAt r₁.1 names i = some (some name))
    (hwrite : writeName fmt name r₁.1 r₁.2 = some r₂)
    (hentry : entryAt r₂.1 entries i = some (some entry))
    (hwrite' : writeEntry fmt n entry r₂.1 r₂.2 = some r₃)
    (hfree : freeAll [some name, some entry] r₃.1 = some m') :
    composeMembers fmt depth names entries (n + 1) i m q =
      composeMembers fmt depth names entries n (i + 1) m' r₃.2 := by
  obtain ⟨r, hcopy, hcolon⟩ := Option.bind_eq_some_iff.mp hwrite
  obtain ⟨r', hcopy', hcomma⟩ := Option.bind_eq_some_iff.mp hwrite'
  obtain ⟨m₁, hfree₁, hfree₂⟩ := Option.bind_eq_some_iff.mp hfree
  replace hfree₂ : m₁.free entry = some m' := (Option.bind_fun_some _).symm.trans hfree₂
  simp [-bytes_append, composeMembers, htabs, hname, hcopy, hcolon, hentry, hcopy', hcomma, hfree₁,
    hfree₂]

theorem appends_writeName {fmt : Bool} {out : ℕ} (hp : IsText m p text)
    (hzero : (0 : UInt8) ∉ text) (hne : p.obj ≠ out) :
    Appends m out (writeName fmt p) (bytes (text ++ (colon :: formatted fmt tab))) := by
  rw [bytes_append]
  exact (appends_strcpy (hp.str hzero) hne).seq (appends_puts _)

theorem appends_writeEntry {fmt : Bool} {out : ℕ} (hp : IsText m p text)
    (hzero : (0 : UInt8) ∉ text) (hne : p.obj ≠ out) :
    Appends m out (writeEntry fmt n p)
      (bytes (text ++ ((if n = 0 then [] else [comma]) ++ formatted fmt newline))) := by
  rw [bytes_append]
  refine (appends_strcpy (hp.str hzero) hne).seq ?_
  simpa only [List.append_nil] using (appends_puts _).seq appends_mark

/-- The texts of two arrays, by their members. -/
def flatTexts (texts : List (Text × Text)) : List Text := texts.flatMap fun t => [t.1, t.2]

/-- The pointers of members that are all there. -/
def somes (ps : List (Ptr × Ptr)) : List (Option Ptr × Option Ptr) :=
  ps.map fun p => (some p.1, some p.2)

theorem somes_cons (p : Ptr × Ptr) (ps : List (Ptr × Ptr)) :
    somes (p :: ps) = (some p.1, some p.2) :: somes ps := rfl

theorem length_eq_zero_of_texts {ps : List (Ptr × Ptr)} {texts : List (Text × Text)}
    (htexts : Texts m (flat (somes ps)) (flatTexts texts)) : ps.length = 0 ↔ texts = [] := by
  cases ps with
  | nil =>
    cases texts with
    | nil => simp
    | cons t texts => cases htexts
  | cons p ps =>
    cases texts with
    | nil => cases htexts
    | cons t texts => simp

/-- **The last loop of `print_object`.** -/
theorem composeMembers_spec (fmt : Bool) (depth : ℕ) {names entries : Ptr} {out : ℕ}
    (pre : List (Option Ptr × Option Ptr)) {ps : List (Ptr × Ptr)} {texts : List (Text × Text)}
    {written : List Cell} (hnames : Table m names ((pre ++ somes ps).map Prod.fst))
    (hentries : Table m entries ((pre ++ somes ps).map Prod.snd))
    (htexts : Texts m (flat (somes ps)) (flatTexts texts))
    (hzero : ∀ text ∈ flatTexts texts, (0 : UInt8) ∉ text)
    (hnodup : (targets (flat (somes ps))).Nodup) (hnot : names.obj ∉ targets (flat (somes ps)))
    (hnot' : entries.obj ∉ targets (flat (somes ps))) (hout : out ∉ targets (flat (somes ps)))
    (hne : names.obj ≠ out) (hne' : entries.obj ≠ out) (hbuf : m.Buffer out size written)
    (hlt : written.length + (joinMembers fmt depth texts).length < size) :
    ∃ m', composeMembers fmt depth names entries ps.length pre.length m ⟨out, written.length⟩ =
        some (m', ⟨out, (written ++ bytes (joinMembers fmt depth texts)).length⟩) ∧
      m'.Buffer out size (written ++ bytes (joinMembers fmt depth texts)) ∧
      (∀ j ∈ targets (flat (somes ps)), m'.obj j = none) ∧
      Leaves m m' (out :: targets (flat (somes ps))) [] := by
  induction ps generalizing m pre texts written with
  | nil =>
    cases texts with
    | nil =>
      refine ⟨m, ?_, ?_, by simp [somes, flat], Leaves.refl.mono (by simp) (by simp)⟩
      · simp [composeMembers, joinMembers, bytes]
      · simpa [joinMembers, bytes] using hbuf
    | cons t texts => cases htexts
  | cons p ps ih =>
    cases texts with
    | nil => cases htexts
    | cons t texts =>
      replace htexts : Texts m (some p.1 :: some p.2 :: flat (somes ps))
        (t.1 :: t.2 :: flatTexts texts) := htexts
      obtain ⟨hp, hq, htexts⟩ : (∀ q ∈ some p.1, IsText m q t.1) ∧
          (∀ q ∈ some p.2, IsText m q t.2) ∧ Texts m (flat (somes ps)) (flatTexts texts) := by
        simpa only [Texts, List.forall₂_cons] using htexts
      obtain ⟨hzero₁, hzero₂, hzero⟩ : (0 : UInt8) ∉ t.1 ∧ (0 : UInt8) ∉ t.2 ∧
          ∀ text ∈ flatTexts texts, (0 : UInt8) ∉ text := by
        simpa only [flatTexts, List.flatMap_cons, List.cons_append, List.nil_append,
          List.forall_mem_cons] using hzero
      have htargets : targets (flat (somes (p :: ps))) =
        p.1.obj :: p.2.obj :: targets (flat (somes ps)) := rfl
      rw [htargets] at hnodup hnot hnot' hout
      obtain ⟨hnodup₁, hnodup⟩ := List.nodup_cons.mp hnodup
      obtain ⟨hnodup₂, hnodup⟩ := List.nodup_cons.mp hnodup
      simp only [List.mem_cons, not_or] at hnodup₁ hnot hnot' hout
      have hlen := length_eq_zero_of_texts htexts
      simp only [joinMembers, List.length_append] at hlt
      -- the tabs, then the name, then the value and what follows it
      obtain ⟨m₁, htabs, hbuf₁, hleaves₁⟩ :=
        (appends_puts (m := m) (i := out) (bytes (tabs fmt depth))).run hbuf (by
          simp only [length_bytes]
          omega)
      have hp₁ := (hp p.1 rfl).kept hleaves₁ (by simpa using Ne.symm hout.1)
      have hname : Appends m₁ out (writeName fmt p.1) _ :=
        appends_writeName hp₁ hzero₁ (Ne.symm hout.1)
      obtain ⟨m₂, hwrite, hbuf₂, hleaves₂⟩ := hname.run hbuf₁ (by
        simp only [List.length_append, length_bytes]
        omega)
      have hleaves₁₂ := hleaves₁.again hleaves₂
      have hq₂ := (hq p.2 rfl).kept hleaves₁₂ (by simpa using Ne.symm hout.2.1)
      have hentry : Appends m₂ out (writeEntry fmt ps.length p.2) _ :=
        appends_writeEntry hq₂ hzero₂ (Ne.symm hout.2.1)
      simp only [hlen] at hentry
      have hfreed : Texts m₂ [some p.1, some p.2] [t.1, t.2] :=
        Texts.kept (.cons hp (.cons hq .nil)) hleaves₁₂ (by simp [Ne.symm hout.1, Ne.symm hout.2.1])
      obtain ⟨m₃, m₄, hwrite', hfree, hbuf₄, hleaves₃, hleaves₄, hgone⟩ := compose_turn hentry hbuf₂
        (by
          simp only [List.length_append, length_bytes]
          omega) hfreed (by simp [hnodup₁.1]) (by simp [hout.1, hout.2.1])
      have hleaves := hleaves₁₂.trans (hleaves₃.trans hleaves₄)
      have hother : ∀ j ∈ targets (flat (somes ps)),
          j ∉ [out] ++ ([out] ++ targets [some p.1, some p.2]) := by
        rintro j hj hmem
        simp only [targets_cons, targets_nil, List.mem_append, List.mem_cons, List.not_mem_nil,
          or_false, Option.map_some, Option.toList_some] at hmem
        rcases hmem with rfl | rfl | rfl | rfl
        · exact hout.2.2 hj
        · exact hout.2.2 hj
        · exact hnodup₁.2 hj
        · exact hnodup₂ hj
      have hname₁ := (hnames.kept hleaves₁ (by simp [hne])).entryAt_map Prod.fst
      have hentry₂ := (hentries.kept hleaves₁₂ (by simp [hne'])).entryAt_map Prod.snd
      have hnames₄ := hnames.kept hleaves (by simp [hne, hnot.1, hnot.2.1])
      have hentries₄ := hentries.kept hleaves (by simp [hne', hnot'.1, hnot'.2.1])
      rw [somes_cons, List.append_cons] at hnames₄ hentries₄
      obtain ⟨m', hrec, hbuf', hgone', hleaves'⟩ := ih _ hnames₄ hentries₄
        (htexts.kept hleaves hother) hzero hnodup hnot.2.2 hnot'.2.2
        hout.2.2 hbuf₄ (by simp only [List.length_append, length_bytes]; omega)
      have hjoin : bytes (joinMembers fmt depth (t :: texts)) = bytes (tabs fmt depth) ++
          (bytes (t.1 ++ (colon :: formatted fmt tab)) ++ (bytes (t.2 ++
            ((if texts = [] then [] else [comma]) ++ formatted fmt newline)) ++
              bytes (joinMembers fmt depth texts))) := by
        simp only [joinMembers, ← bytes_append, List.append_assoc, List.cons_append]
      rw [List.length_append] at hrec
      rw [hjoin]
      simp only [← List.append_assoc] at hwrite' hbuf' hrec ⊢
      refine ⟨m', ?_, hbuf', ?_, (hleaves.trans hleaves').mono ?_ (by simp)⟩
      · rw [List.length_cons, composeMembers_succ htabs hname₁ hwrite hentry₂ hwrite' hfree]
        exact hrec
      · rw [htargets]
        refine hleaves.gone_append hleaves' [p.1.obj, p.2.obj] (fun j hj => ?_) hgone hgone'
        exact Texts.lt (.cons hp (.cons hq .nil)) j hj
      · intro j hj _
        simp only [htargets, targets_cons, targets_nil, List.mem_append, List.mem_cons] at hj ⊢
        grind

end Print

end Dungeon

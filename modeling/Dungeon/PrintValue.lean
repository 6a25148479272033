import Dungeon.PrintMemory

/-!
# Printing a tree (`cJSON.c`)

`print_value` in a memory where each `malloc` may fail.

- `Filled`: what the loops over the children have done; `Finished`: what is done behind them.
- `printValue_spec`: the steps of all functions together.
-/

namespace Dungeon

open JsonText

namespace Print

open Objects

variable {grant : ℕ → Bool} {h h₁ h₂ h' : Heap} {m m' : Objects Cell} {t p : Ptr} {fmt : Bool}
  {depth : ℕ} {text : Text} {texts texts' : List Text} {ps qs : List (Option Ptr)}
  {r : Option Ptr} {changed old : List ℕ}

/-! ## No zero in a text -/

theorem isHex_hexDigit {n : UInt8} (hn : n < 16) : IsHex (hexDigit n) := by
  have hall : ∀ k < 16, IsHex (hexDigit (UInt8.ofNat k)) := by decide
  have h := hall n.toNat (UInt8.lt_iff_toNat_lt.mp hn)
  rwa [UInt8.ofNat_toNat] at h

theorem div_lt (token : UInt8) : token / 16 < 16 := by
  rw [UInt8.lt_iff_toNat_lt, UInt8.toNat_div]
  exact Nat.div_lt_of_lt_mul token.toNat_lt

theorem mod_lt (token : UInt8) : token % 16 < 16 := by
  rw [UInt8.lt_iff_toNat_lt, UInt8.toNat_mod]
  exact Nat.mod_lt _ (by decide)

theorem zero_notMem_unicode (token : UInt8) : (0 : UInt8) ∉ unicode token := by
  have hne : ∀ {c : UInt8}, IsHex c → 0 ≠ c := by
    rintro c hc rfl
    exact absurd hc (by decide)
  simp only [unicode, List.mem_cons, List.not_mem_nil, or_false, not_or]
  exact ⟨by decide, by decide, by decide, hne (isHex_hexDigit (div_lt token)),
    hne (isHex_hexDigit (mod_lt token))⟩

theorem zero_notMem_escaped (c : UInt8) : (0 : UInt8) ∉ escaped c := by
  unfold escaped
  split
  · rename_i hplain
    rw [List.mem_singleton]
    rintro rfl
    exact absurd hplain.1 (by decide)
  · rw [List.mem_cons, not_or]
    refine ⟨by decide, ?_⟩
    cases hletter : escapeLetter c with
    | none => exact zero_notMem_unicode c
    | some letter =>
      have hne : letter ≠ 0 := by
        unfold escapeLetter at hletter
        split_ifs at hletter <;> exact Option.some.inj hletter ▸ by decide
      simpa using Ne.symm hne

theorem zero_notMem_renderString (str : Option CString) : (0 : UInt8) ∉ renderString str := by
  cases str with
  | none => exact List.not_mem_nil
  | some str =>
    simp only [renderString, List.mem_cons, List.mem_append, List.mem_flatMap, List.not_mem_nil,
      or_false, not_or]
    refine ⟨by decide, ?_, by decide⟩
    rintro ⟨c, -, hc⟩
    exact zero_notMem_escaped c hc

theorem zero_notMem_decimal (v : ℤ) : (0 : UInt8) ∉ decimal v := by
  have hdigit : ∀ d < 10, zero + d.toUInt8 ≠ 0 := by decide
  unfold decimal
  rw [List.mem_append, not_or]
  refine ⟨by split <;> decide, ?_⟩
  split
  · decide
  · intro hmem
    obtain ⟨d, hd, heq⟩ := List.mem_map.mp hmem
    exact hdigit d (Nat.digits_lt_base (by decide) (List.mem_reverse.mp hd)) heq

theorem zero_notMem_renderNumber (n : Number) : (0 : UInt8) ∉ renderNumber n := by
  cases n with
  | int v => exact zero_notMem_decimal v.toInt
  | double text => exact text.2

theorem zero_notMem_formatted (fmt : Bool) {c : UInt8} (hc : c ≠ 0) :
    (0 : UInt8) ∉ formatted fmt c := by
  cases fmt <;> simp [formatted, Ne.symm hc]

theorem zero_notMem_tabs (depth : ℕ) : (0 : UInt8) ∉ tabs fmt depth := by
  cases fmt with
  | false => exact List.not_mem_nil
  | true =>
    intro hmem
    exact absurd (List.eq_of_mem_replicate hmem) (by decide)

theorem zero_notMem_joinItems (hzero : ∀ text ∈ texts, (0 : UInt8) ∉ text) :
    (0 : UInt8) ∉ joinItems fmt texts := by
  induction texts with
  | nil => exact List.not_mem_nil
  | cons text texts ih =>
    obtain ⟨htext, htexts⟩ := List.forall_mem_cons.mp hzero
    have hsep : (0 : UInt8) ∉ separator fmt := by cases fmt <;> decide
    rw [joinItems, List.mem_append, List.mem_append, not_or, not_or]
    refine ⟨⟨htext, ?_⟩, ih htexts⟩
    split
    · exact List.not_mem_nil
    · exact hsep

theorem zero_notMem_joinMembers {members : List (Text × Text)}
    (hzero : ∀ e ∈ members, (0 : UInt8) ∉ e.1 ∧ (0 : UInt8) ∉ e.2) :
    (0 : UInt8) ∉ joinMembers fmt depth members := by
  induction members with
  | nil => exact List.not_mem_nil
  | cons e members ih =>
    obtain ⟨⟨hname, hvalue⟩, hmembers⟩ := List.forall_mem_cons.mp hzero
    have htab := zero_notMem_formatted fmt (c := tab) (by decide)
    have hnewline := zero_notMem_formatted fmt (c := newline) (by decide)
    simp only [joinMembers, List.mem_append, List.mem_cons, not_or]
    refine ⟨⟨zero_notMem_tabs depth, hname, ⟨by decide, htab⟩, hvalue, ?_, hnewline⟩, ih hmembers⟩
    split <;> decide

theorem zero_notMem_render (fmt : Bool) (depth : ℕ) (node : Node) :
    (0 : UInt8) ∉ render fmt depth node := by
  induction node using Node.induction generalizing depth with
  | null => exact show (0 : UInt8) ∉ wordNull by decide
  | false => exact show (0 : UInt8) ∉ wordFalse by decide
  | true => exact show (0 : UInt8) ∉ wordTrue by decide
  | number n => exact zero_notMem_renderNumber n
  | string s => exact zero_notMem_renderString s
  | array items ih =>
    have hitems : (0 : UInt8) ∉ joinItems fmt (renderItems fmt (depth + 1) items) := by
      refine zero_notMem_joinItems fun text hmem => ?_
      rw [renderItems_eq] at hmem
      obtain ⟨child, hchild, rfl⟩ := List.mem_map.mp hmem
      exact ih child hchild (depth + 1)
    simp only [render, List.mem_cons, List.mem_append, List.not_mem_nil, or_false, not_or]
    exact ⟨by decide, hitems, by decide⟩
  | object members ih =>
    have hmembers : (0 : UInt8) ∉
        joinMembers fmt (depth + 1) (renderMembers fmt (depth + 1) members) := by
      refine zero_notMem_joinMembers fun e hmem => ?_
      rw [renderMembers_eq] at hmem
      obtain ⟨c, hc, rfl⟩ := List.mem_map.mp hmem
      exact ⟨zero_notMem_renderString c.1, ih c hc (depth + 1)⟩
    simp only [render, List.mem_cons, List.mem_append, List.not_mem_nil, or_false, not_or]
    exact ⟨by decide, ⟨⟨zero_notMem_formatted fmt (by decide), hmembers⟩, zero_notMem_tabs depth⟩,
      by decide⟩

theorem zero_notMem_renderItems (fmt : Bool) (depth : ℕ) (items : List Node) :
    ∀ text ∈ renderItems fmt depth items, (0 : UInt8) ∉ text := by
  rw [renderItems_eq, List.forall_mem_map]
  exact fun child _ => zero_notMem_render fmt depth child

theorem zero_notMem_renderMembers (fmt : Bool) (depth : ℕ)
    (members : List (Option CString × Node)) :
    ∀ text ∈ flatTexts (renderMembers fmt depth members), (0 : UInt8) ∉ text := by
  rw [flatTexts, renderMembers_eq, List.forall_mem_flatMap, List.forall_mem_map]
  intro c _
  simpa using ⟨zero_notMem_renderString c.1, zero_notMem_render fmt depth c.2⟩

/-! ## The loops over the children -/

/-- Strings were printed into an array. The arrays are `changed`. -/
structure Filled (grant : ℕ → Bool) (h h' : Heap) (changed : List ℕ) (ps : List (Option Ptr))
    (texts : List Text) : Prop where
  calls : h.calls ≤ h'.calls
  leaves : Leaves h.mem h'.mem changed (targets ps)
  fails : none ∈ ps ↔ Refused grant h.calls h'.calls
  fresh : ∀ j ∈ targets ps, h.mem.objs.length ≤ j
  nodup : (targets ps).Nodup
  texts : Texts h'.mem ps texts

namespace Filled

theorem seq (h₁' : Filled grant h h₁ changed ps texts) (h₂' : Filled grant h₁ h₂ changed qs texts')
    (hold : ∀ j ∈ changed, j < h.mem.objs.length) :
    Filled grant h h₂ changed (ps ++ qs) (texts ++ texts') where
  calls := Nat.le_trans h₁'.calls h₂'.calls
  leaves := by
    rw [targets_append]
    exact (h₁'.leaves.trans h₂'.leaves).mono (fun j hj _ => by simpa using hj) fun j hj _ => hj
  fails := by
    rw [List.mem_append, h₁'.fails, h₂'.fails, refused_split h₁'.calls h₂'.calls]
  fresh := by
    rw [targets_append, List.forall_mem_append]
    exact ⟨h₁'.fresh, fun j hj => Nat.le_trans h₁'.leaves.le (h₂'.fresh j hj)⟩
  nodup := by
    rw [targets_append]
    refine List.nodup_append.mpr ⟨h₁'.nodup, h₂'.nodup, fun i hi j hj heq => ?_⟩
    have hlt := h₁'.texts.lt i hi
    have hle := h₂'.fresh j hj
    omega
  texts := by
    refine List.rel_append (h₁'.texts.kept h₂'.leaves fun j hj hmem => ?_) h₂'.texts
    have hlt := hold j hmem
    have hle := h₁'.fresh j hj
    omega

/-- The loop has stopped. -/
theorem stop (hfilled : Filled grant h h' changed ps texts) (hnone : none ∈ ps)
    (texts' : List Text) :
    Filled grant h h' changed (ps ++ List.replicate texts'.length none) (texts ++ texts') where
  calls := hfilled.calls
  leaves := by simpa using hfilled.leaves
  fails := iff_of_true (List.mem_append_left _ hnone) (hfilled.fails.mp hnone)
  fresh := by simpa using hfilled.fresh
  nodup := by simpa using hfilled.nodup
  texts := List.rel_append hfilled.texts (texts_replicate _ _)

end Filled

theorem Printed.filled (hp : Printed grant h h' r text) (changed : List ℕ) :
    Filled grant h h' changed [r] [text] where
  calls := hp.calls
  leaves := hp.leaves.mono (by simp) fun j hj _ => by simpa using hj
  fails := by rw [List.mem_singleton, eq_comm, hp.fails]
  fresh j hj := by
    obtain ⟨p, hmem, rfl⟩ := Option.map_eq_some_iff.mp (Option.mem_toList.mp (by simpa using hj))
    exact hp.fresh p hmem
  nodup := by cases r <;> simp
  texts := .cons hp.text .nil

/-- Nothing but the arrays has changed. -/
theorem filled_nil (hleaves : Leaves h.mem m' changed []) :
    Filled grant h ⟨m', h.calls⟩ changed [] [] where
  calls := Nat.le_refl _
  leaves := hleaves
  fails := iff_of_false List.not_mem_nil not_refused_self
  fresh := by simp
  nodup := List.nodup_nil
  texts := .nil

/-- The function prints this value. -/
def Prints (grant : ℕ → Bool) (fmt : Bool) (depth : ℕ) (node : Node) : Prop :=
  ∀ h, ∃ h' r, printValue grant fmt depth h node = some (h', r) ∧
    Printed grant h h' r (render fmt depth node)

theorem printItems_cons {child : Node} {items : List Node} {i n : ℕ} {len : ℤ}
    (hdepth : depth + 1 < 2 ^ 31)
    (hrun : printValue grant fmt (depth + 1) h child = some (h₁, some p))
    (hstore : h₁.mem.store (t.plus i) (.pointer (some p)) = some m)
    (hstrlen : m.strlen p = some n) :
    printItems grant fmt depth h t i len (child :: items) = printItems grant fmt depth
      ⟨m, h₁.calls⟩ t (i + 1) (asInt (len + (n + 2 + if fmt then 1 else 0 : ℕ))) items := by
  simp [printItems, intNat_of_lt hdepth, hrun, hstore, hstrlen]

/-- What `print_array` counts for its items. -/
def itemsLen (fmt : Bool) (texts : List Text) : ℕ :=
  (texts.map fun e => e.length + 2 + if fmt then 1 else 0).sum

/-- **The second loop of `print_array`.** -/
theorem printItems_spec {items : List Node} (hdepth : depth + 1 < 2 ^ 31)
    (hprint : ∀ child ∈ items, Prints grant fmt (depth + 1) child)
    (pre : List (Option Ptr)) (ht : Table h.mem t (pre ++ List.replicate items.length none))
    (len : ℕ) (hlt : len + itemsLen fmt (renderItems fmt (depth + 1) items) < 2 ^ 31) :
    ∃ h' ps, printItems grant fmt depth h t pre.length len items = some (h',
        (if none ∈ ps then none
        else some (len + itemsLen fmt (renderItems fmt (depth + 1) items))).map Nat.cast) ∧
      Table h'.mem t (pre ++ ps) ∧ ps.length = items.length ∧
      Filled grant h h' [t.obj] ps (renderItems fmt (depth + 1) items) := by
  induction items generalizing h pre len with
  | nil =>
    exact ⟨h, [], by simp [printItems, renderItems, itemsLen], ht, rfl,
      filled_nil (Leaves.refl.mono (by simp) (by simp))⟩
  | cons child items ih =>
    obtain ⟨hchild, hitems⟩ := List.forall_mem_cons.mp hprint
    obtain ⟨h₁, r, hrun, hprinted⟩ := hchild h
    have hold : ∀ j ∈ [t.obj], j < h.mem.objs.length := by simpa using lt_of_obj ht.2
    rw [List.length_cons, List.replicate_succ] at ht
    obtain ⟨m₂, hstore, ht₂, hleaves⟩ := (ht.kept hprinted.leaves List.not_mem_nil).store r
    have hfilled := (hprinted.filled [t.obj]).seq (filled_nil hleaves) hold
    cases r with
    | none =>
      refine ⟨⟨m₂, h₁.calls⟩, none :: List.replicate items.length none, ?_, ht₂, by simp, ?_⟩
      · simp [printItems, intNat_of_lt hdepth, hrun, hstore]
      · have hstop := hfilled.stop (by simp) (renderItems fmt (depth + 1) items)
        rw [renderItems_eq, List.length_map] at hstop
        rw [renderItems, renderItems_eq]
        exact hstop
    | some p =>
      have htext := (hprinted.text p rfl).kept hleaves (by
        have hlt := lt_of_obj ht.2
        have hle := hprinted.fresh p rfl
        simp only [List.mem_singleton]
        omega)
      have hsum : len + itemsLen fmt (renderItems fmt (depth + 1) (child :: items)) =
          len + ((render fmt (depth + 1) child).length + 2 + if fmt then 1 else 0) +
            itemsLen fmt (renderItems fmt (depth + 1) items) := by
        rw [renderItems, itemsLen, List.map_cons, List.sum_cons, ← Nat.add_assoc]
        rfl
      rw [hsum] at hlt
      obtain ⟨h', ps, hrec, ht', hlen, hfilled'⟩ := ih hitems (h := ⟨m₂, h₁.calls⟩)
        (pre ++ [some p]) (by rwa [List.append_assoc]) _ hlt
      rw [List.length_append, List.length_singleton] at hrec
      refine ⟨h', some p :: ps, ?_, by rwa [List.append_assoc] at ht', by simp [hlen], ?_⟩
      · have hstrlen := htext.strlen (zero_notMem_render fmt (depth + 1) child)
        rw [printItems_cons hdepth hrun hstore hstrlen,
          asInt_add ((Nat.le_add_right _ _).trans_lt hlt), hrec, hsum]
        simp only [List.mem_cons, reduceCtorEq, false_or]
      · exact hfilled.seq hfilled' hold

theorem addMember_eq (fmt : Bool) (depth : ℕ) {s e : Text} {str ret : Option Ptr}
    {len : Option ℕ} (hstr : ∀ p ∈ str, IsText m p s) (hret : ∀ p ∈ ret, IsText m p e)
    (hs : (0 : UInt8) ∉ s) (he : (0 : UInt8) ∉ e)
    (hlt : ∀ l ∈ len, l + (e.length + s.length + 2 + if fmt then 2 + depth else 0) < 2 ^ 31) :
    addMember fmt depth m (len.map Nat.cast) str ret =
      some ((if none ∈ [str, ret] then none else
        len.map (· + (e.length + s.length + 2 + if fmt then 2 + depth else 0))).map Nat.cast) := by
  cases str with
  | none => simp [addMember]
  | some p =>
    cases ret with
    | none => simp [addMember]
    | some q =>
      cases len with
      | none => simp [addMember, (hstr p rfl).strlen hs, (hret q rfl).strlen he]
      | some l =>
        have hadd := asInt_add (hlt l rfl)
        simp only [addMember, (hstr p rfl).strlen hs, (hret q rfl).strlen he,
          Option.bind_eq_bind, Option.bind_some, Option.map_some]
        rw [hadd]
        simp

theorem printMembers_cons {string : Option CString} {child : Node}
    {members : List (Option CString × Node)} {names entries : Ptr} {i : ℕ} {len len' : Option ℤ}
    {str ret : Option Ptr} {m₁ m₂ : Objects Cell}
    (hrun : printStringPtr grant h string = some (h₁, str))
    (hstore : h₁.mem.store (names.plus i) (.pointer str) = some m₁)
    (hrun' : printValue grant fmt depth ⟨m₁, h₁.calls⟩ child = some (h₂, ret))
    (hstore' : h₂.mem.store (entries.plus i) (.pointer ret) = some m₂)
    (hadd : addMember fmt depth m₂ len str ret = some len') :
    printMembers grant fmt depth h names entries i len ((string, child) :: members) =
      printMembers grant fmt depth ⟨m₂, h₂.calls⟩ names entries (i + 1) len' members := by
  simp [printMembers, hrun, hstore, hrun', hstore', hadd]

/-- What `print_object` counts for its members. -/
def membersLen (fmt : Bool) (depth : ℕ) (texts : List (Text × Text)) : ℕ :=
  (texts.map fun e => e.2.length + e.1.length + 2 + if fmt then 2 + depth else 0).sum

/-- **The second loop of `print_object`.** -/
theorem printMembers_spec {members : List (Option CString × Node)}
    (hshort : ∀ c ∈ members, (renderString c.1).length < 2 ^ 29)
    (hprint : ∀ c ∈ members, Prints grant fmt depth c.2) {names entries : Ptr}
    (pre : List (Option Ptr × Option Ptr))
    (hnames : Table h.mem names (pre.map Prod.fst ++ List.replicate members.length none))
    (hentries : Table h.mem entries (pre.map Prod.snd ++ List.replicate members.length none))
    (hne : names.obj ≠ entries.obj) (len : Option ℕ)
    (hlt : ∀ l ∈ len, l + membersLen fmt depth (renderMembers fmt depth members) < 2 ^ 31) :
    ∃ h' ps, printMembers grant fmt depth h names entries pre.length (len.map Nat.cast) members =
        some (h', (if none ∈ flat ps then none
          else len.map (· + membersLen fmt depth (renderMembers fmt depth members))).map
            Nat.cast) ∧
      Table h'.mem names ((pre ++ ps).map Prod.fst) ∧
      Table h'.mem entries ((pre ++ ps).map Prod.snd) ∧ ps.length = members.length ∧
      Filled grant h h' [names.obj, entries.obj] (flat ps)
        (flatTexts (renderMembers fmt depth members)) := by
  induction members generalizing h pre len with
  | nil =>
    refine ⟨h, [], ?_, by simpa using hnames, by simpa using hentries, rfl,
      filled_nil (Leaves.refl.mono (by simp) (by simp))⟩
    cases len <;> simp [printMembers, renderMembers, flat, membersLen]
  | cons c members ih =>
    obtain ⟨string, child⟩ := c
    obtain ⟨hchild, hmembers⟩ := List.forall_mem_cons.mp hprint
    obtain ⟨hstring, hstrings⟩ := List.forall_mem_cons.mp hshort
    have hold : ∀ j ∈ [names.obj, entries.obj], j < h.mem.objs.length := by
      simpa using ⟨lt_of_obj hnames.2, lt_of_obj hentries.2⟩
    rw [List.length_cons, List.replicate_succ] at hnames hentries
    -- the name
    obtain ⟨h₁, str, hrun₁, hprinted₁⟩ := printStringPtr_spec grant h hstring
    have hentries₁ := hentries.kept hprinted₁.leaves List.not_mem_nil
    obtain ⟨m₂, hstore₂, hnames₂, hleaves₂⟩ :=
      (hnames.kept hprinted₁.leaves List.not_mem_nil).store str
    have hentries₂ := hentries₁.kept hleaves₂ (by simpa using hne.symm)
    -- the value
    obtain ⟨h₃, ret, hrun₃, hprinted₃⟩ := hchild ⟨m₂, h₁.calls⟩
    have hnames₃ := hnames₂.kept hprinted₃.leaves List.not_mem_nil
    obtain ⟨m₄, hstore₄, hentries₄, hleaves₄⟩ :=
      (hentries₂.kept hprinted₃.leaves List.not_mem_nil).store ret
    have hnames₄ := hnames₃.kept hleaves₄ (by simpa using hne)
    have hold₂ : ∀ j ∈ [names.obj, entries.obj], j < m₂.objs.length := fun j hj =>
      Nat.lt_of_lt_of_le (hold j hj) (Nat.le_trans hprinted₁.leaves.le hleaves₂.le)
    have hname := (hprinted₁.filled [names.obj, entries.obj]).seq
      (filled_nil (hleaves₂.mono (by simp) (by simp))) hold
    have hvalue := (hprinted₃.filled [names.obj, entries.obj]).seq
      (filled_nil (hleaves₄.mono (by simp) (by simp))) hold₂
    have hfilled := hname.seq hvalue hold
    obtain ⟨htext, htext', -⟩ : (∀ p ∈ str, IsText m₄ p (renderString string)) ∧
        (∀ p ∈ ret, IsText m₄ p (render fmt depth child)) ∧ Texts m₄ [] [] := by
      simpa only [Texts, List.nil_append, List.append_nil, List.singleton_append,
        List.forall₂_cons] using hfilled.texts
    have hsum : ∀ l, l + membersLen fmt depth (renderMembers fmt depth ((string, child) :: members))
        = l + ((render fmt depth child).length + (renderString string).length + 2 +
          if fmt then 2 + depth else 0)
          + membersLen fmt depth (renderMembers fmt depth members) := by
      intro l
      rw [renderMembers, membersLen, List.map_cons, List.sum_cons, ← Nat.add_assoc]
      rfl
    simp only [hsum] at hlt
    have hadd := addMember_eq fmt depth htext htext'
      (zero_notMem_renderString string) (zero_notMem_render fmt depth child)
      fun l hl => (Nat.le_add_right _ _).trans_lt (hlt l hl)
    rw [List.length_map] at hstore₂ hstore₄
    obtain ⟨h', ps, hrec, hnames', hentries', hlen, hfilled'⟩ := ih hstrings hmembers
      (h := ⟨m₄, h₃.calls⟩) (pre ++ [(str, ret)]) (by simpa using hnames₄)
      (by simpa using hentries₄) (if none ∈ [str, ret] then none else len.map (· +
        ((render fmt depth child).length + (renderString string).length + 2 +
          if fmt then 2 + depth else 0))) (by
        intro l hl
        split at hl
        · cases hl
        · obtain ⟨l', hl', rfl⟩ := Option.map_eq_some_iff.mp hl
          exact hlt l' hl')
    rw [List.append_assoc] at hnames' hentries'
    rw [List.length_append, List.length_singleton] at hrec
    refine ⟨h', (str, ret) :: ps, ?_, hnames', hentries', by simp [hlen], hfilled.seq hfilled' hold⟩
    rw [printMembers_cons hrun₁ hstore₂ hrun₃ hstore₄ hadd, hrec, flat_cons]
    by_cases hps : none ∈ flat ps
    · simp only [hps, List.mem_append, or_true, if_true]
    · by_cases hret : none ∈ [str, ret]
      · simp only [hret, hps, List.mem_append, or_false, if_true, if_false, Option.map_none]
      · simp only [hret, hps, List.mem_append, or_false, if_false, Option.map_map,
          Function.comp_def, hsum]

/-! ## Behind the loops -/

/-- What the rest of a function does: the arrays and strings of `old` are freed, and the text is
left, unless a call has failed, before (`bad`) or now. -/
structure Finished (grant : ℕ → Bool) (h h' : Heap) (old : List ℕ) (bad : Prop) (r : Option Ptr)
    (text : Text) : Prop where
  calls : h.calls ≤ h'.calls
  leaves : Leaves h.mem h'.mem old (r.map Ptr.obj).toList
  gone : ∀ j ∈ old, h'.mem.obj j = none
  fails : r = none ↔ bad ∨ Refused grant h.calls h'.calls
  fresh : ∀ p ∈ r, h.mem.objs.length ≤ p.obj
  text : ∀ p ∈ r, IsText h'.mem p text

/-- The output is allocated, unless there is a failure. -/
theorem output_cases (grant : ℕ → Bool) (h : Heap) (len : Option ℕ) :
    (∃ calls, (len.map Nat.cast).elim (h, none) (cJSONMallocInt grant h) =
        (⟨h.mem, calls⟩, none) ∧
      h.calls ≤ calls ∧ (len = none ∨ Refused grant h.calls calls)) ∨
    ∃ n mem p, len = some n ∧ grant h.calls = true ∧
      (len.map Nat.cast).elim (h, none) (cJSONMallocInt grant h) =
        (⟨mem, h.calls + 1⟩, some p) ∧ p.off = 0 ∧
      h.mem.objs.length ≤ p.obj ∧ mem.Buffer p.obj n [] ∧ Leaves h.mem mem [] [p.obj] := by
  cases len with
  | none => exact .inl ⟨h.calls, rfl, Nat.le_refl _, .inl rfl⟩
  | some n =>
    simp only [Option.map_some, Option.elim_some, cJSONMallocInt_natCast]
    rcases malloc_cases grant h n with
      ⟨hg, hcall⟩ | ⟨mem, p, hg, hcall, hoff, hfresh, hobj, hleaves⟩
    · exact .inl ⟨h.calls + 1, hcall, Nat.le_succ _, .inr (refused_succ.mpr hg)⟩
    · exact .inr ⟨n, mem, p, rfl, hg, hcall, hoff, hfresh, buffer_of_replicate hobj, hleaves⟩

theorem finished_none {bad : Prop} {calls : ℕ} (hle : h.calls ≤ calls)
    (hbad : bad ∨ Refused grant h.calls calls) (hleaves : Leaves h.mem m' old [])
    (hgone : ∀ j ∈ old, m'.obj j = none) : Finished grant h ⟨m', calls⟩ old bad none text where
  calls := hle
  leaves := hleaves
  gone := hgone
  fails := iff_of_true rfl hbad
  fresh p hp := by cases hp
  text p hp := by cases hp

theorem finished_some {bad : Prop} (hbad : ¬ bad) (hg : grant h.calls = true)
    (hfresh : h.mem.objs.length ≤ p.obj) (hmalloc : Leaves h.mem m [] [p.obj])
    (hwrite : Leaves m m' (p.obj :: old) []) (hgone : ∀ j ∈ old, m'.obj j = none)
    (htext : IsText m' p text) : Finished grant h ⟨m', h.calls + 1⟩ old bad (some p) text where
  calls := Nat.le_succ _
  leaves := (hmalloc.trans hwrite).mono (fun j hj hlt => by
    rcases List.mem_cons.mp hj with rfl | hj
    · omega
    · exact hj) (fun j hj _ => hj)
  gone := hgone
  fails := iff_of_false (by simp) (not_or_intro hbad (refused_succ.not.mpr (by simp [hg])))
  fresh q hq := Option.some.inj hq ▸ hfresh
  text q hq := Option.some.inj hq ▸ htext

theorem exists_map_some (hnone : none ∉ ps) : ∃ qs : List Ptr, ps = qs.map some := by
  induction ps with
  | nil => exact ⟨[], rfl⟩
  | cons r ps ih =>
    rw [List.mem_cons, not_or] at hnone
    obtain ⟨p, rfl⟩ := Option.ne_none_iff_exists'.mp (Ne.symm hnone.1)
    obtain ⟨qs, rfl⟩ := ih hnone.2
    exact ⟨p :: qs, rfl⟩

variable (grant) in
/-- **The rest of `print_array`.** -/
theorem finishArray_spec {n : ℕ} (ht : Table h.mem t ps) (htexts : Texts h.mem ps texts)
    (hzero : ∀ text ∈ texts, (0 : UInt8) ∉ text) (hnodup : (targets ps).Nodup)
    (hnot : t.obj ∉ targets ps) (hlen : (joinItems fmt texts).length + 3 ≤ n) :
    ∃ h' r, finishArray grant fmt h t ps.length
        ((if none ∈ ps then none else some n).map Nat.cast) = some (h', r) ∧
      Finished grant h h' (targets ps ++ [t.obj]) (none ∈ ps) r
        (openBracket :: (joinItems fmt texts ++ [closeBracket])) := by
  rcases output_cases grant h (if none ∈ ps then none else some n) with
    ⟨calls, hcall, hle, hbad⟩ | ⟨n', mem, out, hsome, hg, hcall, hoff, hfresh, hbuf, hleaves⟩
  · obtain ⟨m₁, hfree, hgone, hleaves₁⟩ := freeAll_spec htexts hnodup
    obtain ⟨m₂, hfree₂, hgone₂, hleaves₂⟩ := (ht.kept hleaves₁ hnot).free
    have hitems := freeItems_eq [] ht hnot
    refine ⟨⟨m₂, calls⟩, none, ?_, finished_none hle (by simpa using hbad) (hleaves₁.trans hleaves₂)
      (hleaves₁.gone_append hleaves₂ _ htexts.lt hgone (by simpa using hgone₂))⟩
    rw [List.length_nil] at hitems
    simp [finishArray, hcall, hitems, hfree, hfree₂]
  · have hnone : none ∉ ps := fun hmem => by simp [hmem] at hsome
    obtain rfl : n = n' := by simpa [hnone] using hsome
    obtain ⟨qs, rfl⟩ := exists_map_some hnone
    have hout : out.obj ∉ targets (qs.map some) := fun hmem => by
      have hlt := htexts.lt out.obj hmem
      omega
    have hne : t.obj ≠ out.obj := fun heq => by
      have hlt := lt_of_obj ht.2
      omega
    obtain ⟨m₁, hopen, hbuf₁, hleaves₁⟩ := ((appends_putc (m := mem) (i := out.obj)
      (Cell.byte openBracket)).seq appends_mark).run hbuf (by simp; omega)
    have hleaves₀₁ := hleaves.trans hleaves₁
    have hnot₁ : ∀ j ∈ targets (qs.map some), j ∉ [] ++ [out.obj] := fun j hj hmem =>
      hout (List.mem_singleton.mp hmem ▸ hj)
    obtain ⟨m₂, hcompose, hbuf₂, hgone₂, hleaves₂⟩ := composeItems_spec fmt []
      (ht.kept hleaves₀₁ (by simpa using hne)) (htexts.kept hleaves₀₁ hnot₁) hzero hnodup hnot hout
      hne hbuf₁ (by simp; omega)
    have ht₂ := (ht.kept hleaves₀₁ (by simpa using hne)).kept hleaves₂ (by
      rw [List.mem_cons, not_or]
      exact ⟨hne, hnot⟩)
    obtain ⟨m₃, hfree, hgone₃, hleaves₃⟩ := ht₂.free
    obtain ⟨m₄, q, hclose, hbuf₄, hleaves₄⟩ := (appends_putc (m := m₃) (i := out.obj)
      (Cell.byte closeBracket)).finish (hbuf₂.kept hleaves₃ (by simpa using Ne.symm hne))
        (by simp; omega) 0
    have hgone : m₄.obj t.obj = none :=
      hleaves₄.dead t.obj (Nat.lt_of_lt_of_le (lt_of_obj ht₂.2) hleaves₃.le) hgone₃
    have hlt : ∀ j ∈ targets (qs.map some), j < mem.objs.length := fun j hj =>
      Nat.lt_of_lt_of_le (htexts.lt j hj) hleaves.le
    refine ⟨⟨m₄, h.calls + 1⟩, some out, ?_, finished_some hnone hg hfresh hleaves
      (((hleaves₁.trans hleaves₂).trans (hleaves₃.trans hleaves₄)).mono ?_ (by simp))
      ((hleaves₁.trans hleaves₂).gone_append (hleaves₃.trans hleaves₄) _ hlt hgone₂
        (by simpa using hgone)) ⟨hoff, n, ?_⟩⟩
    · obtain ⟨r, hput, hput'⟩ := Option.bind_eq_some_iff.mp hclose
      rw [ptr_eq hoff] at hopen
      rw [List.length_nil] at hcompose
      rw [finishArray, hcall, List.length_map]
      simp only [Option.bind_eq_bind, Option.bind_some, hopen, hcompose, hfree, hput, hput']
      rfl
    · intro j hj _
      simp only [List.mem_append, List.mem_cons, List.not_mem_nil, or_false] at hj ⊢
      grind
    · simpa [bytes] using hbuf₄

theorem exists_somes {ps : List (Option Ptr × Option Ptr)} (hnone : none ∉ flat ps) :
    ∃ qs, ps = somes qs := by
  induction ps with
  | nil => exact ⟨[], rfl⟩
  | cons r ps ih =>
    simp only [flat_cons, List.mem_append, List.mem_cons, List.not_mem_nil, or_false,
      not_or] at hnone
    obtain ⟨⟨hfst, hsnd⟩, hrest⟩ := hnone
    obtain ⟨p, hp⟩ := Option.ne_none_iff_exists'.mp (Ne.symm hfst)
    obtain ⟨q, hq⟩ := Option.ne_none_iff_exists'.mp (Ne.symm hsnd)
    obtain ⟨qs, rfl⟩ := ih hrest
    exact ⟨(p, q) :: qs, by rw [somes_cons, ← hp, ← hq]⟩

theorem free_tables {names entries : Ptr} (hnames : Table m names ps)
    (hentries : Table m entries qs) (hne : names.obj ≠ entries.obj) :
    ∃ m₁ m₂, m.free names = some m₁ ∧ m₁.free entries = some m₂ ∧
      (∀ j ∈ [names.obj] ++ [entries.obj], m₂.obj j = none) ∧
      Leaves m m₂ ([names.obj] ++ [entries.obj]) [] := by
  obtain ⟨m₁, hfree₁, hgone₁, hleaves₁⟩ := hnames.free
  obtain ⟨m₂, hfree₂, hgone₂, hleaves₂⟩ := (hentries.kept hleaves₁ (by simpa using hne.symm)).free
  exact ⟨m₁, m₂, hfree₁, hfree₂, hleaves₁.gone_append hleaves₂ _
    (by simpa using lt_of_obj hnames.2) (by simpa using hgone₁) (by simpa using hgone₂),
    hleaves₁.trans hleaves₂⟩

variable (grant) in
/-- **The rest of `print_object`.** -/
theorem finishObject_spec {names entries : Ptr} {ps : List (Option Ptr × Option Ptr)}
    {texts : List (Text × Text)} {n : ℕ} (hnames : Table h.mem names (ps.map Prod.fst))
    (hentries : Table h.mem entries (ps.map Prod.snd)) (htables : names.obj ≠ entries.obj)
    (htexts : Texts h.mem (flat ps) (flatTexts texts))
    (hzero : ∀ text ∈ flatTexts texts, (0 : UInt8) ∉ text) (hnodup : (targets (flat ps)).Nodup)
    (hnot : names.obj ∉ targets (flat ps)) (hnot' : entries.obj ∉ targets (flat ps))
    (hlen : (joinMembers fmt (depth + 1) texts).length + (tabs fmt depth).length + 4 ≤ n) :
    ∃ h' r, finishObject grant fmt (depth + 1) h names entries ps.length
        ((if none ∈ flat ps then none else some n).map Nat.cast) = some (h', r) ∧
      Finished grant h h' (targets (flat ps) ++ ([names.obj] ++ [entries.obj])) (none ∈ flat ps) r
        (openBrace :: (formatted fmt newline ++ joinMembers fmt (depth + 1) texts ++
          tabs fmt depth ++ [closeBrace])) := by
  rcases output_cases grant h (if none ∈ flat ps then none else some n) with
    ⟨calls, hcall, hle, hbad⟩ | ⟨n', mem, out, hsome, hg, hcall, hoff, hfresh, hbuf, hleaves⟩
  · obtain ⟨m₁, hfree, hgone, hleaves₁⟩ := freeAll_spec htexts hnodup
    obtain ⟨m₂, m₃, hfree₂, hfree₃, hgone₃, hleaves₃⟩ :=
      free_tables (hnames.kept hleaves₁ hnot) (hentries.kept hleaves₁ hnot') htables
    have hmembers := freeMembers_eq [] hnames hentries hnot hnot'
    rw [List.length_nil] at hmembers
    refine ⟨⟨m₃, calls⟩, none, ?_, finished_none hle (by simpa using hbad) (hleaves₁.trans hleaves₃)
      (hleaves₁.gone_append hleaves₃ _ htexts.lt hgone hgone₃)⟩
    simp [finishObject, hcall, hmembers, hfree, hfree₂, hfree₃]
  · have hnone : none ∉ flat ps := fun hmem => by simp [hmem] at hsome
    obtain rfl : n = n' := by simpa [hnone] using hsome
    obtain ⟨qs, rfl⟩ := exists_somes hnone
    have hout : out.obj ∉ targets (flat (somes qs)) := fun hmem => by
      have hlt := htexts.lt out.obj hmem
      omega
    have hne : names.obj ≠ out.obj := fun heq => by
      have hlt := lt_of_obj hnames.2
      omega
    have hne' : entries.obj ≠ out.obj := fun heq => by
      have hlt := lt_of_obj hentries.2
      omega
    have hnewline : (formatted fmt newline).length ≤ 1 := by cases fmt <;> simp [formatted]
    obtain ⟨m₁, hopen, hbuf₁, hleaves₁⟩ := ((appends_puts (m := mem) (i := out.obj)
      (bytes (openBrace :: formatted fmt newline))).seq appends_mark).run hbuf (by
        simp only [List.append_nil, List.length_nil, length_bytes, List.length_cons]
        omega)
    have hleaves₀₁ := hleaves.trans hleaves₁
    have hnot₁ : ∀ j ∈ targets (flat (somes qs)), j ∉ [] ++ [out.obj] := fun j hj hmem =>
      hout (List.mem_singleton.mp hmem ▸ hj)
    have hnames₁ := hnames.kept hleaves₀₁ (by simpa using hne)
    have hentries₁ := hentries.kept hleaves₀₁ (by simpa using hne')
    obtain ⟨m₂, hcompose, hbuf₂, hgone₂, hleaves₂⟩ := composeMembers_spec fmt (depth + 1) []
      hnames₁ hentries₁ (htexts.kept hleaves₀₁ hnot₁) hzero hnodup hnot hnot' hout hne hne' hbuf₁
      (by simp only [List.append_nil, List.nil_append, length_bytes, List.length_cons]; omega)
    have hnames₂ := hnames₁.kept hleaves₂ (List.not_mem_cons_of_ne_of_not_mem hne hnot)
    have hentries₂ := hentries₁.kept hleaves₂ (List.not_mem_cons_of_ne_of_not_mem hne' hnot')
    obtain ⟨m₃, m₄, hfree₃, hfree₄, hgone₄, hleaves₄⟩ := free_tables hnames₂ hentries₂ htables
    obtain ⟨m₅, q, hclose, hbuf₅, hleaves₅⟩ := (appends_puts (m := m₄) (i := out.obj)
      (bytes (tabs fmt depth ++ [closeBrace]))).finish
        (hbuf₂.kept hleaves₄ (by simp [hne.symm, hne'.symm])) (by
          simp only [List.append_nil, List.nil_append, length_bytes, List.length_cons,
            List.length_append, List.length_nil]
          omega) 0
    have hgone₅ : ∀ j ∈ [names.obj] ++ [entries.obj], m₅.obj j = none := fun j hj => by
      refine hleaves₅.dead j (Nat.lt_of_lt_of_le ?_ hleaves₄.le) (hgone₄ j hj)
      rcases List.mem_cons.mp hj with rfl | hj
      · exact lt_of_obj hnames₂.2
      · exact List.mem_singleton.mp hj ▸ lt_of_obj hentries₂.2
    have hlt : ∀ j ∈ targets (flat (somes qs)), j < mem.objs.length := fun j hj =>
      Nat.lt_of_lt_of_le (htexts.lt j hj) hleaves.le
    refine ⟨⟨m₅, h.calls + 1⟩, some out, ?_, finished_some hnone hg hfresh hleaves
      (((hleaves₁.trans hleaves₂).trans (hleaves₄.trans hleaves₅)).mono ?_ (by simp))
      ((hleaves₁.trans hleaves₂).gone_append (hleaves₄.trans hleaves₅) _ hlt hgone₂ hgone₅)
      ⟨hoff, n, ?_⟩⟩
    · obtain ⟨r, hput, hput'⟩ := Option.bind_eq_some_iff.mp hclose
      rw [ptr_eq hoff] at hopen
      rw [List.length_nil] at hcompose
      rw [finishObject, hcall, somes, List.length_map]
      simp only [Option.bind_eq_bind, Option.bind_some, hopen, hcompose, hfree₃, hfree₄,
        Nat.add_sub_cancel, hput, hput']
      rfl
    · intro j hj _
      simp only [List.mem_append, List.mem_cons, List.not_mem_nil, or_false] at hj ⊢
      grind
    · simpa [bytes] using hbuf₅

/-! ## Values -/

/-- The arrays were allocated, filled and freed again. -/
theorem Finished.printed {tables : List ℕ} {calls : ℕ} (hle : h.calls ≤ calls)
    (hgranted : ¬ Refused grant h.calls calls) (hleaves : Leaves h.mem m [] tables)
    (hfresh : ∀ j ∈ tables, h.mem.objs.length ≤ j)
    (hfilled : Filled grant ⟨m, calls⟩ h₂ tables ps texts)
    (hfinished : Finished grant h₂ h' (targets ps ++ tables) (none ∈ ps) r text) :
    Printed grant h h' r text where
  calls := Nat.le_trans hle (Nat.le_trans hfilled.calls hfinished.calls)
  leaves := by
    refine ((hleaves.trans hfilled.leaves).trans hfinished.leaves).mono ?_ ?_
    · intro j hj hlt
      have hnew : ∀ j ∈ targets ps ++ tables, h.mem.objs.length ≤ j := fun j hj => by
        rcases List.mem_append.mp hj with hj | hj
        · exact Nat.le_trans hleaves.le (hfilled.fresh j hj)
        · exact hfresh j hj
      have hle := hnew j (by simpa [or_comm] using hj)
      omega
    · intro j hj hne
      rcases List.mem_append.mp hj with hj | hj
      · exact absurd (hfinished.gone j (by simpa [or_comm] using hj)) hne
      · exact hj
  fails := by
    rw [hfinished.fails, hfilled.fails, refused_split hle (Nat.le_trans hfilled.calls
      hfinished.calls), refused_split hfilled.calls hfinished.calls]
    exact ⟨.inr, fun hor => hor.resolve_left hgranted⟩
  fresh p hp := Nat.le_trans (Nat.le_trans hleaves.le hfilled.leaves.le) (hfinished.fresh p hp)
  text := hfinished.text

theorem not_refused_succ {n : ℕ} (hg : grant n = true) : ¬ Refused grant n (n + 1) :=
  refused_succ.not.mpr (by simp [hg])

/-- The lengths of the items are enough for all of them. -/
theorem length_joinItems_le (fmt : Bool) (texts : List Text) :
    (joinItems fmt texts).length ≤ itemsLen fmt texts := by
  have hsep : (separator fmt).length ≤ 2 + if fmt then 1 else 0 := by cases fmt <;> decide
  induction texts with
  | nil => exact Nat.le_refl _
  | cons e texts ih =>
    have hcons : itemsLen fmt (e :: texts) =
        e.length + 2 + (if fmt then 1 else 0) + itemsLen fmt texts := rfl
    rw [joinItems, List.length_append, List.length_append, hcons]
    split
    · rw [List.length_nil]
      omega
    · omega

theorem length_joinMembers_le (fmt : Bool) (depth : ℕ) (texts : List (Text × Text)) :
    (joinMembers fmt depth texts).length ≤ membersLen fmt depth texts := by
  have htabs : (tabs fmt depth).length + ((formatted fmt tab).length +
      (formatted fmt newline).length) ≤ if fmt then 2 + depth else 0 := by
    cases fmt <;> simp [tabs, formatted]
    omega
  induction texts with
  | nil => exact Nat.le_refl _
  | cons e texts ih =>
    have hcomma : (if texts = [] then [] else [comma]).length ≤ 1 := by split <;> simp
    have hcons : membersLen fmt depth (e :: texts) =
        e.2.length + e.1.length + 2 + (if fmt then 2 + depth else 0) +
          membersLen fmt depth texts := rfl
    rw [hcons]
    simp only [joinMembers, List.length_append, List.length_cons]
    omega

/-! ## Texts that an `int` can count -/

/-- The text of a value, and how deep it is. -/
def Short (fmt : Bool) (depth : ℕ) (node : Node) : Prop :=
  depth + (render fmt depth node).length < 2 ^ 29

/-- An item, and the number of items, by the text of all. -/
theorem joinItems_bounds (fmt : Bool) (texts : List Text) :
    (∀ text ∈ texts, text.length ≤ (joinItems fmt texts).length) ∧
      texts.length ≤ (joinItems fmt texts).length + 1 ∧
      itemsLen fmt texts ≤ 4 * (joinItems fmt texts).length + 3 := by
  induction texts with
  | nil => exact ⟨nofun, Nat.zero_le _, Nat.zero_le _⟩
  | cons e texts ih =>
    obtain ⟨hmem, hnum, hlen⟩ := ih
    have hlong : (if fmt then 1 else 0) ≤ 1 := by split <;> omega
    have hcons : itemsLen fmt (e :: texts) =
        e.length + 2 + (if fmt then 1 else 0) + itemsLen fmt texts := rfl
    rw [joinItems, List.length_append, List.length_append, hcons, List.length_cons]
    refine ⟨List.forall_mem_cons.mpr ⟨by omega, fun text htext => ?_⟩, ?_⟩
    · have hle := hmem text htext
      omega
    · by_cases hlast : texts = []
      · subst hlast
        rw [if_pos rfl]
        simp only [List.length_nil, itemsLen, List.map_nil, List.sum_nil] at hnum hlen ⊢
        omega
      · have hsep : 1 ≤ (separator fmt).length := Nat.le_add_left _ _
        rw [if_neg hlast]
        omega

/-- A member, and the number of members. -/
theorem joinMembers_bounds (fmt : Bool) (depth : ℕ) (texts : List (Text × Text)) :
    (∀ e ∈ texts, e.1.length ≤ (joinMembers fmt depth texts).length ∧
        e.2.length ≤ (joinMembers fmt depth texts).length) ∧
      texts.length ≤ (joinMembers fmt depth texts).length ∧
      membersLen fmt depth texts ≤ (joinMembers fmt depth texts).length + 1 := by
  have htabs : (if fmt then 2 + depth else 0) = (tabs fmt depth).length +
      ((formatted fmt tab).length + (formatted fmt newline).length) := by
    cases fmt <;> simp [tabs, formatted]
    omega
  induction texts with
  | nil => exact ⟨nofun, Nat.zero_le _, Nat.zero_le _⟩
  | cons e texts ih =>
    obtain ⟨hmem, hnum, hlen⟩ := ih
    have hcons : membersLen fmt depth (e :: texts) =
        e.2.length + e.1.length + 2 + (if fmt then 2 + depth else 0) +
          membersLen fmt depth texts := rfl
    rw [hcons, htabs]
    simp only [joinMembers, List.length_append, List.length_cons]
    refine ⟨List.forall_mem_cons.mpr ⟨by omega, fun e' he' => ?_⟩, by omega, ?_⟩
    · have hle := hmem e' he'
      omega
    · by_cases hlast : texts = []
      · subst hlast
        simp only [membersLen, List.map_nil, List.sum_nil]
        omega
      · rw [if_neg hlast, List.length_singleton]
        omega

theorem length_renderItems (fmt : Bool) (depth : ℕ) (items : List Node) :
    (renderItems fmt depth items).length = items.length := by
  rw [renderItems_eq, List.length_map]

/-- What `print_array` counts, and its items, are short. -/
theorem Short.array {items : List Node} (h : Short fmt depth (.array items)) :
    (∀ child ∈ items, Short fmt (depth + 1) child) ∧ depth + 1 < 2 ^ 31 ∧
      items.length < 2 ^ 31 ∧
      5 + itemsLen fmt (renderItems fmt (depth + 1) items) < 2 ^ 31 := by
  obtain ⟨hmem, hnum, hlen⟩ := joinItems_bounds fmt (renderItems fmt (depth + 1) items)
  rw [length_renderItems] at hnum
  unfold Short at h ⊢
  simp only [render, List.length_cons, List.length_append, List.length_nil] at h
  refine ⟨fun child hchild => ?_, by omega, by omega, by omega⟩
  have hle := hmem (render fmt (depth + 1) child) (by
    rw [renderItems_eq]
    exact List.mem_map_of_mem hchild)
  omega

/-- What `print_object` counts, and its members, are short. -/
theorem Short.object {members : List (Option CString × Node)}
    (h : Short fmt depth (.object members)) :
    (∀ c ∈ members, (renderString c.1).length < 2 ^ 29) ∧
      (∀ c ∈ members, Short fmt (depth + 1) c.2) ∧ depth + 1 < 2 ^ 31 ∧
      members.length < 2 ^ 31 ∧ (7 + if fmt then depth + 1 else 0) +
        membersLen fmt (depth + 1) (renderMembers fmt (depth + 1) members) < 2 ^ 31 := by
  obtain ⟨hmem, hnum, hlen⟩ :=
    joinMembers_bounds fmt (depth + 1) (renderMembers fmt (depth + 1) members)
  have hindent : (if fmt then depth + 1 else 0) ≤ depth + 1 := by split <;> omega
  rw [renderMembers_eq, List.length_map, ← renderMembers_eq] at hnum
  unfold Short at h ⊢
  simp only [render, List.length_cons, List.length_append, List.length_nil] at h
  have hboth : ∀ c ∈ members, (renderString c.1).length ≤ (joinMembers fmt (depth + 1)
      (renderMembers fmt (depth + 1) members)).length ∧
      (render fmt (depth + 1) c.2).length ≤ (joinMembers fmt (depth + 1)
        (renderMembers fmt (depth + 1) members)).length := by
    intro c hc
    refine hmem (renderString c.1, render fmt (depth + 1) c.2) ?_
    rw [renderMembers_eq]
    exact List.mem_map_of_mem (f := fun c => (renderString c.1, render fmt (depth + 1) c.2)) hc
  refine ⟨fun c hc => ?_, fun c hc => ?_, by omega, by omega, by omega⟩
  · have hle := (hboth c hc).1
    omega
  · have hle := (hboth c hc).2
    omega

/-! ## The tree -/

/-- All numbers of a tree fit into what `print_number` allocates. -/
def Fits (node : Node) : Prop := node.All Number.Fits fun _ => True

/-- **`print_array`**, whose items are printed. -/
theorem Prints.array {items : List Node} (hshort : Short fmt depth (.array items))
    (hprint : ∀ child ∈ items, Prints grant fmt (depth + 1) child) :
    Prints grant fmt depth (.array items) := by
  intro h
  obtain ⟨-, hdepth, hnum, hlt⟩ := hshort.array
  simp only [printValue, intNat_of_lt hnum, Option.bind_eq_bind, Option.bind_some]
  rcases malloc_cases grant h items.length with
    ⟨hg, hcall⟩ | ⟨m₀, t, hg, hcall, hoff, hfresh, hobj, hleaves₀⟩
  · exact ⟨⟨h.mem, h.calls + 1⟩, none, by rw [hcall], printed_none hg⟩
  · obtain ⟨m₁, hclear, ht, hleaves₁⟩ := clearEntries_spec hoff hobj
    obtain ⟨h₂, ps, hitems, ht₂, hlen, hfilled⟩ := printItems_spec hdepth hprint
      (h := ⟨m₁, h.calls + 1⟩) [] ht 5 hlt
    have hroom : (joinItems fmt (renderItems fmt (depth + 1) items)).length + 3 ≤
        5 + itemsLen fmt (renderItems fmt (depth + 1) items) := by
      have hsum := length_joinItems_le fmt (renderItems fmt (depth + 1) items)
      omega
    have hnot : t.obj ∉ targets ps := fun hmem =>
      absurd (hfilled.fresh t.obj hmem) (Nat.not_le_of_lt (lt_of_obj ht.2))
    obtain ⟨h', r, hfinish, hfinished⟩ := finishArray_spec grant ht₂ hfilled.texts
      (zero_notMem_renderItems fmt (depth + 1) items) hfilled.nodup hnot hroom
    rw [List.nil_append, hlen] at hfinish
    refine ⟨h', r, ?_, hfinished.printed (Nat.le_succ _) (not_refused_succ hg)
      ((hleaves₀.trans hleaves₁).mono (by simpa using hfresh) (by simp))
      (by simpa using hfresh) hfilled⟩
    rw [hcall]
    simp only [hclear, Option.bind_some]
    exact (congrArg (Option.bind · _) hitems).trans hfinish

/-- **`print_object`**, whose members are printed. -/
theorem Prints.object {members : List (Option CString × Node)}
    (hshort : Short fmt depth (.object members))
    (hprint : ∀ c ∈ members, Prints grant fmt (depth + 1) c.2) :
    Prints grant fmt depth (.object members) := by
  intro h
  obtain ⟨hnames, -, hdepth, hnum, hlt⟩ := hshort.object
  simp only [printValue, intNat_of_lt hnum, Option.bind_eq_bind, Option.bind_some]
  rcases malloc_cases grant h members.length with
    ⟨hg, hcall⟩ | ⟨m₀, entries, hg, hcall, hoff, hfresh, hobj, hleaves₀⟩
  · exact ⟨⟨h.mem, h.calls + 1⟩, none, by rw [hcall], printed_none hg⟩
  · rw [hcall]
    rcases malloc_cases grant ⟨m₀, h.calls + 1⟩ members.length with
      ⟨hg', hcall'⟩ | ⟨m₁, names, hg', hcall', hoff', hfresh', hobj', hleaves₁⟩
    · obtain ⟨m₁, hfree⟩ := free_of_freeable ⟨hoff, _, hobj, rfl⟩
      have hgone : m₁.obj entries.obj = none := (free_spec hfree).2.1
      have hfilled : Filled grant ⟨m₀, h.calls + 1⟩ ⟨m₀, h.calls + 1⟩ [entries.obj] [] [] :=
        filled_nil (Leaves.refl.mono (by simp) (by simp))
      refine ⟨⟨m₁, h.calls + 1 + 1⟩, none, ?_, Finished.printed (Nat.le_succ _)
        (not_refused_succ hg) hleaves₀ (by simpa using hfresh) hfilled
        (finished_none (Nat.le_succ _) (.inr (refused_succ.mpr hg')) (leaves_free hfree)
          (by simpa using hgone))⟩
      simp only [hcall', hfree, Option.bind_some]
      rfl
    · have hne : names.obj ≠ entries.obj := fun heq => by
        have hlt := lt_of_obj hobj
        have hle : m₀.objs.length ≤ names.obj := hfresh'
        omega
      obtain ⟨m₂, hclear, hentries, hleaves₂⟩ :=
        clearEntries_spec hoff (hleaves₁.obj_eq hobj List.not_mem_nil)
      obtain ⟨m₃, hclear', hnames₃, hleaves₃⟩ :=
        clearEntries_spec hoff' (hleaves₂.obj_eq hobj' (by simpa using hne))
      obtain ⟨h₄, ps, hmembers, hnames₄, hentries₄, hlen, hfilled⟩ := printMembers_spec hnames
        hprint (h := ⟨m₃, h.calls + 2⟩) [] hnames₃
        (hentries.kept hleaves₃ (by simpa using hne.symm)) hne
        (some (7 + if fmt then depth + 1 else 0))
        fun l hl => Option.some.inj hl ▸ hlt
      have hroom : (joinMembers fmt (depth + 1)
            (renderMembers fmt (depth + 1) members)).length + (tabs fmt depth).length + 4 ≤
          (7 + if fmt then depth + 1 else 0) +
            membersLen fmt (depth + 1) (renderMembers fmt (depth + 1) members) := by
        have htabs : (tabs fmt depth).length ≤ if fmt then depth + 1 else 0 := by
          cases fmt <;> simp [tabs]
        have hsum := length_joinMembers_le fmt (depth + 1) (renderMembers fmt (depth + 1) members)
        omega
      have hnot : names.obj ∉ targets (flat ps) := fun hmem =>
        absurd (hfilled.fresh names.obj hmem) (Nat.not_le_of_lt (lt_of_obj hnames₃.2))
      have hnot' : entries.obj ∉ targets (flat ps) := fun hmem =>
        absurd (hfilled.fresh entries.obj hmem)
          (Nat.not_le_of_lt (Nat.lt_of_lt_of_le (lt_of_obj hentries.2) hleaves₃.le))
      obtain ⟨h', r, hfinish, hfinished⟩ := finishObject_spec grant hnames₄
        hentries₄ hne hfilled.texts (zero_notMem_renderMembers fmt (depth + 1) members)
        hfilled.nodup hnot hnot' hroom
      rw [List.nil_append, hlen] at hfinish
      have hgranted : ¬ Refused grant h.calls (h.calls + 1 + 1) := by
        rw [refused_split (Nat.le_succ h.calls) (Nat.le_succ _), not_or]
        exact ⟨not_refused_succ hg, not_refused_succ hg'⟩
      have hle' : h.mem.objs.length ≤ names.obj := Nat.le_trans hleaves₀.le hfresh'
      refine ⟨h', r, ?_, hfinished.printed (Nat.le_add_right _ 2) hgranted
        ((hleaves₀.trans hleaves₁).trans (hleaves₂.trans hleaves₃) |>.mono
          (by simpa using ⟨hfresh, hle'⟩) (by simp)) (by simpa using ⟨hle', hfresh⟩) hfilled⟩
      have hindent : (7 + if fmt then depth + 1 else 0) < 2 ^ 31 := by omega
      simp only [hcall', hclear, hclear', intNat_of_lt hdepth, intNat_of_lt hindent,
        Option.bind_some]
      exact (congrArg (Option.bind · _) hmembers).trans hfinish

/-- **`print_value`**, by induction over the tree. -/
theorem printValue_spec (grant : ℕ → Bool) {fmt : Bool} {depth : ℕ} {node : Node}
    (hfits : Fits node) (hshort : Short fmt depth node) : Prints grant fmt depth node := by
  induction node using Node.induction generalizing depth with
  | null => exact fun h => newString_spec grant h (Nat.lt_succ_self _)
  | false => exact fun h => newString_spec grant h (Nat.lt_succ_self _)
  | true => exact fun h => newString_spec grant h (Nat.lt_succ_self _)
  | number n => exact fun h => printNumber_spec grant h hfits
  | string s =>
    exact fun h => printStringPtr_spec grant h ((Nat.le_add_left _ _).trans_lt hshort)
  | array items ih =>
    obtain ⟨hchildren, -⟩ := hshort.array
    exact Prints.array hshort fun child hmem =>
      ih child hmem (Node.all_array.mp hfits child hmem) (hchildren child hmem)
  | object members ih =>
    obtain ⟨-, hchildren, -⟩ := hshort.object
    exact Prints.object hshort fun c hmem =>
      ih c hmem (Node.all_object.mp hfits c hmem).2 (hchildren c hmem)

/-- **Whatever `malloc` does**, `cJSON_Print` and `cJSON_PrintUnformatted` stay inside their
allocations, for every text that the `int`s can count. They give `NULL` exactly when a `malloc`
has failed, they leave nothing allocated but the text, and all that was there before is as it
was. -/
theorem cJSONPrint_printed (grant : ℕ → Bool) (fmt : Bool) (h : Heap) {item : Node}
    (hfits : Fits item) (hshort : (render fmt 0 item).length < 2 ^ 29) :
    ∃ h' r, cJSONPrint grant fmt h item = some (h', r) ∧
      Printed grant h h' r (render fmt 0 item) :=
  printValue_spec grant hfits (show 0 + _ < _ by rwa [Nat.zero_add]) h

theorem cJSONPrint_printed_pair :
    ∃ h' r, cJSONPrint (fun n => decide (n ≠ 2)) true ⟨⟨[]⟩, 0⟩
        (.array [.true, .number (.int 7)]) = some (h', r) ∧
      Printed (fun n => decide (n ≠ 2)) ⟨⟨[]⟩, 0⟩ h' r
        (render true 0 (.array [.true, .number (.int 7)])) :=
  cJSONPrint_printed _ true _ (by simp [Fits, Node.All, AllItems, Number.Fits]) (by decide)

/-! ## Numbers that do not fit -/

theorem fits_of_printMembers {members : List (Option CString × Node)}
    (ih : ∀ c ∈ members, ∀ h, (printValue grant fmt depth h c.2).isSome → Fits c.2)
    {names entries : Ptr} {i : ℕ} {len : Option ℤ}
    (hsome : (printMembers grant fmt depth h names entries i len members).isSome) :
    ∀ c ∈ members, Fits c.2 := by
  induction members generalizing h i len with
  | nil => simp
  | cons c members ihmembers =>
    obtain ⟨ihchild, ihrest⟩ := List.forall_mem_cons.mp ih
    obtain ⟨⟨h', len'⟩, hmembers⟩ := Option.isSome_iff_exists.mp hsome
    obtain ⟨⟨h₁, str⟩, -, hmembers⟩ := Option.bind_eq_some_iff.mp hmembers
    obtain ⟨m₁, -, hmembers⟩ := Option.bind_eq_some_iff.mp hmembers
    obtain ⟨⟨h₂, ret⟩, hrun, hmembers⟩ := Option.bind_eq_some_iff.mp hmembers
    obtain ⟨m₂, -, hmembers⟩ := Option.bind_eq_some_iff.mp hmembers
    obtain ⟨len₂, -, hmembers⟩ := Option.bind_eq_some_iff.mp hmembers
    exact List.forall_mem_cons.mpr
      ⟨ihchild _ (by rw [hrun]; rfl), ihmembers ihrest (by rw [hmembers]; rfl)⟩

section Granted

variable (hgrant : ∀ n, grant n = true)

include hgrant

theorem not_refused {a b : ℕ} : ¬ Refused grant a b := by
  rintro ⟨i, -, -, hi⟩
  rw [hgrant i] at hi
  cases hi

/-- What was written has had room. -/
theorem lt_of_newString {size : ℕ} (hsome : (newString grant h size text).isSome) :
    text.length < size := by
  rcases malloc_cases grant h size with ⟨hg, -⟩ | ⟨mem, p, -, hcall, hoff, -, hobj, -⟩
  · rw [hgrant] at hg
    cases hg
  · rw [newString, hcall, Option.isSome_map] at hsome
    obtain ⟨r, hr⟩ := Option.isSome_iff_exists.mp hsome
    obtain ⟨m', hwrite, -⟩ := Option.map_eq_some_iff.mp hr
    obtain ⟨o, ho, hle, -⟩ := write_spec hwrite
    obtain rfl := Option.some.inj (hobj.symm.trans ho)
    simp only [hoff, List.length_map, List.length_append, length_bytes, List.length_singleton,
      List.length_replicate] at hle
    omega

/-- A value that can be printed was. -/
theorem ne_none_of_fits {node : Node} (hfits : Fits node) (hshort : Short fmt depth node)
    (hrun : printValue grant fmt depth h node = some (h', r)) : r ≠ none := by
  obtain ⟨h₁, r₁, hrun₁, hprinted⟩ := printValue_spec grant hfits hshort h
  rw [hrun] at hrun₁
  obtain ⟨rfl, rfl⟩ := Prod.mk.inj (Option.some.inj hrun₁)
  exact fun hr => not_refused hgrant (hprinted.fails.mp hr)

theorem fits_of_printItems {items : List Node} (hdepth : depth + 1 < 2 ^ 31)
    (hshort : ∀ child ∈ items, Short fmt (depth + 1) child)
    (ih : ∀ child ∈ items, ∀ h, (printValue grant fmt (depth + 1) h child).isSome → Fits child)
    {i : ℕ} {len : ℤ} (hsome : (printItems grant fmt depth h t i len items).isSome) :
    ∀ child ∈ items, Fits child := by
  induction items generalizing h i len with
  | nil => simp
  | cons child items ihitems =>
    obtain ⟨ihchild, ihrest⟩ := List.forall_mem_cons.mp ih
    obtain ⟨hchild, hrest⟩ := List.forall_mem_cons.mp hshort
    obtain ⟨⟨h', len'⟩, hitems⟩ := Option.isSome_iff_exists.mp hsome
    rw [printItems, intNat_of_lt hdepth, Option.bind_eq_bind, Option.bind_some] at hitems
    obtain ⟨⟨h₁, r⟩, hrun, hitems⟩ := Option.bind_eq_some_iff.mp hitems
    obtain ⟨m, hstore, hitems⟩ := Option.bind_eq_some_iff.mp hitems
    have hfits := ihchild h (by rw [hrun]; rfl)
    obtain ⟨p, rfl⟩ := Option.ne_none_iff_exists'.mp (ne_none_of_fits hgrant hfits hchild hrun)
    obtain ⟨n, hstrlen, hitems⟩ := Option.bind_eq_some_iff.mp hitems
    exact List.forall_mem_cons.mpr ⟨hfits, ihitems hrest ihrest (by rw [hitems]; rfl)⟩

theorem fits_of_printValue {depth : ℕ} {node : Node} (hshort : Short fmt depth node) (h : Heap)
    (hsome : (printValue grant fmt depth h node).isSome) : Fits node := by
  induction node using Node.induction generalizing depth h with
  | null => trivial
  | false => trivial
  | true => trivial
  | string s => trivial
  | number n =>
    cases n with
    | int v => trivial
    | double text => exact lt_of_newString hgrant hsome
  | array items ih =>
    obtain ⟨hchildren, hdepth, hnum, -⟩ := hshort.array
    refine Node.all_array.mpr ?_
    simp only [printValue, intNat_of_lt hnum, Option.bind_eq_bind, Option.bind_some] at hsome
    rcases malloc_cases grant h items.length with ⟨hg, -⟩ | ⟨m₀, t, -, hcall, -⟩
    · rw [hgrant] at hg
      cases hg
    · rw [hcall] at hsome
      obtain ⟨_, hprint⟩ := Option.isSome_iff_exists.mp hsome
      obtain ⟨m₁, -, hprint⟩ := Option.bind_eq_some_iff.mp hprint
      obtain ⟨r, hitems, -⟩ := Option.bind_eq_some_iff.mp hprint
      exact fits_of_printItems hgrant hdepth hchildren
        (fun child hmem => ih child hmem (hchildren child hmem)) (by rw [hitems]; rfl)
  | object members ih =>
    obtain ⟨-, hchildren, -, hnum, -⟩ := hshort.object
    refine Node.all_object.mpr fun c hc => ⟨trivial, ?_⟩
    simp only [printValue, intNat_of_lt hnum, Option.bind_eq_bind, Option.bind_some] at hsome
    rcases malloc_cases grant h members.length with ⟨hg, -⟩ | ⟨m₀, entries, -, hcall, -⟩
    · rw [hgrant] at hg
      cases hg
    · rw [hcall] at hsome
      rcases malloc_cases grant ⟨m₀, h.calls + 1⟩ members.length with
        ⟨hg, -⟩ | ⟨m₁, names, -, hcall', -⟩
      · rw [hgrant] at hg
        cases hg
      · simp only [hcall'] at hsome
        obtain ⟨_, hprint⟩ := Option.isSome_iff_exists.mp hsome
        obtain ⟨m₂, -, hprint⟩ := Option.bind_eq_some_iff.mp hprint
        obtain ⟨m₃, -, hprint⟩ := Option.bind_eq_some_iff.mp hprint
        obtain ⟨inner, hinner, hprint⟩ := Option.bind_eq_some_iff.mp hprint
        obtain ⟨len, -, hprint⟩ := Option.bind_eq_some_iff.mp hprint
        obtain ⟨r, hmembers, -⟩ := Option.bind_eq_some_iff.mp hprint
        obtain ⟨-, heq⟩ := Option.ite_none_right_eq_some.mp hinner
        obtain rfl := Option.some.inj heq
        exact fits_of_printMembers (fun c hc => ih c hc (hchildren c hc))
          (by rw [hmembers]; rfl) c hc

end Granted

/-- **With memory enough**, printing is defined for the trees whose numbers fit, and for no other
whose text the `int`s can count: a double of 64 characters or more is written over the end of its
allocation. -/
theorem cJSONPrint_defined_iff (hgrant : ∀ n, grant n = true) (h : Heap) {item : Node}
    (hshort : (render fmt 0 item).length < 2 ^ 29) :
    (cJSONPrint grant fmt h item).isSome ↔ Fits item := by
  have hshort' : Short fmt 0 item := show 0 + _ < _ by rwa [Nat.zero_add]
  refine ⟨fits_of_printValue hgrant hshort' h, fun hfits => ?_⟩
  obtain ⟨h', r, hrun, -⟩ := printValue_spec grant hfits hshort' h
  rw [cJSONPrint, hrun]
  rfl

theorem cJSONPrint_defined_iff_nines :
    (cJSONPrint (fun _ => true) false ⟨⟨[]⟩, 0⟩
      (.number (.double ⟨List.replicate 64 0x39, by decide⟩))).isSome ↔
      Fits (.number (.double ⟨List.replicate 64 0x39, by decide⟩)) :=
  cJSONPrint_defined_iff (fun _ => rfl) _ (by decide)

end Print

end Dungeon

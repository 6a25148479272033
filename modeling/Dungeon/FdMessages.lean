import Dungeon.CjsonRoundTrip
import Dungeon.FdStream
import Dungeon.Lib.Brackets

/-!
# JSON messages over a stream (`cJSON.c`)

One side prints trees to a descriptor, the other one calls `cJSON_fdParse` again and again.

- `Message`: an array or an object whose numbers are `int`s, with no bracket inside its strings, of
  less than 1024 bytes.
- `counted_render`: the brackets of its text balance at its end and not before.
- `receive_one`: one call takes the text of a message from the stream, and nothing behind it.
- `receive_all`: all messages arrive, in their order, however the stream is cut by errors after
  which `read` is called again, and whatever is between the messages.
-/

namespace Dungeon

open JsonText

namespace FdParse

variable {s t u : Text} {c : UInt8} {fmt : Bool} {d : ℕ} {node : Node}

/-! ## Brackets -/

/-- The brackets of a text balance, and close none that it has not opened. -/
abbrev Balanced (s : Text) : Prop := Brackets.Balanced weight s

theorem weight_unmarked (hc : c ∉ openmark ∧ c ∉ closemark ∧ c ≠ 0) : weight c = 0 := by
  obtain ⟨hopen, hclose, hzero⟩ := hc
  have hnotOpen : ¬ strchr openmark c := not_or.mpr ⟨hopen, hzero⟩
  have hnotClose : ¬ strchr closemark c := not_or.mpr ⟨hclose, hzero⟩
  rw [weight, if_neg hnotOpen, if_neg hnotClose]

/-- The bytes of a number. -/
def numerals : Text :=
  [0x30, 0x31, 0x32, 0x33, 0x34, 0x35, 0x36, 0x37, 0x38, 0x39, point, plus, minus] ++ exponents

/-- A number reaches from `s` to `t`. -/
def Numeral (s t : Text) : Prop := ∃ w, s = w ++ t ∧ ∀ c ∈ w, c ∈ numerals

theorem Numeral.refl : Numeral s s := ⟨[], rfl, by simp⟩

theorem Numeral.trans (h : Numeral s t) (h' : Numeral t u) : Numeral s u := by
  obtain ⟨w, rfl, hw⟩ := h
  obtain ⟨w', rfl, hw'⟩ := h'
  exact ⟨w ++ w', (List.append_assoc w w' u).symm, List.forall_mem_append.mpr ⟨hw, hw'⟩⟩

theorem Numeral.cons (hc : c ∈ numerals) (h : Numeral s t) : Numeral (c :: s) t := by
  obtain ⟨w, rfl, hw⟩ := h
  exact ⟨c :: w, rfl, List.forall_mem_cons.mpr ⟨hc, hw⟩⟩

theorem mem_numerals (hc : IsDigit c) : c ∈ numerals := by
  have hall : ∀ k < 10, UInt8.ofNat (48 + k) ∈ numerals := by decide
  have hlow : 48 ≤ c.toNat := UInt8.le_iff_toNat_le.mp hc.1
  have hhigh : c.toNat ≤ 57 := UInt8.le_iff_toNat_le.mp hc.2
  have h := hall (c.toNat - 48) (by omega)
  rwa [Nat.add_sub_cancel' hlow, UInt8.ofNat_toNat] at h

theorem numeral_digits (h : Digits s t) : Numeral s t := by
  induction h with
  | nil => exact .refl
  | cons hc _ ih => exact .cons (mem_numerals hc) ih

theorem numeral_int (h : JsonText.Int s t) : Numeral s t := by
  cases h with
  | zero => exact .cons (by decide) .refl
  | digits hc _ hs => exact .cons (mem_numerals hc) (numeral_digits hs)

theorem numeral_frac (h : Frac s t) : Numeral s t := by
  cases h with
  | none => exact .refl
  | some hc hs => exact .cons (by decide) (.cons (mem_numerals hc) (numeral_digits hs))

theorem numeral_sign (h : Sign s t) : Numeral s t := by
  cases h with
  | none => exact .refl
  | plus => exact .cons (by decide) .refl
  | minus => exact .cons (by decide) .refl

theorem numeral_exp (h : Exp s t) : Numeral s t := by
  cases h with
  | none => exact .refl
  | some he hsign hc hs =>
    exact .cons (List.mem_append_right _ he)
      ((numeral_sign hsign).trans (.cons (mem_numerals hc) (numeral_digits hs)))

theorem numeral_num (h : Num s t) : Numeral s t := by
  cases h with
  | pos hint hfrac hexp =>
    exact (numeral_int hint).trans ((numeral_frac hfrac).trans (numeral_exp hexp))
  | neg hint hfrac hexp =>
    exact .cons (by decide)
      ((numeral_int hint).trans ((numeral_frac hfrac).trans (numeral_exp hexp)))

theorem balanced_num (h : Num s []) : Balanced s := by
  obtain ⟨w, rfl, hw⟩ := numeral_num h
  rw [List.append_nil]
  have hall : ∀ c ∈ numerals, weight c = 0 := forall_mem_of_all (by decide)
  exact Brackets.balanced_flat fun c hc => hall c (hw c hc)

/-- A string without brackets. -/
def Quiet (s : Option CString) : Prop :=
  ∃ str, s = some str ∧ ∀ c ∈ str.1, c ∉ openmark ∧ c ∉ closemark

theorem weight_hex (hc : IsHex c) : weight c = 0 := by
  have hall : ∀ e ∈ openmark ++ closemark ++ [0], ¬ IsHex e := forall_mem_of_all (by decide)
  refine weight_unmarked ⟨fun hmem => hall c ?_ hc, fun hmem => hall c ?_ hc, ?_⟩
  · exact List.mem_append_left _ (List.mem_append_left _ hmem)
  · exact List.mem_append_left _ (List.mem_append_right _ hmem)
  · exact hex_ne hc (by decide)

theorem weight_escaped (hc : c ∉ openmark ∧ c ∉ closemark ∧ c ≠ 0) :
    ∀ e ∈ Print.escaped c, weight e = 0 := by
  unfold Print.escaped
  split
  · exact fun e he => List.mem_singleton.mp he ▸ weight_unmarked hc
  · refine List.forall_mem_cons.mpr ⟨by decide, ?_⟩
    cases hletter : Print.escapeLetter c with
    | none =>
      show ∀ e ∈ Print.unicode c, weight e = 0
      simp only [Print.unicode, List.forall_mem_cons]
      exact ⟨by decide, by decide, by decide, weight_hex (Print.isHex_hexDigit (Print.div_lt c)),
        weight_hex (Print.isHex_hexDigit (Print.mod_lt c)), by simp⟩
    | some letter =>
      have hletters : ∀ e ∈ escapes, weight e = 0 := forall_mem_of_all (by decide)
      exact fun e he => List.mem_singleton.mp he ▸ hletters letter (Print.escapeLetter_mem hletter)

theorem balanced_string {s : Option CString} (hs : Quiet s) : Balanced (Print.renderString s) := by
  obtain ⟨str, rfl, hstr⟩ := hs
  refine Brackets.balanced_flat fun c hc => ?_
  simp only [Print.renderString, List.mem_cons, List.mem_append, List.mem_flatMap,
    List.not_mem_nil, or_false] at hc
  rcases hc with rfl | ⟨e, he, hc⟩ | rfl
  · decide
  · have hne : e ≠ 0 := fun heq => str.2 (heq ▸ he)
    exact weight_escaped ⟨(hstr e he).1, (hstr e he).2, hne⟩ c hc
  · decide

theorem balanced_joinItems {texts : List Text} (h : ∀ s ∈ texts, Balanced s) :
    Balanced (Print.joinItems fmt texts) := by
  have hsep : Balanced (Print.separator fmt) := by
    cases fmt <;> exact Brackets.balanced_flat (forall_mem_of_all (by decide))
  induction texts with
  | nil => exact Brackets.balanced_flat (by simp [Print.joinItems])
  | cons s texts ih =>
    obtain ⟨hs, htexts⟩ := List.forall_mem_cons.mp h
    refine (hs.append ?_).append (ih htexts)
    split
    · exact Brackets.balanced_flat (by simp)
    · exact hsep

theorem balanced_formatted (hc : weight c = 0) : Balanced (Print.formatted fmt c) := by
  cases fmt with
  | false => exact Brackets.balanced_flat (by simp [Print.formatted])
  | true => exact Brackets.balanced_flat (by simpa [Print.formatted] using hc)

theorem balanced_tabs (d : ℕ) : Balanced (Print.tabs fmt d) := by
  cases fmt with
  | false => exact Brackets.balanced_flat (by simp [Print.tabs])
  | true => exact Brackets.balanced_flat fun c hc => List.eq_of_mem_replicate hc ▸ by decide

theorem balanced_joinMembers {members : List (Text × Text)}
    (h : ∀ e ∈ members, Balanced e.1 ∧ Balanced e.2) :
    Balanced (Print.joinMembers fmt d members) := by
  have hcolon : Balanced [colon] := Brackets.balanced_flat (forall_mem_of_all (by decide))
  have hcomma : Balanced [comma] := Brackets.balanced_flat (forall_mem_of_all (by decide))
  have htab : Balanced (Print.formatted fmt Print.tab) := balanced_formatted (by decide)
  have hnewline : Balanced (Print.formatted fmt Print.newline) := balanced_formatted (by decide)
  induction members with
  | nil => exact Brackets.balanced_flat (by simp [Print.joinMembers])
  | cons e members ih =>
    obtain ⟨he, hmembers⟩ := List.forall_mem_cons.mp h
    have hlast : Balanced (if members = [] then [] else [comma]) := by
      split
      · exact Brackets.balanced_flat (by simp)
      · exact hcomma
    exact ((balanced_tabs d).append (he.1.append ((hcolon.append htab).append
      (he.2.append (hlast.append hnewline))))).append (ih hmembers)

/-- A tree whose numbers are `int`s and whose strings have no brackets. -/
def Plain (node : Node) : Prop := node.All Print.Number.IsInt Quiet

theorem balanced_items {items : List Node}
    (h : ∀ child ∈ items, Balanced (Print.render fmt (d + 1) child)) :
    Balanced (Print.joinItems fmt (Print.renderItems fmt (d + 1) items)) := by
  refine balanced_joinItems ?_
  rwa [Print.renderItems_eq, List.forall_mem_map]

theorem balanced_members {members : List (Option CString × Node)}
    (hnames : ∀ c ∈ members, Quiet c.1)
    (h : ∀ c ∈ members, Balanced (Print.render fmt (d + 1) c.2)) :
    Balanced (Print.formatted fmt Print.newline ++ Print.joinMembers fmt (d + 1)
      (Print.renderMembers fmt (d + 1) members) ++ Print.tabs fmt d) := by
  refine ((balanced_formatted (by decide)).append (balanced_joinMembers ?_)).append
    (balanced_tabs d)
  rw [Print.renderMembers_eq, List.forall_mem_map]
  exact fun c hmem => ⟨balanced_string (hnames c hmem), h c hmem⟩

theorem balanced_render (fmt : Bool) (hplain : Plain node) (d : ℕ) :
    Balanced (Print.render fmt d node) := by
  induction node using Node.induction generalizing d with
  | null => exact show Balanced wordNull from Brackets.balanced_flat (forall_mem_of_all (by decide))
  | false =>
    exact show Balanced wordFalse from Brackets.balanced_flat (forall_mem_of_all (by decide))
  | true => exact show Balanced wordTrue from Brackets.balanced_flat (forall_mem_of_all (by decide))
  | number n =>
    cases n with
    | int v => exact balanced_num (Print.num_decimal v.toInt)
    | double text => exact hplain.elim
  | string s => exact balanced_string hplain
  | array items ih =>
    have hitems := balanced_items fun child hmem =>
      ih child hmem (Node.all_array.mp hplain child hmem) (d + 1)
    exact hitems.enclose (by decide) (by decide)
  | object members ih =>
    have hall := Node.all_object.mp hplain
    have hmembers := balanced_members (d := d) (fun c hmem => (hall c hmem).1) fun c hmem =>
      ih c hmem (hall c hmem).2 (d + 1)
    exact hmembers.enclose (by decide) (by decide)

/-- An array or an object. -/
def Container (node : Node) : Prop :=
  (∃ items, node = .array items) ∨ ∃ members, node = .object members

/-- The brackets of an array or an object balance at its end and not before. -/
theorem counted_render (fmt : Bool) (hkind : Container node) (hplain : Plain node) (d : ℕ) :
    Counted (Print.render fmt d node) := by
  refine ⟨(balanced_render fmt hplain d).level_eq, fun bs hbs hnil hne => Int.ne_of_gt ?_⟩
  rcases hkind with ⟨items, rfl⟩ | ⟨members, rfl⟩
  · have hitems := balanced_items fun child hmem =>
      balanced_render fmt (Node.all_array.mp hplain child hmem) (d + 1)
    exact hitems.open_pos (by decide) hbs hnil hne
  · have hall := Node.all_object.mp hplain
    have hmembers := balanced_members (d := d) (fun c hmem => (hall c hmem).1) fun c hmem =>
      balanced_render fmt (hall c hmem).2 (d + 1)
    exact hmembers.open_pos (by decide) hbs hnil hne

/-! ## Messages -/

/-- What `cJSON_fdPrint` writes for an array or an object. -/
structure Message where
  node : Node
  kind : Container node
  plain : Plain node
  short : (Print.render true 0 node).length < 1024

namespace Message

variable (m : Message)

def text : Text := Print.render true 0 m.node

theorem integral : Print.Integral m.node := by
  refine m.plain.mono (fun n hn => hn) fun s hs => ?_
  obtain ⟨str, rfl, -⟩ := hs
  rfl

theorem head : m.text.head? = some openBracket ∨ m.text.head? = some openBrace := by
  rcases m.kind with ⟨items, hnode⟩ | ⟨members, hnode⟩
  · exact .inl (by rw [text, hnode]; rfl)
  · exact .inr (by rw [text, hnode]; rfl)

theorem counted : Counted m.text := counted_render true m.kind m.plain 0

end Message

/-! ## Calls -/

/-- A call of `cJSON_fdParse` that calls `read` `n` times. -/
def Call (realloc : ℤ → Bool) (reads : ℕ → ReadResult) (n : ℕ) (o : Outcome) : Prop :=
  Loop.run (fdTurn realloc reads) n start = some o ∧
    ∀ k < n, Loop.run (fdTurn realloc reads) k start = none

/-- Calls one after the other, what they return, and the results of `read` that are left. -/
inductive Receives (realloc : ℤ → Bool) :
    (ℕ → ReadResult) → List (Option Item) → (ℕ → ReadResult) → Prop
  | nil {reads} : Receives realloc reads [] reads
  | cons {reads reads' n str cs item items} (hcall : Call realloc reads n ⟨str, cs⟩)
      (hreturned : returned str = some item)
      (hrest : Receives realloc (fun k => reads (n + k)) items reads') :
      Receives realloc reads (item :: items) reads'

variable {realloc : ℤ → Bool} {reads : ℕ → ReadResult} {P R : Text}

theorem log_add (reads : ℕ → ReadResult) (n k : ℕ) :
    log reads (n + k) = log reads n ++ log (fun j => reads (n + j)) k := by
  rw [log, List.range_add, List.map_append, List.map_map]
  rfl

/-- **One call** takes the text of a message from the stream, with what is before it, and leaves
what is behind it. -/
theorem receive_one (m : Message) (hP : ∀ c ∈ P, c ∉ openmark ∧ c ∉ closemark ∧ c ≠ 0)
    (hmem : realloc memstep = true) (hreads : Delivers reads (P ++ m.text ++ R)) :
    ∃ n, Call realloc reads n ⟨some m.text, P ++ m.text⟩ ∧
      Delivers (fun k => reads (n + k)) R := by
  have hs : StopsAt realloc (P ++ m.text) := stopsAt_text hP m.head m.counted m.short hmem
  obtain ⟨n, hread, hbytes⟩ := hreads.2
  have hprefix : P ++ m.text <+: heard (log reads n) := by
    rw [hreads.heard_eq, hbytes]
    exact List.prefix_append _ _
  obtain ⟨i, hi, hheard⟩ := exists_heard_of_part hprefix
  rw [← hheard] at hs
  obtain ⟨j, hj, hgets, hlast, hend⟩ := exists_endsWith (fun j hj => hread j (hj.trans_le hi)) hs
  rw [← hreads.heard_eq, hlast, hheard] at hend
  have hkept := kept_text hP m.head (List.prefix_refl m.text)
  have hzero := (Print.document_render true m.integral.sound).zero_notMem
  have hresult : result realloc (P ++ m.text) = some m.text := by
    unfold result
    rw [if_neg (not_refused_of_lt (hkept.symm ▸ m.short) hmem), text_eq_kept (hkept.symm ▸ hzero),
      hkept]
  rw [hresult] at hend
  refine ⟨j + 1, ?_, ?_⟩
  · have hrun := Loop.run_numbered (f := readerAt reads) (getsTo_iff.mpr hgets)
      ((endsWith_iff hgets.2).mpr hend)
    rw [← start_eq] at hrun
    exact ⟨hrun.1, fun k hk => hrun.2 k (Nat.le_of_lt_succ hk)⟩
  · refine ⟨fun k => hreads.1 _, n - (j + 1), fun k hk => hread _ (by omega), ?_⟩
    have hall := bytes_append (log reads (j + 1)) (log (fun k => reads (j + 1 + k)) (n - (j + 1)))
    rw [← log_add, Nat.add_sub_cancel' (by omega), hbytes, ← hreads.heard_eq, hlast, hheard] at hall
    exact (List.append_cancel_left hall).symm

/-- The items of all messages arrive, in their order. -/
theorem receives_toItem (ps : List (Text × Message))
    (hP : ∀ p ∈ ps, ∀ c ∈ p.1, c ∉ openmark ∧ c ∉ closemark ∧ c ≠ 0)
    (hmem : realloc memstep = true)
    (hreads : Delivers reads (ps.flatMap (fun p => p.1 ++ p.2.text) ++ R)) :
    ∃ reads', Receives realloc reads (ps.map fun p => some (toItem p.2.node)) reads' ∧
      Delivers reads' R := by
  induction ps generalizing reads with
  | nil => exact ⟨reads, .nil, hreads⟩
  | cons p ps ih =>
    obtain ⟨hp, hps⟩ := List.forall_mem_cons.mp hP
    rw [List.flatMap_cons, List.append_assoc] at hreads
    obtain ⟨n, hcall, hrest⟩ := receive_one p.2 hp hmem hreads
    obtain ⟨reads', hreceives, hdelivers⟩ := ih hps hrest
    exact ⟨reads', .cons hcall (Print.cJSONParse_render true p.2.integral.sound) hreceives,
      hdelivers⟩

/-- **All messages arrive**, in their order: the calls return items that are the trees of the
messages, and leave what is behind them. -/
theorem receive_all (ps : List (Text × Message))
    (hP : ∀ p ∈ ps, ∀ c ∈ p.1, c ∉ openmark ∧ c ∉ closemark ∧ c ≠ 0)
    (hmem : realloc memstep = true)
    (hreads : Delivers reads (ps.flatMap (fun p => p.1 ++ p.2.text) ++ R)) :
    ∃ (items : List Item) (reads' : ℕ → ReadResult),
      Receives realloc reads (items.map some) reads' ∧
      items.map Item.toNode = ps.map (fun p => some p.2.node) ∧ Delivers reads' R := by
  obtain ⟨reads', hreceives, hdelivers⟩ := receives_toItem ps hP hmem hreads
  refine ⟨ps.map fun p => toItem p.2.node, reads', ?_, ?_, hdelivers⟩
  · rwa [List.map_map]
  · rw [List.map_map]
    exact List.map_congr_left fun p _ => Print.toNode_toItem p.2.integral

/-- An array and an empty object, with an error inside the first and a line break between
them. -/
theorem receive_all_two :
    ∃ (items : List Item) (reads' : ℕ → ReadResult), Receives plenty
        (stream [.data openBracket, .error eintr, .data 0x37, .data closeBracket, .data 0x0A,
          .data openBrace, .data 0x0A, .data closeBrace] .eof) (items.map some) reads' ∧
      items.map Item.toNode = [some (.array [.number (.int 7)]), some (.object [])] ∧
      Delivers reads' [] :=
  receive_all [([], ⟨.array [.number (.int 7)], .inl ⟨_, rfl⟩, ⟨trivial, trivial⟩, by decide⟩),
      ([0x0A], ⟨.object [], .inr ⟨[], rfl⟩, trivial, by decide⟩)]
    (by simp [openmark, closemark, openBracket, openBrace, closeBracket, closeBrace]) rfl
    (delivers_stream (by decide))

end FdParse

end Dungeon

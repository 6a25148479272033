import Dungeon.PrintValue

/-!
# Printing and parsing JSON (`cJSON.c`)

What is printed is parsed to the same tree.

- `toItem`: the item that the parser is to build; `Sound`: the trees for which it does. A string
  that is `NULL` leaves no text, and a double that is infinite or not a number none of JSON.
- `Item.toNode`: the tree that an item is, with the values of its numbers. `Integral`: the trees
  whose numbers are all `int`s; a double may come back rounded.
- `parseString_render`: a string comes back with all its escapes.
- `valueint_decimal`: an `int` comes back.
- `parse_render`: the round trip of a tree, formatted or not.
- `document_render`: the text is one of JSON.
-/

namespace Dungeon

open JsonText

mutual

/-- The item of a tree. -/
def toItem : Node → Item
  | .null => .null
  | .false => .false
  | .true => .true
  | .number n => .number (Print.renderNumber n)
  | .string s => .string (s.elim [] Subtype.val)
  | .array items => .array (toItems items)
  | .object members => .object (toMembers members)
  termination_by structural node => node

def toItems : List Node → List Item
  | [] => []
  | child :: items => toItem child :: toItems items
  termination_by structural items => items

def toMembers : List (Option CString × Node) → List (Text × Item)
  | [] => []
  | (string, child) :: members => (string.elim [] Subtype.val, toItem child) :: toMembers members
  termination_by structural members => members

end

theorem toItems_eq (items : List Node) : toItems items = items.map toItem := by
  induction items with
  | nil => rfl
  | cons child items ih => rw [toItems, ih, List.map_cons]

mutual

/-- The tree of an item, by the values of its numbers; none if one of them is no `int`. -/
def Item.toNode : Item → Option Node
  | .null => some .null
  | .false => some .false
  | .true => some .true
  | .number text => (valueint text).map fun v => .number (.int v)
  | .string s => if h : (0 : UInt8) ∉ s then some (.string (some ⟨s, h⟩)) else none
  | .array items => (toNodes items).map .array
  | .object members => (toNamed members).map .object
  termination_by structural item => item

def toNodes : List Item → Option (List Node)
  | [] => some []
  | child :: items => child.toNode.bind fun node => (toNodes items).map (node :: ·)
  termination_by structural items => items

def toNamed : List (Text × Item) → Option (List (Option CString × Node))
  | [] => some []
  | (string, child) :: members =>
    if h : (0 : UInt8) ∉ string then
      child.toNode.bind fun node => (toNamed members).map ((some ⟨string, h⟩, node) :: ·)
    else none
  termination_by structural members => members

end

namespace Print

/-- A number of JSON. -/
def Number.Sound : Number → Prop
  | .int _ => True
  | .double text => Num text.1 []

/-- No string is `NULL`, and all numbers are those of JSON. -/
def Sound (node : Node) : Prop := node.All Number.Sound fun s => s.isSome

def Number.IsInt : Number → Prop
  | .int _ => True
  | .double _ => False

/-- No string is `NULL`, and all numbers are `int`s. -/
def Integral (node : Node) : Prop := node.All Number.IsInt fun s => s.isSome

theorem Integral.sound {node : Node} (h : Integral node) : Sound node := by
  refine Node.All.mono h (fun n hn => ?_) fun _ hs => hs
  cases n with
  | int v => trivial
  | double text => exact hn.elim

variable {s t u : Text} {c : UInt8} {fmt : Bool} {depth : ℕ} {item : Item}

/-! ## Numbers -/

theorem digits_append (h : Digits s u) (t : Text) : Digits (s ++ t) (u ++ t) := by
  induction h with
  | nil => exact .nil
  | cons hc _ ih => exact .cons hc ih

theorem int_append (h : JsonText.Int s u) (t : Text) : JsonText.Int (s ++ t) (u ++ t) := by
  cases h with
  | zero => exact .zero
  | digits hc hne hs => exact .digits hc hne (digits_append hs t)

theorem frac_append (h : Frac s u) (t : Text) : Frac (s ++ t) (u ++ t) := by
  cases h with
  | none => exact .none
  | some hc hs => exact .some hc (digits_append hs t)

theorem sign_append (h : Sign s u) (t : Text) : Sign (s ++ t) (u ++ t) := by
  cases h with
  | none => exact .none
  | plus => exact .plus
  | minus => exact .minus

theorem exp_append (h : Exp s u) (t : Text) : Exp (s ++ t) (u ++ t) := by
  cases h with
  | none => exact .none
  | some he hsign hc hs => exact .some he (sign_append hsign t) hc (digits_append hs t)

theorem num_append (h : Num s u) (t : Text) : Num (s ++ t) (u ++ t) := by
  cases h with
  | pos hint hfrac hexp => exact .pos (int_append hint t) (frac_append hfrac t) (exp_append hexp t)
  | neg hint hfrac hexp => exact .neg (int_append hint t) (frac_append hfrac t) (exp_append hexp t)

theorem digits_of_forall (hs : ∀ c ∈ s, IsDigit c) (t : Text) : Digits (s ++ t) t := by
  induction s with
  | nil => exact .nil
  | cons c s ih =>
    obtain ⟨hc, hs⟩ := List.forall_mem_cons.mp hs
    exact .cons hc (ih hs)

/-- What `%d` prints is a number of JSON. -/
theorem num_decimal (v : ℤ) : Num (decimal v) [] := by
  have hint : JsonText.Int (if v = 0 then [zero]
      else (Nat.digits 10 v.natAbs).reverse.map fun d => zero + d.toUInt8) [] := by
    split
    · exact .zero
    · rename_i hv
      have hdigit : ∀ d < 10, IsDigit (zero + d.toUInt8) := by decide
      have hfirst : ∀ d < 10, d ≠ 0 → zero + d.toUInt8 ≠ zero := by decide
      have hne : Nat.digits 10 v.natAbs ≠ [] := Nat.digits_ne_nil_iff_ne_zero.mpr (by omega)
      have hlast := Nat.getLast_digit_ne_zero 10 (Int.natAbs_ne_zero.mpr hv)
      have hlt : ∀ d ∈ Nat.digits 10 v.natAbs, d < 10 := fun d hd =>
        Nat.digits_lt_base (by decide) hd
      rw [← List.dropLast_append_getLast hne] at hlt ⊢
      rw [List.reverse_append, List.reverse_singleton, List.singleton_append, List.map_cons]
      have hmem := hlt _ (List.mem_append_right _ (List.mem_singleton_self _))
      refine .digits (hdigit _ hmem) (hfirst _ hmem hlast) ?_
      have hrest := digits_of_forall (s := ((Nat.digits 10 v.natAbs).dropLast.reverse.map
        fun d => zero + d.toUInt8)) (fun c hc => ?_) []
      · simpa using hrest
      · obtain ⟨d, hd, rfl⟩ := List.mem_map.mp hc
        exact hdigit d (hlt d (List.mem_append_left _ (List.mem_reverse.mp hd)))
  unfold decimal
  split
  · exact .neg hint .none .none
  · exact .pos hint .none .none

/-! ## Strings -/

theorem sscanf4x_take {c₁ c₂ c₃ c₄ : UInt8} (hc : ¬ (c₁ = 0x20 ∨ 0x09 ≤ c₁ ∧ c₁ ≤ 0x0D))
    (t : Text) : sscanf4x (c₁ :: c₂ :: c₃ :: c₄ :: t) = sscanf4x [c₁, c₂, c₃, c₄] := by
  unfold sscanf4x
  rw [List.dropWhile_cons_of_neg (by simpa using hc),
    List.dropWhile_cons_of_neg (by simpa using hc)]
  rfl

/-- The escapes for control characters. -/
theorem unicodeEscape_unicode (hne : c ≠ 0) (hlt : c < 32) (t : Text) (vars : Scanned) :
    ∃ vars', unicodeEscape (zero :: zero :: hexDigit (c / 16) :: hexDigit (c % 16) :: t) vars =
      .ok (t, [c], vars') := by
  have hall : ∀ k < 32, k ≠ 0 →
      sscanf4x [zero, zero, hexDigit (UInt8.ofNat k / 16), hexDigit (UInt8.ofNat k % 16)] =
          some (UInt32.ofNat k) ∧
        ¬ (0xDC00 ≤ UInt32.ofNat k ∧ UInt32.ofNat k ≤ 0xDFFF ∨ UInt32.ofNat k = 0) ∧
        ¬ (0xD800 ≤ UInt32.ofNat k ∧ UInt32.ofNat k ≤ 0xDBFF) ∧
        (encode (encodedLen (UInt32.ofNat k)) (encodedLen (UInt32.ofNat k)) (UInt32.ofNat k) []).1 =
          [UInt8.ofNat k] := by decide
  obtain ⟨hscan, hvalid, hpair, hencode⟩ := hall c.toNat (UInt8.lt_iff_toNat_lt.mp hlt)
    fun heq => hne (UInt8.toNat_inj.mp heq)
  rw [UInt8.ofNat_toNat] at hscan hencode
  generalize hr : encode (encodedLen (UInt32.ofNat c.toNat)) (encodedLen (UInt32.ofNat c.toNat))
    (UInt32.ofNat c.toNat) [] = r at hencode
  obtain ⟨bytes, uc⟩ := r
  obtain rfl : bytes = [c] := hencode
  unfold unicodeEscape
  rw [sscanf4x_take (by decide), hscan]
  dsimp only [Option.some_or]
  rw [if_neg (by simp), if_neg hvalid, if_neg hpair, hr]
  exact ⟨_, rfl⟩

/-- A character and its escape: the first loop counts at least one for it, and the second one
writes it. -/
theorem decodeString_escaped (hne : c ≠ 0) (s : Text) :
    (∀ len, stringLen s = some len → ∃ k, stringLen (escaped c ++ s) = some (k + 1 + len)) ∧
    ∀ n out vars, ∃ vars', decodeString (n + 1) (escaped c ++ s) out vars =
      decodeString n s (out ++ [c]) vars' := by
  unfold escaped
  split
  · rename_i hplain
    refine ⟨fun len hlen => ⟨0, ?_⟩, fun n out vars => ⟨vars, ?_⟩⟩
    · rw [List.singleton_append, stringLen_plain hplain.2.1 hplain.2.2, hlen]
      simp [Nat.add_comm]
    · exact decodeString_plain n out vars hplain.2.1 hplain.2.2
  · rename_i hplain
    cases hletter : escapeLetter c with
    | some letter =>
      have hback : unescape letter = c ∧ letter ≠ letterU := by
        unfold escapeLetter at hletter
        split_ifs at hletter <;> subst c <;> exact Option.some.inj hletter ▸ by decide
      refine ⟨fun len hlen => ⟨0, ?_⟩, fun n out vars => ⟨vars, ?_⟩⟩
      · show stringLen (backslash :: letter :: s) = _
        rw [stringLen_escape, hlen]
        simp [Nat.add_comm]
      · exact (decodeString_escape n out vars hback.2).trans (by rw [hback.1]; rfl)
    | none =>
      have hesc : c ≠ backslash ∧ c ≠ quote := by
        unfold escapeLetter at hletter
        split_ifs at hletter with hback hquote
        exact ⟨hback, hquote⟩
      have hlt : c < 32 := by
        have hle : ¬ 31 < c := fun hgt => hplain ⟨hgt, hesc.2, hesc.1⟩
        rw [UInt8.lt_iff_toNat_lt] at hle ⊢
        have h31 : (31 : UInt8).toNat = 31 := rfl
        have h32 : (32 : UInt8).toNat = 32 := rfl
        omega
      have htext : backslash :: ((none : Option UInt8).map ([·])).getD (unicode c) ++ s =
        backslash :: letterU :: zero :: zero :: hexDigit (c / 16) :: hexDigit (c % 16) :: s := rfl
      rw [htext]
      refine ⟨fun len hlen => ⟨4, ?_⟩, fun n out vars => ?_⟩
      · rw [stringLen_escape, stringLen_hex (by decide) (by decide) (isHex_hexDigit (div_lt c))
          (isHex_hexDigit (mod_lt c)), hlen, Option.map_some, Option.map_some]
        congr 1
        omega
      · obtain ⟨vars', hunicode⟩ := unicodeEscape_unicode hne hlt s vars
        exact ⟨vars', decodeString_unicode n out vars hunicode⟩

/-- Both loops of `parse_string` on a string that was printed. -/
theorem decodeString_render {str : Text} (hzero : (0 : UInt8) ∉ str) (t : Text) :
    (∃ len, stringLen (str.flatMap escaped ++ quote :: t) = some len ∧ str.length ≤ len) ∧
    ∀ n out vars, str.length < n →
      decodeString n (str.flatMap escaped ++ quote :: t) out vars = .ok (out ++ str, t) := by
  induction str with
  | nil =>
    refine ⟨⟨0, ?_, Nat.le_refl _⟩, fun n out vars hn => ?_⟩
    · cases t with
      | nil => rfl
      | cons c t => exact if_pos rfl
    · obtain ⟨n, rfl⟩ := Nat.exists_eq_add_one_of_ne_zero (Nat.ne_of_gt hn)
      rw [List.append_nil]
      exact decodeString_quote n out vars
  | cons c str ih =>
    rw [List.mem_cons, not_or] at hzero
    obtain ⟨⟨len, hlen, hle⟩, hdecode⟩ := ih hzero.2
    obtain ⟨hcount, hchar⟩ := decodeString_escaped (Ne.symm hzero.1)
      (str.flatMap escaped ++ quote :: t)
    rw [List.flatMap_cons, List.append_assoc]
    obtain ⟨k, hk⟩ := hcount len hlen
    refine ⟨⟨k + 1 + len, hk, ?_⟩, fun n out vars hn => ?_⟩
    · rw [List.length_cons]
      omega
    · rw [List.length_cons] at hn
      obtain ⟨n, rfl⟩ := Nat.exists_eq_add_one_of_ne_zero (show n ≠ 0 by omega)
      obtain ⟨vars', hone⟩ := hchar n out vars
      rw [hone, hdecode n (out ++ [c]) vars' (by omega), List.append_assoc]
      rfl

theorem length_le_flatMap (str : Text) : str.length ≤ (str.flatMap escaped).length := by
  induction str with
  | nil => exact Nat.le_refl _
  | cons c str ih =>
    rw [List.flatMap_cons, List.length_append, List.length_cons, length_escaped]
    omega

/-- **`parse_string`** gives back the string that `print_string_ptr` has printed. -/
theorem parseString_render (str : CString) (t : Text) :
    parseString (renderString (some str) ++ t) = .ok (str.1, t) := by
  have htext : renderString (some str) ++ t = quote :: (str.1.flatMap escaped ++ quote :: t) := by
    simp [renderString]
  obtain ⟨⟨len, hlen, hle⟩, hdecode⟩ := decodeString_render str.2 t
  have hlength := length_le_flatMap str.1
  rw [htext, parseString]
  refine (if_pos rfl).trans ?_
  rw [List.tail_cons, hlen, hdecode _ [] ⟨none, none⟩ (by
    simp only [List.length_cons, List.length_append]
    omega)]
  exact if_pos hle

/-! ## Values -/

/-- The text of a value is parsed to the item, whatever may follow it, with depth enough. -/
structure Reads (s : Text) (item : Item) : Prop where
  head : ∃ c s', s = c :: s' ∧ 32 < c ∧ c ≠ closeBracket
  parse : ∀ t, Follows t → ∃ N, ∀ n, N ≤ n → parseValue n (s ++ t) = .ok (item, t)

theorem follows_cons (hc : c ∈ followers) (t : Text) : Follows (c :: t) :=
  fun _ hd => Option.mem_some_iff.mp hd ▸ hc

/-- White space alone. -/
def Blank (w : Text) : Prop := ∀ c ∈ w, c ∈ blanks

theorem blank_formatted (fmt : Bool) (hc : c ∈ blanks) : Blank (formatted fmt c) := by
  cases fmt with
  | false => exact fun d hd => absurd hd List.not_mem_nil
  | true => exact fun d hd => List.mem_singleton.mp hd ▸ hc

theorem blank_tabs (fmt : Bool) (depth : ℕ) : Blank (tabs fmt depth) := by
  cases fmt with
  | false => exact fun d hd => absurd hd List.not_mem_nil
  | true => exact fun d hd => List.eq_of_mem_replicate hd ▸ by decide

theorem Blank.follows {w : Text} (hw : Blank w) (hs : Follows s) : Follows (w ++ s) := by
  cases w with
  | nil => exact hs
  | cons c w =>
    exact follows_cons (List.mem_append_right [comma, closeBracket, closeBrace]
      (hw c List.mem_cons_self)) _

/-- White space is passed. -/
theorem Blank.skip_eq {w : Text} (hw : Blank w) (s : Text) : skip (w ++ s) = skip s :=
  List.dropWhile_append_of_pos fun c hc => by
    simpa using (forall_mem_of_all (by decide) : ∀ c ∈ blanks, c ≤ 32) c (hw c hc)

theorem skip_cons (hc : 32 < c) (s : Text) : skip (c :: s) = c :: s :=
  List.dropWhile_cons_of_neg (by simpa using hc)

theorem Reads.skip_eq (h : Reads s item) (t : Text) : skip (s ++ t) = s ++ t := by
  obtain ⟨c, s', rfl, hc, -⟩ := h.head
  exact skip_cons hc _

theorem reads_literal {w : Text} (hhead : ∃ c s', w = c :: s' ∧ 32 < c ∧ c ≠ closeBracket)
    (hliteral : ∀ t, literal (w ++ t) = some (item, t)) : Reads w item where
  head := hhead
  parse t _ := ⟨1, fun n hn => by
    obtain ⟨n, rfl⟩ := Nat.exists_eq_add_one_of_ne_zero (Nat.ne_of_gt hn)
    exact parseValue_literal n (hliteral t)⟩

theorem reads_number (h : Num s []) : Reads s (.number s) := by
  obtain ⟨c, s', rfl, hc⟩ := h.head
  have hgt : 32 < c := by
    rcases hc with rfl | hdigit
    · decide
    · exact UInt8.lt_of_lt_of_le (by decide) hdigit.1
  have hclose : c ≠ closeBracket := by
    rintro rfl
    exact absurd hc (by decide)
  have hquote : c ≠ quote := by
    rintro rfl
    exact absurd hc (by decide)
  have hinitial : c ∉ initials := by
    rcases hc with rfl | hdigit
    · decide
    · exact fun hmem => (forall_mem_of_all (by decide) : ∀ c ∈ initials, ¬ IsDigit c) c hmem hdigit
  refine ⟨⟨c, s', rfl, hgt, hclose⟩, fun t ht => ⟨1, fun n hn => ?_⟩⟩
  obtain ⟨n, rfl⟩ := Nat.exists_eq_add_one_of_ne_zero (Nat.ne_of_gt hn)
  have hparse : parseNumber (c :: s' ++ t) = t := parseNumber_eq (num_append h t) ht
  rw [List.cons_append] at hparse ⊢
  have htake : (c :: (s' ++ t)).take ((c :: (s' ++ t)).length - t.length) = c :: s' := by
    rw [← List.cons_append, List.length_append, Nat.add_sub_cancel, List.take_left]
  rw [parseValue_cons n (literal_none hinitial), if_neg hquote, if_pos hc, hparse, htake]

theorem reads_string (str : CString) : Reads (renderString (some str)) (.string str.1) where
  head := ⟨quote, _, rfl, by decide, by decide⟩
  parse t _ := ⟨1, fun n hn => by
    obtain ⟨n, rfl⟩ := Nat.exists_eq_add_one_of_ne_zero (Nat.ne_of_gt hn)
    have hparse := parseString_render str t
    rw [renderString, List.cons_append] at hparse ⊢
    rw [parseValue_cons n (literal_none (by decide)), if_pos rfl, hparse]
    rfl⟩

/-- The items of an array, and what closes it. -/
theorem parseItems_join (fmt : Bool) {es : List (Text × Item)} (hes : ∀ e ∈ es, Reads e.1 e.2)
    (hne : es ≠ []) (t : Text) :
    ∃ N, ∀ n, N ≤ n → ∀ items, parseItems n items
      (joinItems fmt (es.map Prod.fst) ++ closeBracket :: t) =
        .ok (.array (items ++ es.map Prod.snd), t) := by
  have hblank : Blank (formatted fmt blank) := blank_formatted fmt (by decide)
  induction es with
  | nil => exact absurd rfl hne
  | cons e es ih =>
    obtain ⟨he, hes⟩ := List.forall_mem_cons.mp hes
    by_cases hlast : es = []
    · subst hlast
      obtain ⟨N, hN⟩ := he.parse (closeBracket :: t) (follows_cons (by decide) _)
      refine ⟨N + 1, fun n hn items => ?_⟩
      obtain ⟨n, rfl⟩ := Nat.exists_eq_add_one_of_ne_zero (show n ≠ 0 by omega)
      have htext : joinItems fmt ([e].map Prod.fst) ++ closeBracket :: t =
        e.1 ++ closeBracket :: t := by simp [joinItems]
      rw [htext, parseItems_succ ((he.skip_eq _).symm ▸ hN n (by omega)) (skip_cons (by decide) _),
        if_neg (by decide), if_pos rfl]
      rfl
    · obtain ⟨N, hN⟩ := ih hes hlast
      obtain ⟨N', hN'⟩ := he.parse (comma :: (formatted fmt blank ++
        (joinItems fmt (es.map Prod.fst) ++ closeBracket :: t))) (follows_cons (by decide) _)
      refine ⟨max N N' + 1, fun n hn items => ?_⟩
      obtain ⟨n, rfl⟩ := Nat.exists_eq_add_one_of_ne_zero (show n ≠ 0 by omega)
      have htext : joinItems fmt ((e :: es).map Prod.fst) ++ closeBracket :: t =
          e.1 ++ comma :: (formatted fmt blank ++
            (joinItems fmt (es.map Prod.fst) ++ closeBracket :: t)) := by
        simp [joinItems, hlast, separator]
      rw [htext, parseItems_succ ((he.skip_eq _).symm ▸ hN' n (by omega)) (skip_cons (by decide) _),
        if_pos rfl, ← parseItems_skip, hblank.skip_eq, parseItems_skip,
        hN n (by omega), List.append_assoc]
      rfl

/-- The members of an object, and what closes it behind a line break and tabs. -/
theorem parseMembers_join (fmt : Bool) (depth : ℕ) {es : List (CString × Text × Item)}
    (hes : ∀ e ∈ es, Reads e.2.1 e.2.2) (hne : es ≠ []) {w : Text}
    (hw : Blank w) (t : Text) :
    ∃ N, ∀ n, N ≤ n → ∀ members, parseMembers n members
      (joinMembers fmt depth (es.map fun e => (renderString (some e.1), e.2.1)) ++
        (w ++ closeBrace :: t)) =
          .ok (.object (members ++ es.map fun e => (e.1.1, e.2.2)), t) := by
  have htab : Blank (formatted fmt tab) := blank_formatted fmt (by decide)
  have hnewline : Blank (formatted fmt newline) := blank_formatted fmt (by decide)
  induction es with
  | nil => exact absurd rfl hne
  | cons e es ih =>
    obtain ⟨he, hes⟩ := List.forall_mem_cons.mp hes
    -- a member, in front of a comma or the end
    have hmember : ∀ c u s, skip s = c :: u → Follows s → ∃ N, ∀ n, N ≤ n →
        ∀ members, parseMembers (n + 1) members (tabs fmt depth ++ (renderString (some e.1) ++
          colon :: (formatted fmt tab ++ (e.2.1 ++ s)))) =
            if c = comma then parseMembers n (members ++ [(e.1.1, e.2.2)]) u
            else if c = closeBrace then .ok (.object (members ++ [(e.1.1, e.2.2)]), u)
            else .error .null := by
      intro c u s hs hfollows
      obtain ⟨N, hN⟩ := he.parse s hfollows
      refine ⟨N, fun n hn members => ?_⟩
      have hname : parseString (skip (tabs fmt depth ++ (renderString (some e.1) ++
          colon :: (formatted fmt tab ++ (e.2.1 ++ s))))) =
            .ok (e.1.1, colon :: (formatted fmt tab ++ (e.2.1 ++ s))) := by
        rw [(blank_tabs fmt depth).skip_eq, (reads_string e.1).skip_eq, parseString_render]
      have hvalue : parseValue n (skip (formatted fmt tab ++ (e.2.1 ++ s))) = .ok (e.2.2, s) := by
        rw [htab.skip_eq, he.skip_eq, hN n hn]
      exact parseMembers_succ hname (skip_cons (by decide) _) hvalue hs
    by_cases hlast : es = []
    · subst hlast
      obtain ⟨N, hN⟩ := hmember closeBrace t (formatted fmt newline ++ (w ++ closeBrace :: t))
        (by rw [hnewline.skip_eq, hw.skip_eq, skip_cons (by decide)])
        (hnewline.follows (hw.follows (follows_cons (by decide) _)))
      refine ⟨N + 1, fun n hn members => ?_⟩
      obtain ⟨n, rfl⟩ := Nat.exists_eq_add_one_of_ne_zero (show n ≠ 0 by omega)
      have htext : joinMembers fmt depth ([e].map fun e => (renderString (some e.1), e.2.1)) ++
          (w ++ closeBrace :: t) = tabs fmt depth ++ (renderString (some e.1) ++
            colon :: (formatted fmt tab ++ (e.2.1 ++
              (formatted fmt newline ++ (w ++ closeBrace :: t))))) := by
        simp [joinMembers]
      rw [htext, hN n (by omega), if_neg (by decide), if_pos rfl]
      rfl
    · obtain ⟨N, hN⟩ := ih hes hlast
      obtain ⟨N', hN'⟩ := hmember comma (formatted fmt newline ++ (joinMembers fmt depth
        (es.map fun e => (renderString (some e.1), e.2.1)) ++ (w ++ closeBrace :: t)))
          _ (skip_cons (by decide) _) (follows_cons (by decide) _)
      refine ⟨max N N' + 1, fun n hn members => ?_⟩
      obtain ⟨n, rfl⟩ := Nat.exists_eq_add_one_of_ne_zero (show n ≠ 0 by omega)
      have htext :
          joinMembers fmt depth ((e :: es).map fun e => (renderString (some e.1), e.2.1)) ++
          (w ++ closeBrace :: t) = tabs fmt depth ++ (renderString (some e.1) ++
            colon :: (formatted fmt tab ++ (e.2.1 ++ comma :: (formatted fmt newline ++
              (joinMembers fmt depth (es.map fun e => (renderString (some e.1), e.2.1)) ++
                (w ++ closeBrace :: t)))))) := by
        simp [joinMembers, hlast]
      rw [htext, hN' n (by omega), if_pos rfl, ← parseMembers_skip, hnewline.skip_eq,
        parseMembers_skip, hN n (by omega), List.append_assoc]
      rfl

/-- The members of an object, with their names. -/
theorem exists_members {P : Text → Item → Prop} {members : List (Option CString × Node)}
    (hnames : ∀ c ∈ members, c.1.isSome)
    (hP : ∀ c ∈ members, P (render fmt depth c.2) (toItem c.2)) :
    ∃ es : List (CString × Text × Item),
      renderMembers fmt depth members = es.map (fun e => (renderString (some e.1), e.2.1)) ∧
      toMembers members = es.map (fun e => (e.1.1, e.2.2)) ∧ ∀ e ∈ es, P e.2.1 e.2.2 := by
  induction members with
  | nil => exact ⟨[], rfl, rfl, by simp⟩
  | cons c members ih =>
    obtain ⟨string, child⟩ := c
    obtain ⟨hname, hnames'⟩ := List.forall_mem_cons.mp hnames
    obtain ⟨hchild, hP'⟩ := List.forall_mem_cons.mp hP
    obtain ⟨str, rfl⟩ := Option.isSome_iff_exists.mp hname
    obtain ⟨es, hrender, hitems, hes⟩ := ih hnames' hP'
    refine ⟨(str, render fmt depth child, toItem child) :: es, ?_, ?_,
      List.forall_mem_cons.mpr ⟨hchild, hes⟩⟩
    · rw [renderMembers, hrender, List.map_cons]
    · rw [toMembers, hitems, List.map_cons]
      rfl

theorem reads_array {items : List Node}
    (hreads : ∀ child ∈ items, Reads (render fmt (depth + 1) child) (toItem child)) :
    Reads (render fmt depth (.array items)) (toItem (.array items)) := by
  refine ⟨⟨openBracket, _, rfl, by decide, by decide⟩, fun t ht => ?_⟩
  by_cases hempty : items = []
  · subst hempty
    refine ⟨1, fun n hn => ?_⟩
    obtain ⟨n, rfl⟩ := Nat.exists_eq_add_one_of_ne_zero (Nat.ne_of_gt hn)
    refine (parseValue_openBracket n (closeBracket :: t)).trans ?_
    rw [skip_cons (by decide)]
    exact if_pos rfl
  · have htexts : (items.map fun child => (render fmt (depth + 1) child, toItem child)).map
        Prod.fst = renderItems fmt (depth + 1) items := by
      rw [renderItems_eq, List.map_map]
      rfl
    have hitems : (items.map fun child => (render fmt (depth + 1) child, toItem child)).map
        Prod.snd = toItems items := by
      rw [toItems_eq, List.map_map]
      rfl
    have hes : ∀ e ∈ items.map (fun child => (render fmt (depth + 1) child, toItem child)),
        Reads e.1 e.2 := List.forall_mem_map.mpr hreads
    obtain ⟨N, hN⟩ := parseItems_join fmt hes (List.map_eq_nil_iff.not.mpr hempty) t
    rw [htexts, hitems] at hN
    -- the first item does not begin like an end
    have hhead : ¬ (skip (joinItems fmt (renderItems fmt (depth + 1) items) ++
        closeBracket :: t)).head? = some closeBracket := by
      obtain ⟨child, items, rfl⟩ := List.exists_cons_of_ne_nil hempty
      obtain ⟨c, s', hs, hc, hne⟩ := (hreads child List.mem_cons_self).head
      rw [renderItems, joinItems, hs, List.cons_append, List.cons_append, List.cons_append,
        skip_cons hc]
      exact fun heq => hne (Option.some.inj heq)
    refine ⟨N + 1, fun n hn => ?_⟩
    obtain ⟨n, rfl⟩ := Nat.exists_eq_add_one_of_ne_zero (show n ≠ 0 by omega)
    have htext : render fmt depth (.array items) ++ t =
        openBracket ::
          (joinItems fmt (renderItems fmt (depth + 1) items) ++ closeBracket :: t) := by
      simp [render]
    rw [htext, parseValue_openBracket, if_neg hhead, parseItems_skip, hN n (by omega)]
    rfl

theorem reads_object {members : List (Option CString × Node)}
    (hnames : ∀ c ∈ members, c.1.isSome)
    (hreads : ∀ c ∈ members, Reads (render fmt (depth + 1) c.2) (toItem c.2)) :
    Reads (render fmt depth (.object members)) (toItem (.object members)) := by
  obtain ⟨es, hrender, hitems, hes⟩ := exists_members hnames hreads
  have hnewline : Blank (formatted fmt newline) := blank_formatted fmt (by decide)
  have htabs := blank_tabs fmt depth
  have htext : ∀ t, render fmt depth (.object members) ++ t = openBrace :: (formatted fmt newline ++
      (joinMembers fmt (depth + 1) (es.map fun e => (renderString (some e.1), e.2.1)) ++
        (tabs fmt depth ++ closeBrace :: t))) := by
    intro t
    simp [render, hrender]
  refine ⟨⟨openBrace, _, rfl, by decide, by decide⟩, fun t ht => ?_⟩
  rw [htext t, show toItem (.object members) = .object (toMembers members) from rfl, hitems]
  by_cases hempty : es = []
  · subst hempty
    refine ⟨1, fun n hn => ?_⟩
    obtain ⟨n, rfl⟩ := Nat.exists_eq_add_one_of_ne_zero (Nat.ne_of_gt hn)
    rw [parseValue_openBrace, hnewline.skip_eq, List.map_nil, joinMembers, List.nil_append,
      htabs.skip_eq, skip_cons (by decide)]
    exact if_pos rfl
  · obtain ⟨N, hN⟩ := parseMembers_join fmt (depth + 1) hes hempty htabs t
    have hhead : ¬ (skip (formatted fmt newline ++ (joinMembers fmt (depth + 1)
        (es.map fun e => (renderString (some e.1), e.2.1)) ++
          (tabs fmt depth ++ closeBrace :: t)))).head? = some closeBrace := by
      obtain ⟨e, es, rfl⟩ := List.exists_cons_of_ne_nil hempty
      rw [hnewline.skip_eq, List.map_cons, joinMembers, List.append_assoc,  List.append_assoc,
        (blank_tabs fmt (depth + 1)).skip_eq, List.append_assoc, (reads_string e.1).skip_eq]
      simp [renderString]
      decide
    refine ⟨N + 1, fun n hn => ?_⟩
    obtain ⟨n, rfl⟩ := Nat.exists_eq_add_one_of_ne_zero (show n ≠ 0 by omega)
    rw [parseValue_openBrace, if_neg hhead, parseMembers_skip, ← parseMembers_skip,
      hnewline.skip_eq, parseMembers_skip, hN n (by omega)]
    rfl

theorem reads_render (fmt : Bool) {node : Node} (hsound : Sound node) (depth : ℕ) :
    Reads (render fmt depth node) (toItem node) := by
  induction node using Node.induction generalizing depth with
  | null => exact reads_literal ⟨_, _, rfl, by decide, by decide⟩ fun t => rfl
  | false => exact reads_literal ⟨_, _, rfl, by decide, by decide⟩ fun t => rfl
  | true => exact reads_literal ⟨_, _, rfl, by decide, by decide⟩ fun t => rfl
  | number n =>
    cases n with
    | int v => exact reads_number (num_decimal v.toInt)
    | double text => exact reads_number hsound
  | string s =>
    obtain ⟨str, rfl⟩ := Option.isSome_iff_exists.mp hsound
    exact reads_string str
  | array items ih =>
    exact reads_array fun child hmem => ih child hmem (Node.all_array.mp hsound child hmem) _
  | object members ih =>
    have hmembers := Node.all_object.mp hsound
    exact reads_object (fun c hmem => (hmembers c hmem).1) fun c hmem =>
      ih c hmem (hmembers c hmem).2 _

/-- What is printed is parsed to the item, numbers by their texts. -/
theorem cJSONParse_render (fmt : Bool) {node : Node} (hsound : Sound node) :
    cJSONParse (render fmt 0 node) = some (some (toItem node)) := by
  have hreads := reads_render fmt hsound 0
  obtain ⟨N, hN⟩ := hreads.parse [] (fun c hc => by cases hc)
  have hparse := cJSONParse_depth
    (Nat.le_max_right N (2 * (render fmt 0 node).length + 2))
  have hskip := hreads.skip_eq []
  rw [List.append_nil] at hskip hN
  rw [hskip, hN _ (Nat.le_max_left _ _)] at hparse
  unfold cJSONParse
  rw [hskip, ← hparse]

/-! ## The values of numbers -/

/-- The digits that are printed are those of the number. -/
theorem accumulate_digits (n : ℕ) :
    accumulate ((Nat.digits 10 n).reverse.map fun d => zero + d.toUInt8) = n := by
  have hdigit : ∀ d < 10, ((zero + d.toUInt8) - zero).toNat = d := by decide
  have hfold : ∀ ds : List ℕ, (∀ d ∈ ds, d < 10) →
      accumulate (ds.reverse.map fun d => zero + d.toUInt8) = Nat.ofDigits 10 ds := by
    intro ds hds
    unfold accumulate
    induction ds with
    | nil => rfl
    | cons d ds ih =>
      obtain ⟨hd, hds⟩ := List.forall_mem_cons.mp hds
      rw [List.reverse_cons, List.map_append, List.foldl_append, ih hds, List.map_singleton,
        List.foldl_cons, List.foldl_nil, hdigit d hd, Nat.ofDigits_cons, Nat.mul_comm,
        Nat.add_comm]
  rw [hfold _ fun d hd => Nat.digits_lt_base (by decide) hd, Nat.ofDigits_digits]

/-- The parts of a decimal text. -/
theorem decimal_eq (v : ℤ) : ∃ body, decimal v = (if v < 0 then [minus] else []) ++ body ∧
    (∀ c ∈ body, IsDigit c) ∧ accumulate body = v.natAbs := by
  refine ⟨_, rfl, ?_⟩
  split
  next hv =>
    subst hv
    exact ⟨fun c hc => List.mem_singleton.mp hc ▸ by decide, rfl⟩
  next =>
    have hdigit : ∀ d < 10, IsDigit (zero + d.toUInt8) := by decide
    refine ⟨fun c hc => ?_, accumulate_digits v.natAbs⟩
    obtain ⟨d, hd, rfl⟩ := List.mem_map.mp hc
    exact hdigit d (Nat.digits_lt_base (by decide) (List.mem_reverse.mp hd))

/-- **An `int` comes back** from its decimal text. -/
theorem valueint_decimal (v : Int32) : valueint (decimal v.toInt) = some v := by
  have hle := v.le_toInt
  have hlt := v.toInt_lt
  obtain ⟨body, htext, hdigit, hsum⟩ := decimal_eq v.toInt
  have hrest : digits body = [] := by
    have hall := digits_of_forall hdigit []
    rw [List.append_nil] at hall
    exact digits_eq hall (noDigit_of nofun)
  unfold valueint
  dsimp only
  rw [htext]
  split
  next hneg =>
    have hvalue : -(v.toInt.natAbs : ℤ) = v.toInt := by omega
    rw [List.singleton_append, accept_self, List.head?_cons, if_pos rfl, hrest, hsum, hvalue,
      if_pos ⟨rfl, hle, hlt⟩, Int32.ofInt_toInt]
  next hneg =>
    have hhead : ∀ c ∈ body.head?, c ≠ minus := fun c hc heq =>
      absurd (hdigit c (List.mem_of_mem_head? hc)) (heq ▸ by decide)
    have hpos : ¬ body.head? = some minus := fun heq => hhead minus heq rfl
    have hvalue : (v.toInt.natAbs : ℤ) = v.toInt := by omega
    rw [List.nil_append, accept_of_ne hhead, hrest, hsum, if_neg hpos, hvalue,
      if_pos ⟨rfl, hle, hlt⟩, Int32.ofInt_toInt]

theorem toNodes_toItems {items : List Node}
    (h : ∀ child ∈ items, (toItem child).toNode = some child) :
    toNodes (toItems items) = some items := by
  induction items with
  | nil => rfl
  | cons child items ih =>
    obtain ⟨hchild, hitems⟩ := List.forall_mem_cons.mp h
    rw [toItems, toNodes, hchild, ih hitems]
    rfl

theorem toNamed_toMembers {members : List (Option CString × Node)}
    (hnames : ∀ c ∈ members, c.1.isSome)
    (h : ∀ c ∈ members, (toItem c.2).toNode = some c.2) :
    toNamed (toMembers members) = some members := by
  induction members with
  | nil => rfl
  | cons c members ih =>
    obtain ⟨string, child⟩ := c
    obtain ⟨hname, hnames'⟩ := List.forall_mem_cons.mp hnames
    obtain ⟨hchild, hmembers⟩ := List.forall_mem_cons.mp h
    obtain ⟨str, rfl⟩ := Option.isSome_iff_exists.mp hname
    have hzero : (0 : UInt8) ∉ (some str).elim [] Subtype.val := str.2
    rw [toMembers, toNamed, dif_pos hzero, hchild, ih hnames' hmembers]
    rfl

/-- The item of a tree is that tree. -/
theorem toNode_toItem {node : Node} (h : Integral node) : (toItem node).toNode = some node := by
  induction node using Node.induction with
  | null => rfl
  | false => rfl
  | true => rfl
  | number n =>
    cases n with
    | int v =>
      show (valueint (decimal v.toInt)).map _ = _
      rw [valueint_decimal]
      rfl
    | double text => exact h.elim
  | string s =>
    obtain ⟨str, rfl⟩ := Option.isSome_iff_exists.mp h
    exact dif_pos str.2
  | array items ih =>
    have hitems := toNodes_toItems fun child hmem => ih child hmem (Node.all_array.mp h child hmem)
    show (toNodes (toItems items)).map _ = _
    rw [hitems]
    rfl
  | object members ih =>
    have hall := Node.all_object.mp h
    have hmembers := toNamed_toMembers (fun c hmem => (hall c hmem).1) fun c hmem =>
      ih c hmem (hall c hmem).2
    show (toNamed (toMembers members)).map _ = _
    rw [hmembers]
    rfl

/-- **What is printed is parsed to the same tree**, formatted or not: all escapes, all nesting,
names that come twice, objects that are empty, and the values of all `int`s. -/
theorem parse_render (fmt : Bool) {node : Node} (h : Integral node) :
    ∃ item, cJSONParse (render fmt 0 node) = some (some item) ∧ item.toNode = some node :=
  ⟨toItem node, cJSONParse_render fmt h.sound, toNode_toItem h⟩

theorem parse_render_object :
    ∃ item, cJSONParse (render true 0 (.object [(some ⟨[0x61, 0x22], by decide⟩,
        .array [.number (.int (-50)), .string (some ⟨[0x01, 0x0A], by decide⟩)])])) =
      some (some item) ∧
      item.toNode = some (.object [(some ⟨[0x61, 0x22], by decide⟩,
        .array [.number (.int (-50)), .string (some ⟨[0x01, 0x0A], by decide⟩)])]) :=
  parse_render true (by simp [Integral, Number.IsInt, Node.All, AllItems, AllMembers])

/-! ## The grammar -/

theorem Blank.ws {w : Text} (hw : Blank w) (s : Text) : Ws (w ++ s) s := by
  induction w with
  | nil => exact .nil
  | cons c w ih =>
    obtain ⟨hc, hw⟩ := List.forall_mem_cons.mp hw
    exact .cons hc (ih hw)

/-- The letters of `print_string_ptr` are escapes of JSON. -/
theorem escapeLetter_mem {letter : UInt8} (hletter : escapeLetter c = some letter) :
    letter ∈ escapes := by
  unfold escapeLetter at hletter
  split_ifs at hletter <;> exact Option.some.inj hletter ▸ by decide

theorem chars_escaped (c : UInt8) (hs : Chars s u) : Chars (escaped c ++ s) u := by
  unfold escaped
  split
  · rename_i hplain
    have hle : 0x20 ≤ c := by
      have hlt := hplain.1
      rw [UInt8.lt_iff_toNat_lt] at hlt
      rw [UInt8.le_iff_toNat_le]
      have h31 : (31 : UInt8).toNat = 31 := rfl
      have h20 : (0x20 : UInt8).toNat = 32 := rfl
      omega
    exact .plain hle hplain.2.1 hplain.2.2 hs
  · cases hletter : escapeLetter c with
    | some letter => exact .escape (escapeLetter_mem hletter) hs
    | none =>
      exact .unicode (by decide) (by decide) (isHex_hexDigit (div_lt c))
        (isHex_hexDigit (mod_lt c)) hs

theorem str_render (str : CString) (t : Text) : Str (renderString (some str) ++ t) t := by
  have hchars (str : Text) : Chars (str.flatMap escaped ++ quote :: t) (quote :: t) := by
    induction str with
    | nil => exact .nil
    | cons c str ih =>
      rw [List.flatMap_cons, List.append_assoc]
      exact chars_escaped c ih
  have htext : renderString (some str) ++ t = quote :: (str.1.flatMap escaped ++ quote :: t) := by
    simp [renderString]
  exact htext ▸ .mk (hchars str.1)

/-- The text of a value, whatever follows it. -/
def IsValue (s : Text) : Prop := ∀ t, Derives .value (s ++ t) t

theorem derives_items (fmt : Bool) {texts : List Text} (hvalue : ∀ s ∈ texts, IsValue s)
    (hne : texts ≠ []) {w : Text} (hw : Blank w) (t : Text) :
    Derives .items (w ++ (joinItems fmt texts ++ closeBracket :: t)) t := by
  induction texts generalizing w with
  | nil => exact absurd rfl hne
  | cons s texts ih =>
    obtain ⟨hs, htexts⟩ := List.forall_mem_cons.mp hvalue
    by_cases hlast : texts = []
    · subst hlast
      have htext : joinItems fmt [s] ++ closeBracket :: t = s ++ closeBracket :: t := by
        simp [joinItems]
      rw [htext]
      exact .lastItem (hw.ws _) (hs _) .nil
    · have htext : joinItems fmt (s :: texts) ++ closeBracket :: t =
          s ++ comma :: (formatted fmt blank ++ (joinItems fmt texts ++ closeBracket :: t)) := by
        simp [joinItems, hlast, separator]
      rw [htext]
      exact .item (hw.ws _) (hs _) .nil (ih htexts hlast (blank_formatted fmt (by decide)))

theorem derives_members (fmt : Bool) (depth : ℕ) {es : List (CString × Text × Item)}
    (hvalue : ∀ e ∈ es, IsValue e.2.1) (hne : es ≠ []) {w w' : Text} (hw : Blank w)
    (hw' : Blank w') (t : Text) :
    Derives .members
      (w ++ (joinMembers fmt depth (es.map fun e => (renderString (some e.1), e.2.1)) ++
      (w' ++ closeBrace :: t))) t := by
  have hnewline : Blank (formatted fmt newline) := blank_formatted fmt (by decide)
  have htab : Blank (formatted fmt tab) := blank_formatted fmt (by decide)
  induction es generalizing w with
  | nil => exact absurd rfl hne
  | cons e es ih =>
    obtain ⟨he, hes⟩ := List.forall_mem_cons.mp hvalue
    have hbefore : ∀ s, Ws (w ++ (tabs fmt depth ++ s)) s := fun s => by
      rw [← List.append_assoc]
      refine Blank.ws (fun c hc => ?_) s
      rcases List.mem_append.mp hc with hc | hc
      · exact hw c hc
      · exact blank_tabs fmt depth c hc
    by_cases hlast : es = []
    · subst hlast
      have htext : joinMembers fmt depth ([e].map fun e => (renderString (some e.1), e.2.1)) ++
          (w' ++ closeBrace :: t) = tabs fmt depth ++ (renderString (some e.1) ++
            colon :: (formatted fmt tab ++ (e.2.1 ++
              ((formatted fmt newline ++ w') ++ closeBrace :: t)))) := by
        simp [joinMembers]
      have hbehind : Blank (formatted fmt newline ++ w') := fun c hc =>
        (List.mem_append.mp hc).elim (hnewline c) (hw' c)
      rw [htext]
      exact .lastMember (hbefore _) (str_render e.1 _) .nil (htab.ws _) (he _) (hbehind.ws _)
    · have htext :
          joinMembers fmt depth ((e :: es).map fun e => (renderString (some e.1), e.2.1)) ++
          (w' ++ closeBrace :: t) = tabs fmt depth ++ (renderString (some e.1) ++
            colon :: (formatted fmt tab ++ (e.2.1 ++ comma :: (formatted fmt newline ++
              (joinMembers fmt depth (es.map fun e => (renderString (some e.1), e.2.1)) ++
                (w' ++ closeBrace :: t)))))) := by
        simp [joinMembers, hlast]
      rw [htext]
      exact .member (hbefore _) (str_render e.1 _) .nil (htab.ws _) (he _) .nil
        (ih hes hlast hnewline)

theorem isValue_render (fmt : Bool) {node : Node} (hsound : Sound node) (depth : ℕ) :
    IsValue (render fmt depth node) := by
  induction node using Node.induction generalizing depth with
  | null => exact fun t => .null
  | false => exact fun t => .false
  | true => exact fun t => .true
  | number n =>
    cases n with
    | int v => exact fun t => .number (num_append (num_decimal v.toInt) t)
    | double text => exact fun t => .number (num_append hsound t)
  | string s =>
    obtain ⟨str, rfl⟩ := Option.isSome_iff_exists.mp hsound
    exact fun t => .string (str_render str t)
  | array items ih =>
    have hitems : ∀ s ∈ renderItems fmt (depth + 1) items, IsValue s := by
      rw [renderItems_eq, List.forall_mem_map]
      exact fun child hmem => ih child hmem (Node.all_array.mp hsound child hmem) _
    intro t
    have htext : render fmt depth (.array items) ++ t =
        openBracket ::
          (joinItems fmt (renderItems fmt (depth + 1) items) ++ closeBracket :: t) := by
      simp [render]
    rw [htext]
    by_cases hempty : items = []
    · subst hempty
      exact .emptyArray .nil
    · exact .array (derives_items fmt hitems (by rwa [renderItems_eq, Ne, List.map_eq_nil_iff])
        (w := []) (fun c hc => absurd hc List.not_mem_nil) t)
  | object members ih =>
    have hmembers := Node.all_object.mp hsound
    obtain ⟨es, hrender, -, hes⟩ := exists_members (P := fun s _ => IsValue s)
      (fun c hmem => (hmembers c hmem).1) fun c hmem => ih c hmem (hmembers c hmem).2 (depth + 1)
    have hnewline : Blank (formatted fmt newline) := blank_formatted fmt (by decide)
    intro t
    have htext : render fmt depth (.object members) ++ t = openBrace :: (formatted fmt newline ++
        (joinMembers fmt (depth + 1) (es.map fun e => (renderString (some e.1), e.2.1)) ++
          (tabs fmt depth ++ closeBrace :: t))) := by
      simp [render, hrender]
    rw [htext]
    by_cases hempty : es = []
    · subst hempty
      refine .emptyObject ?_
      rw [List.map_nil, joinMembers, List.nil_append, ← List.append_assoc]
      exact Blank.ws (fun c hc => (List.mem_append.mp hc).elim (hnewline c)
        (blank_tabs fmt depth c)) _
    · exact .object (derives_members fmt (depth + 1) hes hempty hnewline (blank_tabs fmt depth) t)

/-- **What is printed is JSON**, formatted or not. -/
theorem document_render (fmt : Bool) {node : Node} (hsound : Sound node) :
    Document (render fmt 0 node) :=
  ⟨_, [], .nil, List.append_nil (render fmt 0 node) ▸ isValue_render fmt hsound 0 [], .nil⟩

theorem document_render_object :
    Document (render false 0 (.object [(some ⟨[0x61], by decide⟩, .number (.int 0)),
      (some ⟨[0x61], by decide⟩, .array [])])) :=
  document_render false (by simp [Sound, Number.Sound, Node.All, AllItems, AllMembers])

end Print

end Dungeon

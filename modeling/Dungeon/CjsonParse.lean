import Mathlib.Algebra.Ring.Int.Defs
import Mathlib.Data.List.DropRight
import Dungeon.Lib.JsonText

/-!
# Parsing JSON (`cJSON.c`)

`cJSON_Parse` and the functions below it, on C strings: the list of the bytes before the `NUL`.
A pointer into the text is what is left of it there, and reading at its end gives `NUL`.

- `Item`: `cJSON`, with the bytes of its strings. A number is its text, of which its value is a
  function; `valueint` is that function where no `double` is rounded.
- `ParseFail`: the `NULL` of the functions, or behaviour that C leaves undefined: `\u` in front of
  fewer than four characters carries the pointer over the end of the string, and one in front of
  a quote carries it over the end that was counted for.
- `parseString`, `parseNumber`, `parseValue`, `cJSONParse`. Memory is there for every item.
- `cJSONParse_depth`: the recursion depth that `cJSONParse` allows is never reached.
- `cJSONParse_document`: every JSON text is parsed.
-/

namespace Dungeon

open JsonText

/-- `cJSON`, by its `type`. -/
inductive Item where
  | null
  | false
  | true
  | number (text : Text)
  | string (valuestring : Text)
  | array (items : List Item)
  | object (members : List (Text × Item))

/-- How a function of the parser fails. -/
inductive ParseFail where
  | null
  | undefined
deriving DecidableEq

/-- `skip`. -/
def skip (text : Text) : Text := text.dropWhile fun c => c ≤ 32

/-! ## Numbers -/

/-- `*num` in `'0'..'9'`. -/
def digitAt (num : Text) : Bool := num.head?.any fun c => decide (IsDigit c)

/-- `if (*num==c) num++`. -/
def accept (c : UInt8) (num : Text) : Text := if num.head? = some c then num.tail else num

/-- `while (*num>='0' && *num<='9')`. -/
def digits (num : Text) : Text := num.dropWhile fun c => decide (IsDigit c)

/-- The digits before the point. -/
def integral (num : Text) : Text :=
  let num := accept zero num
  if digitAt num ∧ num.head? ≠ some zero then digits num else num

/-- The digits behind the point. -/
def fraction (num : Text) : Text :=
  if num.head? = some point ∧ digitAt num.tail then digits num.tail else num

/-- The exponent. -/
def exponent (num : Text) : Text :=
  if num.head?.any fun c => decide (c ∈ exponents) then
    let num := num.tail
    digits (if num.head? = some plus then num.tail else accept minus num)
  else num

/-- Where `parse_number` stops. -/
def parseNumber (num : Text) : Text := exponent (fraction (integral (accept minus num)))

/-- `n`, behind these digits. A `double` holds it exactly, where it is no more than an `int`. -/
def accumulate (num : Text) : ℕ := num.foldl (fun n c => n * 10 + (c - zero).toNat) 0

/-- `valueint`, for the text of a number with neither a point nor an exponent, if the number is an
`int`. -/
def valueint (text : Text) : Option Int32 :=
  let num := accept minus text
  let n : ℤ := if text.head? = some minus then -accumulate num else accumulate num
  if digits num = [] ∧ -2 ^ 31 ≤ n ∧ n < 2 ^ 31 then some (Int32.ofInt n) else none

/-! ## Strings -/

/-- The value of a hexadecimal digit. -/
def hexValue (c : UInt8) : UInt32 :=
  if IsDigit c then (c - 0x30).toUInt32
  else if 0x61 ≤ c then (c - 0x61).toUInt32 + 10
  else (c - 0x41).toUInt32 + 10

/-- The number behind an optional `0x`, if there is one. -/
def scanHex (text : Text) : Option UInt32 :=
  let text := if text.head? = some zero ∧ text.tail.head?.any fun c => decide (c ∈ [0x78, 0x58])
    then text.tail.tail else text
  let hex := text.takeWhile fun c => decide (IsHex c)
  if hex = [] then none else some (hex.foldl (fun n c => n * 16 + hexValue c) 0)

/-- `sscanf(text, "%4x", &uc)`: the value stored, if one is. White space is skipped, and of the
next four characters the first can be a sign. -/
def sscanf4x (text : Text) : Option UInt32 :=
  let text := (text.dropWhile fun c => c = 0x20 ∨ 0x09 ≤ c ∧ c ≤ 0x0D).take 4
  if text.head? = some minus then (scanHex text.tail).map fun n => 0 - n
  else scanHex (accept plus text)

/-- `firstByteMark`. -/
def firstByteMark : ℕ → UInt32
  | 0 | 1 => 0x00
  | 2 => 0xC0
  | 3 => 0xE0
  | 4 => 0xF0
  | 5 => 0xF8
  | _ => 0xFC

/-- `switch (len)`: the bytes of a character, the last one first, and what is left of `uc`. -/
def encode (len : ℕ) : ℕ → UInt32 → Text → Text × UInt32
  | 0, uc, out => (out, uc)
  | 1, uc, out => ((uc ||| firstByteMark len).toUInt8 :: out, uc)
  | n + 2, uc, out => encode len (n + 1) (uc >>> 6) (((uc ||| 0x80) &&& 0xBF).toUInt8 :: out)

/-- The number of bytes of a character. -/
def encodedLen (uc : UInt32) : ℕ :=
  if uc < 0x80 then 1 else if uc < 0x800 then 2 else if uc < 0x10000 then 3 else 4

/-- `uc` and `uc2`, where they are set. -/
structure Scanned where
  uc : Option UInt32
  uc2 : Option UInt32

/-- `*ptr2++` for `ptr` behind a backslash, apart from `u`. -/
def unescape (c : UInt8) : UInt8 :=
  if c = 0x62 then 0x08
  else if c = 0x66 then 0x0C
  else if c = 0x6E then 0x0A
  else if c = 0x72 then 0x0D
  else if c = 0x74 then 0x09
  else c

/-- `case 'u'`, with `hex` behind the `u`: where the text goes on, what it adds, and the
variables. -/
def unicodeEscape (hex : Text) (vars : Scanned) : Except ParseFail (Text × Text × Scanned) :=
  let vars := { vars with uc := (sscanf4x hex).or vars.uc }
  match vars.uc with
  | none => .error .undefined
  | some uc =>
    if hex.length < 4 then .error .undefined
    else if 0xDC00 ≤ uc ∧ uc ≤ 0xDFFF ∨ uc = 0 then .ok (hex.drop 4, [], vars)
    else if 0xD800 ≤ uc ∧ uc ≤ 0xDBFF then
      if ¬ [backslash, letterU] <+: hex.drop 4 then .ok (hex.drop 4, [], vars)
      else
        let vars := { vars with uc2 := (sscanf4x (hex.drop 6)).or vars.uc2 }
        match vars.uc2 with
        | none => .error .undefined
        | some uc2 =>
          if hex.length < 10 then .error .undefined
          else if uc2 < 0xDC00 ∨ 0xDFFF < uc2 then .ok (hex.drop 10, [], vars)
          else
            let uc := (0x10000 : UInt32) ||| ((uc &&& 0x3FF) <<< 10) ||| (uc2 &&& 0x3FF)
            let (bytes, uc) := encode (encodedLen uc) (encodedLen uc) uc []
            .ok (hex.drop 10, bytes, { vars with uc := some uc })
    else
      let (bytes, uc) := encode (encodedLen uc) (encodedLen uc) uc []
      .ok (hex.drop 4, bytes, { vars with uc := some uc })

/-- The first loop of `parse_string`: the length it finds. A backslash at the end of the text
carries it over the end. -/
def stringLen : Text → Option ℕ
  | [] => some 0
  | [c] => if c = quote then some 0 else if c = backslash then none else some 1
  | c :: e :: rest =>
    if c = quote then some 0
    else if c = backslash then (stringLen rest).map (· + 1)
    else (stringLen (e :: rest)).map (· + 1)

/-- The second loop, for at most `n` turns: the bytes written to `out`, and the text from `ptr`
on. -/
def decodeString : ℕ → Text → Text → Scanned → Except ParseFail (Text × Text)
  | 0, _, _, _ => .error .undefined
  | n + 1, ptr, out, vars =>
    match ptr with
    | [] => .ok (out, [])
    | c :: rest =>
      if c = quote then .ok (out, rest)
      else if c ≠ backslash then decodeString n rest (out ++ [c]) vars
      else
        match rest with
        | [] => .error .undefined
        | e :: rest =>
          if e = letterU then
            match unicodeEscape rest vars with
            | .error fail => .error fail
            | .ok (rest, bytes, vars) => decodeString n rest (out ++ bytes) vars
          else decodeString n rest (out ++ [unescape e]) vars

/-- `parse_string`: the string, and the text behind it. What the second loop writes has to fit
into what the first one has counted. -/
def parseString (str : Text) : Except ParseFail (Text × Text) :=
  if str.head? = some quote then
    match stringLen str.tail, decodeString str.length str.tail [] ⟨none, none⟩ with
    | some len, .ok (out, rest) =>
      if out.length ≤ len then .ok (out, rest) else .error .undefined
    | _, _ => .error .undefined
  else .error .null

/-! ## Values -/

/-- The words of `parse_value`. -/
def literal (value : Text) : Option (Item × Text) :=
  if wordNull <+: value then some (.null, value.drop 4)
  else if wordFalse <+: value then some (.false, value.drop 5)
  else if wordTrue <+: value then some (.true, value.drop 4)
  else none

mutual

/-- `parse_value`, with `n` for the depth of the recursion. -/
def parseValue : ℕ → Text → Except ParseFail (Item × Text)
  | 0, _ => .error .undefined
  | n + 1, value =>
    match literal value with
    | some r => .ok r
    | none =>
      if value.head? = some quote then (parseString value).map fun r => (.string r.1, r.2)
      else if value.head? = some minus ∨ digitAt value then
        .ok (.number (value.take (value.length - (parseNumber value).length)), parseNumber value)
      else if value.head? = some openBracket then
        -- `parse_array`
        if (skip value.tail).head? = some closeBracket then .ok (.array [], (skip value.tail).tail)
        else parseItems n [] (skip value.tail)
      else if value.head? = some openBrace then
        -- `parse_object`
        if (skip value.tail).head? = some closeBrace then .ok (.object [], (skip value.tail).tail)
        else parseMembers n [] (skip value.tail)
      else .error .null

/-- The items of `parse_array` from one on; `items` are those before it. -/
def parseItems : ℕ → List Item → Text → Except ParseFail (Item × Text)
  | 0, _, _ => .error .undefined
  | n + 1, items, value =>
    match parseValue n (skip value) with
    | .error fail => .error fail
    | .ok (child, rest) =>
      let value := skip rest
      if value.head? = some comma then parseItems n (items ++ [child]) value.tail
      else if value.head? = some closeBracket then .ok (.array (items ++ [child]), value.tail)
      else .error .null

/-- The members of `parse_object` from one on. -/
def parseMembers : ℕ → List (Text × Item) → Text → Except ParseFail (Item × Text)
  | 0, _, _ => .error .undefined
  | n + 1, members, value =>
    match parseString (skip value) with
    | .error fail => .error fail
    | .ok (string, rest) =>
      let value := skip rest
      if value.head? ≠ some colon then .error .null
      else
        match parseValue n (skip value.tail) with
        | .error fail => .error fail
        | .ok (child, rest) =>
          let value := skip rest
          if value.head? = some comma then
            parseMembers n (members ++ [(string, child)]) value.tail
          else if value.head? = some closeBrace then
            .ok (.object (members ++ [(string, child)]), value.tail)
          else .error .null

end

/-- `cJSON_Parse`: an item or `NULL`, where that is defined. -/
def cJSONParse (value : Text) : Option (Option Item) :=
  match parseValue (2 * value.length + 2) (skip value) with
  | .ok (item, _) => some (some item)
  | .error .null => some none
  | .error .undefined => none

variable {s t u a b : Text} {c : UInt8}

/-! ## White space and numbers -/

/-- `skip` passes white space, up to a byte that is none. -/
theorem skip_ws (h : Ws s (c :: t)) (hc : 32 < c) : skip s = c :: t := by
  generalize hu : c :: t = u at h
  induction h with
  | nil =>
    subst hu
    exact List.dropWhile_cons_of_neg (by simpa using hc)
  | cons hb _ ih =>
    have hle := (forall_mem_of_all (by decide) : ∀ c ∈ blanks, c ≤ 32) _ hb
    exact (List.dropWhile_cons_of_pos (by simpa using hle)).trans (ih hu)

/-- No digit comes next. -/
def NoDigit (t : Text) : Prop := digitAt t = false

theorem noDigit_of (h : ∀ c ∈ t.head?, ¬ IsDigit c) : NoDigit t := by
  unfold NoDigit digitAt
  cases t with
  | nil => rfl
  | cons c t => exact decide_eq_false (h c rfl)

theorem digitAt_cons (h : IsDigit c) : digitAt (c :: t) = true := decide_eq_true h

/-- `digits` passes all digits. -/
theorem digits_eq (h : Digits s t) (ht : NoDigit t) : digits s = t := by
  induction h with
  | nil =>
    rename_i s
    cases s with
    | nil => rfl
    | cons c s => exact List.dropWhile_cons_of_neg (by simpa [NoDigit, digitAt] using ht)
  | cons hc _ ih =>
    exact (List.dropWhile_cons_of_pos (p := fun c => decide (IsDigit c)) (decide_eq_true hc)).trans
      (ih ht)

theorem accept_self : accept c (c :: t) = t := if_pos rfl

theorem accept_of_ne (h : ∀ d ∈ t.head?, d ≠ c) : accept c t = t :=
  if_neg fun heq => h c heq rfl

/-- No part of a number begins with a digit, apart from the integral one. -/
theorem noDigit_of_mem (h : ∀ c ∈ t.head?, c ∈ point :: exponents ++ followers) : NoDigit t := by
  have hno : ∀ c ∈ point :: exponents ++ followers, ¬ IsDigit c := forall_mem_of_all (by decide)
  exact noDigit_of fun c hc => hno c (h c hc)

/-- No digit follows a value. -/
theorem noDigit_follows (ht : Follows t) : NoDigit t :=
  noDigit_of_mem fun c hc => List.mem_append_right (point :: exponents) (ht c hc)

theorem exponent_eq (h : Exp s t) (ht : Follows t) : exponent s = t := by
  have hno := noDigit_follows ht
  cases h with
  | none =>
    unfold exponent
    cases s with
    | nil => rfl
    | cons c s =>
      have hc := (forall_mem_of_all (by decide) : ∀ c ∈ followers, c ∉ exponents) c (ht c rfl)
      exact if_neg fun hany => hc (of_decide_eq_true hany)
  | some he hsign hc hs =>
    refine (if_pos (decide_eq_true he)).trans ?_
    have hdigits := digits_eq (.cons hc hs) hno
    cases hsign with
    | none =>
      refine (congrArg digits (if_neg fun heq => ?_)).trans ?_
      · exact absurd (Option.some.inj heq ▸ hc) (by decide : ¬ IsDigit plus)
      · rw [List.tail_cons, accept_of_ne fun d hd heq => ?_]
        · exact hdigits
        · obtain rfl := Option.mem_some_iff.mp hd
          exact absurd (heq ▸ hc) (by decide : ¬ IsDigit minus)
    | plus => exact (congrArg digits (if_pos rfl)).trans hdigits
    | minus =>
      refine (congrArg digits (if_neg fun heq => ?_)).trans ?_
      · exact absurd (Option.some.inj heq) (by decide)
      · rw [List.tail_cons, accept_self]
        exact hdigits

theorem fraction_eq (h : Frac s a) (hexp : Exp a t) (ht : Follows t) : fraction s = a := by
  have hno : NoDigit a := noDigit_of_mem fun c hc => List.mem_cons_of_mem point (hexp.head ht c hc)
  cases h with
  | none =>
    refine if_neg fun hpoint => ?_
    exact (by decide : point ∉ exponents ++ followers) (hexp.head ht point hpoint.1)
  | some hc hs =>
    exact (if_pos ⟨rfl, digitAt_cons hc⟩).trans (digits_eq (.cons hc hs) hno)

theorem integral_eq (h : Int s a) (hno : NoDigit a) : integral s = a := by
  unfold integral
  cases h with
  | zero =>
    rw [accept_self]
    exact if_neg fun hand => Bool.false_ne_true (hno.symm.trans hand.1)
  | digits hc hne hs =>
    rw [accept_of_ne fun d hd heq => hne ((Option.mem_some_iff.mp hd).trans heq)]
    refine (if_pos ⟨digitAt_cons hc, fun heq => hne (Option.some.inj heq)⟩).trans ?_
    exact digits_eq (.cons hc hs) hno

/-- **`parse_number`** stops behind a number. -/
theorem parseNumber_eq (h : Num s t) (ht : Follows t) : parseNumber s = t := by
  unfold parseNumber
  cases h with
  | pos hint hfrac hexp =>
    have hno := noDigit_of_mem (hfrac.head hexp ht)
    have hminus : accept minus s = s := accept_of_ne fun d hd heq => by
      cases hint with
      | zero => exact absurd ((Option.mem_some_iff.mp hd).trans heq) (by decide)
      | digits hc _ _ =>
        obtain rfl := Option.mem_some_iff.mp hd
        exact absurd (heq ▸ hc) (by decide : ¬ IsDigit minus)
    rw [hminus, integral_eq hint hno, fraction_eq hfrac hexp ht, exponent_eq hexp ht]
  | neg hint hfrac hexp =>
    have hno := noDigit_of_mem (hfrac.head hexp ht)
    rw [accept_self, integral_eq hint hno, fraction_eq hfrac hexp ht, exponent_eq hexp ht]

/-! ## Strings -/

/-- `encode` adds `n` bytes. -/
theorem encode_length (len n : ℕ) (uc : UInt32) (out : Text) :
    (encode len n uc out).1.length = out.length + n := by
  induction n generalizing uc out with
  | zero => rfl
  | succ n ih =>
    cases n with
    | zero => rfl
    | succ n =>
      refine (ih _ _).trans ?_
      rw [List.length_cons]
      omega

theorem encodedLen_le (uc : UInt32) : encodedLen uc ≤ 4 := by
  unfold encodedLen
  split_ifs
  all_goals decide

/-- What is no hexadecimal digit. -/
theorem hex_ne {d : UInt8} (hc : IsHex c) (hd : ¬ IsHex d) : c ≠ d := fun heq => hd (heq ▸ hc)

/-- Four hexadecimal digits are a number to `sscanf`. -/
theorem sscanf4x_hex {c₁ c₂ c₃ c₄ : UInt8} (h₁ : IsHex c₁) (h₂ : IsHex c₂) :
    (sscanf4x (c₁ :: c₂ :: c₃ :: c₄ :: t)).isSome := by
  have hspace : ¬ (c₁ = 0x20 ∨ 0x09 ≤ c₁ ∧ c₁ ≤ 0x0D) := by
    rintro (rfl | ⟨-, hle⟩)
    · exact absurd h₁ (by decide)
    · have hge : 0x30 ≤ c₁ := by
        obtain hdigit | ⟨hlow, -⟩ | ⟨hup, -⟩ := h₁
        · exact hdigit.1
        · exact UInt8.le_trans (by decide) hlow
        · exact UInt8.le_trans (by decide) hup
      exact absurd (UInt8.le_trans hge hle) (by decide)
  have htake : ((c₁ :: c₂ :: c₃ :: c₄ :: t).dropWhile fun c =>
      c = 0x20 ∨ 0x09 ≤ c ∧ c ≤ 0x0D).take 4 = [c₁, c₂, c₃, c₄] := by
    rw [List.dropWhile_cons_of_neg (by simpa using hspace)]
    rfl
  have hsign : ∀ d, ¬ IsHex d → accept d [c₁, c₂, c₃, c₄] = [c₁, c₂, c₃, c₄] := fun d hd =>
    accept_of_ne fun e he => (Option.mem_some_iff.mp he) ▸ hex_ne h₁ hd
  have hhex : (scanHex [c₁, c₂, c₃, c₄]).isSome := by
    have hx : ¬ ([c₁, c₂, c₃, c₄].head? = some zero ∧
        ([c₁, c₂, c₃, c₄].tail.head?.any fun c => decide (c ∈ [0x78, 0x58])) = true) := by
      rintro ⟨-, hany⟩
      have hmem : c₂ ∈ [0x78, 0x58] := of_decide_eq_true hany
      exact (forall_mem_of_all (by decide) : ∀ c ∈ ([0x78, 0x58] : Text), ¬ IsHex c) c₂ hmem h₂
    unfold scanHex
    rw [if_neg hx]
    dsimp only
    rw [List.takeWhile_cons_of_pos (by exact decide_eq_true h₁), if_neg (List.cons_ne_nil _ _)]
    rfl
  unfold sscanf4x
  rw [htake]
  dsimp only
  have hminus : ¬ [c₁, c₂, c₃, c₄].head? = some minus := fun heq =>
    hex_ne h₁ (by decide) (Option.some.inj heq)
  rw [if_neg hminus, hsign plus (by decide)]
  exact hhex

/-- The variable is set, and there is enough text: the escape is passed, alone or with the one
behind it. -/
theorem unicodeEscape_cases {hex : Text} (vars : Scanned) (hscan : (sscanf4x hex).isSome)
    (hlen : 4 ≤ hex.length) (hpair : [backslash, letterU] <+: hex.drop 4 →
      10 ≤ hex.length ∧ (sscanf4x (hex.drop 6)).isSome) :
    ∃ bytes vars', bytes.length ≤ 4 ∧
      (unicodeEscape hex vars = .ok (hex.drop 4, bytes, vars') ∨
        [backslash, letterU] <+: hex.drop 4 ∧
          unicodeEscape hex vars = .ok (hex.drop 10, bytes, vars')) := by
  obtain ⟨uc, huc⟩ := Option.isSome_iff_exists.mp hscan
  have hbytes : ∀ uc : UInt32, (encode (encodedLen uc) (encodedLen uc) uc []).1.length ≤ 4 := by
    intro uc
    rw [encode_length, List.length_nil, Nat.zero_add]
    exact encodedLen_le uc
  unfold unicodeEscape
  rw [huc]
  dsimp only [Option.some_or]
  rw [if_neg (Nat.not_lt.mpr hlen)]
  by_cases hinvalid : 0xDC00 ≤ uc ∧ uc ≤ 0xDFFF ∨ uc = 0
  · rw [if_pos hinvalid]
    exact ⟨[], _, Nat.zero_le _, .inl rfl⟩
  rw [if_neg hinvalid]
  by_cases hsur : 0xD800 ≤ uc ∧ uc ≤ 0xDBFF
  · rw [if_pos hsur]
    by_cases hsecond : [backslash, letterU] <+: hex.drop 4
    · obtain ⟨hlen', hscan'⟩ := hpair hsecond
      obtain ⟨uc2, huc2⟩ := Option.isSome_iff_exists.mp hscan'
      rw [if_neg (not_not.mpr hsecond), huc2]
      dsimp only [Option.some_or]
      rw [if_neg (Nat.not_lt.mpr hlen')]
      by_cases hbad : uc2 < 0xDC00 ∨ 0xDFFF < uc2
      · rw [if_pos hbad]
        exact ⟨[], _, Nat.zero_le _, .inr ⟨hsecond, rfl⟩⟩
      · rw [if_neg hbad]
        exact ⟨_, _, hbytes _, .inr ⟨hsecond, rfl⟩⟩
    · rw [if_pos hsecond]
      exact ⟨[], _, Nat.zero_le _, .inl rfl⟩
  · rw [if_neg hsur]
    exact ⟨_, _, hbytes _, .inl rfl⟩

/-- One plain byte is counted as one. -/
theorem stringLen_plain (hquote : c ≠ quote) (hesc : c ≠ backslash) :
    stringLen (c :: s) = (stringLen s).map (· + 1) := by
  cases s with
  | nil => exact (if_neg hquote).trans (if_neg hesc)
  | cons e s => rw [stringLen, if_neg hquote, if_neg hesc]

theorem stringLen_escape (c : UInt8) (s : Text) :
    stringLen (backslash :: c :: s) = (stringLen s).map (· + 1) := by
  rw [stringLen, if_neg (by decide), if_pos rfl]

/-- Four hexadecimal digits are counted as four. -/
theorem stringLen_hex {c₁ c₂ c₃ c₄ : UInt8} (h₁ : IsHex c₁) (h₂ : IsHex c₂) (h₃ : IsHex c₃)
    (h₄ : IsHex c₄) : stringLen (c₁ :: c₂ :: c₃ :: c₄ :: s) = (stringLen s).map (· + 4) := by
  have hone : ∀ {c : UInt8} {s : Text}, IsHex c → stringLen (c :: s) = (stringLen s).map (· + 1) :=
    fun hc => stringLen_plain (hex_ne hc (by decide)) (hex_ne hc (by decide))
  rw [hone h₁, hone h₂, hone h₃, hone h₄]
  cases stringLen s <;> rfl

section Decode

variable (n : ℕ) (out : Text) (vars : Scanned)

theorem decodeString_quote : decodeString (n + 1) (quote :: t) out vars = .ok (out, t) := by
  unfold decodeString
  exact if_pos rfl

theorem decodeString_plain (hquote : c ≠ quote) (hesc : c ≠ backslash) :
    decodeString (n + 1) (c :: s) out vars = decodeString n s (out ++ [c]) vars := by
  rw [decodeString.eq_def]
  exact (if_neg hquote).trans (if_pos hesc)

theorem decodeString_escape (hc : c ≠ letterU) :
    decodeString (n + 1) (backslash :: c :: s) out vars
      = decodeString n s (out ++ [unescape c]) vars := by
  rw [decodeString.eq_def]
  exact ((if_neg (by decide)).trans (if_neg (by decide))).trans (if_neg hc)

theorem decodeString_unicode {bytes : Text} {vars' : Scanned}
    (hesc : unicodeEscape s vars = .ok (t, bytes, vars')) :
    decodeString (n + 1) (backslash :: letterU :: s) out vars
      = decodeString n t (out ++ bytes) vars' := by
  rw [decodeString.eq_def]
  refine ((if_neg (by decide)).trans (if_neg (by decide))).trans ((if_pos rfl).trans ?_)
  rw [hesc]

end Decode

/-- **Both loops of `parse_string`** on the characters of a string: the first one counts, and the
second one stops behind the quote and has written no more than that. The induction is on the
length of the text: an escape for a surrogate is passed together with the one behind it. -/
theorem decodeString_chars (h : Chars s (quote :: t)) :
    ∃ len, stringLen s = some len ∧ ∀ n out vars, s.length < n →
      ∃ out', decodeString n s out vars = .ok (out', t) ∧ out'.length ≤ out.length + len := by
  induction hk : s.length using Nat.strongRecOn generalizing s with
  | ind k ih =>
    subst hk
    generalize hu : quote :: t = u at h
    cases h with
    | nil =>
      subst hu
      refine ⟨0, by cases t <;> exact if_pos rfl, fun n out vars hn => ⟨out, ?_, Nat.le_refl _⟩⟩
      obtain ⟨n, rfl⟩ := Nat.exists_eq_add_one_of_ne_zero (Nat.ne_of_gt (Nat.zero_lt_of_lt hn))
      exact decodeString_quote n out vars
    | @plain c s _ hc hquote hesc hs =>
      subst hu
      obtain ⟨len, hlen, hdecode⟩ := ih _ (Nat.lt_succ_self _) hs rfl
      refine ⟨len + 1, by rw [stringLen_plain hquote hesc, hlen]; rfl, fun n out vars hn => ?_⟩
      obtain ⟨n, rfl⟩ := Nat.exists_eq_add_one_of_ne_zero (Nat.ne_of_gt (Nat.zero_lt_of_lt hn))
      obtain ⟨out', hout, hle⟩ := hdecode n (out ++ [c]) vars (Nat.lt_of_succ_lt_succ hn)
      refine ⟨out', (decodeString_plain n out vars hquote hesc).trans hout, ?_⟩
      rw [List.length_append, List.length_singleton] at hle
      omega
    | @escape c s _ hc hs =>
      subst hu
      have hu : c ≠ letterU := (forall_mem_of_all (by decide) : ∀ c ∈ escapes, c ≠ letterU) c hc
      obtain ⟨len, hlen, hdecode⟩ := ih s.length (by simp only [List.length_cons]; omega) hs rfl
      refine ⟨len + 1, by rw [stringLen_escape, hlen]; rfl, fun n out vars hn => ?_⟩
      obtain ⟨n, rfl⟩ := Nat.exists_eq_add_one_of_ne_zero (Nat.ne_of_gt (Nat.zero_lt_of_lt hn))
      rw [List.length_cons, List.length_cons] at hn
      obtain ⟨out', hout, hle⟩ := hdecode n (out ++ [unescape c]) vars (by omega)
      refine ⟨out', (decodeString_escape n out vars hu).trans hout, ?_⟩
      rw [List.length_append, List.length_singleton] at hle
      omega
    | @unicode c₁ c₂ c₃ c₄ s _ h₁ h₂ h₃ h₄ hs =>
      subst hu
      obtain ⟨len, hlen, hdecode⟩ := ih s.length (by simp only [List.length_cons]; omega) hs rfl
      have hcount : stringLen (backslash :: letterU :: c₁ :: c₂ :: c₃ :: c₄ :: s)
          = some (len + 5) := by
        rw [stringLen_escape, stringLen_hex h₁ h₂ h₃ h₄, hlen]
        rfl
      refine ⟨len + 5, hcount, fun n out vars hn => ?_⟩
      obtain ⟨n, rfl⟩ := Nat.exists_eq_add_one_of_ne_zero (Nat.ne_of_gt (Nat.zero_lt_of_lt hn))
      simp only [List.length_cons] at hn
      have hpair : [backslash, letterU] <+: s →
          10 ≤ (c₁ :: c₂ :: c₃ :: c₄ :: s).length ∧ (sscanf4x (s.drop 2)).isSome := by
        rintro ⟨rest, rfl⟩
        obtain ⟨d₁, d₂, d₃, d₄, s', rfl, hd₁, hd₂, -, -, -⟩ := hs.unicode_inv
        refine ⟨?_, sscanf4x_hex hd₁ hd₂⟩
        simp
      have hhex : (sscanf4x (c₁ :: c₂ :: c₃ :: c₄ :: s)).isSome := sscanf4x_hex h₁ h₂
      obtain ⟨bytes, vars', hbytes, hone | ⟨⟨rest, rfl⟩, htwo⟩⟩ :=
        unicodeEscape_cases vars hhex (Nat.le_add_left 4 s.length) hpair
      · obtain ⟨out', hout, hle⟩ := hdecode n (out ++ bytes) vars' (by omega)
        refine ⟨out', (decodeString_unicode n out vars hone).trans hout, ?_⟩
        rw [List.length_append] at hle
        omega
      · -- the second escape of a pair, and what follows it
        obtain ⟨d₁, d₂, d₃, d₄, s', rfl, hd₁, hd₂, hd₃, hd₄, hs'⟩ := hs.unicode_inv
        obtain ⟨len', hlen', hdecode'⟩ := ih s'.length
          (by simp only [List.length_append, List.length_cons]; omega) hs' rfl
        have hcount' : stringLen (backslash :: letterU :: d₁ :: d₂ :: d₃ :: d₄ :: s')
            = some (len' + 5) := by
          rw [stringLen_escape, stringLen_hex hd₁ hd₂ hd₃ hd₄, hlen']
          rfl
        obtain rfl : len = len' + 5 := Option.some.inj (hlen.symm.trans hcount')
        simp only [List.cons_append, List.nil_append, List.length_cons] at hn
        obtain ⟨out', hout, hle⟩ := hdecode' n (out ++ bytes) vars' (by omega)
        refine ⟨out', (decodeString_unicode n out vars htwo).trans hout, ?_⟩
        rw [List.length_append] at hle
        omega

/-- **`parse_string`** reads a string. -/
theorem parseString_eq (h : Str s t) : ∃ string, parseString s = .ok (string, t) := by
  obtain ⟨hs⟩ := h
  obtain ⟨len, hlen, hdecode⟩ := decodeString_chars hs
  obtain ⟨out, hout, hle⟩ := hdecode (_ + 1) [] ⟨none, none⟩ (Nat.lt_succ_self _)
  refine ⟨out, ?_⟩
  unfold parseString
  refine (if_pos rfl).trans ?_
  rw [List.tail_cons, List.length_cons, hlen, hout]
  exact if_pos (by rwa [List.length_nil, Nat.zero_add] at hle)

/-! ## Values -/

/-- The letters the words begin with. -/
def initials : Text := [0x6E, 0x66, 0x74]

theorem literal_le {r : Item × Text} (h : literal s = some r) : r.2.length ≤ s.length := by
  have hdrop : ∀ k, (s.drop k).length ≤ s.length := fun k => by
    rw [List.length_drop]
    exact Nat.sub_le _ _
  unfold literal at h
  split_ifs at h
  all_goals
    cases h
    exact hdrop _

theorem literal_none (hc : c ∉ initials) : literal (c :: s) = none := by
  have hword : ∀ w ws, w ∈ initials → ¬ w :: ws <+: c :: s := fun w ws hw hprefix =>
    hc ((List.cons_prefix_cons.mp hprefix).1 ▸ hw)
  exact (if_neg (hword _ _ (by decide))).trans
    ((if_neg (hword _ _ (by decide))).trans (if_neg (hword _ _ (by decide))))

/-- `parse_value` chooses by the first byte. -/
theorem parseValue_cons (n : ℕ) (hc : literal (c :: s) = none) : parseValue (n + 1) (c :: s) =
    if c = quote then (parseString (c :: s)).map fun r => (.string r.1, r.2)
    else if c = minus ∨ IsDigit c then
      .ok (.number ((c :: s).take ((c :: s).length - (parseNumber (c :: s)).length)),
        parseNumber (c :: s))
    else if c = openBracket then
      if (skip s).head? = some closeBracket then .ok (.array [], (skip s).tail)
      else parseItems n [] (skip s)
    else if c = openBrace then
      if (skip s).head? = some closeBrace then .ok (.object [], (skip s).tail)
      else parseMembers n [] (skip s)
    else .error .null := by
  rw [parseValue.eq_def]
  dsimp only
  rw [hc]
  have hhead : ∀ d : UInt8, (c :: s).head? = some d ↔ c = d := fun d => Option.some_inj
  have hdigit : digitAt (c :: s) = true ↔ IsDigit c := decide_eq_true_iff
  exact if_congr (hhead _) rfl (if_congr (or_congr (hhead _) hdigit) rfl
    (if_congr (hhead _) rfl (if_congr (hhead _) rfl rfl)))

theorem parseValue_literal (n : ℕ) {r : Item × Text} (h : literal s = some r) :
    parseValue (n + 1) s = .ok r := by
  rw [parseValue.eq_def]
  dsimp only
  rw [h]

/-- What it takes to parse a phrase: a value in front of what may follow it, and the rest of an
array or an object. -/
def Parses : Kind → Text → Text → Prop
  | .value, s, t => Follows t → ∀ n, 2 * s.length ≤ 2 * t.length + n →
      ∃ item, parseValue n s = .ok (item, t)
  | .items, s, t => ∀ n items, 2 * s.length < 2 * t.length + n →
      ∃ item, parseItems n items s = .ok (item, t)
  | .members, s, t => ∀ n members, 2 * s.length < 2 * t.length + n →
      ∃ item, parseMembers n members s = .ok (item, t)

/-- Words, numbers and strings. -/
theorem parses_literal {w : Text} {item : Item} (hw : w ≠ [])
    (h : literal (w ++ s) = some (item, s)) : Parses .value (w ++ s) s := by
  intro _ n hn
  have hpos := List.length_pos_of_ne_nil hw
  rw [List.length_append] at hn
  obtain ⟨n, rfl⟩ := Nat.exists_eq_add_one_of_ne_zero (show n ≠ 0 by omega)
  exact ⟨item, parseValue_literal n h⟩

theorem parses_number (h : Num s t) : Parses .value s t := by
  intro ht n hn
  have hparse := parseNumber_eq h ht
  obtain ⟨c, s', rfl, hc⟩ := h.head
  have hlt := h.length_lt
  obtain ⟨n, rfl⟩ := Nat.exists_eq_add_one_of_ne_zero (show n ≠ 0 by omega)
  have hinitial : c ∉ initials := by
    obtain rfl | hdigit := hc
    · decide
    · exact fun hmem => (forall_mem_of_all (by decide) : ∀ c ∈ initials, ¬ IsDigit c) c hmem hdigit
  have hquote : c ≠ quote := by
    rintro rfl
    exact absurd hc (by decide)
  rw [parseValue_cons n (literal_none hinitial), if_neg hquote, if_pos hc, hparse]
  exact ⟨_, rfl⟩

/-- What an array or an object goes on with behind an entry: `next` with the entry after a comma,
`item` at its end. -/
def afterEntry (next : Text → Except ParseFail (Item × Text)) (close : UInt8) (item : Item)
    (rest : Text) : Except ParseFail (Item × Text) :=
  if (skip rest).head? = some comma then next (skip rest).tail
  else if (skip rest).head? = some close then .ok (item, (skip rest).tail)
  else .error .null

theorem afterEntry_cons {next : Text → Except ParseFail (Item × Text)} {close : UInt8} {item : Item}
    (hskip : skip t = c :: u) : afterEntry next close item t =
      if c = comma then next u else if c = close then .ok (item, u) else .error .null := by
  unfold afterEntry
  rw [hskip]
  exact if_congr Option.some_inj rfl (if_congr Option.some_inj rfl rfl)

/-- What an array goes on with behind an item. -/
def afterItem (n : ℕ) (items : List Item) (r : Item × Text) : Except ParseFail (Item × Text) :=
  afterEntry (parseItems n (items ++ [r.1])) closeBracket (.array (items ++ [r.1])) r.2

theorem parseItems_eq (n : ℕ) (items : List Item) (s : Text) :
    parseItems (n + 1) items s = (parseValue n (skip s)).bind (afterItem n items) := by
  rw [parseItems.eq_def]
  dsimp only
  cases parseValue n (skip s) <;> rfl

/-- What an object goes on with behind a member. -/
def afterMember (n : ℕ) (members : List (Text × Item)) (string : Text) (r : Item × Text) :
    Except ParseFail (Item × Text) :=
  afterEntry (parseMembers n (members ++ [(string, r.1)])) closeBrace
    (.object (members ++ [(string, r.1)])) r.2

/-- What an object goes on with behind a name. -/
def afterName (n : ℕ) (members : List (Text × Item)) (r : Text × Text) :
    Except ParseFail (Item × Text) :=
  if (skip r.2).head? ≠ some colon then .error .null
  else (parseValue n (skip (skip r.2).tail)).bind (afterMember n members r.1)

theorem parseMembers_eq (n : ℕ) (members : List (Text × Item)) (s : Text) :
    parseMembers (n + 1) members s = (parseString (skip s)).bind (afterName n members) := by
  rw [parseMembers.eq_def]
  dsimp only
  cases parseString (skip s) with
  | error fail => rfl
  | ok r =>
    show (if _ then _ else _) = (if _ then _ else _)
    refine if_congr Iff.rfl rfl ?_
    cases parseValue n (skip (skip r.2).tail) <;> rfl

/-- One more turn of the loop over the items. -/
theorem parseItems_succ {n : ℕ} {items : List Item} {child : Item}
    (hvalue : parseValue n (skip s) = .ok (child, t)) (hskip : skip t = c :: u) :
    parseItems (n + 1) items s =
      if c = comma then parseItems n (items ++ [child]) u
      else if c = closeBracket then .ok (.array (items ++ [child]), u)
      else .error .null := by
  rw [parseItems_eq, hvalue]
  exact afterEntry_cons hskip

/-- One more turn of the loop over the members. -/
theorem parseMembers_succ {n : ℕ} {members : List (Text × Item)} {string : Text} {child : Item}
    (hstring : parseString (skip s) = .ok (string, a)) (hcolon : skip a = colon :: b)
    (hvalue : parseValue n (skip b) = .ok (child, t)) (hskip : skip t = c :: u) :
    parseMembers (n + 1) members s =
      if c = comma then parseMembers n (members ++ [(string, child)]) u
      else if c = closeBrace then .ok (.object (members ++ [(string, child)]), u)
      else .error .null := by
  have hhead : ¬ (skip a).head? ≠ some colon := by
    rw [hcolon]
    exact fun hne => hne rfl
  rw [parseMembers_eq, hstring]
  refine (if_neg hhead).trans ?_
  rw [hcolon, List.tail_cons, hvalue]
  exact afterEntry_cons hskip

theorem skip_skip (s : Text) : skip (skip s) = skip s := List.dropWhile_idempotent _ s

theorem parseItems_skip (n : ℕ) (items : List Item) (s : Text) :
    parseItems n items (skip s) = parseItems n items s := by
  cases n with
  | zero => rfl
  | succ n => rw [parseItems_eq, parseItems_eq, skip_skip]

theorem parseMembers_skip (n : ℕ) (members : List (Text × Item)) (s : Text) :
    parseMembers n members (skip s) = parseMembers n members s := by
  cases n with
  | zero => rfl
  | succ n => rw [parseMembers_eq, parseMembers_eq, skip_skip]

/-- A value behind white space. -/
theorem skip_value (hw : Ws s a) (hv : Derives .value a b) : skip s = a := by
  obtain ⟨c, a', rfl, hc, -⟩ := hv.head
  exact skip_ws hw hc

theorem skip_name (hw : Ws s a) (hname : Str a b) : skip s = a := by
  obtain ⟨hs⟩ := hname
  exact skip_ws hw (by decide)

theorem parseValue_openBracket (n : ℕ) (s : Text) : parseValue (n + 1) (openBracket :: s) =
    if (skip s).head? = some closeBracket then .ok (.array [], (skip s).tail)
    else parseItems n [] (skip s) := by
  rw [parseValue_cons n (literal_none (by decide)), if_neg (by decide), if_neg (by decide),
    if_pos rfl]

theorem parseValue_openBrace (n : ℕ) (s : Text) : parseValue (n + 1) (openBrace :: s) =
    if (skip s).head? = some closeBrace then .ok (.object [], (skip s).tail)
    else parseMembers n [] (skip s) := by
  rw [parseValue_cons n (literal_none (by decide)), if_neg (by decide), if_neg (by decide),
    if_neg (by decide), if_pos rfl]

/-- An item, and what separates it from the rest. -/
theorem parseItems_item (n : ℕ) (items : List Item) (hw : Ws s a) (hv : Derives .value a b)
    (ih : Parses .value a b) (hw' : Ws b (c :: u)) (hc : c ∈ [comma, closeBracket, closeBrace])
    (hn : 2 * a.length ≤ 2 * b.length + n) : ∃ child, parseItems (n + 1) items s =
      if c = comma then parseItems n (items ++ [child]) u
      else if c = closeBracket then .ok (.array (items ++ [child]), u)
      else .error .null := by
  obtain ⟨child, hchild⟩ := ih (hw'.follows hc) n hn
  rw [← skip_value hw hv] at hchild
  exact ⟨child, parseItems_succ hchild (skip_ws hw' (forall_mem_of_all (by decide) c hc))⟩

/-- A member, and what separates it from the rest. -/
theorem parseMembers_member {d e : Text} (n : ℕ) (members : List (Text × Item)) (hw : Ws s a)
    (hname : Str a b) (hcolon : Ws b (colon :: t)) (hw' : Ws t d) (hv : Derives .value d e)
    (ih : Parses .value d e) (hw'' : Ws e (c :: u)) (hc : c ∈ [comma, closeBracket, closeBrace])
    (hn : 2 * d.length ≤ 2 * e.length + n) : ∃ string child, parseMembers (n + 1) members s =
      if c = comma then parseMembers n (members ++ [(string, child)]) u
      else if c = closeBrace then .ok (.object (members ++ [(string, child)]), u)
      else .error .null := by
  obtain ⟨string, hstring⟩ := parseString_eq hname
  obtain ⟨child, hchild⟩ := ih (hw''.follows hc) n hn
  rw [← skip_value hw' hv] at hchild
  rw [← skip_name hw hname] at hstring
  exact ⟨string, child, parseMembers_succ hstring (skip_ws hcolon (by decide)) hchild
    (skip_ws hw'' (forall_mem_of_all (by decide) c hc))⟩

/-- **Everything the grammar derives is parsed**, by induction on the derivation. -/
theorem parses {k : Kind} (h : Derives k s t) : Parses k s t := by
  induction h with
  | null => exact parses_literal (by decide) rfl
  | false => exact parses_literal (by decide) rfl
  | true => exact parses_literal (by decide) rfl
  | number hs => exact parses_number hs
  | string hs =>
    intro _ n hn
    obtain ⟨string, hstring⟩ := parseString_eq hs
    have hlt := hs.length_lt
    obtain ⟨n, rfl⟩ := Nat.exists_eq_add_one_of_ne_zero (show n ≠ 0 by omega)
    obtain ⟨hs⟩ := hs
    rw [parseValue_cons n (literal_none (by decide)), if_pos rfl, hstring]
    exact ⟨_, rfl⟩
  | emptyArray hs =>
    intro _ n hn
    have hle := (hs.spans_cons (by decide)).length_le
    rw [List.length_cons] at hn
    obtain ⟨n, rfl⟩ := Nat.exists_eq_add_one_of_ne_zero (show n ≠ 0 by omega)
    rw [parseValue_openBracket, skip_ws hs (by decide)]
    exact ⟨_, if_pos rfl⟩
  | array hs ih =>
    intro _ n hn
    have hle := hs.spans.length_le
    rw [List.length_cons] at hn
    obtain ⟨n, rfl⟩ := Nat.exists_eq_add_one_of_ne_zero (show n ≠ 0 by omega)
    obtain ⟨c, a, hw, hc, hne⟩ := hs.items_head
    have hhead : ¬ (skip _).head? = some closeBracket := fun heq =>
      hne (Option.some.inj ((congrArg List.head? (skip_ws hw hc)).symm.trans heq))
    rw [parseValue_openBracket, if_neg hhead, parseItems_skip]
    exact ih n [] (by omega)
  | emptyObject hs =>
    intro _ n hn
    have hle := (hs.spans_cons (by decide)).length_le
    rw [List.length_cons] at hn
    obtain ⟨n, rfl⟩ := Nat.exists_eq_add_one_of_ne_zero (show n ≠ 0 by omega)
    rw [parseValue_openBrace, skip_ws hs (by decide)]
    exact ⟨_, if_pos rfl⟩
  | object hs ih =>
    intro _ n hn
    have hle := hs.spans.length_le
    rw [List.length_cons] at hn
    obtain ⟨n, rfl⟩ := Nat.exists_eq_add_one_of_ne_zero (show n ≠ 0 by omega)
    obtain ⟨a, hw⟩ := hs.members_head
    have hhead : ¬ (skip _).head? = some closeBrace := fun heq => absurd
      (Option.some.inj ((congrArg List.head? (skip_ws hw (by decide))).symm.trans heq)) (by decide)
    rw [parseValue_openBrace, if_neg hhead, parseMembers_skip]
    exact ih n [] (by omega)
  | lastItem hw hv hw' ih =>
    intro n items hn
    have hle := hw.spans.length_le
    have hle' := hv.spans.length_le
    have hle'' := hw'.spans.length_le
    rw [List.length_cons] at hle''
    obtain ⟨n, rfl⟩ := Nat.exists_eq_add_one_of_ne_zero (show n ≠ 0 by omega)
    obtain ⟨child, hchild⟩ := parseItems_item n items hw hv ih hw' (by decide) (by omega)
    rw [hchild, if_neg (by decide), if_pos rfl]
    exact ⟨_, rfl⟩
  | item hw hv hw' hs ih ih' =>
    intro n items hn
    have hle := hw.spans.length_le
    have hle' := hv.spans.length_le
    have hle'' := hw'.spans.length_le
    have hle₃ := hs.spans.length_le
    rw [List.length_cons] at hle''
    obtain ⟨n, rfl⟩ := Nat.exists_eq_add_one_of_ne_zero (show n ≠ 0 by omega)
    obtain ⟨child, hchild⟩ := parseItems_item n items hw hv ih hw' (by decide) (by omega)
    rw [hchild, if_pos rfl]
    exact ih' n _ (by omega)
  | lastMember hw hname hcolon hw' hv hw'' ih =>
    intro n members hn
    have hle := (hw.spans.trans hname.spans).length_le
    have hle' := ((hcolon.spans_cons (by decide)).trans hw'.spans).length_le
    have hle'' := hv.spans.length_le
    have hle₃ := hw''.spans.length_le
    rw [List.length_cons] at hle₃
    obtain ⟨n, rfl⟩ := Nat.exists_eq_add_one_of_ne_zero (show n ≠ 0 by omega)
    obtain ⟨string, child, hmember⟩ :=
      parseMembers_member n members hw hname hcolon hw' hv ih hw'' (by decide) (by omega)
    rw [hmember, if_neg (by decide), if_pos rfl]
    exact ⟨_, rfl⟩
  | member hw hname hcolon hw' hv hw'' hs ih ih' =>
    intro n members hn
    have hle := (hw.spans.trans hname.spans).length_le
    have hle' := ((hcolon.spans_cons (by decide)).trans hw'.spans).length_le
    have hle'' := hv.spans.length_le
    have hle₃ := hw''.spans.length_le
    have hle₄ := hs.spans.length_le
    rw [List.length_cons] at hle₃
    obtain ⟨n, rfl⟩ := Nat.exists_eq_add_one_of_ne_zero (show n ≠ 0 by omega)
    obtain ⟨string, child, hmember⟩ :=
      parseMembers_member n members hw hname hcolon hw' hv ih hw'' (by decide) (by omega)
    rw [hmember, if_pos rfl]
    exact ih' n _ (by omega)

/-- **Every JSON text is parsed.** -/
theorem cJSONParse_document (h : Document s) : ∃ item, cJSONParse s = some (some item) := by
  obtain ⟨a, b, hw, hv, hw'⟩ := h
  have hle := hw.spans.length_le
  obtain ⟨item, hitem⟩ := parses hv hw'.follows_end (2 * s.length + 2) (by omega)
  refine ⟨item, ?_⟩
  unfold cJSONParse
  rw [skip_value hw hv, hitem]

/-! ## Depth -/

theorem accept_le (c : UInt8) (s : Text) : (accept c s).length ≤ s.length := by
  unfold accept
  split
  next => exact (List.tail_sublist s).length_le
  next => exact Nat.le_refl _

theorem digits_le (s : Text) : (digits s).length ≤ s.length :=
  (List.dropWhile_sublist _).length_le

theorem skip_le (s : Text) : (skip s).length ≤ s.length := (List.dropWhile_sublist _).length_le

/-- `parse_number` goes forward. -/
theorem parseNumber_le (s : Text) : (parseNumber s).length ≤ s.length := by
  have hintegral : ∀ s, (integral s).length ≤ s.length := by
    intro s
    unfold integral
    dsimp only
    split
    next => exact Nat.le_trans (digits_le _) (accept_le _ _)
    next => exact accept_le _ _
  have hfraction : ∀ s, (fraction s).length ≤ s.length := by
    intro s
    unfold fraction
    split
    next => exact Nat.le_trans (digits_le _) (List.tail_sublist s).length_le
    next => exact Nat.le_refl _
  have hexponent : ∀ s, (exponent s).length ≤ s.length := by
    intro s
    unfold exponent
    dsimp only
    split
    next =>
      refine Nat.le_trans (digits_le _) ?_
      refine Nat.le_trans ?_ (List.tail_sublist s).length_le
      split
      next => exact (List.tail_sublist _).length_le
      next => exact accept_le _ _
    next => exact Nat.le_refl _
  exact Nat.le_trans (hexponent _) (Nat.le_trans (hfraction _) (Nat.le_trans (hintegral _)
    (accept_le _ _)))

/-- An escape leaves a part of the text. -/
theorem unicodeEscape_le {hex bytes : Text} {vars vars' : Scanned}
    (h : unicodeEscape hex vars = .ok (t, bytes, vars')) : t.length ≤ hex.length := by
  have hdrop : ∀ k, (hex.drop k).length ≤ hex.length := fun k => by
    rw [List.length_drop]
    exact Nat.sub_le _ _
  unfold unicodeEscape at h
  dsimp only at h
  split at h
  next => cases h
  next =>
    split at h
    next => cases h
    next =>
      split at h
      next =>
        cases h
        exact hdrop 4
      next =>
        split at h
        next =>
          split at h
          next =>
            cases h
            exact hdrop 4
          next =>
            split at h
            next => cases h
            next =>
              split at h
              next => cases h
              next =>
                split at h
                all_goals
                  cases h
                  exact hdrop 10
        next =>
          cases h
          exact hdrop 4

/-- **A turn of the second loop of `parse_string`** is the last one, or the text gets shorter. -/
theorem decodeString_turn (ptr out : Text) (vars : Scanned) :
    (∃ r, (∀ n, decodeString (n + 1) ptr out vars = r) ∧
      ∀ out' t, r = .ok (out', t) → t.length ≤ ptr.length) ∨
    ∃ ptr' out' vars', ptr'.length < ptr.length ∧
      ∀ n, decodeString (n + 1) ptr out vars = decodeString n ptr' out' vars' := by
  cases ptr with
  | nil =>
    refine .inl ⟨.ok (out, []), fun n => rfl, fun out' t heq => ?_⟩
    cases heq
    exact Nat.le_refl _
  | cons c rest =>
    by_cases hquote : c = quote
    · subst hquote
      refine .inl ⟨.ok (out, rest), fun n => decodeString_quote n out vars, fun out' t heq => ?_⟩
      cases heq
      exact Nat.le_succ _
    by_cases hesc : c = backslash
    · subst hesc
      cases rest with
      | nil => exact .inl ⟨.error .undefined, fun n => rfl, nofun⟩
      | cons e rest =>
        by_cases hu : e = letterU
        · subst hu
          cases hex : unicodeEscape rest vars with
          | error fail =>
            refine .inl ⟨.error fail, fun n => ?_, nofun⟩
            rw [decodeString.eq_def]
            refine ((if_neg (by decide)).trans (if_neg (by decide))).trans ((if_pos rfl).trans ?_)
            rw [hex]
          | ok r =>
            obtain ⟨rest', bytes, vars'⟩ := r
            have hle := unicodeEscape_le hex
            refine .inr ⟨rest', out ++ bytes, vars', ?_,
              fun n => decodeString_unicode n out vars hex⟩
            exact Nat.lt_succ_of_le (Nat.le_succ_of_le hle)
        · refine .inr ⟨rest, out ++ [unescape e], vars, ?_,
            fun n => decodeString_escape n out vars hu⟩
          exact Nat.lt_succ_of_lt (Nat.lt_succ_self _)
    · exact .inr ⟨rest, out ++ [c], vars, Nat.lt_succ_self _,
        fun n => decodeString_plain n out vars hquote hesc⟩

/-- The loop goes forward. -/
theorem decodeString_le {n : ℕ} {ptr out out' : Text} {vars : Scanned}
    (h : decodeString n ptr out vars = .ok (out', t)) : t.length ≤ ptr.length := by
  induction n generalizing ptr out vars with
  | zero => cases h
  | succ n ih =>
    obtain ⟨r, hr, hle⟩ | ⟨ptr', out₁, vars', hlt, hturn⟩ := decodeString_turn ptr out vars
    · exact hle out' t ((hr n).symm.trans h)
    · exact Nat.le_trans (ih ((hturn n).symm.trans h)) (Nat.le_of_lt hlt)

theorem parseString_le {string : Text} (h : parseString s = .ok (string, t)) :
    t.length ≤ s.length := by
  unfold parseString at h
  split at h
  next =>
    split at h
    next hout =>
      split at h
      next =>
        cases h
        exact Nat.le_trans (decodeString_le hout) (List.tail_sublist s).length_le
      next => cases h
    next => cases h
  next => cases h

theorem parseValue_nil (n : ℕ) : parseValue (n + 1) [] = .error .null := by
  rw [parseValue.eq_def]
  rfl

/-- A byte that is there is not in the tail. -/
theorem tail_lt (h : s.head? = some c) : s.tail.length < s.length := by
  cases s with
  | nil => cases h
  | cons d s => exact Nat.lt_succ_self _

/-- A call that succeeds, of one function after another. -/
theorem bind_ok {α β : Type} {x : Except ParseFail α} {f : α → Except ParseFail β} {r : β}
    (h : x.bind f = .ok r) : ∃ a, x = .ok a ∧ f a = .ok r := by
  cases x with
  | error fail => cases h
  | ok a => exact ⟨a, rfl, h⟩

/-- What a function of the parser leaves is no longer than the text. -/
def Shrinks (parse : Text → Except ParseFail (Item × Text)) : Prop :=
  ∀ s item t, parse s = .ok (item, t) → t.length ≤ s.length

theorem tail_skip_le (s : Text) : (skip s).tail.length ≤ s.length :=
  (List.tail_sublist (skip s)).length_le.trans (skip_le s)

theorem afterEntry_le {next : Text → Except ParseFail (Item × Text)} {close : UInt8}
    {item item' : Item} (hnext : Shrinks next) (h : afterEntry next close item s = .ok (item', t)) :
    t.length ≤ s.length := by
  have htail := tail_skip_le s
  unfold afterEntry at h
  split at h
  next => exact (hnext _ _ _ h).trans htail
  next =>
    split at h
    next =>
      cases h
      exact htail
    next => cases h

theorem parseValue_le {n : ℕ} (hitems : Shrinks (parseItems n []))
    (hmembers : Shrinks (parseMembers n [])) : Shrinks (parseValue (n + 1)) := by
  intro s item t h
  cases s with
  | nil =>
    rw [parseValue_nil] at h
    cases h
  | cons c s =>
    cases hlit : literal (c :: s) with
    | some r =>
      rw [parseValue_literal n hlit] at h
      cases h
      exact literal_le hlit
    | none =>
      have hskip := skip_le s
      have htail := tail_skip_le s
      rw [parseValue_cons n hlit] at h
      rw [List.length_cons]
      split at h
      next =>
        cases hstring : parseString (c :: s) with
        | error fail =>
          rw [hstring] at h
          cases h
        | ok r =>
          rw [hstring] at h
          cases h
          exact parseString_le hstring
      next =>
        split at h
        next =>
          cases h
          exact parseNumber_le _
        next =>
          split at h
          next =>
            split at h
            next =>
              cases h
              omega
            next =>
              have hle := hitems _ _ _ h
              omega
          next =>
            split at h
            next =>
              split at h
              next =>
                cases h
                omega
              next =>
                have hle := hmembers _ _ _ h
                omega
            next => cases h

theorem parseItems_le {n : ℕ} (hvalue : Shrinks (parseValue n))
    (hitems : ∀ items, Shrinks (parseItems n items)) (items : List Item) :
    Shrinks (parseItems (n + 1) items) := by
  intro s item t h
  rw [parseItems_eq] at h
  obtain ⟨r, hchild, hafter⟩ := bind_ok h
  calc t.length ≤ r.2.length := afterEntry_le (hitems _) hafter
    _ ≤ (skip s).length := hvalue _ _ _ hchild
    _ ≤ s.length := skip_le s

theorem parseMembers_le {n : ℕ} (hvalue : Shrinks (parseValue n))
    (hmembers : ∀ members, Shrinks (parseMembers n members)) (members : List (Text × Item)) :
    Shrinks (parseMembers (n + 1) members) := by
  intro s item t h
  rw [parseMembers_eq] at h
  obtain ⟨r, hname, hcolon⟩ := bind_ok h
  unfold afterName at hcolon
  split at hcolon
  next => cases hcolon
  next =>
    obtain ⟨r', hchild, hafter⟩ := bind_ok hcolon
    calc t.length ≤ r'.2.length := afterEntry_le (hmembers _) hafter
      _ ≤ (skip (skip r.2).tail).length := hvalue _ _ _ hchild
      _ ≤ (skip r.2).tail.length := skip_le _
      _ ≤ r.2.length := tail_skip_le r.2
      _ ≤ (skip s).length := parseString_le hname
      _ ≤ s.length := skip_le s

theorem parse_le (n : ℕ) :
    Shrinks (parseValue n) ∧ (∀ items, Shrinks (parseItems n items)) ∧
      ∀ members, Shrinks (parseMembers n members) := by
  induction n with
  | zero => exact ⟨nofun, nofun, nofun⟩
  | succ n ih =>
    obtain ⟨hvalue, hitems, hmembers⟩ := ih
    exact ⟨parseValue_le (hitems []) (hmembers []), parseItems_le hvalue hitems,
      parseMembers_le hvalue hmembers⟩

/-- Behind an entry only what is shorter is parsed. -/
theorem afterEntry_congr {next next' : Text → Except ParseFail (Item × Text)}
    (h : ∀ u, u.length < s.length → next u = next' u) (close : UInt8) (item : Item) :
    afterEntry next close item s = afterEntry next' close item s := by
  have hle := skip_le s
  unfold afterEntry
  by_cases hcomma : (skip s).head? = some comma
  · have hlt := tail_lt hcomma
    rw [if_pos hcomma, if_pos hcomma, h _ (by omega)]
  · rw [if_neg hcomma, if_neg hcomma]

/-- **The depth that `cJSONParse` allows is enough**: more would change nothing. -/
theorem parse_depth (n : ℕ) :
    (∀ m s, 2 * s.length < n → 2 * s.length < m → parseValue n s = parseValue m s) ∧
    (∀ m items s, 2 * s.length + 1 < n → 2 * s.length + 1 < m →
      parseItems n items s = parseItems m items s) ∧
    (∀ m members s, 2 * s.length + 1 < n → 2 * s.length + 1 < m →
      parseMembers n members s = parseMembers m members s) := by
  induction n with
  | zero => exact ⟨nofun, nofun, nofun⟩
  | succ n ih =>
    obtain ⟨ihValue, ihItems, ihMembers⟩ := ih
    refine ⟨fun m s hn hm => ?_, fun m items s hn hm => ?_, fun m members s hn hm => ?_⟩
    all_goals
      obtain ⟨m, rfl⟩ := Nat.exists_eq_add_one_of_ne_zero (Nat.ne_of_gt (Nat.zero_lt_of_lt hm))
    · cases s with
      | nil => rw [parseValue_nil, parseValue_nil]
      | cons c s =>
        cases hlit : literal (c :: s) with
        | some r => rw [parseValue_literal n hlit, parseValue_literal m hlit]
        | none =>
          have hle := skip_le s
          rw [List.length_cons] at hn hm
          rw [parseValue_cons n hlit, parseValue_cons m hlit,
            ihItems m [] (skip s) (by omega) (by omega),
            ihMembers m [] (skip s) (by omega) (by omega)]
    · have hle := skip_le s
      rw [parseItems_eq, parseItems_eq, ihValue m (skip s) (by omega) (by omega)]
      cases hchild : parseValue m (skip s) with
      | error fail => rfl
      | ok r =>
        have hle' := (parse_le m).1 _ _ _ hchild
        exact afterEntry_congr (fun u hu => ihItems m _ u (by omega) (by omega)) _ _
    · have hle := skip_le s
      rw [parseMembers_eq, parseMembers_eq]
      cases hname : parseString (skip s) with
      | error fail => rfl
      | ok r =>
        have hle' := parseString_le hname
        have hskip := skip_le r.2
        have hskip' := skip_le (skip r.2).tail
        show (if _ then _ else _) = (if _ then _ else _)
        by_cases hcolon : (skip r.2).head? = some colon
        · have hlt := tail_lt hcolon
          rw [if_neg (not_not.mpr hcolon), if_neg (not_not.mpr hcolon),
            ihValue m (skip (skip r.2).tail) (by omega) (by omega)]
          cases hchild : parseValue m (skip (skip r.2).tail) with
          | error fail => rfl
          | ok r' =>
            have hle'' := (parse_le m).1 _ _ _ hchild
            exact afterEntry_congr (fun u hu => ihMembers m _ u (by omega) (by omega)) _ _
        · rw [if_pos hcolon, if_pos hcolon]

/-- What `cJSONParse` returns does not depend on the depth that it allows. -/
theorem cJSONParse_depth {n : ℕ} (hn : 2 * s.length + 2 ≤ n) :
    parseValue n (skip s) = parseValue (2 * s.length + 2) (skip s) := by
  have hle := skip_le s
  exact (parse_depth n).1 _ _ (by omega) (by omega)

end Dungeon

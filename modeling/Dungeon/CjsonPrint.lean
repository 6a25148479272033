import Mathlib.Data.Nat.Digits.Defs
import Dungeon.Cjson
import Dungeon.CjsonParse
import Dungeon.Lib.Buffers

/-!
# Printing JSON (`cJSON.c`)

`print_value` and the functions below it, in a memory where each `malloc` may fail.

- `Node`: `cJSON`, with the strings that may be `NULL`. What `sprintf` makes of a double that is
  no `int` is given by its text.
- `intNat`, `asInt`: the two ways of an `int`. Its own arithmetic has no outcome when it overflows;
  a `size_t` that is stored in one loses its upper half.
- `printValue`: the function; `none` is a step outside an allocation, a `free` of what is not
  allocated, or an overflow. `grant` tells which calls of `malloc` are successful.
- `render`: the text of a tree.
-/

namespace Dungeon

open JsonText

/-- A C string, without its terminator. -/
abbrev CString := { s : Text // (0 : UInt8) ∉ s }

/-- A number, by the branch that `print_number` takes for it. Of a double there is the text only
that `sprintf` makes of it, in whichever format. -/
inductive Number where
  | int (valueint : Int32)
  | double (text : CString)

/-- `cJSON`, by its `type`, with the `string` of each item of an object. -/
inductive Node where
  | null
  | false
  | true
  | number (n : Number)
  | string (valuestring : Option CString)
  | array (items : List Node)
  | object (members : List (Option CString × Node))

namespace Node

/-- Induction over a tree, with the hypothesis for each of the children. -/
@[elab_as_elim]
theorem induction {motive : Node → Prop} (null : motive null) (false : motive false)
    (true : motive true) (number : ∀ n, motive (number n)) (string : ∀ s, motive (string s))
    (array : ∀ items, (∀ child ∈ items, motive child) → motive (array items))
    (object : ∀ members, (∀ c ∈ members, motive c.2) → motive (object members)) :
    ∀ node, motive node :=
  @Node.rec motive (fun items => ∀ child ∈ items, motive child)
    (fun members => ∀ c ∈ members, motive c.2) (fun c => motive c.2)
    null false true number string array object
    (by simp) (fun _ _ hchild hitems => List.forall_mem_cons.mpr ⟨hchild, hitems⟩)
    (by simp) (fun _ _ hchild hmembers => List.forall_mem_cons.mpr ⟨hchild, hmembers⟩)
    (fun _ _ hchild => hchild)

end Node

mutual

/-- The numbers of a tree are `num`, and its strings and names are `str`. -/
def Node.All (num : Number → Prop) (str : Option CString → Prop) : Node → Prop
  | .number n => num n
  | .string s => str s
  | .array items => AllItems num str items
  | .object members => AllMembers num str members
  | _ => True
  termination_by structural node => node

def AllItems (num : Number → Prop) (str : Option CString → Prop) : List Node → Prop
  | [] => True
  | child :: items => child.All num str ∧ AllItems num str items
  termination_by structural items => items

def AllMembers (num : Number → Prop) (str : Option CString → Prop) :
    List (Option CString × Node) → Prop
  | [] => True
  | (string, child) :: members => str string ∧ child.All num str ∧ AllMembers num str members
  termination_by structural members => members

end

section All

variable {num : Number → Prop} {str : Option CString → Prop}

theorem allItems_iff {items : List Node} :
    AllItems num str items ↔ ∀ child ∈ items, child.All num str := by
  induction items with
  | nil => simp [AllItems]
  | cons child items ih => simp [AllItems, ih]

theorem allMembers_iff {members : List (Option CString × Node)} :
    AllMembers num str members ↔ ∀ c ∈ members, str c.1 ∧ c.2.All num str := by
  induction members with
  | nil => simp [AllMembers]
  | cons c members ih => simp [AllMembers, ih, and_assoc]

@[simp] theorem Node.all_array {items : List Node} :
    (Node.array items).All num str ↔ ∀ child ∈ items, child.All num str := allItems_iff

@[simp] theorem Node.all_object {members : List (Option CString × Node)} :
    (Node.object members).All num str ↔ ∀ c ∈ members, str c.1 ∧ c.2.All num str := allMembers_iff

/-- What holds of all numbers and strings may be weakened. -/
theorem Node.All.mono {num' : Number → Prop} {str' : Option CString → Prop} {node : Node}
    (h : node.All num str) (hnum : ∀ n, num n → num' n) (hstr : ∀ s, str s → str' s) :
    node.All num' str' := by
  induction node using Node.induction with
  | null => trivial
  | false => trivial
  | true => trivial
  | number n => exact hnum n h
  | string s => exact hstr s h
  | array items ih =>
    exact Node.all_array.mpr fun child hmem => ih child hmem (Node.all_array.mp h child hmem)
  | object members ih =>
    have hall := Node.all_object.mp h
    exact Node.all_object.mpr fun c hmem => ⟨hstr c.1 (hall c hmem).1, ih c hmem (hall c hmem).2⟩

end All

namespace Print

open Objects

/-- A byte, or one of the pointers in an array of pointers. -/
inductive Cell where
  | byte (c : UInt8)
  | pointer (p : Option Ptr)
deriving DecidableEq

instance : OfNat Cell 0 := ⟨.byte 0⟩

/-- The bytes of a text. -/
def bytes (text : Text) : List Cell := text.map .byte

/-- The memory, and how often `malloc` was called. -/
structure Heap where
  mem : Objects Cell
  calls : ℕ

/-- What is counted in an `int`, unless it overflows. -/
def intNat (n : ℕ) : Option ℕ := if n < 2 ^ 31 then some n else none

/-- The `int` that a `size_t` becomes. -/
def asInt (n : ℤ) : ℤ := n.bmod (2 ^ 32)

/-! ## The text of a tree -/

def tab : UInt8 := 0x09

def newline : UInt8 := 0x0A

def blank : UInt8 := 0x20

/-- `sprintf(str, "%d", v)`. -/
def decimal (v : ℤ) : Text :=
  (if v < 0 then [minus] else []) ++
    if v = 0 then [zero] else (Nat.digits 10 v.natAbs).reverse.map fun d => zero + d.toUInt8

/-- A hexadecimal digit of `%x`. -/
def hexDigit (n : UInt8) : UInt8 := if n < 10 then zero + n else 0x61 + (n - 10)

/-- `sprintf(ptr2, "u%04x", token)`. -/
def unicode (token : UInt8) : Text :=
  [letterU, zero, zero, hexDigit (token / 16), hexDigit (token % 16)]

/-- The `case`s of `print_string_ptr`: what comes behind the backslash. -/
def escapeLetter (token : UInt8) : Option UInt8 :=
  if token = backslash then some backslash
  else if token = quote then some quote
  else if token = 0x08 then some 0x62
  else if token = 0x0C then some 0x66
  else if token = newline then some 0x6E
  else if token = 0x0D then some 0x72
  else if token = tab then some 0x74
  else none

/-- A character stands for itself. -/
def Plain (c : UInt8) : Prop := 31 < c ∧ c ≠ quote ∧ c ≠ backslash

instance (c : UInt8) : Decidable (Plain c) := inferInstanceAs (Decidable (_ ∧ _))

/-- What a character becomes. -/
def escaped (c : UInt8) : Text :=
  if Plain c then [c] else backslash :: ((escapeLetter c).map ([·])).getD (unicode c)

/-- The text of `print_string_ptr`. -/
def renderString : Option CString → Text
  | none => []
  | some str => quote :: (str.1.flatMap escaped ++ [quote])

def renderNumber : Number → Text
  | .int valueint => decimal valueint.toInt
  | .double text => text.1

/-- `c`, when the text is formatted. -/
def formatted (fmt : Bool) (c : UInt8) : Text := if fmt then [c] else []

/-- What comes between two items of an array. -/
def separator (fmt : Bool) : Text := comma :: formatted fmt blank

/-- The tabs in front of a line. -/
def tabs (fmt : Bool) (depth : ℕ) : Text := if fmt then List.replicate depth tab else []

/-- The items of an array, from one on. -/
def joinItems (fmt : Bool) : List Text → Text
  | [] => []
  | e :: es => e ++ (if es = [] then [] else separator fmt) ++ joinItems fmt es

/-- The members of an object, from one on, by their names and values. -/
def joinMembers (fmt : Bool) (depth : ℕ) : List (Text × Text) → Text
  | [] => []
  | e :: es => tabs fmt depth ++ (e.1 ++ (colon :: formatted fmt tab ++ (e.2 ++
      ((if es = [] then [] else [comma]) ++ formatted fmt newline)))) ++ joinMembers fmt depth es

mutual

/-- The text that `print_value` gives. -/
def render (fmt : Bool) (depth : ℕ) : Node → Text
  | .null => wordNull
  | .false => wordFalse
  | .true => wordTrue
  | .number n => renderNumber n
  | .string s => renderString s
  | .array items =>
    openBracket :: (joinItems fmt (renderItems fmt (depth + 1) items) ++ [closeBracket])
  | .object members => openBrace :: (formatted fmt newline ++
      joinMembers fmt (depth + 1) (renderMembers fmt (depth + 1) members) ++ tabs fmt depth ++
      [closeBrace])
  termination_by structural node => node

def renderItems (fmt : Bool) (depth : ℕ) : List Node → List Text
  | [] => []
  | child :: items => render fmt depth child :: renderItems fmt depth items
  termination_by structural items => items

def renderMembers (fmt : Bool) (depth : ℕ) : List (Option CString × Node) → List (Text × Text)
  | [] => []
  | (string, child) :: members =>
    (renderString string, render fmt depth child) :: renderMembers fmt depth members
  termination_by structural members => members

end

theorem renderItems_eq (fmt : Bool) (depth : ℕ) (items : List Node) :
    renderItems fmt depth items = items.map (render fmt depth) := by
  induction items with
  | nil => rfl
  | cons child items ih => rw [renderItems, ih, List.map_cons]

theorem renderMembers_eq (fmt : Bool) (depth : ℕ) (members : List (Option CString × Node)) :
    renderMembers fmt depth members =
      members.map fun c => (renderString c.1, render fmt depth c.2) := by
  induction members with
  | nil => rfl
  | cons c members ih => rw [renderMembers, ih, List.map_cons]

/-! ## Allocations -/

section Functions

variable (grant : ℕ → Bool)

/-- `cJSON_malloc`; a pointer takes one cell. -/
def cJSONMalloc (h : Heap) (n : ℕ) : Heap × Option Ptr :=
  if grant h.calls then (⟨(h.mem.malloc n).1, h.calls + 1⟩, some (h.mem.malloc n).2)
  else (⟨h.mem, h.calls + 1⟩, none)

/-- `cJSON_malloc` of an `int`. A negative one is a `size_t` that no memory is there for. -/
def cJSONMallocInt (h : Heap) (len : ℤ) : Heap × Option Ptr :=
  if len < 0 then (⟨h.mem, h.calls + 1⟩, none) else cJSONMalloc grant h len.toNat

/-- A string in a new allocation. -/
def newString (h : Heap) (size : ℕ) (text : Text) : Option (Heap × Option Ptr) :=
  match cJSONMalloc grant h size with
  | (h, none) => some (h, none)
  | (h, some out) => (sprintf (bytes text) h.mem out).map fun r => (⟨r.1, h.calls⟩, some out)

/-- `cJSON_strdup`. -/
def cJSONStrdup (h : Heap) (str : Text) : Option (Heap × Option Ptr) :=
  newString grant h (str.length + 1) str

/-- `print_number`. -/
def printNumber (h : Heap) : Number → Option (Heap × Option Ptr)
  | .int valueint => newString grant h 21 (decimal valueint.toInt)
  | .double text => newString grant h 64 text.1

/-! ## Strings -/

/-- The first loop of `print_string_ptr`, which counts the length in `len`. -/
def countString : ℕ → Text → Option ℕ
  | len, [] => some len
  | len, token :: str => do
    let len ← intNat (len + 1 +
      if token ∈ [quote, backslash, 0x08, 0x0C, newline, 0x0D, tab] then 1
      else if token < 32 then 5 else 0)
    countString len str

/-- A turn of the second loop. -/
def printChar (c : UInt8) : Writer Cell :=
  if Plain c then putc (.byte c)
  else (putc (.byte backslash)).seq (match escapeLetter c with
    | some letter => putc (.byte letter)
    | none => sprintf (bytes (unicode c)))

def printChars : Text → Writer Cell
  | [] => fun m ptr => some (m, ptr)
  | c :: str => (printChar c).seq (printChars str)

/-- `print_string_ptr`. -/
def printStringPtr (h : Heap) : Option CString → Option (Heap × Option Ptr)
  | none => cJSONStrdup grant h []
  | some str => do
    let len ← countString 0 str.1
    let size ← intNat (len + 3)
    match cJSONMalloc grant h size with
    | (h, none) => some (h, none)
    | (h, some out) =>
      let write := (putc (.byte quote)).seq ((printChars str.1).seq (putc (.byte quote)))
      (write.seq (putc 0) h.mem out).map fun r => (⟨r.1, h.calls⟩, some out)

/-! ## Arrays of pointers -/

/-- `memset(entries, 0, n * sizeof(char*))`. -/
def clearEntries (m : Objects Cell) (entries : Ptr) (n : ℕ) : Option (Objects Cell) :=
  m.write entries (List.replicate n (some (.pointer none)))

/-- `entries[i]`. -/
def entryAt (m : Objects Cell) (entries : Ptr) (i : ℕ) : Option (Option Ptr) := do
  match ← m.load (entries.plus i) with
  | .pointer p => some p
  | .byte _ => none

/-- `if (entries[i]) cJSON_free(entries[i])`. -/
def freeEntry (m : Objects Cell) (entries : Ptr) (i : ℕ) : Option (Objects Cell) := do
  match ← entryAt m entries i with
  | none => some m
  | some p => m.free p

/-- The strings of the first `n` entries from `i` on are freed. -/
def freeItems (entries : Ptr) : ℕ → ℕ → Objects Cell → Option (Objects Cell)
  | 0, _, m => some m
  | n + 1, i, m => do
    let m ← freeEntry m entries i
    freeItems entries n (i + 1) m

def freeMembers (names entries : Ptr) : ℕ → ℕ → Objects Cell → Option (Objects Cell)
  | 0, _, m => some m
  | n + 1, i, m => do
    let m ← freeEntry m names i
    let m ← freeEntry m entries i
    freeMembers names entries n (i + 1) m

/-- The last loop of `print_array`, for `n` entries from `i` on. -/
def composeItems (fmt : Bool) (entries : Ptr) : ℕ → ℕ → Writer Cell
  | 0, _, m, ptr => some (m, ptr)
  | n + 1, i, m, ptr => do
    let entry ← (← entryAt m entries i)
    let (m, ptr) ← strcpy entry m ptr
    let (m, ptr) ← if n = 0 then some (m, ptr) else (puts (bytes (separator fmt))).seq mark m ptr
    let m ← m.free entry
    composeItems fmt entries n (i + 1) m ptr

/-- The last loop of `print_object`. -/
def composeMembers (fmt : Bool) (depth : ℕ) (names entries : Ptr) : ℕ → ℕ → Writer Cell
  | 0, _, m, ptr => some (m, ptr)
  | n + 1, i, m, ptr => do
    let (m, ptr) ← puts (bytes (tabs fmt depth)) m ptr
    let name ← (← entryAt m names i)
    let (m, ptr) ← strcpy name m ptr
    let (m, ptr) ← puts (bytes (colon :: formatted fmt tab)) m ptr
    let entry ← (← entryAt m entries i)
    let (m, ptr) ← strcpy entry m ptr
    let (m, ptr) ← (puts (bytes ((if n = 0 then [] else [comma]) ++ formatted fmt newline))).seq
      mark m ptr
    let m ← m.free name
    let m ← m.free entry
    composeMembers fmt depth names entries n (i + 1) m ptr

/-- The rest of `print_array`; `len` is `none` after a failure. -/
def finishArray (fmt : Bool) (h : Heap) (entries : Ptr) (numentries : ℕ) (len : Option ℤ) :
    Option (Heap × Option Ptr) :=
  match len.elim (h, none) (cJSONMallocInt grant h) with
  | (h, none) => do
    let m ← freeItems entries numentries 0 h.mem
    let m ← m.free entries
    return (⟨m, h.calls⟩, none)
  | (h, some out) => do
    let (m, ptr) ← (putc (.byte openBracket)).seq mark h.mem out
    let (m, ptr) ← composeItems fmt entries numentries 0 m ptr
    let m ← m.free entries
    let (m, ptr) ← putc (.byte closeBracket) m ptr
    let (m, _) ← putc 0 m ptr
    return (⟨m, h.calls⟩, some out)

/-- The rest of `print_object`. -/
def finishObject (fmt : Bool) (depth : ℕ) (h : Heap) (names entries : Ptr) (numentries : ℕ)
    (len : Option ℤ) : Option (Heap × Option Ptr) :=
  match len.elim (h, none) (cJSONMallocInt grant h) with
  | (h, none) => do
    let m ← freeMembers names entries numentries 0 h.mem
    let m ← m.free names
    let m ← m.free entries
    return (⟨m, h.calls⟩, none)
  | (h, some out) => do
    let (m, ptr) ← (puts (bytes (openBrace :: formatted fmt newline))).seq mark h.mem out
    let (m, ptr) ← composeMembers fmt depth names entries numentries 0 m ptr
    let m ← m.free names
    let m ← m.free entries
    let (m, ptr) ← puts (bytes (tabs fmt (depth - 1) ++ [closeBrace])) m ptr
    let (m, _) ← putc 0 m ptr
    return (⟨m, h.calls⟩, some out)

/-! ## Values -/

/-- `if (str && ret) len+=strlen(ret)+strlen(str)+2+(fmt?2+depth:0); else fail=1;`. -/
def addMember (fmt : Bool) (depth : ℕ) (m : Objects Cell) (len : Option ℤ)
    (str ret : Option Ptr) : Option (Option ℤ) :=
  match str, ret with
  | some str, some ret => do
    let k ← m.strlen ret
    let n ← m.strlen str
    return len.map fun len => asInt (len + (k + n + 2 + if fmt then 2 + depth else 0 : ℕ))
  | some _, none => some none
  | none, _ => some none

mutual

/-- `print_value`, with `print_array` and `print_object`. -/
def printValue (fmt : Bool) (depth : ℕ) (h : Heap) : Node → Option (Heap × Option Ptr)
  | .null => cJSONStrdup grant h wordNull
  | .false => cJSONStrdup grant h wordFalse
  | .true => cJSONStrdup grant h wordTrue
  | .number n => printNumber grant h n
  | .string s => printStringPtr grant h s
  | .array items => do
    let numentries ← intNat items.length
    match cJSONMalloc grant h numentries with
    | (h, none) => some (h, none)
    | (h, some entries) => do
      let m ← clearEntries h.mem entries numentries
      let (h, len) ← printItems fmt depth ⟨m, h.calls⟩ entries 0 5 items
      finishArray grant fmt h entries numentries len
  | .object members => do
    let numentries ← intNat members.length
    match cJSONMalloc grant h numentries with
    | (h, none) => some (h, none)
    | (h, some entries) =>
      match cJSONMalloc grant h numentries with
      | (h, none) => do
        let m ← h.mem.free entries
        return (⟨m, h.calls⟩, none)
      | (h, some names) => do
        let m ← clearEntries h.mem entries numentries
        let m ← clearEntries m names numentries
        let depth ← intNat (depth + 1)
        let len ← intNat (7 + if fmt then depth else 0)
        let (h, len) ← printMembers fmt depth ⟨m, h.calls⟩ names entries 0 (some len) members
        finishObject grant fmt depth h names entries numentries len
  termination_by structural node => node

/-- The second loop of `print_array`, from the child `i` on. It ends with the first failure. -/
def printItems (fmt : Bool) (depth : ℕ) (h : Heap) (entries : Ptr) (i : ℕ) (len : ℤ) :
    List Node → Option (Heap × Option ℤ)
  | [] => some (h, some len)
  | child :: items => do
    let inner ← intNat (depth + 1)
    let (h, ret) ← printValue fmt inner h child
    let m ← h.mem.store (entries.plus i) (.pointer ret)
    match ret with
    | none => return (⟨m, h.calls⟩, none)
    | some p => do
      let n ← m.strlen p
      let len := asInt (len + (n + 2 + if fmt then 1 else 0 : ℕ))
      printItems fmt depth ⟨m, h.calls⟩ entries (i + 1) len items
  termination_by structural items => items

/-- The second loop of `print_object`, which goes on after a failure. -/
def printMembers (fmt : Bool) (depth : ℕ) (h : Heap) (names entries : Ptr) (i : ℕ)
    (len : Option ℤ) : List (Option CString × Node) → Option (Heap × Option ℤ)
  | [] => some (h, len)
  | (string, child) :: members => do
    let (h, str) ← printStringPtr grant h string
    let m ← h.mem.store (names.plus i) (.pointer str)
    let (h, ret) ← printValue fmt depth ⟨m, h.calls⟩ child
    let m ← h.mem.store (entries.plus i) (.pointer ret)
    let len ← addMember fmt depth m len str ret
    printMembers fmt depth ⟨m, h.calls⟩ names entries (i + 1) len members
  termination_by structural members => members

end

/-- `cJSON_Print` and `cJSON_PrintUnformatted`. -/
def cJSONPrint (fmt : Bool) (h : Heap) (item : Node) : Option (Heap × Option Ptr) :=
  printValue grant fmt 0 h item

end Functions

end Print

end Dungeon

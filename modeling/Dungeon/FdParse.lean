import Mathlib.Algebra.BigOperators.Group.List.Basic
import Mathlib.Algebra.Ring.Int.Defs
import Dungeon.CjsonParse
import Dungeon.Conn
import Dungeon.Lib.Loop

/-!
# Reading JSON from a descriptor (`cJSON.c`)

`cJSON_fdParse` reads byte by byte and counts brackets until the count is back at zero. It does
not look at strings, and it takes every result of `read` but zero for a byte: after an error other
than `EINTR` and `EAGAIN` it looks at the last byte again.

- `Reader`: the variables of the function, and what it has consumed. `fdTurn`: one turn of its
  loop, for any results of `read` and any outcomes of `realloc`. A sum that leaves `int` and a
  `strcat` over the end of the buffer are undefined.
- `depth`, `kept`, `text`: the count, the bytes from the first opening bracket on, and the string
  they make. `heard`: the bytes that the loop looks at, the stale ones included.
- `Goes`, `Stops`: what the last byte looked at does to the loop, in these terms.
- `process_view`: the turn behind `read`, when the variables are those of some bytes.
- `getsTo_iff`: which turns are made. `ends_iff`, `reaches_iff`: how the loop ends, and its states.
-/

namespace Dungeon

open JsonText

/-- `EIO`. -/
def eio : ℕ := 5

/-- `EISDIR`. -/
def eisdir : ℕ := 21

/-- What `read(fd, c, 1)` gives. -/
inductive ReadResult where
  | data (c : UInt8)
  | eof
  | error (errno : ℕ)
deriving DecidableEq

/-- A byte, or an error after which the loop reads again. -/
def ReadResult.Plain : ReadResult → Prop
  | .data _ => True
  | .error errno => errno = eintr ∨ errno = eagain
  | .eof => False

/-- Any other error. -/
def ReadResult.Persistent : ReadResult → Prop
  | .error errno => ¬ (errno = eintr ∨ errno = eagain)
  | .data _ | .eof => False

theorem ReadResult.Plain.not_persistent {r : ReadResult} (h : r.Plain) : ¬ r.Persistent := by
  cases r with
  | error errno => exact not_not.mpr h
  | data c => exact id
  | eof => exact id

instance (r : ReadResult) : Decidable r.Plain :=
  match r with
  | .data _ => isTrue trivial
  | .error _ => inferInstanceAs (Decidable (_ ∨ _))
  | .eof => isFalse id

instance (r : ReadResult) : Decidable r.Persistent :=
  match r with
  | .error _ => inferInstanceAs (Decidable (¬ _))
  | .data _ | .eof => isFalse id

namespace FdParse

/-- `MEMSTEP`. -/
def memstep : ℤ := 1024

def intMax : ℤ := 2147483647

def intMin : ℤ := -2147483648

def openmark : Text := [openBracket, openBrace]

def closemark : Text := [closeBracket, closeBrace]

/-- `strchr(s, c) != NULL`: the terminator is found as well. -/
def strchr (s : Text) (c : UInt8) : Prop := c ∈ s ∨ c = 0

instance (s : Text) (c : UInt8) : Decidable (strchr s c) := inferInstanceAs (Decidable (_ ∨ _))

/-- The variables of `cJSON_fdParse`; `str` is `NULL` while `initial` is set. -/
structure Reader where
  str : Text
  strsize : ℤ
  freecount : ℤ
  c : UInt8
  level : ℤ
  begun : Bool
  initial : Bool
  /-- how often `read` was called -/
  calls : ℕ
  /-- the bytes that it gave -/
  consumed : Text
deriving DecidableEq

/-- The end of the loop: the string to be parsed, if there is one, and the bytes taken from the
descriptor. -/
structure Outcome where
  str : Option Text
  consumed : Text
deriving DecidableEq

/-- The variables at the start. -/
def start : Reader where
  str := []
  strsize := 0
  freecount := 0
  c := 0
  level := 0
  begun := false
  initial := true
  calls := 0
  consumed := []

/-- A result that the rest of the turn is about. -/
def received (s : Reader) : ReadResult → Option Reader
  | .data c => some { s with c := c, calls := s.calls + 1, consumed := s.consumed ++ [c] }
  | .error errno =>
    if errno = eintr ∨ errno = eagain then none else some { s with calls := s.calls + 1 }
  | .eof => none

/-- The marks; nothing for an `int` that overflows. -/
def mark (s : Reader) : Option Reader :=
  if strchr openmark s.c then
    if s.level = intMax then none else some { s with begun := true, level := s.level + 1 }
  else if strchr closemark s.c then
    if s.level = intMin then none else some { s with level := s.level - 1 }
  else some s

/-- The growing of the buffer; `realloc` says whether there is memory for a size. -/
def grow (realloc : ℤ → Bool) (s : Reader) : Turn Reader Outcome :=
  if s.freecount < 1 then
    if s.strsize + memstep > intMax then .undefined
    else if realloc (s.strsize + memstep) then
      .next { s with
        str := if s.initial then [] else s.str
        initial := false
        strsize := s.strsize + memstep
        freecount := s.freecount + memstep }
    else .done ⟨none, s.consumed⟩
  else .next s

/-- What `strcat(str, c)` leaves. -/
def appended (s : Reader) : Text := if s.c = 0 then s.str else s.str ++ [s.c]

/-- The string fits into the buffer, with its terminator. -/
def Fits (s : Reader) : Prop := ((appended s).length : ℤ) + 1 ≤ s.strsize

instance (s : Reader) : Decidable (Fits s) := inferInstanceAs (Decidable (_ ≤ _))

/-- The turn up to `strcat`. -/
def prepare (realloc : ℤ → Bool) (s : Reader) : Turn Reader Outcome :=
  match mark s with
  | none => .undefined
  | some s => if s.begun then grow realloc s else .next s

/-- `strcat`, and the test that ends the loop. -/
def strcat (s : Reader) : Turn Reader Outcome :=
  if s.begun then
    if Fits s then
      if s.level = 0 then .done ⟨some (appended s), s.consumed⟩
      else .next { s with str := appended s, freecount := s.freecount - 1 }
    else .undefined
  else .next s

/-- The turn behind `read`. -/
def process (realloc : ℤ → Bool) (s : Reader) : Turn Reader Outcome :=
  match prepare realloc s with
  | .next s => strcat s
  | .done r => .done r
  | .undefined => .undefined

/-- One turn of the loop, when the `n`-th call of `read` gives `reads n`. -/
def fdTurn (realloc : ℤ → Bool) (reads : ℕ → ReadResult) (s : Reader) : Turn Reader Outcome :=
  if reads s.calls = .eof then
    .done ⟨if s.begun ∧ s.level = 0 then some s.str else none, s.consumed⟩
  else
    match received s (reads s.calls) with
    | none => .next { s with calls := s.calls + 1 }
    | some s => process realloc s

/-- What `cJSON_fdParse` returns: what `cJSON_Parse` does, or `NULL`. -/
def returned : Option Text → Option (Option Item)
  | none => some none
  | some str => cJSONParse str

/-! ## The bytes the loop looks at -/

/-- The contribution of a byte to the level. -/
def weight (c : UInt8) : ℤ :=
  if strchr openmark c then 1 else if strchr closemark c then -1 else 0

/-- The level behind some bytes. -/
def depth (cs : Text) : ℤ := (cs.map weight).sum

/-- The bytes from the first opening bracket on. -/
def kept (cs : Text) : Text := cs.dropWhile fun c => ¬ strchr openmark c

/-- The string that they make: `strcat` adds no zero byte. -/
def text (cs : Text) : Text := (kept cs).filter fun c => c ≠ 0

/-- The size of the buffer for `n` calls of `strcat`. -/
def roomFor (n : ℕ) : ℤ := ((n + 1023) / 1024 * 1024 : ℕ)

/-- The last byte, or the zero that `c` holds before there is one. -/
def stale (cs : Text) : UInt8 := cs.getLast?.getD 0

/-- The bytes looked at, with one more result of `read`. -/
def hear (cs : Text) : ReadResult → Text
  | .data c => cs ++ [c]
  | .error errno => if errno = eintr ∨ errno = eagain then cs else cs ++ [stale cs]
  | .eof => cs

/-- The bytes the loop looks at: an error gives the last one again. -/
def heard (rs : List ReadResult) : Text := rs.foldl hear []

/-- The bytes that `read` gives. -/
def bytes (rs : List ReadResult) : Text :=
  rs.filterMap fun
    | .data c => some c
    | .error _ | .eof => none

/-- The first `k` results. -/
def log (reads : ℕ → ReadResult) (k : ℕ) : List ReadResult := (List.range k).map reads

/-- The level is an `int`. -/
def LevelOk (cs : Text) : Prop := intMin ≤ depth cs ∧ depth cs ≤ intMax

/-- So is the size of the buffer. -/
def SizeOk (cs : Text) : Prop := roomFor (kept cs).length ≤ intMax

/-- The last byte needs a larger buffer, and there is no memory for it. -/
def Refused (realloc : ℤ → Bool) (cs : Text) : Prop :=
  (kept cs).length % 1024 = 1 ∧ realloc (roomFor (kept cs).length) = false

/-- The string fits into the buffer. -/
def TextFits (cs : Text) : Prop :=
  kept cs ≠ [] → ((text cs).length : ℤ) + 1 ≤ roomFor (kept cs).length

/-- A bracket was opened, and all that were opened are closed. -/
def Closed (cs : Text) : Prop := kept cs ≠ [] ∧ depth cs = 0

instance (cs : Text) : Decidable (LevelOk cs) := inferInstanceAs (Decidable (_ ∧ _))

instance (cs : Text) : Decidable (SizeOk cs) := inferInstanceAs (Decidable (_ ≤ _))

instance (realloc : ℤ → Bool) (cs : Text) : Decidable (Refused realloc cs) :=
  inferInstanceAs (Decidable (_ ∧ _))

instance (cs : Text) : Decidable (TextFits cs) := inferInstanceAs (Decidable (_ → _))

instance (cs : Text) : Decidable (Closed cs) := inferInstanceAs (Decidable (_ ∧ _))

/-- Behind the last byte the loop goes on. -/
structure Goes (realloc : ℤ → Bool) (cs : Text) : Prop where
  level : LevelOk cs
  size : SizeOk cs
  memory : ¬ Refused realloc cs
  fits : TextFits cs
  opened : ¬ Closed cs

/-- With the last byte the loop ends. -/
structure Stops (realloc : ℤ → Bool) (cs : Text) : Prop where
  level : LevelOk cs
  size : SizeOk cs
  ends : Refused realloc cs ∨ TextFits cs ∧ Closed cs

/-- The string to be parsed, when the loop ends. -/
def result (realloc : ℤ → Bool) (cs : Text) : Option Text :=
  if Refused realloc cs then none else some (text cs)

instance (realloc : ℤ → Bool) (cs : Text) : Decidable (Goes realloc cs) :=
  decidable_of_iff (LevelOk cs ∧ SizeOk cs ∧ ¬ Refused realloc cs ∧ TextFits cs ∧ ¬ Closed cs)
    ⟨fun h => ⟨h.1, h.2.1, h.2.2.1, h.2.2.2.1, h.2.2.2.2⟩,
      fun h => ⟨h.level, h.size, h.memory, h.fits, h.opened⟩⟩

instance (realloc : ℤ → Bool) (cs : Text) : Decidable (Stops realloc cs) :=
  decidable_of_iff (LevelOk cs ∧ SizeOk cs ∧ (Refused realloc cs ∨ TextFits cs ∧ Closed cs))
    ⟨fun h => ⟨h.1, h.2.1, h.2.2⟩, fun h => ⟨h.level, h.size, h.ends⟩⟩

/-- The loop goes on behind each of the bytes. -/
def Passes (realloc : ℤ → Bool) (cs : Text) : Prop := ∀ bs, bs <+: cs → Goes realloc bs

variable {realloc : ℤ → Bool} {reads : ℕ → ReadResult} {cs bs : Text} {c : UInt8} {k n : ℕ}
  {got : Text}

/-! ## One more byte -/

theorem depth_append (cs : Text) (c : UInt8) : depth (cs ++ [c]) = depth cs + weight c := by
  simp [depth]

theorem depth_replicate (n : ℕ) (c : UInt8) : depth (List.replicate n c) = n * weight c := by
  induction n with
  | zero => simp [depth]
  | succ n ih =>
    rw [List.replicate_succ', depth_append, ih]
    push_cast
    rw [Int.add_mul, Int.one_mul]

theorem stale_append (cs : Text) (c : UInt8) : stale (cs ++ [c]) = c := by
  simp [stale]

theorem kept_append (cs ds : Text) :
    kept (cs ++ ds) = if kept cs = [] then kept ds else kept cs ++ ds := by
  have hdrop : (cs ++ ds).dropWhile (fun c => decide (¬ strchr openmark c)) = _ :=
    List.dropWhile_append
  unfold kept
  rw [hdrop]
  by_cases hnil : cs.dropWhile (fun c => decide (¬ strchr openmark c)) = []
  · rw [if_pos hnil, if_pos (List.isEmpty_iff.mpr hnil)]
  · rw [if_neg hnil, if_neg fun hempty => hnil (List.isEmpty_iff.mp hempty)]

/-- A byte is kept when an opening bracket came before, or when it is one. -/
theorem kept_concat (cs : Text) (c : UInt8) : kept (cs ++ [c]) =
    if kept cs = [] ∧ ¬ strchr openmark c then [] else kept cs ++ [c] := by
  rw [kept_append]
  by_cases hnil : kept cs = []
  · rw [if_pos hnil, hnil]
    by_cases hc : strchr openmark c
    · simp [kept, hc]
    · simp [kept, hc]
  · rw [if_neg hnil, if_neg fun hand => hnil hand.1]

theorem kept_of_open {c : UInt8} (hc : strchr openmark c) (cs : Text) : kept (c :: cs) = c :: cs :=
  List.dropWhile_cons_of_neg fun hnot => of_decide_eq_true hnot hc

theorem kept_mono (h : bs <+: cs) : kept bs <+: kept cs := by
  obtain ⟨ds, rfl⟩ := h
  rw [kept_append]
  split
  next hnil => exact hnil ▸ List.nil_prefix
  next => exact List.prefix_append _ _

/-- Nothing was kept, where nothing is. -/
theorem kept_eq_nil_of_append (h : kept (cs ++ [c]) = []) : kept cs = [] := by
  rw [kept_concat] at h
  split at h
  next hand => exact hand.1
  next => exact absurd h (List.append_ne_nil_of_right_ne_nil _ (List.cons_ne_nil _ _))

theorem kept_append_of_ne (h : kept (cs ++ [c]) ≠ []) : kept (cs ++ [c]) = kept cs ++ [c] := by
  rw [kept_concat] at h ⊢
  split at h
  next => exact absurd rfl h
  next hnot => exact if_neg hnot

/-- The string, with one more byte that is kept. -/
theorem text_append (h : kept (cs ++ [c]) ≠ []) :
    text (cs ++ [c]) = if c = 0 then text cs else text cs ++ [c] := by
  unfold text
  rw [kept_append_of_ne h, List.filter_append]
  by_cases hc : c = 0
  · simp [hc]
  · simp [hc]

/-- The room for one more call. -/
theorem roomFor_succ (n : ℕ) :
    roomFor (n + 1) = if n % 1024 = 0 then roomFor n + memstep else roomFor n := by
  unfold roomFor memstep
  split
  all_goals omega

theorem roomFor_one : roomFor 1 = memstep := by decide

theorem le_roomFor (n : ℕ) : (n : ℤ) ≤ roomFor n ∧ (roomFor n - n < 1 ↔ n % 1024 = 0) := by
  unfold roomFor
  omega

/-- The variables behind the bytes `cs`. -/
def view (cs : Text) (calls : ℕ) (consumed : Text) : Reader where
  str := text cs
  strsize := roomFor (kept cs).length
  freecount := roomFor (kept cs).length - (kept cs).length
  c := stale cs
  level := depth cs
  begun := decide (kept cs ≠ [])
  initial := decide (kept cs = [])
  calls := calls
  consumed := consumed

/-- The variables behind the marks, with `c` behind the bytes `cs`. -/
def viewAtGrow (cs : Text) (c : UInt8) (calls : ℕ) (consumed : Text) : Reader :=
  { view cs calls consumed with
    c := c
    level := depth (cs ++ [c])
    begun := decide (kept (cs ++ [c]) ≠ []) }

/-- The variables in front of `strcat`. -/
def viewAtStrcat (cs : Text) (c : UInt8) (calls : ℕ) (consumed : Text) : Reader :=
  { view (cs ++ [c]) calls consumed with
    str := text cs
    freecount := roomFor (kept (cs ++ [c])).length - (kept cs).length }

theorem goes_nil (realloc : ℤ → Bool) : Goes realloc [] where
  level := by unfold LevelOk; decide
  size := by unfold SizeOk; decide
  memory := fun hrefused => absurd hrefused.1 (by decide)
  fits := fun hne => absurd rfl hne
  opened := fun hclosed => hclosed.1 rfl

/-- The marks, with one more byte. -/
theorem mark_view (hg : Goes realloc cs) (c : UInt8) (k : ℕ) (got : Text) :
    mark { view cs k got with c := c } =
      if LevelOk (cs ++ [c]) then some (viewAtGrow cs c k got) else none := by
  obtain ⟨hmin, hmax⟩ := hg.level
  have hdepth := depth_append cs c
  have hkept := kept_concat cs c
  show (if strchr openmark c then if depth cs = intMax then none else _
    else if strchr closemark c then if depth cs = intMin then none else _ else _) = _
  unfold weight at hdepth
  by_cases hopen : strchr openmark c
  · rw [if_pos hopen] at hdepth ⊢
    rw [if_neg fun hand => hand.2 hopen] at hkept
    have hne : kept (cs ++ [c]) ≠ [] := by
      rw [hkept]
      exact List.append_ne_nil_of_right_ne_nil _ (List.cons_ne_nil _ _)
    by_cases hfull : depth cs = intMax
    · have hover : ¬ LevelOk (cs ++ [c]) := by
        rintro ⟨-, hle⟩
        omega
      rw [if_pos hfull, if_neg hover]
    · have hok : LevelOk (cs ++ [c]) := ⟨by omega, by omega⟩
      unfold viewAtGrow
      rw [if_neg hfull, if_pos hok, hdepth, decide_eq_true hne]
      rfl
  · have hbegun : decide (kept (cs ++ [c]) ≠ []) = decide (kept cs ≠ []) := by
      rw [hkept]
      by_cases hnil : kept cs = []
      · rw [if_pos ⟨hnil, hopen⟩, hnil]
      · rw [if_neg fun hand => hnil hand.1]
        simp [hnil]
    rw [if_neg hopen] at hdepth ⊢
    unfold viewAtGrow
    rw [hbegun]
    by_cases hclose : strchr closemark c
    · rw [if_pos hclose] at hdepth ⊢
      by_cases hempty : depth cs = intMin
      · have hunder : ¬ LevelOk (cs ++ [c]) := by
          rintro ⟨hle, -⟩
          omega
        rw [if_pos hempty, if_neg hunder]
      · have hok : LevelOk (cs ++ [c]) := ⟨by omega, by omega⟩
        rw [if_neg hempty, if_pos hok, hdepth]
        rfl
    · rw [if_neg hclose, add_zero] at hdepth
      have hok : LevelOk (cs ++ [c]) := by
        unfold LevelOk
        rw [hdepth]
        exact hg.level
      rw [if_neg hclose, if_pos hok, hdepth]
      rfl

theorem length_kept_append (hne : kept (cs ++ [c]) ≠ []) :
    (kept (cs ++ [c])).length = (kept cs).length + 1 := by
  rw [kept_append_of_ne hne, List.length_append, List.length_singleton]

theorem sizeOk_append (hne : kept (cs ++ [c]) ≠ []) :
    SizeOk (cs ++ [c]) ↔ roomFor ((kept cs).length + 1) ≤ intMax := by
  unfold SizeOk
  rw [length_kept_append hne]

theorem refused_append (hne : kept (cs ++ [c]) ≠ []) : Refused realloc (cs ++ [c]) ↔
    ((kept cs).length + 1) % 1024 = 1 ∧ realloc (roomFor ((kept cs).length + 1)) = false := by
  unfold Refused
  rw [length_kept_append hne]

theorem viewAtStrcat_eq (hne : kept (cs ++ [c]) ≠ []) (k : ℕ) (got : Text) :
    viewAtStrcat cs c k got = { viewAtGrow cs c k got with
      initial := false
      strsize := roomFor ((kept cs).length + 1)
      freecount := roomFor ((kept cs).length + 1) - (kept cs).length } := by
  unfold viewAtStrcat viewAtGrow view
  rw [length_kept_append hne, stale_append, decide_eq_false hne]

/-- The buffer has no room for one more byte. -/
theorem grow_full (hne : kept (cs ++ [c]) ≠ []) (hmod : (kept cs).length % 1024 = 0) (k : ℕ)
    (got : Text) : grow realloc (viewAtGrow cs c k got) =
      if SizeOk (cs ++ [c]) then
        if Refused realloc (cs ++ [c]) then .done ⟨none, got⟩
        else .next (viewAtStrcat cs c k got)
      else .undefined := by
  have hroom := roomFor_succ (kept cs).length
  rw [if_pos hmod] at hroom
  have hlow : (viewAtGrow cs c k got).freecount < 1 := (le_roomFor (kept cs).length).2.mpr hmod
  have hgrown : (viewAtGrow cs c k got).strsize + memstep = roomFor ((kept cs).length + 1) :=
    hroom.symm
  unfold grow
  rw [if_pos hlow, hgrown]
  by_cases hmax : roomFor ((kept cs).length + 1) ≤ intMax
  · have hnot : ¬ roomFor ((kept cs).length + 1) > intMax := Int.not_lt.mpr hmax
    rw [if_neg hnot, if_pos ((sizeOk_append hne).mpr hmax)]
    cases hmem : realloc (roomFor ((kept cs).length + 1)) with
    | false =>
      have hone : ((kept cs).length + 1) % 1024 = 1 := by omega
      rw [if_neg Bool.false_ne_true, if_pos ((refused_append hne).mpr ⟨hone, hmem⟩)]
      rfl
    | true =>
      have hgranted : ¬ Refused realloc (cs ++ [c]) := fun hand =>
        Bool.noConfusion (hmem.symm.trans ((refused_append hne).mp hand).2)
      have hstr : (if decide (kept cs = []) = true then [] else text cs) = text cs := by
        split
        next hnil =>
          unfold text
          rw [of_decide_eq_true hnil]
          rfl
        next => rfl
      have hfree : roomFor (kept cs).length - ((kept cs).length : ℤ) + memstep
          = roomFor ((kept cs).length + 1) - (kept cs).length := by omega
      rw [if_pos rfl, if_neg hgranted, viewAtStrcat_eq hne]
      exact congrArg₂ (fun str freecount => Turn.next { viewAtGrow cs c k got with
        str := str
        initial := false
        strsize := roomFor ((kept cs).length + 1)
        freecount := freecount }) hstr hfree
  · have hover : roomFor ((kept cs).length + 1) > intMax := Int.not_le.mp hmax
    rw [if_pos hover, if_neg fun hsizeok => hmax ((sizeOk_append hne).mp hsizeok)]

/-- It has room. -/
theorem grow_roomy (hg : Goes realloc cs) (hne : kept (cs ++ [c]) ≠ [])
    (hmod : ¬ (kept cs).length % 1024 = 0) (k : ℕ) (got : Text) :
    SizeOk (cs ++ [c]) ∧ ¬ Refused realloc (cs ++ [c]) ∧
      grow realloc (viewAtGrow cs c k got) = .next (viewAtStrcat cs c k got) := by
  have hsize : roomFor (kept cs).length ≤ intMax := hg.size
  have hroom := roomFor_succ (kept cs).length
  rw [if_neg hmod] at hroom
  refine ⟨(sizeOk_append hne).mpr (hroom.trans_le hsize), fun hand => ?_, ?_⟩
  · have hone := ((refused_append hne).mp hand).1
    omega
  · have hold : decide (kept cs = []) = false := by
      refine decide_eq_false fun hnil => hmod ?_
      rw [hnil]
      rfl
    have hroomy : ¬ (viewAtGrow cs c k got).freecount < 1 := fun hlt =>
      hmod ((le_roomFor (kept cs).length).2.mp hlt)
    unfold grow
    rw [if_neg hroomy, viewAtStrcat_eq hne, hroom]
    unfold viewAtGrow view
    rw [hold]

/-- The buffer, with one more byte that is kept. -/
theorem grow_view (hg : Goes realloc cs) (hne : kept (cs ++ [c]) ≠ []) (k : ℕ) (got : Text) :
    grow realloc (viewAtGrow cs c k got) =
      if SizeOk (cs ++ [c]) then
        if Refused realloc (cs ++ [c]) then .done ⟨none, got⟩
        else .next (viewAtStrcat cs c k got)
      else .undefined := by
  by_cases hmod : (kept cs).length % 1024 = 0
  · exact grow_full hne hmod k got
  · obtain ⟨hsize, hmem, hgrow⟩ := grow_roomy hg hne hmod k got
    rw [if_pos hsize, if_neg hmem]
    exact hgrow

/-- **The turn up to `strcat`**. -/
theorem prepare_view (hg : Goes realloc cs) (c : UInt8) (k : ℕ) (got : Text) :
    prepare realloc { view cs k got with c := c } =
      if LevelOk (cs ++ [c]) ∧ SizeOk (cs ++ [c]) then
        if Refused realloc (cs ++ [c]) then .done ⟨none, got⟩
        else .next (viewAtStrcat cs c k got)
      else .undefined := by
  unfold prepare
  rw [mark_view hg]
  by_cases hlevel : LevelOk (cs ++ [c])
  · rw [if_pos hlevel]
    simp only [hlevel, true_and]
    by_cases hne : kept (cs ++ [c]) ≠ []
    · have hbegun : (viewAtGrow cs c k got).begun = true := decide_eq_true hne
      rw [if_pos hbegun]
      exact grow_view hg hne k got
    · have hbegun : ¬ (viewAtGrow cs c k got).begun = true := fun hbegun =>
        hne (of_decide_eq_true hbegun)
      rw [if_neg hbegun]
      rw [not_not] at hne
      have hold : kept cs = [] := kept_eq_nil_of_append hne
      have hsize : SizeOk (cs ++ [c]) := by
        unfold SizeOk
        rw [hne]
        decide
      have hmem : ¬ Refused realloc (cs ++ [c]) := by
        rintro ⟨hone, -⟩
        rw [hne] at hone
        exact absurd hone (by decide)
      rw [if_pos hsize, if_neg hmem]
      unfold viewAtStrcat viewAtGrow view
      rw [stale_append, hne, hold]
  · rw [if_neg hlevel, if_neg fun hand => hlevel hand.1]

theorem appended_viewAtStrcat (hne : kept (cs ++ [c]) ≠ []) (k : ℕ) (got : Text) :
    appended (viewAtStrcat cs c k got) = text (cs ++ [c]) := by
  rw [text_append hne]
  unfold appended viewAtStrcat view
  rw [stale_append]

theorem fits_viewAtStrcat (hne : kept (cs ++ [c]) ≠ []) (k : ℕ) (got : Text) :
    Fits (viewAtStrcat cs c k got) ↔ TextFits (cs ++ [c]) := by
  unfold Fits
  rw [appended_viewAtStrcat hne]
  exact ⟨fun hle _ => hle, fun hle => hle hne⟩

/-- `strcat`, and the test behind it. -/
theorem strcat_view (cs : Text) (c : UInt8) (k : ℕ) (got : Text) :
    strcat (viewAtStrcat cs c k got) =
      if TextFits (cs ++ [c]) then
        if Closed (cs ++ [c]) then .done ⟨some (text (cs ++ [c])), got⟩
        else .next (view (cs ++ [c]) k got)
      else .undefined := by
  unfold strcat
  by_cases hne : kept (cs ++ [c]) ≠ []
  · have hbegun : (viewAtStrcat cs c k got).begun = true := decide_eq_true hne
    have hfits := fits_viewAtStrcat hne k got
    have hclosed : (viewAtStrcat cs c k got).level = 0 ↔ Closed (cs ++ [c]) :=
      ⟨fun hzero => ⟨hne, hzero⟩, fun hclosed => hclosed.2⟩
    rw [if_pos hbegun, appended_viewAtStrcat hne]
    by_cases hroom : TextFits (cs ++ [c])
    · rw [if_pos (hfits.mpr hroom), if_pos hroom]
      by_cases hend : Closed (cs ++ [c])
      · rw [if_pos (hclosed.mpr hend), if_pos hend]
        rfl
      · rw [if_neg fun hlevel => hend (hclosed.mp hlevel), if_neg hend]
        have hfree : (viewAtStrcat cs c k got).freecount - 1
            = (view (cs ++ [c]) k got).freecount := by
          show roomFor (kept (cs ++ [c])).length - ((kept cs).length : ℤ) - 1
            = roomFor (kept (cs ++ [c])).length - ((kept (cs ++ [c])).length : ℤ)
          rw [kept_append_of_ne hne, List.length_append, List.length_singleton]
          omega
        rw [hfree]
        rfl
    · rw [if_neg fun hfit => hroom (hfits.mp hfit), if_neg hroom]
  · have hnil : kept (cs ++ [c]) = [] := not_not.mp hne
    have hbegun : ¬ (viewAtStrcat cs c k got).begun = true := by
      intro hbegun
      exact hne (of_decide_eq_true hbegun)
    have hroom : TextFits (cs ++ [c]) := fun hkept => absurd hnil hkept
    have hopen : ¬ Closed (cs ++ [c]) := fun hclosed => hclosed.1 hnil
    rw [if_neg hbegun, if_pos hroom, if_neg hopen]
    have hold := kept_eq_nil_of_append hnil
    unfold viewAtStrcat view text
    rw [hold, hnil]

/-- **The turn behind `read`**: the variables in terms of the bytes looked at. -/
theorem process_view (hg : Goes realloc cs) (c : UInt8) (k : ℕ) (got : Text) :
    process realloc { view cs k got with c := c } =
      if LevelOk (cs ++ [c]) ∧ SizeOk (cs ++ [c]) then
        if Refused realloc (cs ++ [c]) then .done ⟨none, got⟩
        else if TextFits (cs ++ [c]) then
          if Closed (cs ++ [c]) then .done ⟨some (text (cs ++ [c])), got⟩
          else .next (view (cs ++ [c]) k got)
        else .undefined
      else .undefined := by
  unfold process
  rw [prepare_view hg]
  by_cases hok : LevelOk (cs ++ [c]) ∧ SizeOk (cs ++ [c])
  · rw [if_pos hok, if_pos hok]
    by_cases hmem : Refused realloc (cs ++ [c])
    · rw [if_pos hmem, if_pos hmem]
    · rw [if_neg hmem, if_neg hmem]
      exact strcat_view cs c k got
  · rw [if_neg hok, if_neg hok]

theorem process_goes (hg : Goes realloc cs) (hg' : Goes realloc (cs ++ [c])) :
    process realloc { view cs k got with c := c } = .next (view (cs ++ [c]) k got) := by
  rw [process_view hg, if_pos ⟨hg'.level, hg'.size⟩, if_neg hg'.memory, if_pos hg'.fits,
    if_neg hg'.opened]

theorem process_stops (hg : Goes realloc cs) (hs : Stops realloc (cs ++ [c])) :
    process realloc { view cs k got with c := c } =
      .done ⟨result realloc (cs ++ [c]), got⟩ := by
  rw [process_view hg, if_pos ⟨hs.level, hs.size⟩]
  unfold result
  by_cases hmem : Refused realloc (cs ++ [c])
  · rw [if_pos hmem, if_pos hmem]
  · obtain ⟨hfits, hclosed⟩ := hs.ends.resolve_left hmem
    rw [if_neg hmem, if_neg hmem, if_pos hfits, if_pos hclosed]

/-- The turn goes on, ends the loop, or leaves the buffer or an `int`. -/
theorem process_cases (hg : Goes realloc cs) (c : UInt8) (k : ℕ) (got : Text) :
    Goes realloc (cs ++ [c]) ∨ Stops realloc (cs ++ [c]) ∨
      process realloc { view cs k got with c := c } = .undefined := by
  by_cases hok : LevelOk (cs ++ [c]) ∧ SizeOk (cs ++ [c])
  · by_cases hmem : Refused realloc (cs ++ [c])
    · exact .inr (.inl ⟨hok.1, hok.2, .inl hmem⟩)
    · by_cases hfits : TextFits (cs ++ [c])
      · by_cases hclosed : Closed (cs ++ [c])
        · exact .inr (.inl ⟨hok.1, hok.2, .inr ⟨hfits, hclosed⟩⟩)
        · exact .inl ⟨hok.1, hok.2, hmem, hfits, hclosed⟩
      · refine .inr (.inr ?_)
        rw [process_view hg, if_pos hok, if_neg hmem, if_neg hfits]
  · refine .inr (.inr ?_)
    rw [process_view hg, if_neg hok]

/-! ## Turn after turn -/

/-- The variables in front of the `k`-th call of `read`. -/
def readerAt (reads : ℕ → ReadResult) (k : ℕ) : Reader :=
  view (heard (log reads k)) k (bytes (log reads k))

theorem start_eq (reads : ℕ → ReadResult) : start = readerAt reads 0 := by
  have hview : start = view [] 0 [] := rfl
  exact hview

theorem log_succ (reads : ℕ → ReadResult) (k : ℕ) :
    log reads (k + 1) = log reads k ++ [reads k] := by
  unfold log
  rw [List.range_succ, List.map_append]
  rfl

theorem prefix_hear (cs : Text) (r : ReadResult) : cs <+: hear cs r := by
  cases r with
  | data c => exact List.prefix_append cs [c]
  | eof => exact List.prefix_refl cs
  | error errno =>
    unfold hear
    dsimp only
    split
    next => exact List.prefix_refl cs
    next => exact List.prefix_append cs [stale cs]

theorem heard_succ (reads : ℕ → ReadResult) (k : ℕ) :
    heard (log reads (k + 1)) = hear (heard (log reads k)) (reads k) := by
  unfold heard
  rw [log_succ, List.foldl_append]
  rfl

/-- What was looked at stays. -/
theorem heard_mono (reads : ℕ → ReadResult) {j : ℕ} (hle : j ≤ k) :
    heard (log reads j) <+: heard (log reads k) := by
  induction hle with
  | refl => exact List.prefix_refl _
  | step _ ih =>
    rw [heard_succ]
    exact ih.trans (prefix_hear _ _)

theorem bytes_append (rs rs' : List ReadResult) : bytes (rs ++ rs') = bytes rs ++ bytes rs' :=
  List.filterMap_append

theorem bytes_succ (reads : ℕ → ReadResult) (k : ℕ) :
    bytes (log reads (k + 1)) = bytes (log reads k) ++ bytes [reads k] := by
  rw [log_succ, bytes_append]

/-- A result is passed over, or it is a byte for the rest of the turn. -/
theorem received_readerAt (reads : ℕ → ReadResult) (k : ℕ) :
    received (readerAt reads k) (reads k) = none ∧
        heard (log reads (k + 1)) = heard (log reads k) ∧
        bytes (log reads (k + 1)) = bytes (log reads k) ∨
      reads k ≠ .eof ∧ ∃ c, heard (log reads (k + 1)) = heard (log reads k) ++ [c] ∧
        received (readerAt reads k) (reads k) = some
          { view (heard (log reads k)) (k + 1) (bytes (log reads (k + 1))) with c := c } := by
  have hheard := heard_succ reads k
  have hbytes := bytes_succ reads k
  cases hread : reads k with
  | eof =>
    rw [hread] at hheard hbytes
    exact .inl ⟨rfl, hheard, hbytes.trans (List.append_nil _)⟩
  | data c =>
    rw [hread] at hheard hbytes
    refine .inr ⟨nofun, c, hheard, ?_⟩
    rw [hbytes]
    rfl
  | error errno =>
    rw [hread] at hheard hbytes
    have hsame : bytes (log reads (k + 1)) = bytes (log reads k) := hbytes.trans (List.append_nil _)
    unfold hear at hheard
    unfold received
    dsimp only at hheard ⊢
    by_cases hagain : errno = eintr ∨ errno = eagain
    · rw [if_pos hagain] at hheard ⊢
      exact .inl ⟨rfl, hheard, hsame⟩
    · rw [if_neg hagain] at hheard ⊢
      refine .inr ⟨nofun, _, hheard, ?_⟩
      rw [hsame]
      rfl

/-- The end of the file ends the loop; otherwise it goes on, or it takes a byte. -/
theorem fdTurn_readerAt (hg : Goes realloc (heard (log reads k))) :
    reads k = .eof ∧
        fdTurn realloc reads (readerAt reads k) = .done ⟨none, bytes (log reads k)⟩ ∨
      reads k ≠ .eof ∧ heard (log reads (k + 1)) = heard (log reads k) ∧
        fdTurn realloc reads (readerAt reads k) = .next (readerAt reads (k + 1)) ∨
      reads k ≠ .eof ∧ ∃ c, heard (log reads (k + 1)) = heard (log reads k) ++ [c] ∧
        fdTurn realloc reads (readerAt reads k) = process realloc
          { view (heard (log reads k)) (k + 1) (bytes (log reads (k + 1))) with c := c } := by
  have hcalls : (readerAt reads k).calls = k := rfl
  unfold fdTurn
  rw [hcalls]
  by_cases heof : reads k = .eof
  · have hopen : ¬ ((readerAt reads k).begun ∧ (readerAt reads k).level = 0) :=
      fun hand => hg.opened ⟨of_decide_eq_true hand.1, hand.2⟩
    rw [if_pos heof, if_neg hopen]
    exact .inl ⟨heof, rfl⟩
  · rw [if_neg heof]
    rcases received_readerAt reads k with ⟨hnone, hheard, hbytes⟩ | ⟨-, c, hheard, hsome⟩
    · rw [hnone]
      refine .inr (.inl ⟨heof, hheard, ?_⟩)
      unfold readerAt
      rw [hheard, hbytes]
      rfl
    · rw [hsome]
      exact .inr (.inr ⟨heof, c, hheard, rfl⟩)

theorem Passes.goes (h : Passes realloc cs) : Goes realloc cs := h cs (List.prefix_refl cs)

theorem passes_nil (realloc : ℤ → Bool) : Passes realloc [] := by
  intro bs hbs
  rw [List.prefix_nil.mp hbs]
  exact goes_nil realloc

theorem Passes.mono (h : Passes realloc cs) (hbs : bs <+: cs) : Passes realloc bs :=
  fun as has => h as (has.trans hbs)

theorem passes_append :
    Passes realloc (cs ++ [c]) ↔ Passes realloc cs ∧ Goes realloc (cs ++ [c]) := by
  constructor
  · intro h
    exact ⟨h.mono (List.prefix_append cs [c]), h.goes⟩
  · rintro ⟨hp, hg⟩ bs hbs
    rcases List.prefix_concat_iff.mp hbs with rfl | hbs
    · exact hg
    · exact hp bs hbs

theorem Stops.not_goes (h : Stops realloc cs) : ¬ Goes realloc cs := by
  intro hg
  rcases h.ends with hmem | ⟨-, hclosed⟩
  · exact hg.memory hmem
  · exact hg.opened hclosed

/-- The turns before the `k`-th all go on. -/
def GetsTo (realloc : ℤ → Bool) (reads : ℕ → ReadResult) (k : ℕ) : Prop :=
  (∀ j < k, reads j ≠ .eof) ∧ Passes realloc (heard (log reads k))

/-- What the loop ends with in the `k`-th turn. -/
def EndsWith (realloc : ℤ → Bool) (reads : ℕ → ReadResult) (k : ℕ) (o : Outcome) : Prop :=
  reads k = .eof ∧ o = ⟨none, bytes (log reads k)⟩ ∨
    reads k ≠ .eof ∧ Stops realloc (heard (log reads (k + 1))) ∧
      o = ⟨result realloc (heard (log reads (k + 1))), bytes (log reads (k + 1))⟩

theorem fdTurn_goes (hg : Goes realloc (heard (log reads k))) (hread : reads k ≠ .eof)
    (hg' : Goes realloc (heard (log reads (k + 1)))) :
    fdTurn realloc reads (readerAt reads k) = .next (readerAt reads (k + 1)) := by
  rcases fdTurn_readerAt hg with ⟨heof, -⟩ | ⟨-, -, hturn⟩ | ⟨-, c, hheard, hturn⟩
  · exact absurd heof hread
  · exact hturn
  · unfold readerAt
    rw [hheard] at hg' ⊢
    rw [← process_goes hg hg']
    exact hturn

/-- The three ways of a turn. -/
theorem fdTurn_cases (hp : Passes realloc (heard (log reads k))) :
    fdTurn realloc reads (readerAt reads k) = .next (readerAt reads (k + 1)) ∧ reads k ≠ .eof ∧
        Passes realloc (heard (log reads (k + 1))) ∨
      (∃ o, fdTurn realloc reads (readerAt reads k) = .done o ∧ EndsWith realloc reads k o) ∨
      fdTurn realloc reads (readerAt reads k) = .undefined := by
  rcases fdTurn_readerAt hp.goes with ⟨heof, hturn⟩ | ⟨hread, hsame, hturn⟩
    | ⟨hread, c, hheard, hturn⟩
  · exact .inr (.inl ⟨_, hturn, .inl ⟨heof, rfl⟩⟩)
  · refine .inl ⟨hturn, hread, ?_⟩
    rw [hsame]
    exact hp
  · rcases process_cases hp.goes c (k + 1) (bytes (log reads (k + 1))) with hg | hs | hundef
    · rw [hheard]
      exact .inl ⟨fdTurn_goes hp.goes hread (hheard ▸ hg), hread, passes_append.mpr ⟨hp, hg⟩⟩
    · refine .inr (.inl ⟨_, hturn.trans (process_stops hp.goes hs), .inr ⟨hread, ?_⟩⟩)
      rw [hheard]
      exact ⟨hs, rfl⟩
    · exact .inr (.inr (hturn.trans hundef))

/-- A turn that ends the loop has one result, and does not go on. -/
theorem endsWith_iff (hp : Passes realloc (heard (log reads k))) {o : Outcome} :
    fdTurn realloc reads (readerAt reads k) = .done o ↔ EndsWith realloc reads k o := by
  constructor
  · intro hdone
    rcases fdTurn_cases hp with ⟨hturn, -⟩ | ⟨o', hturn, ho'⟩ | hturn
    · cases hdone.symm.trans hturn
    · cases hdone.symm.trans hturn
      exact ho'
    · cases hdone.symm.trans hturn
  · rintro (⟨heof, rfl⟩ | ⟨hread, hs, rfl⟩)
    · rcases fdTurn_readerAt hp.goes with ⟨-, hturn⟩ | ⟨hread, -⟩ | ⟨hread, -⟩
      · exact hturn
      · exact absurd heof hread
      · exact absurd heof hread
    · rcases fdTurn_readerAt hp.goes with ⟨heof, -⟩ | ⟨-, hsame, -⟩ | ⟨-, c, hheard, hturn⟩
      · exact absurd heof hread
      · exact absurd (hsame ▸ hp.goes) hs.not_goes
      · rw [hheard] at hs ⊢
        exact hturn.trans (process_stops hp.goes hs)

/-- **Run lemma**: which turns are made. -/
theorem getsTo_iff :
    (∀ j < k, fdTurn realloc reads (readerAt reads j) = .next (readerAt reads (j + 1))) ↔
      GetsTo realloc reads k := by
  induction k with
  | zero => exact ⟨fun _ => ⟨nofun, passes_nil realloc⟩, fun _ => nofun⟩
  | succ k ih =>
    constructor
    · intro hturns
      obtain ⟨hread, hp⟩ := ih.mp fun j hj => hturns j (Nat.lt_succ_of_lt hj)
      have hlast := hturns k (Nat.lt_succ_self k)
      rcases fdTurn_cases hp with ⟨-, hlive, hp'⟩ | ⟨o, hturn, -⟩ | hturn
      · refine ⟨fun j hj => ?_, hp'⟩
        rcases Nat.lt_or_eq_of_le (Nat.le_of_lt_succ hj) with hlt | rfl
        · exact hread j hlt
        · exact hlive
      · cases hlast.symm.trans hturn
      · cases hlast.symm.trans hturn
    · rintro ⟨hread, hp'⟩ j hj
      have hp := hp'.mono (heard_mono reads (Nat.le_succ k))
      rcases Nat.lt_or_eq_of_le (Nat.le_of_lt_succ hj) with hlt | rfl
      · exact ih.mpr ⟨fun i hi => hread i (Nat.lt_succ_of_lt hi), hp⟩ j hlt
      · exact fdTurn_goes hp.goes (hread j hj) hp'.goes

/-- A turn that goes on goes to the next variables. -/
theorem fdTurn_next (j : ℕ)
    (hbefore : ∀ i < j, fdTurn realloc reads (readerAt reads i) = .next (readerAt reads (i + 1)))
    (s : Reader) (hs : fdTurn realloc reads (readerAt reads j) = .next s) :
    s = readerAt reads (j + 1) := by
  rcases fdTurn_cases (getsTo_iff.mp hbefore).2 with ⟨hturn, -⟩ | ⟨o, hturn, -⟩ | hturn
  · cases hs.symm.trans hturn
    rfl
  · cases hs.symm.trans hturn
  · cases hs.symm.trans hturn

/-- **How the loop ends**. -/
theorem ends_iff {o : Outcome} : Loop.Ends (fdTurn realloc reads) start o ↔
    ∃ k, GetsTo realloc reads k ∧ EndsWith realloc reads k o := by
  rw [start_eq reads]
  refine (Loop.ends_iff (f := readerAt reads) fdTurn_next).trans (exists_congr fun k => ?_)
  rw [getsTo_iff]
  exact and_congr_right fun hgets => endsWith_iff hgets.2

/-- **The states of the loop**. -/
theorem reaches_iff {s : Reader} : Loop.Reaches (fdTurn realloc reads) start s ↔
    ∃ k, s = readerAt reads k ∧ GetsTo realloc reads k := by
  rw [start_eq reads]
  refine (Loop.reaches_iff (f := readerAt reads) fdTurn_next).trans (exists_congr fun k => ?_)
  rw [getsTo_iff]

end FdParse

end Dungeon

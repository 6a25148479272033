import Mathlib.Data.List.Find
import Mathlib.Data.List.GetD
import Mathlib.Data.List.TakeWhile
import Dungeon.Hasht
import Dungeon.Lib.Machine

/-!
# The server state dictionary (`ds_state_dict.c`)

Records of servers in a hash table, by host name. The table is made by the first call that
needs it and torn down by `server_state_destroy`.

- `ServerInfo`, `ServerState`, `StateDict`: the records, and the module's static state with
  the heap its records live in. A call that follows a `NULL` table has no result.
- `Book`: what the dictionary is for: a map from host names to the record of the earliest
  addition, with the state and the address set last.
- `dictRuns`: all call sequences, with the book kept alongside.
- `Sound`: the calls the code is good for. No call but another `server_state_destroy` may
  follow one that tore down a table, since the flag `inited` stays up; and a host name that is
  new has to fill the rest of its array with zeros, since the lookups compare all of it.
- `dict_is_map`: along such calls the dictionary is the map. `table_gone` and `host_lost` are
  runs with one other call.
-/

namespace Dungeon

variable {P A : Type}

/-! ## A table nothing is deleted from -/

namespace Hasht

/-- The table holds the items `adds`, oldest first, and every bucket those of its hash in
this order. -/
structure Ordered (mem : Memory P) (key : HashKey) (t : Hasht P) (adds : List P) : Prop where
  nrBuckets_pos : 0 < t.nrBuckets
  count : t.nrNodes = adds.length
  layout : ∀ i, ∃ n, (t.bucket i).node
    = ((adds.filter fun p => t.hash mem key p = i).map fun p => some ⟨i, key, p⟩)
      ++ List.replicate n none

variable {t : Hasht P} {mem mem' : Memory P} {key : HashKey} {adds : List P} {data : P}

theorem ordered_hashtNew {func : Option (List UInt8 → UInt32)} {volume : ℤ}
    (hnew : hashtNew P func volume = some t) : t.Ordered mem key [] := by
  have hwf : t.Wf mem key := (wf_hashtNew hnew).1
  refine ⟨hwf.nrBuckets_pos, ?_, fun i => ⟨0, ?_⟩⟩
  all_goals
    unfold hashtNew at hnew
    split at hnew
    next => cases hnew
    next =>
      obtain rfl := Option.some.inj hnew
      rfl

/-- Only the key bytes of the items matter. -/
theorem Ordered.remember (ho : t.Ordered mem key adds)
    (hkeys : ∀ p ∈ adds, keyBytes mem' key p = keyBytes mem key p) :
    t.Ordered mem' key adds where
  nrBuckets_pos := ho.nrBuckets_pos
  count := ho.count
  layout i := by
    obtain ⟨n, hn⟩ := ho.layout i
    refine ⟨n, hn.trans ?_⟩
    congr 2
    refine List.filter_congr fun p hp => ?_
    unfold hash
    rw [hkeys p hp]

/-- The slots of a bucket, as those of its nodes. -/
theorem Ordered.layout_map (ho : t.Ordered mem key adds) (i : ℕ) : ∃ n, (t.bucket i).node
    = ((adds.filter fun p => t.hash mem key p = i).map fun p => (⟨i, key, p⟩ : HashNode P)).map
      some ++ List.replicate n none := by
  obtain ⟨n, hn⟩ := ho.layout i
  refine ⟨n, hn.trans ?_⟩
  rw [List.map_map]
  rfl

/-- A search finds the oldest item with the probe's key. -/
theorem Ordered.findItem (ho : t.Ordered mem key adds) (data : P) :
    hashtFindItem t mem key data
      = adds.find? fun p => keyBytes mem key p = keyBytes mem key data := by
  obtain ⟨n, hn⟩ := ho.layout_map (t.hash mem key data)
  have hentries := Slots.findSlot_entries (nodeMatches mem key data)
    (t.bucket (t.hash mem key data)).node
  rw [hn, Slots.entries_append_replicate, Slots.entries_map_some, List.find?_map,
    List.find?_filter, ← hn] at hentries
  have hfind : hashtFindItem t mem key data
      = ((hashtFindNode t mem key data).map Prod.snd).map HashNode.value := by
    rw [Option.map_map]
    rfl
  rw [hfind, hashtFindNode, hentries, Option.map_map]
  -- an item with the probe's key lies in the bucket of the probe
  have hsame (p : P) : (decide (t.hash mem key p = t.hash mem key data) = true ∧
      nodeMatches mem key data ⟨t.hash mem key data, key, p⟩ = true)
      ↔ keyBytes mem key p = keyBytes mem key data := by
    have hmatch : nodeMatches mem key data ⟨t.hash mem key data, key, p⟩ = true
        ↔ keyBytes mem key p = keyBytes mem key data := nodeMatches_iff rfl
    rw [decide_eq_true_iff, hmatch]
    exact and_iff_right_of_imp hash_congr
  simp only [Function.comp_apply, hsame]
  exact congrFun Option.map_id _

/-- The free position of a bucket filled from the front lies behind its nodes. -/
theorem getFreePos_dense {b : Bucket P} {nds : List (HashNode P)} {n : ℕ}
    (hb : b.node = nds.map some ++ List.replicate n none) (hsmall : nds.length < 2 ^ 30) :
    ∃ m, bucketGetFreePos b true
      = some (nds.length, { b with node := nds.map some ++ List.replicate (m + 1) none }) := by
  unfold bucketGetFreePos
  split
  next hempty =>
    rw [hempty] at hb
    obtain ⟨hnil, -⟩ := List.append_eq_nil_iff.mp hb.symm
    obtain rfl := List.map_eq_nil_iff.mp hnil
    exact ⟨1023, rfl⟩
  next =>
    rw [hb, Slots.freeSlot_dense]
    cases n with
    | zero =>
      rw [if_pos rfl, List.replicate_zero, List.append_nil, List.length_map]
      dsimp only
      have hgrown : nds.length + bucketGrowth nds.length < 2 ^ 31 := by
        unfold bucketGrowth
        omega
      rw [if_pos ⟨rfl, hgrown⟩]
      exact ⟨_, rfl⟩
    | succ n =>
      rw [if_neg (Nat.succ_ne_zero n)]
      refine ⟨n, ?_⟩
      dsimp only
      rw [← hb]

/-- Adding with room puts the item behind the others. -/
theorem Ordered.addItem (ho : t.Ordered mem key adds) (hroom : t.nrNodes < t.volume)
    (hsmall : t.volume < 2 ^ 30) (data : P) :
    (hashtAddItem t mem key data true).1 = 0 ∧
      (hashtAddItem t mem key data true).2.Ordered mem key (adds ++ [data]) ∧
      (hashtAddItem t mem key data true).2.volume = t.volume := by
  generalize hi : t.hash mem key data = i
  obtain ⟨n, hn⟩ := ho.layout_map i
  have hlen : ((adds.filter fun p => t.hash mem key p = i).map fun p =>
      (⟨i, key, p⟩ : HashNode P)).length < 2 ^ 30 := by
    have hfilter := List.length_filter_le (fun p => decide (t.hash mem key p = i)) adds
    have hcount := ho.count
    rw [List.length_map]
    omega
  obtain ⟨m, hpos⟩ := getFreePos_dense hn hlen
  have hmore : ((adds ++ [data]).filter fun p => t.hash mem key p = i)
      = (adds.filter fun p => t.hash mem key p = i) ++ [data] := by
    rw [List.filter_append, List.filter_singleton, hi, decide_eq_true rfl]
    rfl
  have hadd : hashtAddItem t mem key data true
      = (0, { t.setBucket i
          { node := (((adds ++ [data]).filter fun p => t.hash mem key p = i).map fun p =>
              some (⟨i, key, p⟩ : HashNode P)) ++ List.replicate m none
            nrNodes := (t.bucket i).nrNodes + 1 } with
          nrNodes := t.nrNodes + 1 }) := by
    unfold hashtAddItem
    rw [if_neg (not_le.mpr hroom), hi]
    dsimp only
    rw [hpos]
    dsimp only
    rw [Slots.set_dense, hmore]
    simp only [List.map_append, List.map_map, List.map_cons, List.map_nil]
    rfl
  rw [hadd]
  refine ⟨rfl, ⟨ho.nrBuckets_pos, ?_, fun j => ?_⟩, rfl⟩
  · show t.nrNodes + 1 = (adds ++ [data]).length
    rw [List.length_append, List.length_singleton, ho.count]
    push_cast
    rfl
  · show ∃ n, (Function.update t.bucket i _ j).node
      = (((adds ++ [data]).filter fun p => t.hash mem key p = j).map fun p =>
        some (⟨j, key, p⟩ : HashNode P)) ++ List.replicate n none
    by_cases hji : j = i
    · subst hji
      rw [Function.update_self]
      exact ⟨m, rfl⟩
    · rw [Function.update_of_ne hji]
      obtain ⟨k, hk⟩ := ho.layout j
      refine ⟨k, ?_⟩
      have hne : ¬ t.hash mem key data = j := by
        rw [hi]
        exact Ne.symm hji
      rw [hk, List.filter_append, List.filter_singleton, decide_eq_false hne]
      simp

end Hasht

/-! ## The dictionary -/

/-- `HOSTNAMESIZE`. -/
def hostnameSize : ℕ := 64

/-- `char hostname[HOSTNAMESIZE]`. -/
abbrev HostBuf := { l : List UInt8 // l.length = hostnameSize }

/-- A host name that fits the array with its terminating zero. -/
structure HostName where
  bytes : List UInt8
  noNul : 0 ∉ bytes
  short : bytes.length < hostnameSize
  deriving DecidableEq

/-- `server_info_t`; `A` is `struct sockaddr_in`. -/
structure ServerInfo (A : Type) where
  saddr : A
  hostname : HostBuf

/-- `struct server_state_st`, without the times, which stay zero. -/
structure ServerState (A : Type) where
  serverinfo : ServerInfo A
  currentState : ℤ
  concurrentCount : ℤ
  concurrentMax : ℤ

/-- What the table's pointers point to: a record, or the caller's structure on the stack. -/
inductive DictItem where
  | record (n : ℕ)
  | probe
  deriving DecidableEq

/-- The static state of the module and its records; `next` is the next one `malloc` gives. -/
structure StateDict (A : Type) where
  inited : Bool
  ht : Option (Hasht DictItem)
  heap : ℕ → Option (ServerState A)
  next : ℕ

/-- The state a program starts with. -/
def StateDict.start (A : Type) : StateDict A where
  inited := false
  ht := none
  heap := fun _ => none
  next := 0

/-- `hashkey`: where the host name lies in a `struct server_state_st`. -/
def dictKey : HashKey where
  offset := 16
  len := hostnameSize

/-- The host name array of a record. -/
def recordHost (heap : ℕ → Option (ServerState A)) (n : ℕ) : List UInt8 :=
  match heap n with
  | some st => st.serverinfo.hostname.1
  | none => []

/-- The host name array a pointer leads to. -/
def DictItem.host (heap : ℕ → Option (ServerState A)) (probe : HostBuf) : DictItem → List UInt8
  | .record n => recordHost heap n
  | .probe => probe.1

/-- Memory as far as the table looks at it. -/
def dictMemory (heap : ℕ → Option (ServerState A)) (probe : HostBuf) : Memory DictItem :=
  fun item offset => (item.host heap probe).getD (offset - dictKey.offset).toNat 0

/-- The array the lookups compare with: cleared, then `strncpy` of the name. -/
def paddedHost (h : HostName) : HostBuf :=
  ⟨h.bytes ++ List.replicate (hostnameSize - h.bytes.length) 0, by
    have hshort := h.short
    rw [List.length_append, List.length_replicate]
    omega⟩

/-- `server_state_init`. -/
def serverStateInit (d : StateDict A) : StateDict A :=
  { d with ht := hashtNew DictItem none 10000, inited := true }

/-- `if (!inited) server_state_init();` -/
def serverStateReady (d : StateDict A) : StateDict A :=
  if d.inited then d else serverStateInit d

/-- `server_state_destroy`: the table goes with its records, the flag stays. -/
def serverStateDestroy (d : StateDict A) : ℤ × StateDict A :=
  match d.ht with
  | none => (0, d)
  | some _ => (0, { d with ht := none })

/-- `server_state_add_default`; `none` where it uses a `NULL` table. `alloc` is the outcome
of the allocation in the table. -/
def serverStateAddDefault (d : StateDict A) (s : ServerInfo A) (state : ℤ) (alloc : Bool) :
    Option (ℤ × StateDict A) :=
  let d := serverStateReady d
  let item : ServerState A :=
    { serverinfo := s, currentState := state, concurrentCount := 0, concurrentMax := 100000 }
  let heap := Function.update d.heap d.next (some item)
  match d.ht with
  | none => none
  | some ht =>
    let r := hashtAddItem ht (dictMemory heap s.hostname) dictKey (.record d.next) alloc
    if r.1 ≠ 0 then some (-1, d)
    else some (0, { d with ht := some r.2, heap := heap, next := d.next + 1 })

/-- A callback that changes the record it is given. -/
def modifyRecord (f : ServerState A → ServerState A) :
    DictItem → (ℕ → Option (ServerState A)) → (ℕ → Option (ServerState A))
  | .record n, heap => Function.update heap n ((heap n).map f)
  | .probe, heap => heap

/-- What `server_state_set_state` and `server_state_set_addr` share. -/
def serverStateModify (d : StateDict A) (hostname : HostName)
    (f : ServerState A → ServerState A) : Option (ℤ × StateDict A) :=
  let d := serverStateReady d
  match d.ht with
  | none => none
  | some ht =>
    let r := hashtModifyItem ht (dictMemory d.heap (paddedHost hostname)) dictKey .probe
      (modifyRecord f) d.heap
    if r.1 = -1 then some (-1, d) else some (0, { d with heap := r.2 })

/-- `server_state_set_state`. -/
def serverStateSetState (d : StateDict A) (hostname : HostName) (state : ℤ) :
    Option (ℤ × StateDict A) :=
  serverStateModify d hostname fun st => { st with currentState := state }

/-- `server_state_set_addr`. -/
def serverStateSetAddr (d : StateDict A) (hostname : HostName) (sa : A) :
    Option (ℤ × StateDict A) :=
  serverStateModify d hostname fun st =>
    { st with serverinfo := { st.serverinfo with saddr := sa } }

/-- `server_state_get`: the pointer returned, if the call returns. -/
def serverStateGet (d : StateDict A) (hostname : HostName) : Option (Option DictItem) :=
  if d.inited then
    match d.ht with
    | none => none
    | some ht =>
      some (hashtFindItem ht (dictMemory d.heap (paddedHost hostname)) dictKey .probe)
  else some none

/-! ## What the dictionary is for -/

/-- What a host name stands for: the record, and what was set last. -/
structure Entry (A : Type) where
  item : ℕ
  saddr : A
  state : ℤ

/-- A map from host names. -/
abbrev Book (A : Type) := List UInt8 → Option (Entry A)

namespace Book

/-- The earliest addition of a host counts. -/
def add (b : Book A) (host : List UInt8) (e : Entry A) : Book A :=
  if (b host).isNone then Function.update b host (some e) else b

/-- The entry of a host changes, if there is one. -/
def change (b : Book A) (host : List UInt8) (f : Entry A → Entry A) : Book A :=
  Function.update b host ((b host).map f)

end Book

/-! ## All call sequences -/

/-- The dictionary and the book kept alongside. -/
structure DictLog (A : Type) where
  dict : StateDict A
  book : Book A

/-- A call, with its arguments. -/
inductive DictCall (A : Type) where
  | add (s : ServerInfo A) (state : ℤ)
  | setState (h : HostName) (state : ℤ)
  | setAddr (h : HostName) (sa : A)
  | get (h : HostName)
  | destroy

/-- The host name in an array, up to the first zero. -/
def hostOf (buf : HostBuf) : List UInt8 := buf.1.takeWhile fun b => b ≠ 0

/-- One call; there is no next state when it uses a `NULL` table. -/
def DictLog.call (l : DictLog A) : DictCall A → Option (DictLog A)
  | .add s state => (serverStateAddDefault l.dict s state true).map fun r =>
    ⟨r.2, l.book.add (hostOf s.hostname) ⟨l.dict.next, s.saddr, state⟩⟩
  | .setState h state => (serverStateSetState l.dict h state).map fun r =>
    ⟨r.2, l.book.change h.bytes fun e => { e with state := state }⟩
  | .setAddr h sa => (serverStateSetAddr l.dict h sa).map fun r =>
    ⟨r.2, l.book.change h.bytes fun e => { e with saddr := sa }⟩
  | .get h => (serverStateGet l.dict h).map fun _ => l
  | .destroy => some ⟨(serverStateDestroy l.dict).2, fun _ => none⟩

/-- The call sequences of a program. -/
def dictRuns (A : Type) : Machine (DictLog A) (DictCall A) where
  init l := l = ⟨StateDict.start A, fun _ => none⟩
  step := DictLog.call

/-- The table has been torn down and the flag still says there is one. -/
def StateDict.Destroyed (d : StateDict A) : Prop := d.inited = true ∧ d.ht.isNone = true

/-- What the callers see to: an added host name ends in its array, and the table keeps
below its volume. -/
def Assumed (l : DictLog A) : DictCall A → Prop
  | .add s _ => 0 ∈ s.hostname.1 ∧ ∀ t ∈ l.dict.ht, t.nrNodes < 10000
  | .setState .. | .setAddr .. | .get _ | .destroy => True

/-- The rest of the array behind a host name is zero. -/
def ZeroFilled (buf : HostBuf) : Prop :=
  buf.1 = hostOf buf ++ List.replicate (hostnameSize - (hostOf buf).length) 0

instance (buf : HostBuf) : Decidable (ZeroFilled buf) :=
  inferInstanceAs (Decidable (_ = _))

/-- The calls the code is good for. -/
def Sound (l : DictLog A) : DictCall A → Prop
  | .add s _ => ¬ l.dict.Destroyed ∧
      ((l.book (hostOf s.hostname)).isNone = true → ZeroFilled s.hostname)
  | .setState .. | .setAddr .. | .get _ => ¬ l.dict.Destroyed
  | .destroy => True

instance (d : StateDict A) : Decidable d.Destroyed := inferInstanceAs (Decidable (_ ∧ _))

instance (l : DictLog A) : (c : DictCall A) → Decidable (Assumed l c)
  | .add s _ => inferInstanceAs (Decidable (0 ∈ s.hostname.1 ∧ ∀ t ∈ l.dict.ht, t.nrNodes < 10000))
  | .setState .. | .setAddr .. | .get _ | .destroy => isTrue trivial

instance (l : DictLog A) : (c : DictCall A) → Decidable (Sound l c)
  | .add s _ => inferInstanceAs (Decidable (¬ l.dict.Destroyed ∧
      ((l.book (hostOf s.hostname)).isNone = true → ZeroFilled s.hostname)))
  | .setState .. | .setAddr .. | .get _ => inferInstanceAs (Decidable (¬ l.dict.Destroyed))
  | .destroy => isTrue trivial

/-! ## Host names and their arrays -/

theorem map_getD_range (l : List UInt8) :
    ((List.range l.length).map fun i => l.getD i 0) = l := by
  refine List.ext_getElem ?_ fun i h₁ h₂ => ?_
  · rw [List.length_map, List.length_range]
  · rw [List.getElem_map, List.getElem_range, List.getD_eq_getElem _ _ h₂]

/-- The key bytes the table reads are those of the array. -/
theorem keyBytes_dict {heap : ℕ → Option (ServerState A)} {probe : HostBuf} {item : DictItem}
    (hlen : (item.host heap probe).length = hostnameSize) :
    keyBytes (dictMemory heap probe) dictKey item = item.host heap probe := by
  unfold keyBytes bytesAt
  conv_rhs => rw [← map_getD_range (item.host heap probe), hlen]
  refine List.map_congr_left fun i _ => ?_
  show (item.host heap probe).getD ((16 : ℤ) + i - 16).toNat 0 = _
  rw [add_sub_cancel_left, Int.toNat_natCast]

theorem hostOf_padded (h : HostName) : hostOf (paddedHost h) = h.bytes := by
  have hshort := h.short
  obtain ⟨k, hk⟩ : ∃ k, hostnameSize - h.bytes.length = k + 1 :=
    ⟨hostnameSize - h.bytes.length - 1, by omega⟩
  show (h.bytes ++ List.replicate (hostnameSize - h.bytes.length) 0).takeWhile (fun b => b ≠ 0)
    = h.bytes
  rw [hk, List.replicate_succ, List.takeWhile_append_of_pos]
  · rw [List.takeWhile_cons_of_neg (by decide), List.append_nil]
  · intro b hb
    refine decide_eq_true ?_
    rintro rfl
    exact h.noNul hb

/-- Different hosts have different arrays. -/
theorem paddedHost_inj {h h' : HostName} (heq : (paddedHost h).1 = (paddedHost h').1) :
    h = h' := by
  have hbytes : h.bytes = h'.bytes := by
    rw [← hostOf_padded h, ← hostOf_padded h', Subtype.ext heq]
  cases h
  cases h'
  congr

theorem noNul_hostOf (buf : HostBuf) : 0 ∉ hostOf buf := by
  intro hmem
  have hne := List.mem_takeWhile_imp (p := fun b : UInt8 => decide (b ≠ 0)) hmem
  exact of_decide_eq_true hne rfl

/-- The name in an array that has a terminator. -/
def HostName.ofBuf (buf : HostBuf) (hnul : 0 ∈ buf.1) : HostName where
  bytes := hostOf buf
  noNul := noNul_hostOf buf
  short := by
    rw [← buf.2]
    refine lt_of_le_of_ne (List.takeWhile_prefix _).length_le fun heq => ?_
    have hall : hostOf buf = buf.1 := (List.takeWhile_prefix _).eq_of_length heq
    rw [← hall] at hnul
    exact noNul_hostOf buf hnul

/-! ## The table keeps the book -/

/-- What the book says of a record. -/
def entryOf (heap : ℕ → Option (ServerState A)) (n : ℕ) : Option (Entry A) :=
  (heap n).map fun st => ⟨n, st.serverinfo.saddr, st.currentState⟩

/-- The oldest record whose array is that of a host. -/
def oldest (heap : ℕ → Option (ServerState A)) (adds : List ℕ) (h : HostName) : Option ℕ :=
  adds.find? fun n => recordHost heap n = (paddedHost h).1

/-- The table holds the records `adds`, oldest first. -/
structure StateDict.Holds (d : StateDict A) (t : Hasht DictItem) (adds : List ℕ) : Prop where
  inited : d.inited = true
  ht : d.ht = some t
  volume : t.volume = 10000
  ordered : ∀ probe, t.Ordered (dictMemory d.heap probe) dictKey (adds.map .record)
  live : ∀ n ∈ adds, n < d.next ∧ (d.heap n).isSome = true

/-- The book tells the oldest record of each host. -/
def Tells (heap : ℕ → Option (ServerState A)) (adds : List ℕ) (b : Book A) : Prop :=
  ∀ h : HostName, b h.bytes = (oldest heap adds h).bind (entryOf heap)

/-- Without a table the book is empty; otherwise it tells what the table holds. -/
def DictLog.Faithful (l : DictLog A) : Prop :=
  match l.dict.ht with
  | none => l.book = fun _ => none
  | some t => ∃ adds, l.dict.Holds t adds ∧ Tells l.dict.heap adds l.book

variable {l l' : DictLog A} {d : StateDict A} {b : Book A} {heap : ℕ → Option (ServerState A)}
  {t : Hasht DictItem} {adds : List ℕ}

theorem DictLog.faithful_of_holds (hh : l.dict.Holds t adds)
    (hb : Tells l.dict.heap adds l.book) : l.Faithful := by
  unfold Faithful
  rw [hh.ht]
  exact ⟨adds, hh, hb⟩

/-- A call that finds no destroyed table works on one, if need be on a new one. -/
theorem DictLog.Faithful.ready (hf : l.Faithful) (hnd : ¬ l.dict.Destroyed) :
    ∃ t adds, (serverStateReady l.dict).Holds t adds ∧ Tells l.dict.heap adds l.book ∧
      (l.dict.ht = some t ∨ t.nrNodes = 0) ∧ (serverStateReady l.dict).heap = l.dict.heap ∧
      (serverStateReady l.dict).next = l.dict.next := by
  unfold Faithful at hf
  split at hf
  next hnone =>
    have hinit : l.dict.inited = false := by
      cases hi : l.dict.inited with
      | false => rfl
      | true => exact absurd ⟨hi, by rw [hnone]; rfl⟩ hnd
    have hready : serverStateReady l.dict = serverStateInit l.dict := by
      unfold serverStateReady
      rw [hinit]
      rfl
    have hnew : hashtNew DictItem none 10000
        = some ((hashtNew DictItem none 10000).get rfl) := rfl
    rw [hready]
    refine ⟨(hashtNew DictItem none 10000).get rfl, [], ?_, fun h => ?_, .inr rfl, rfl, rfl⟩
    · exact ⟨rfl, hnew, rfl, fun probe => Hasht.ordered_hashtNew hnew, nofun⟩
    · rw [hf]
      rfl
  next t ht =>
    obtain ⟨adds, hh, hb⟩ := hf
    have hready : serverStateReady l.dict = l.dict := by
      unfold serverStateReady
      rw [hh.inited]
      rfl
    rw [hready]
    exact ⟨t, adds, hh, hb, .inl ht, rfl, rfl⟩

theorem recordHost_of {n : ℕ} {st : ServerState A} (h : heap n = some st) :
    recordHost heap n = st.serverinfo.hostname.1 := by
  unfold recordHost
  rw [h]

/-- A lookup finds the oldest record of the host. -/
theorem StateDict.Holds.findItem (hh : d.Holds t adds) (h : HostName) :
    hashtFindItem t (dictMemory d.heap (paddedHost h)) dictKey .probe
      = (oldest d.heap adds h).map .record := by
  rw [(hh.ordered (paddedHost h)).findItem, List.find?_map]
  congr 1
  refine List.find?_congr fun n hn => ?_
  obtain ⟨st, hst⟩ := Option.isSome_iff_exists.mp (hh.live n hn).2
  have hrecord : keyBytes (dictMemory d.heap (paddedHost h)) dictKey (.record n)
      = recordHost d.heap n := by
    refine keyBytes_dict ?_
    show (recordHost d.heap n).length = hostnameSize
    rw [recordHost_of hst]
    exact st.serverinfo.hostname.2
  have hprobe : keyBytes (dictMemory d.heap (paddedHost h)) dictKey .probe
      = (paddedHost h).1 :=
    keyBytes_dict (show (DictItem.probe.host _ _).length = _ from (paddedHost h).2)
  rw [Function.comp_apply, hrecord, hprobe]

/-- What a found record is. -/
theorem StateDict.Holds.oldest_some (hh : d.Holds t adds) {h : HostName} {n : ℕ}
    (hold : oldest d.heap adds h = some n) :
    n ∈ adds ∧ ∃ st, d.heap n = some st ∧ st.serverinfo.hostname = paddedHost h := by
  have hmem : n ∈ adds := List.mem_of_find?_eq_some hold
  have hfound : decide (recordHost d.heap n = (paddedHost h).1) = true :=
    List.find?_some (p := fun n => decide (recordHost d.heap n = (paddedHost h).1)) hold
  obtain ⟨st, hst⟩ := Option.isSome_iff_exists.mp (hh.live n hmem).2
  have hhost := of_decide_eq_true hfound
  rw [recordHost_of hst] at hhost
  exact ⟨hmem, st, hst, Subtype.ext hhost⟩

/-- The table stays in order as long as the records keep their host names. -/
theorem StateDict.Holds.ordered_of_hosts (hh : d.Holds t adds)
    (hhost : ∀ m ∈ adds, recordHost heap m = recordHost d.heap m) (probe : HostBuf) :
    t.Ordered (dictMemory heap probe) dictKey (adds.map .record) := by
  refine (hh.ordered probe).remember fun p hp => ?_
  obtain ⟨m, hm, rfl⟩ := List.mem_map.mp hp
  unfold keyBytes bytesAt
  refine List.map_congr_left fun i _ => ?_
  show (recordHost heap m).getD _ 0 = (recordHost d.heap m).getD _ 0
  rw [hhost m hm]

/-! ## Changing a record -/

/-- A change of a record that keeps its host name, and what it does to the book. -/
structure Keeping (f : ServerState A → ServerState A) (g : Entry A → Entry A) : Prop where
  hostname : ∀ st, (f st).serverinfo.hostname = st.serverinfo.hostname
  entry : ∀ n st, (⟨n, (f st).serverinfo.saddr, (f st).currentState⟩ : Entry A)
    = g ⟨n, st.serverinfo.saddr, st.currentState⟩

theorem keeping_state (state : ℤ) : Keeping
    (fun st : ServerState A => { st with currentState := state })
    (fun e => { e with state := state }) := ⟨fun _ => rfl, fun _ _ => rfl⟩

theorem keeping_addr (sa : A) : Keeping
    (fun st : ServerState A => { st with serverinfo := { st.serverinfo with saddr := sa } })
    (fun e => { e with saddr := sa }) := ⟨fun _ => rfl, fun _ _ => rfl⟩

variable {f : ServerState A → ServerState A} {g : Entry A → Entry A}

theorem Keeping.recordHost (hk : Keeping f g) {n : ℕ} {st : ServerState A}
    (hst : heap n = some st) (m : ℕ) :
    recordHost (Function.update heap n (some (f st))) m = recordHost heap m := by
  by_cases hm : m = n
  · subst hm
    rw [recordHost_of hst, recordHost_of (Function.update_self ..), hk.hostname]
  · unfold Dungeon.recordHost
    rw [Function.update_of_ne hm]

/-- Host names stay, so the table does not notice. -/
theorem Keeping.holds (hk : Keeping f g) (hh : d.Holds t adds) {n : ℕ} {st : ServerState A}
    (hst : d.heap n = some st) :
    StateDict.Holds { d with heap := Function.update d.heap n (some (f st)) } t adds where
  inited := hh.inited
  ht := hh.ht
  volume := hh.volume
  ordered probe := hh.ordered_of_hosts (fun m _ => hk.recordHost hst m) probe
  live m hm := by
    refine ⟨(hh.live m hm).1, ?_⟩
    show (Function.update d.heap n (some (f st)) m).isSome = true
    by_cases hmn : m = n
    · rw [hmn, Function.update_self]
      rfl
    · rw [Function.update_of_ne hmn]
      exact (hh.live m hm).2

/-- The book changes with the record of its host. -/
theorem Keeping.tells (hk : Keeping f g) (hb : Tells heap adds b) {h : HostName} {n : ℕ}
    {st : ServerState A} (hold : oldest heap adds h = some n) (hst : heap n = some st)
    (hhost : st.serverinfo.hostname = paddedHost h) :
    Tells (Function.update heap n (some (f st))) adds (b.change h.bytes g) := by
  intro h'
  have hsame : oldest (Function.update heap n (some (f st))) adds h' = oldest heap adds h' := by
    unfold oldest
    refine List.find?_congr fun m _ => ?_
    rw [hk.recordHost hst]
  rw [hsame]
  by_cases hbytes : h'.bytes = h.bytes
  · obtain rfl : h' = h := by
      cases h'
      cases h
      congr
    rw [Book.change, Function.update_self, hb, hold, Option.bind_some, Option.bind_some,
      entryOf, entryOf, Function.update_self, hst, Option.map_some, Option.map_some,
      Option.map_some, hk.entry]
  · rw [Book.change, Function.update_of_ne hbytes, hb]
    refine Option.bind_congr fun m hm => ?_
    have hmn : m ≠ n := by
      rintro rfl
      -- one record is not the one of two hosts
      have hfound := List.find?_some
        (p := fun n => decide (Dungeon.recordHost heap n = (paddedHost h').1)) hm
      have hother := of_decide_eq_true hfound
      rw [recordHost_of hst, hhost] at hother
      rw [paddedHost_inj hother] at hbytes
      exact hbytes rfl
    rw [entryOf, entryOf, Function.update_of_ne hmn]

/-- Setting something for a host fails without a change when the host is absent, and
otherwise changes its oldest record. -/
theorem StateDict.Holds.modify (hh : (serverStateReady d).Holds t adds) (h : HostName)
    (f : ServerState A → ServerState A) :
    (oldest (serverStateReady d).heap adds h = none ∧
      serverStateModify d h f = some (-1, serverStateReady d)) ∨
    ∃ n st, oldest (serverStateReady d).heap adds h = some n ∧
      (serverStateReady d).heap n = some st ∧ st.serverinfo.hostname = paddedHost h ∧
      serverStateModify d h f = some (0, { serverStateReady d with
        heap := Function.update (serverStateReady d).heap n (some (f st)) }) := by
  have hmodify := Hasht.modifyItem_eq t
    (dictMemory (serverStateReady d).heap (paddedHost h)) dictKey .probe (modifyRecord f)
    (serverStateReady d).heap
  rw [hh.findItem] at hmodify
  unfold serverStateModify
  dsimp only
  rw [hh.ht]
  dsimp only
  rw [hmodify]
  cases hold : oldest (serverStateReady d).heap adds h with
  | none => exact .inl ⟨rfl, rfl⟩
  | some n =>
    obtain ⟨-, st, hst, hhost⟩ := hh.oldest_some hold
    refine .inr ⟨n, st, rfl, hst, hhost, ?_⟩
    have hheap : modifyRecord f (.record n) (serverStateReady d).heap
        = Function.update (serverStateReady d).heap n (some (f st)) := by
      unfold modifyRecord
      dsimp only
      rw [hst, Option.map_some]
    dsimp only [Option.map_some]
    rw [if_neg (show ¬(0 : ℤ) = -1 by decide), hheap]

/-! ## Adding a record -/

/-- Adding with room puts a record behind the others. -/
theorem StateDict.Holds.add (hh : (serverStateReady d).Holds t adds)
    (hroom : t.nrNodes < 10000) (s : ServerInfo A) (state : ℤ) :
    ∃ t' d', serverStateAddDefault d s state true = some (0, d') ∧
      d'.Holds t' (adds ++ [(serverStateReady d).next]) ∧
      d'.heap = Function.update (serverStateReady d).heap (serverStateReady d).next (some
        { serverinfo := s, currentState := state, concurrentCount := 0,
          concurrentMax := 100000 }) := by
  generalize hitem : (⟨s, state, 0, 100000⟩ : ServerState A) = item
  generalize hheap : Function.update (serverStateReady d).heap (serverStateReady d).next
    (some item) = heap
  have hold (m : ℕ) (hm : m ∈ adds) : heap m = (serverStateReady d).heap m := by
    rw [← hheap, Function.update_of_ne (hh.live m hm).1.ne]
  have hnew : heap (serverStateReady d).next = some item := by
    rw [← hheap, Function.update_self]
  -- the records stay where they are
  have hordered : t.Ordered (dictMemory heap s.hostname) dictKey (adds.map .record) := by
    refine hh.ordered_of_hosts (fun m hm => ?_) s.hostname
    unfold recordHost
    rw [hold m hm]
  obtain ⟨hcode, hmore, hvolume⟩ := hordered.addItem (hroom.trans_eq hh.volume.symm)
    (by rw [hh.volume]; decide) (.record (serverStateReady d).next)
  refine ⟨_, { serverStateReady d with
    ht := some (hashtAddItem t (dictMemory heap s.hostname) dictKey
      (.record (serverStateReady d).next) true).2
    heap := heap
    next := (serverStateReady d).next + 1 }, ?_, ⟨hh.inited, rfl, ?_, fun probe => ?_, ?_⟩, rfl⟩
  · unfold serverStateAddDefault
    dsimp only
    rw [hh.ht, hitem, hheap]
    dsimp only
    rw [if_neg (not_not.mpr hcode)]
  · rw [hvolume, hh.volume]
  · show Hasht.Ordered (dictMemory heap probe) dictKey _ ((adds ++ [_]).map .record)
    rw [List.map_append]
    refine hmore.remember fun p hp => ?_
    -- the table holds records only, whatever the caller's structure is
    obtain ⟨m, rfl⟩ : ∃ m, p = .record m := by
      rcases List.mem_append.mp hp with hp | hp
      · obtain ⟨m, -, rfl⟩ := List.mem_map.mp hp
        exact ⟨m, rfl⟩
      · exact ⟨_, List.mem_singleton.mp hp⟩
    rfl
  · intro m hm
    show m < (serverStateReady d).next + 1 ∧ (heap m).isSome = true
    rcases List.mem_append.mp hm with hm | hm
    · obtain ⟨hlt, hsome⟩ := hh.live m hm
      rw [hold m hm]
      exact ⟨by omega, hsome⟩
    · rw [List.mem_singleton.mp hm, hnew]
      exact ⟨by omega, rfl⟩

/-- Who is the oldest record of a host after an addition. -/
theorem StateDict.Holds.oldest_add (hh : d.Holds t adds) {item : ServerState A}
    (hheap : heap = Function.update d.heap d.next (some item)) (h : HostName) :
    oldest heap (adds ++ [d.next]) h = (oldest d.heap adds h).or
      (if item.serverinfo.hostname = paddedHost h then some d.next else none) := by
  have hold : oldest heap adds h = oldest d.heap adds h := by
    refine List.find?_congr fun m hm => ?_
    unfold recordHost
    rw [hheap, Function.update_of_ne (hh.live m hm).1.ne]
  have hnew : recordHost heap d.next = item.serverinfo.hostname.1 :=
    recordHost_of (by rw [hheap, Function.update_self])
  rw [← hold]
  unfold oldest
  rw [List.find?_append, List.find?_singleton, hnew]
  simp only [decide_eq_true_eq, Subtype.ext_iff]

theorem hostOf_eq_of_padded {buf : HostBuf} {h : HostName} (heq : buf = paddedHost h) :
    hostOf buf = h.bytes := by
  rw [heq, hostOf_padded]

theorem zeroFilled_iff {buf : HostBuf} {h : HostName} (hhost : hostOf buf = h.bytes) :
    ZeroFilled buf ↔ buf = paddedHost h := by
  unfold ZeroFilled
  rw [hhost, Subtype.ext_iff]
  rfl

/-- The book of an addition, when a host that is new fills its array with zeros. -/
theorem StateDict.Holds.tells_add (hh : d.Holds t adds) (hb : Tells d.heap adds b)
    {s : ServerInfo A} {state : ℤ}
    (hzero : (b (hostOf s.hostname)).isNone = true → ZeroFilled s.hostname)
    (hheap : heap = Function.update d.heap d.next (some
      { serverinfo := s, currentState := state, concurrentCount := 0,
        concurrentMax := 100000 })) :
    Tells heap (adds ++ [d.next])
      (b.add (hostOf s.hostname) ⟨d.next, s.saddr, state⟩) := by
  -- what the book says of a record that was there stays
  have hkept (h : HostName) (n : ℕ) (hn : oldest d.heap adds h = some n) :
      entryOf heap n = b h.bytes := by
    rw [hb, hn, Option.bind_some, entryOf, entryOf, hheap,
      Function.update_of_ne (hh.live n (hh.oldest_some hn).1).1.ne]
  intro h
  rw [hh.oldest_add hheap]
  unfold Book.add
  cases hn : oldest d.heap adds h with
  | some n =>
    have hbook := hkept h n hn
    have hsome : (b h.bytes).isSome = true := by
      obtain ⟨-, st, hst, -⟩ := hh.oldest_some hn
      rw [hb, hn, Option.bind_some, entryOf, hst]
      rfl
    rw [Option.some_or, Option.bind_some, hbook]
    split
    next hnone =>
      rw [Function.update_of_ne]
      intro heq
      rw [heq, Option.isNone_iff_eq_none.mp hnone] at hsome
      cases hsome
    next => rfl
  | none =>
    have hnone : b h.bytes = none := by
      rw [hb, hn]
      rfl
    rw [Option.none_or]
    by_cases hhost : h.bytes = hostOf s.hostname
    · rw [← hhost, hnone] at hzero
      have hpad := (zeroFilled_iff hhost.symm).mp (hzero rfl)
      rw [← hhost, hnone, if_pos Option.isNone_none, Function.update_self, if_pos hpad,
        Option.bind_some, entryOf, hheap, Function.update_self]
      rfl
    · have hpad : s.hostname ≠ paddedHost h := fun heq =>
        hhost (hostOf_eq_of_padded heq).symm
      rw [if_neg hpad]
      split
      · rw [Function.update_of_ne hhost, hnone]
        rfl
      · exact hnone

/-! ## Runs -/

/-- Setting something for a host keeps table and book together. -/
theorem DictLog.Faithful.modify (hf : l.Faithful) (hnd : ¬ l.dict.Destroyed) (hk : Keeping f g)
    (h : HostName) :
    ∃ code d', serverStateModify l.dict h f = some (code, d') ∧
      (code = -1 ↔ l.book h.bytes = none) ∧
      (∀ n, recordHost l.dict.heap n ≠ (paddedHost h).1 → d'.heap n = l.dict.heap n) ∧
      DictLog.Faithful ⟨d', l.book.change h.bytes g⟩ := by
  obtain ⟨t, adds, hh, hb, -, hheap, -⟩ := hf.ready hnd
  rw [← hheap] at hb ⊢
  have hbook := hb h
  rcases hh.modify h f with ⟨hold, hret⟩ | ⟨n, st, hold, hst, hhost, hret⟩
  · rw [hold] at hbook
    have hsame : l.book.change h.bytes g = l.book := by
      unfold Book.change
      rw [hbook]
      exact Function.update_eq_self_iff.mpr hbook.symm
    refine ⟨-1, _, hret, iff_of_true rfl hbook, fun _ _ => rfl, ?_⟩
    rw [hsame]
    exact faithful_of_holds (l := ⟨serverStateReady l.dict, l.book⟩) hh hb
  · rw [hold, Option.bind_some, entryOf, hst] at hbook
    refine ⟨0, _, hret, iff_of_false (by decide) ?_, fun m hm => ?_, ?_⟩
    · rw [hbook]
      exact Option.some_ne_none _
    · refine Function.update_of_ne ?_ _ _
      rintro rfl
      rw [recordHost_of hst, hhost] at hm
      exact hm rfl
    · exact faithful_of_holds
        (l := ⟨{ serverStateReady l.dict with heap := _ }, l.book.change h.bytes g⟩)
        (hk.holds hh hst) (hk.tells hb hold hst hhost)

/-- An addition succeeds, and keeps table and book together for a host name whose array is
filled with zeros. -/
theorem DictLog.Faithful.add (hf : l.Faithful) {s : ServerInfo A} {state : ℤ}
    (ha : Assumed l (.add s state)) (hnd : ¬ l.dict.Destroyed) :
    ∃ t adds d', serverStateAddDefault l.dict s state true = some (0, d') ∧ d'.Holds t adds ∧
      (l.book (hostOf s.hostname) = none → ¬ ZeroFilled s.hostname →
        ∀ h : HostName, h.bytes = hostOf s.hostname → oldest d'.heap adds h = none) ∧
      (((l.book (hostOf s.hostname)).isNone = true → ZeroFilled s.hostname) →
        DictLog.Faithful
          ⟨d', l.book.add (hostOf s.hostname) ⟨l.dict.next, s.saddr, state⟩⟩) := by
  obtain ⟨t, adds, hh, hb, hold, hheap, hnext⟩ := hf.ready hnd
  have hroom : t.nrNodes < 10000 := by
    rcases hold with hold | hnew
    · exact ha.2 t hold
    · omega
  obtain ⟨t', d', hret, hh', hd'⟩ := hh.add hroom s state
  rw [← hheap] at hb
  refine ⟨t', _, d', hret, hh', fun hnone hpad h hhost => ?_, fun hzero => ?_⟩
  · rw [hh.oldest_add hd']
    have hother : s.hostname ≠ paddedHost h := fun heq =>
      hpad ((zeroFilled_iff hhost.symm).mpr heq)
    rw [if_neg hother, Option.or_none]
    have hbook := hb h
    rw [hhost, hnone] at hbook
    cases hn : oldest (serverStateReady l.dict).heap adds h with
    | none => rfl
    | some n =>
      obtain ⟨-, st, hst, -⟩ := hh.oldest_some hn
      rw [hn, Option.bind_some, entryOf, hst] at hbook
      cases hbook
  · refine faithful_of_holds hh' ?_
    show Tells d'.heap _ (l.book.add _ _)
    rw [← hnext]
    exact hh.tells_add hb hzero hd'

/-- A lookup returns the record the book tells. -/
theorem DictLog.Faithful.get (hf : l.Faithful) (hnd : ¬ l.dict.Destroyed) (h : HostName) :
    serverStateGet l.dict h = some ((l.book h.bytes).map fun e => .record e.item) ∧
      ∀ e, l.book h.bytes = some e → ∃ st, l.dict.heap e.item = some st ∧
        st.serverinfo = ⟨e.saddr, paddedHost h⟩ ∧ st.currentState = e.state := by
  unfold Faithful at hf
  split at hf
  next hnone =>
    rw [hf]
    refine ⟨?_, nofun⟩
    unfold serverStateGet
    cases hi : l.dict.inited with
    | false => rfl
    | true => exact absurd ⟨hi, by rw [hnone]; rfl⟩ hnd
  next t ht =>
    obtain ⟨adds, hh, hb⟩ := hf
    unfold serverStateGet
    rw [if_pos hh.inited, ht]
    dsimp only
    rw [hh.findItem, hb]
    cases hold : oldest l.dict.heap adds h with
    | none => exact ⟨rfl, nofun⟩
    | some n =>
      obtain ⟨-, st, hst, hhost⟩ := hh.oldest_some hold
      rw [Option.bind_some, entryOf, hst]
      refine ⟨rfl, fun e he => ?_⟩
      obtain rfl := Option.some.inj he
      refine ⟨st, hst, ?_, rfl⟩
      rw [← hhost]

/-- Sound calls keep table and book together. -/
theorem DictLog.Faithful.call (hf : l.Faithful) {c : DictCall A} (ha : Assumed l c)
    (hs : Sound l c) : ∃ l', l.call c = some l' ∧ l'.Faithful := by
  cases c with
  | add s state =>
    obtain ⟨-, -, d', hret, -, -, hf'⟩ := hf.add ha hs.1
    exact ⟨_, congrArg (Option.map _) hret, hf' hs.2⟩
  | setState h state =>
    obtain ⟨code, d', hret, -, -, hf'⟩ := hf.modify hs (keeping_state state) h
    exact ⟨_, congrArg (Option.map _) hret, hf'⟩
  | setAddr h sa =>
    obtain ⟨code, d', hret, -, -, hf'⟩ := hf.modify hs (keeping_addr sa) h
    exact ⟨_, congrArg (Option.map _) hret, hf'⟩
  | get h => exact ⟨l, congrArg (Option.map _) (hf.get hs h).1, hf⟩
  | destroy =>
    refine ⟨_, rfl, ?_⟩
    have hgone : (serverStateDestroy l.dict).2.ht = none := by
      unfold serverStateDestroy
      split
      next hnone => exact hnone
      next => rfl
    unfold DictLog.Faithful
    rw [hgone]

theorem dictRuns_faithful (h : (dictRuns A).Reach (fun l c => Assumed l c ∧ Sound l c) l) :
    l.Faithful := by
  refine h.invariant ?_ fun l c l' _ hf hok hc => ?_
  · rintro l rfl
    rfl
  · obtain ⟨l'', hcall, hf'⟩ := hf.call hok.1 hok.2
    obtain rfl := Option.some.inj (hcall.symm.trans hc)
    exact hf'

/-- A lookup in a table that holds no record of the host. -/
theorem StateDict.Holds.get_none (hh : d.Holds t adds) {h : HostName}
    (hold : oldest d.heap adds h = none) : serverStateGet d h = some none := by
  unfold serverStateGet
  rw [if_pos hh.inited, hh.ht]
  dsimp only
  rw [hh.findItem, hold, Option.map_none]

/-- A call after a destruction uses the `NULL` pointer. -/
theorem call_destroyed (hd : l.dict.Destroyed) {c : DictCall A} (hc : c ≠ .destroy) :
    l.call c = none := by
  obtain ⟨hinit, hnone⟩ := hd
  have hnone := Option.isNone_iff_eq_none.mp hnone
  have hready : serverStateReady l.dict = l.dict := if_pos hinit
  have hmodify (h : HostName) (f : ServerState A → ServerState A) :
      serverStateModify l.dict h f = none := by
    unfold serverStateModify
    rw [hready]
    dsimp only
    rw [hnone]
  cases c with
  | add s state =>
    unfold DictLog.call serverStateAddDefault
    dsimp only
    rw [hready, hnone]
    rfl
  | setState h state => exact congrArg (Option.map _) (hmodify h _)
  | setAddr h sa => exact congrArg (Option.map _) (hmodify h _)
  | get h =>
    unfold DictLog.call serverStateGet
    dsimp only
    rw [if_pos hinit, hnone]
    rfl
  | destroy => exact absurd rfl hc

/-- What the dictionary promises for a host when it is asked to set something: `-1` exactly
when the host is absent, and no record of another host changes. -/
def SetsOnly (l : DictLog A) (h : HostName) (r : Option (ℤ × StateDict A)) : Prop :=
  ∃ code d', r = some (code, d') ∧ (code = -1 ↔ l.book h.bytes = none) ∧
    ∀ n, recordHost l.dict.heap n ≠ (paddedHost h).1 → d'.heap n = l.dict.heap n

/-- A call that is not sound uses a `NULL` table, or leaves a host that no lookup finds. -/
def Breaks (l : DictLog A) (c : DictCall A) : Prop :=
  l.call c = none ∨ ∃ l' h, l.call c = some l' ∧ l'.book h.bytes ≠ none ∧
    serverStateGet l'.dict h = some none

theorem DictLog.Faithful.breaks (hf : l.Faithful) {c : DictCall A} (ha : Assumed l c)
    (hs : ¬ Sound l c) : Breaks l c := by
  by_cases hd : l.dict.Destroyed
  · refine .inl (call_destroyed hd ?_)
    rintro rfl
    exact hs trivial
  · cases c with
    | add s state =>
      obtain ⟨t, adds, d', hret, hh, hlost, -⟩ := hf.add ha hd
      have hnone : (l.book (hostOf s.hostname)).isNone = true := by
        by_contra hsome
        exact hs ⟨hd, fun hnone => absurd hnone hsome⟩
      have hpad : ¬ ZeroFilled s.hostname := fun hpad => hs ⟨hd, fun _ => hpad⟩
      refine .inr ⟨_, .ofBuf s.hostname ha.1, congrArg (Option.map _) hret, ?_, ?_⟩
      · show l.book.add (hostOf s.hostname) _ (hostOf s.hostname) ≠ none
        rw [Book.add, if_pos hnone, Function.update_self]
        exact Option.some_ne_none _
      · exact hh.get_none (hlost (Option.isNone_iff_eq_none.mp hnone) hpad _ rfl)
    | setState h state => exact absurd hd hs
    | setAddr h sa => exact absurd hd hs
    | get h => exact absurd hd hs
    | destroy => exact absurd trivial hs

/-- **The dictionary is a map from host names, along sound calls.** No sound call uses a
`NULL` table, and additions succeed. Unless the table has just been torn down, a lookup
returns `NULL` exactly for the hosts the book does not have, and otherwise the record of the
earliest addition, with the address and the state set last; setting them fails exactly for
the hosts the book does not have and changes no record of another host. A call that is not
sound breaks this. -/
theorem dict_is_map (h : (dictRuns A).Reach (fun l c => Assumed l c ∧ Sound l c) l) :
    (∀ c, Assumed l c → Sound l c → (l.call c).isSome = true) ∧
    (∀ s state, Assumed l (.add s state) → Sound l (.add s state) →
      ∃ d', serverStateAddDefault l.dict s state true = some (0, d')) ∧
    (¬ l.dict.Destroyed → ∀ h : HostName,
      (l.book h.bytes = none → serverStateGet l.dict h = some none) ∧
      (∀ e, l.book h.bytes = some e →
        serverStateGet l.dict h = some (some (.record e.item)) ∧
        ∃ st, l.dict.heap e.item = some st ∧ st.serverinfo = ⟨e.saddr, paddedHost h⟩ ∧
          st.currentState = e.state) ∧
      (∀ state, SetsOnly l h (serverStateSetState l.dict h state)) ∧
      ∀ sa, SetsOnly l h (serverStateSetAddr l.dict h sa)) ∧
    ∀ c, Assumed l c → ¬ Sound l c → Breaks l c := by
  have hf := dictRuns_faithful h
  refine ⟨fun c ha hs => ?_, fun s state ha hs => ?_, fun hnd h => ?_, fun c => hf.breaks⟩
  · obtain ⟨l', hcall, -⟩ := hf.call ha hs
    rw [hcall]
    rfl
  · obtain ⟨-, -, d', hret, -⟩ := hf.add ha hs.1
    exact ⟨d', hret⟩
  · obtain ⟨hget, hrecord⟩ := hf.get hnd h
    refine ⟨fun hnone => ?_, fun e he => ⟨?_, hrecord e he⟩, fun state => ?_, fun sa => ?_⟩
    · rw [hget, hnone]
      rfl
    · rw [hget, he]
      rfl
    · obtain ⟨code, d', hret, hcode, hother, -⟩ := hf.modify hnd (keeping_state state) h
      exact ⟨code, d', hret, hcode, hother⟩
    · obtain ⟨code, d', hret, hcode, hother, -⟩ := hf.modify hnd (keeping_addr sa) h
      exact ⟨code, d', hret, hcode, hother⟩

/-- A host name of one byte. -/
def shortHost : HostName := ⟨[65], by decide, by decide⟩

/-- The state set last, of a host added twice. -/
theorem dict_is_map_addedTwice :
    ∃ l : DictLog ℕ, (dictRuns ℕ).Reach (fun l c => Assumed l c ∧ Sound l c) l ∧
      ∃ item st, serverStateGet l.dict shortHost = some (some (.record item)) ∧
        l.dict.heap item = some st ∧ st.currentState = 2 := by
  obtain ⟨l, hreach, hl⟩ := Machine.exec_reach (M := dictRuns ℕ) rfl
    (show ((dictRuns ℕ).exec (fun l c => Assumed l c ∧ Sound l c) ⟨.start ℕ, fun _ => none⟩
      [.add ⟨80, paddedHost shortHost⟩ 1, .add ⟨90, paddedHost shortHost⟩ 7,
        .setState shortHost 2]).map
      (fun l => decide (¬ l.dict.Destroyed ∧ (l.book [65]).map (fun e => e.state) = some 2))
      = some true by decide +kernel)
  obtain ⟨hnd, hbook⟩ := of_decide_eq_true hl
  obtain ⟨e, he, hstate⟩ := Option.map_eq_some_iff.mp hbook
  obtain ⟨-, -, hmap, -⟩ := dict_is_map hreach
  obtain ⟨-, hfound, -⟩ := hmap hnd shortHost
  obtain ⟨hget, st, hst, -, hcurrent⟩ := hfound e he
  exact ⟨l, hreach, e.item, st, hget, hst, hcurrent.trans hstate⟩

/-- One record, the table torn down, and the next lookup uses a `NULL` pointer. -/
theorem table_gone :
    ∃ l : DictLog ℕ, (dictRuns ℕ).Reach Assumed l ∧ Assumed l (.get shortHost) ∧
      l.call (.get shortHost) = none := by
  obtain ⟨l, hreach, hl⟩ := Machine.exec_reach (M := dictRuns ℕ) rfl
    (show ((dictRuns ℕ).exec Assumed ⟨.start ℕ, fun _ => none⟩
      [.add ⟨80, paddedHost shortHost⟩ 1, .destroy]).map
      (fun l => decide l.dict.Destroyed) = some true by decide +kernel)
  exact ⟨l, hreach, trivial, call_destroyed (of_decide_eq_true hl) nofun⟩

/-- A host name followed by its terminator and something else is added, and no lookup finds
it. -/
theorem host_lost :
    ∃ l : DictLog ℕ, (dictRuns ℕ).Reach Assumed l ∧ (l.book [65]).isSome = true ∧
      serverStateGet l.dict shortHost = some none := by
  obtain ⟨l, hreach, hl⟩ := Machine.exec_reach (M := dictRuns ℕ) rfl
    (show ((dictRuns ℕ).exec Assumed ⟨.start ℕ, fun _ => none⟩
      [.add ⟨80, ⟨65 :: 0 :: List.replicate 62 9, by decide⟩⟩ 1]).map
      (fun l => decide ((l.book [65]).isSome = true ∧
        serverStateGet l.dict shortHost = some none)) = some true by decide +kernel)
  exact ⟨l, hreach, of_decide_eq_true hl⟩

end Dungeon

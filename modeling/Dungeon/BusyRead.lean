import Dungeon.Bufferlist

/-!
# Reading a buffer while its lock is contended (`ds_bufferlist.c`)

`buffer_read` takes the nodes of the buffer one by one, with up to two trylocks for each. One
that fails ends the read with an error, whatever has been taken before.

- `ReadsAtomically`: an error leaves everything in the buffer, and a number of bytes means that
  these have moved to the caller.
- `Held.readLoop_refused`: what a read leaves that is refused a lock.
- `buffer_read_atomic_iff`: it is atomic just when the first turn is refused one, or no turn is.
- `busyRuns_held`: what this rests on holds after any calls, whichever of them get their locks.
-/

namespace Dungeon

namespace BufferList

variable {bl : BufferList} {bn : BufferNode} {rest : List BufferNode} {lock : ℕ → Bool}
  {size i : ℕ}

/-- What a read that returns `r` leaves of the buffer `bl`. -/
structure ReadsAtomically (bl : BufferList) (r : ℤ × List UInt8 × BufferList) : Prop where
  failed : r.1 = -1 →
    r.2.2.content = bl.content ∧ r.2.2.nbytes = bl.nbytes ∧ r.2.2.bufsize = bl.bufsize
  done : 0 ≤ r.1 → r.1 = r.2.1.length ∧ r.2.1 = bl.content.take r.1.toNat ∧
    r.2.2.content = bl.content.drop r.1.toNat ∧ r.2.2.nbytes = bl.nbytes - r.1

/-- A turn that is made finds bytes to read, and room for them. -/
theorem Held.more_of_denied (h : bl.Held) (hdenied : Denied bl.sizes size lock i) :
    0 < bl.nbytes ∧ 0 < size := by
  obtain ⟨hsize, hsum, -⟩ := hdenied
  have hbytes := h.nbytes_eq
  omega

/-- A read that is refused a lock in its first turn takes nothing. -/
theorem Held.readLoop_refusedFirst (h : bl.Held) (k : ℕ) (data : List UInt8)
    (hdenied : Denied bl.sizes size (fun n => lock (k + n)) 0) :
    bufferReadLoop lock k bl size data = (-1, data, bl) := by
  have hmore := h.more_of_denied hdenied
  obtain ⟨bn, rest, hnodes⟩ := List.exists_cons_of_ne_nil (h.nodes_ne_nil hmore.1)
  rw [sizes_cons hnodes] at hdenied
  obtain ⟨-, hbusy⟩ := denied_zero.mp hdenied
  cases hget : lock k with
  | false => exact readLoop_busyGet hmore hget
  | true =>
    obtain ⟨hle, hfetch⟩ := hbusy.resolve_left (by simp [hget])
    exact h.readLoop_busyFetch hnodes hmore hget hle hfetch

/-- **A read that is refused a lock** fails; when that is in a later turn, nodes are gone. -/
theorem Held.readLoop_refused (h : bl.Held) (lock : ℕ → Bool) (k : ℕ) (data : List UInt8)
    (hdenied : Denied bl.sizes size (fun n => lock (k + n)) i) :
    (bufferReadLoop lock k bl size data).1 = -1 ∧
      (bufferReadLoop lock k bl size data).2.2.bufsize ≤ bl.bufsize ∧
      (¬ Denied bl.sizes size (fun n => lock (k + n)) 0 →
        (bufferReadLoop lock k bl size data).2.2.bufsize < bl.bufsize) := by
  induction hnodes : bl.base.nodes generalizing bl k size data i with
  | nil =>
    have hsizes : bl.sizes = [] := by
      unfold sizes
      rw [hnodes]
      rfl
    exact absurd (hsizes ▸ hdenied) not_denied_nil
  | cons bn rest ih =>
    by_cases hfirst : Denied bl.sizes size (fun n => lock (k + n)) 0
    · rw [h.readLoop_refusedFirst k data hfirst]
      exact ⟨rfl, le_rfl, fun hnot => absurd hfirst hnot⟩
    · have hmore := h.more_of_denied hdenied
      have hbytes := h.nbytes_eq
      cases i with
      | zero => exact absurd hdenied hfirst
      | succ i =>
        rw [sizes_cons hnodes] at hdenied hfirst hbytes
        obtain ⟨hle, hlater⟩ := denied_succ.mp hdenied
        -- the first turn gets both locks
        have hgranted : ¬ (lock k = false ∨ (bn.size ≤ size ∧ lock (k + 1) = false)) := fun hbusy =>
          hfirst (denied_zero.mpr ⟨⟨hmore.2, by omega⟩, hbusy⟩)
        obtain ⟨hget, hfetch⟩ := not_or.mp hgranted
        have hlater : Denied (bl.dropHead bn rest).sizes (size - bn.size)
            (fun n => lock (k + 2 + n)) i := by
          simpa only [Nat.add_comm, Nat.add_left_comm, Nat.add_assoc] using hlater
        obtain ⟨hret, hcount, -⟩ := ih (h.dropHead hnodes) (k + 2) (data ++ bn.copy bn.size)
          hlater rfl
        rw [h.readLoop_whole hnodes hmore (by simpa using hget) hle (by simpa [hle] using hfetch)]
        have hone : (bl.dropHead bn rest).bufsize = bl.bufsize - 1 := rfl
        exact ⟨hret, by omega, fun _ => by omega⟩

/-- A read that is not refused a lock moves the bytes it says. -/
theorem Held.read_granted (h : bl.Held) (hgranted : ∀ i, ¬ Denied bl.sizes size lock i) :
    0 ≤ (bufferRead bl size lock).1 ∧ ReadsAtomically bl (bufferRead bl size lock) := by
  have hshift : ∀ i, ¬ Denied bl.sizes size (fun n => lock (0 + n)) i := by
    simpa only [Nat.zero_add] using hgranted
  obtain ⟨bl', heq, hheld, hcontent, -⟩ := h.readLoop lock 0 [] hshift
  have hread : bufferRead bl size lock
      = (((bl.content.take size).length : ℤ), bl.content.take size, bl') := heq
  have hlen := h.nbytes_eq_length
  have hlen' := hheld.nbytes_eq_length
  rw [hread]
  refine ⟨Int.natCast_nonneg _, fun hfail => ?_, fun _ => ⟨rfl, ?_, ?_, ?_⟩⟩
  · have hneg : ((bl.content.take size).length : ℤ) = -1 := hfail
    omega
  · show bl.content.take size = bl.content.take (bl.content.take size).length
    rw [List.length_take, ← List.take_take, List.take_length]
  · show bl'.content = bl.content.drop (bl.content.take size).length
    rw [hcontent, List.length_take]
    rcases Nat.le_total size bl.content.length with hle | hge
    · rw [Nat.min_eq_left hle]
    · rw [Nat.min_eq_right hge, List.drop_of_length_le hge, List.drop_length]
  · show bl'.nbytes = bl.nbytes - (bl.content.take size).length
    rw [hlen', hlen, hcontent, List.length_drop, List.length_take]
    omega

/-- **`buffer_read` is atomic** just when it gets every lock it asks for, or is refused one in
its first turn: a node taken before the failure is gone. -/
theorem buffer_read_atomic_iff (h : bl.Held) (size : ℕ) (lock : ℕ → Bool) :
    ReadsAtomically bl (bufferRead bl size lock) ↔
      ((∃ i, Denied bl.sizes size lock i) → Denied bl.sizes size lock 0) := by
  have hshift : (fun n => lock (0 + n)) = lock := funext fun n => by rw [Nat.zero_add]
  constructor
  · rintro hatomic ⟨i, hdenied⟩
    by_contra hfirst
    rw [← hshift] at hdenied hfirst
    obtain ⟨hret, -, hless⟩ := h.readLoop_refused lock 0 [] hdenied
    exact absurd (hatomic.failed hret).2.2 (hless hfirst).ne
  · intro himp
    by_cases hany : ∃ i, Denied bl.sizes size lock i
    · have hfirst := himp hany
      rw [← hshift] at hfirst
      have hread : bufferRead bl size lock = (-1, [], bl) := h.readLoop_refusedFirst 0 [] hfirst
      rw [hread]
      have hneg : ¬ (0 : ℤ) ≤ -1 := by decide
      exact ⟨fun _ => ⟨rfl, rfl, rfl⟩, fun hnonneg => absurd hnonneg hneg⟩
    · exact (h.read_granted (not_exists.mp hany)).2

/-- A buffer of two bytes in two nodes. -/
def twoBytes : BufferList := (bufferWrite (bufferWrite (bufferNew 2) [10] true true true).2 [20]
  true true true).2

theorem held_twoBytes : twoBytes.Held := by
  have hnew : (bufferNew 2).Held := (wf_bufferNew (by decide) (by decide)).held
  rcases write_cases (bufferNew 2) [10] true true with ⟨-, hfirst⟩ | ⟨hfull, -⟩
  · rcases write_cases ((bufferNew 2).appended [10]) [20] true true with ⟨-, hsecond⟩ | ⟨hfull, -⟩
    · unfold twoBytes
      rw [hfirst, hsecond]
      exact (hnew.appended [10]).appended [20]
    · exact absurd (by decide) hfull
  · exact absurd (by decide) hfull

/-- Refused the very first lock. -/
theorem buffer_read_atomic_refused :
    ReadsAtomically twoBytes (bufferRead twoBytes 2 fun _ => false) :=
  (buffer_read_atomic_iff held_twoBytes 2 fun _ => false).mpr fun _ => by
    unfold Denied
    decide

/-- The lock is taken when the second node is wanted: the first byte is lost. -/
theorem buffer_read_loses_byte :
    twoBytes.Held ∧ twoBytes.content = [10, 20] ∧
      ¬ ReadsAtomically twoBytes (bufferRead twoBytes 2 fun k => k < 2) := by
  refine ⟨held_twoBytes, by decide, fun hatomic => ?_⟩
  have hlater : Denied twoBytes.sizes 2 (fun k => 0 + k < 2) 1 := by
    unfold Denied
    decide
  have hfirst : ¬ Denied twoBytes.sizes 2 (fun k => 0 + k < 2) 0 := by
    unfold Denied
    decide
  obtain ⟨hret, -, hless⟩ := held_twoBytes.readLoop_refused (fun k => k < 2) 0 [] hlater
  exact absurd (hatomic.failed hret).2.2 (hless hfirst).ne

/-! ## Any locks -/

/-- What is left after a read is a buffer again. -/
theorem Held.readLoop_held (h : bl.Held) (lock : ℕ → Bool) (k : ℕ) (data : List UInt8) :
    (bufferReadLoop lock k bl size data).2.2.Held := by
  induction hnodes : bl.base.nodes generalizing bl k size data with
  | nil =>
    rw [readLoop_stop fun hmore => h.nodes_ne_nil hmore.1 hnodes]
    exact h
  | cons bn rest ih =>
    by_cases hmore : 0 < bl.nbytes ∧ 0 < size
    · cases hget : lock k with
      | false =>
        rw [readLoop_busyGet hmore hget]
        exact h
      | true =>
        by_cases hle : bn.size ≤ size
        · cases hfetch : lock (k + 1) with
          | false =>
            rw [h.readLoop_busyFetch hnodes hmore hget hle hfetch]
            exact h
          | true =>
            rw [h.readLoop_whole hnodes hmore hget hle hfetch]
            exact ih (h.dropHead hnodes) (k + 2) (data ++ bn.copy bn.size) rfl
        · rw [h.readLoop_inside hnodes hmore hget (not_le.mp hle)]
          exact h.advanceHead hnodes (by omega)
    · rw [readLoop_stop hmore]
      exact h

end BufferList

/-- A call, with the outcomes of its allocations and trylocks. -/
inductive BusyCall where
  | write (buf : List UInt8) (malloc node lock : Bool)
  | read (size : ℕ) (lock : ℕ → Bool)
  | pop (lock : Bool)
  | moveHead (size : ℕ) (lock : Bool)

/-- The buffer a call leaves. -/
def BusyCall.run (bl : BufferList) : BusyCall → BufferList
  | .write buf malloc node lock => (bufferWrite bl buf malloc node lock).2
  | .read size lock => (bufferRead bl size lock).2.2
  | .pop lock => (bufferPop bl lock).2
  | .moveHead size lock => (bufferMoveHead bl size lock).2

/-- The call sequences on a buffer made by `buffer_new`. -/
def busyRuns : Machine BufferList BusyCall where
  init bl := ∃ bufsize : ℕ, bufsize < 2 ^ 32 ∧ bl = bufferNew bufsize
  step bl c := some (c.run bl)

/-- Every call keeps the counters and the blocks of the nodes in order. -/
theorem BufferList.Held.run {bl : BufferList} (h : bl.Held) (c : BusyCall) : (c.run bl).Held := by
  cases c with
  | write buf malloc node lock =>
    show (bufferWrite bl buf malloc node lock).2.Held
    cases lock with
    | true =>
      rcases BufferList.write_cases bl buf malloc node with ⟨-, heq⟩ | ⟨-, heq⟩ <;> rw [heq]
      · exact h.appended buf
      · exact h
    | false =>
      unfold bufferWrite
      split
      · exact h
      · exact h
  | read size lock => exact h.readLoop_held lock 0 []
  | pop lock =>
    show (bufferPop bl lock).2.Held
    cases lock with
    | false => exact h
    | true =>
      cases hnodes : bl.base.nodes with
      | nil =>
        unfold bufferPop llistFetchHeadNb
        rw [if_pos rfl, Llist.fetchHeadUnlocked_nil hnodes]
        exact h
      | cons bn rest =>
        rw [h.pop_cons hnodes]
        exact h.dropHead hnodes
  | moveHead size lock =>
    show (bufferMoveHead bl size lock).2.Held
    cases lock with
    | false => exact h
    | true =>
      cases hnodes : bl.base.nodes with
      | nil =>
        unfold bufferMoveHead llistGetHeadNb
        rw [if_pos rfl, Llist.getHeadUnlocked_nil hnodes]
        exact h
      | cons bn rest =>
        unfold bufferMoveHead
        rw [h.get_cons hnodes]
        dsimp only
        split
        next hlt => exact h.advanceHead hnodes (Nat.le_of_lt hlt)
        next => exact h

theorem busyRuns_held {bl : BufferList} (h : busyRuns.Reach Machine.Always bl) : bl.Held := by
  refine h.invariant ?_ ?_
  · rintro _ ⟨bufsize, hlt, rfl⟩
    exact (BufferList.sized_bufferNew hlt).toHeld
  · rintro bl c bl' - hI - hstep
    obtain rfl := Option.some.inj hstep
    exact hI.run c

end Dungeon

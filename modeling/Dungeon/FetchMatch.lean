import Mathlib.Data.BitVec
import Mathlib.Data.List.TakeWhile
import Dungeon.Lib.Loop
import Dungeon.LlistHeap

/-!
# Searching the linked list, and deleting it (`ds_llist.c`)

`llist_fetch_match` takes the first element that matches out of the list, and `llist_delete`
takes elements out until none is counted. The search joins the dumb node to the node after the
match, whichever node is before it.

- `llistFetchMatchUnlocked`, `llistFetchMatch`, `matchPtr`, `deleteTurn`: the functions, over
  the nodes in memory.
- `Linked.fetchMatch_first`: what a search leaves. `fetchMatch_refines`: it is the search of
  `Dungeon.Llist`.
- `RemovesFirst`: what it is for. `fetchMatch_removesFirst_iff`: it does that just when the match
  is at the head.
- `fetchMatch_null_iff`: when the search without a match function finds the needle.
- `matchRuns`: all call sequences. `delete_ends_iff`: the list can be deleted after those in
  which every match was at the head, and after no others.
-/

namespace Dungeon

namespace LlistHeap

/-- `intptr_t`. -/
abbrev IntPtr := BitVec 64

/-- `match_ptr`: the difference of two `intptr_t`, returned as an `int`. -/
def matchPtr (p1 p2 : IntPtr) : ℤ := ((p1 - p2).setWidth 32).toInt

section Search

variable {α : Type}

/-- What `llist_fetch_match_unlocked` does to the node that matches. -/
def takeMatch (me : LlistMem α) (ln : Addr) : Option (α × LlistMem α) := do
  let data := me.ptr ln
  let me := setNext me .dumb (me.links.next ln)
  let next ← deref me (me.links.next ln)
  let me := setPrev me next (some .dumb)
  let me := setNext (setPrev me ln none) ln none
  let me := free me ln
  return (data, { me with nrNodes := me.nrNodes - 1 })

/-- The loop of `llist_fetch_match_unlocked` from the node `ln` on, for at most `n` turns. -/
def fetchMatchLoop (me : LlistMem α) (matchFunc : α → α → ℤ) (needle : α) :
    ℕ → Option Addr → Option (Except ℤ (α × LlistMem α))
  | 0, _ => none
  | n + 1, ln =>
    if ln ≠ some .dumb then do
      let ln ← deref me ln
      if matchFunc needle (me.ptr ln) = 0 then (takeMatch me ln).map .ok
      else fetchMatchLoop me matchFunc needle n (me.links.next ln)
    else some (.error (-1))

/-- `llist_fetch_match_unlocked`. -/
def llistFetchMatchUnlocked (me : LlistMem α) (n : ℕ) (matchFunc : α → α → ℤ) (needle : α) :
    Option (Except ℤ (α × LlistMem α)) :=
  fetchMatchLoop me matchFunc needle n (me.links.next .dumb)

/-- The memory a fetch leaves. -/
def after (ll : LlistMem α) : Except ℤ (α × LlistMem α) → LlistMem α
  | .ok r => r.2
  | .error _ => ll

/-- One turn of the loop of `llist_delete`, which looks at the counter only; nobody has the
lock. -/
def deleteTurn (ll : LlistMem α) : Turn (LlistMem α) (LlistMem α) :=
  if ll.nrNodes > 0 then
    match llistFetchHeadUnlocked ll with
    | none => .undefined
    | some r => .next (after ll r)
  else .done ll

end Search

/-- `llist_fetch_match`, with `none` for a null match function. -/
def llistFetchMatch (me : LlistMem IntPtr) (n : ℕ) (matchFunc : Option (IntPtr → IntPtr → ℤ))
    (needle : IntPtr) : Option (Except ℤ (IntPtr × LlistMem IntPtr)) :=
  llistFetchMatchUnlocked me n (matchFunc.getD matchPtr) needle

section Search

variable {α : Type} {me : LlistMem α} {l pre post : List Addr} {a c : Addr} {k n : ℕ}
  {matchFunc : α → α → ℤ} {needle : α}

/-! ## What a search leaves -/

/-- The nodes before a match are passed over. -/
theorem fetchMatchLoop_pass (hlive : ∀ b ∈ pre, b ≠ .dumb ∧ deref me (some b) = some b)
    (hno : ∀ b ∈ pre, matchFunc needle (me.ptr b) ≠ 0) (hpath : me.links.Path a pre c) :
    fetchMatchLoop me matchFunc needle (pre.length + n) (me.links.next a)
      = fetchMatchLoop me matchFunc needle n (some c) := by
  induction pre generalizing a with
  | nil => rw [(Links.path_nil.mp hpath).1, List.length_nil, Nat.zero_add]
  | cons b pre ih =>
    obtain ⟨hjoined, hrest⟩ := Links.path_cons.mp hpath
    obtain ⟨hb, hderef⟩ := hlive b List.mem_cons_self
    have hloop := ih (fun e he => hlive e (List.mem_cons_of_mem _ he))
      (fun e he => hno e (List.mem_cons_of_mem _ he)) hrest
    rw [hjoined.1, List.length_cons, Nat.add_right_comm, fetchMatchLoop,
      if_pos (by simpa using hb), hderef]
    show (if matchFunc needle (me.ptr b) = 0 then _ else _) = _
    rw [if_neg (hno b List.mem_cons_self), hloop]

/-- The nodes of the list can be looked at, and are not the dumb one. -/
theorem Linked.deref_mem (h : Linked me l) (ha : a ∈ l) :
    a ≠ .dumb ∧ deref me (some a) = some a := by
  constructor
  · rintro rfl
    exact (List.nodup_cons.mp h.ring.nodup).1 ha
  · exact h.deref_eq (List.mem_cons_of_mem _ ha)

/-- The assignments for a match take out the node, and all before it. -/
theorem Linked.takeMatch_eq (h : Linked me (pre ++ .heap k :: post)) :
    takeMatch me (.heap k) = some (me.ptr (.heap k), LlistHeap.fetched me post k) := by
  have hnext : me.links.next (.heap k) = some ((post ++ [Addr.dumb]).head (by simp)) :=
    (Links.path_append.mp h.ring.path).2.next_eq
  have hderef : deref me (some ((post ++ [Addr.dumb]).head (by simp)))
      = some ((post ++ [Addr.dumb]).head (by simp)) := by
    cases post with
    | nil => exact h.deref_eq List.mem_cons_self
    | cons b post => exact (h.deref_mem (by simp)).2
  unfold LlistHeap.fetched
  generalize (post ++ [Addr.dumb]).head (by simp) = b at hnext hderef ⊢
  unfold takeMatch
  show (deref me (me.links.next (.heap k))).bind _ = _
  rw [hnext, hderef]
  rfl

/-- What is after the match is a list again. -/
theorem Linked.cut (h : Linked me (pre ++ .heap k :: post)) :
    Linked (LlistHeap.fetched me post k) post := by
  have hlen := h.length_le
  have hpost := (List.nodup_append.mp (List.nodup_cons.mp h.ring.nodup).2).2.1
  rw [List.length_append, List.length_cons] at hlen
  refine ⟨h.ring.cut, fun j hj => ?_, ?_⟩
  · have hjk : j ≠ k := fun heq => (List.nodup_cons.mp hpost).1 (heq ▸ hj)
    show Function.update me.live k false j = true
    rw [Function.update_of_ne hjk]
    exact h.live j (List.mem_append_right _ (List.mem_cons_of_mem _ hj))
  · show (post.length : ℤ) ≤ me.nrNodes - 1
    omega

/-- **A search** takes the first match out, and all before it. -/
theorem Linked.fetchMatch_first (h : Linked me (pre ++ .heap k :: post))
    (hno : ∀ b ∈ pre, matchFunc needle (me.ptr b) ≠ 0)
    (hyes : matchFunc needle (me.ptr (.heap k)) = 0)
    (hn : (pre ++ Addr.heap k :: post).length < n) :
    llistFetchMatchUnlocked me n matchFunc needle
      = some (.ok (me.ptr (.heap k), LlistHeap.fetched me post k)) := by
  rw [List.length_append, List.length_cons] at hn
  obtain ⟨m, rfl⟩ : ∃ m, n = pre.length + (m + 1) := ⟨n - pre.length - 1, by omega⟩
  have hderef := (h.deref_mem (a := .heap k) (by simp)).2
  unfold llistFetchMatchUnlocked
  rw [fetchMatchLoop_pass (fun b hb => h.deref_mem (List.mem_append_left _ hb)) hno
    (Links.path_append.mp h.ring.path).1, fetchMatchLoop, if_pos (by simp), hderef]
  show (if matchFunc needle (me.ptr (.heap k)) = 0 then _ else _) = _
  rw [if_pos hyes, h.takeMatch_eq]
  rfl

/-- A search without a match finds nothing. -/
theorem Linked.fetchMatch_none (h : Linked me l)
    (hno : ∀ b ∈ l, matchFunc needle (me.ptr b) ≠ 0) (hn : l.length < n) :
    llistFetchMatchUnlocked me n matchFunc needle = some (.error (-1)) := by
  obtain ⟨m, rfl⟩ : ∃ m, n = l.length + (m + 1) := ⟨n - l.length - 1, by omega⟩
  unfold llistFetchMatchUnlocked
  rw [fetchMatchLoop_pass (fun b hb => h.deref_mem hb) hno h.ring.path]
  exact if_neg (not_not.mpr rfl)

/-- There is a first match, or none. -/
theorem Linked.match_cases (h : Linked me l) (matchFunc : α → α → ℤ) (needle : α) :
    (∀ b ∈ l, matchFunc needle (me.ptr b) ≠ 0) ∨
    ∃ pre k post, l = pre ++ .heap k :: post ∧
      (∀ b ∈ pre, matchFunc needle (me.ptr b) ≠ 0) ∧ matchFunc needle (me.ptr (.heap k)) = 0 := by
  cases hfind : l.find? fun b => matchFunc needle (me.ptr b) = 0 with
  | none =>
    refine .inl fun b hb => ?_
    simpa using List.find?_eq_none.mp hfind b hb
  | some a =>
    obtain ⟨hyes, pre, post, rfl, hno⟩ := List.find?_eq_some_iff_append.mp hfind
    obtain ⟨k, rfl⟩ := h.heap_of_mem (a := a) (by simp)
    refine .inr ⟨pre, k, post, rfl, fun b hb => ?_, by simpa using hyes⟩
    simpa using hno b hb

/-- **Searching** the ring is searching the list. -/
theorem fetchMatch_refines (h : Linked me l) (hn : l.length < n) :
    (llistFetchMatchUnlocked me n matchFunc needle = some (.error (-1)) ∧
      Dungeon.llistFetchMatchUnlocked (elements me l) matchFunc needle = .error (-1)) ∨
    ∃ data me' l', llistFetchMatchUnlocked me n matchFunc needle = some (.ok (data, me')) ∧
      Linked me' l' ∧
      Dungeon.llistFetchMatchUnlocked (elements me l) matchFunc needle
        = .ok (data, elements me' l') := by
  unfold Dungeon.llistFetchMatchUnlocked elements
  rcases h.match_cases matchFunc needle with hno | ⟨pre, k, post, rfl, hno, hyes⟩
  · refine .inl ⟨h.fetchMatch_none hno hn, ?_⟩
    have hdrop : (l.map me.ptr).dropWhile (fun ptr => matchFunc needle ptr ≠ 0) = [] := by
      rw [List.dropWhile_eq_nil_iff]
      intro x hx
      obtain ⟨b, hb, rfl⟩ := List.mem_map.mp hx
      exact decide_eq_true (hno b hb)
    dsimp only
    rw [hdrop]
  · refine .inr ⟨_, _, post, h.fetchMatch_first hno hyes hn, h.cut, ?_⟩
    have hdrop : ((pre ++ Addr.heap k :: post).map me.ptr).dropWhile
        (fun ptr => matchFunc needle ptr ≠ 0) = me.ptr (.heap k) :: post.map me.ptr := by
      rw [List.map_append, List.dropWhile_append_of_pos, List.map_cons, List.dropWhile_cons_of_neg]
      · simpa using hyes
      · intro x hx
        obtain ⟨b, hb, rfl⟩ := List.mem_map.mp hx
        exact decide_eq_true (hno b hb)
    dsimp only
    rw [hdrop]
    rfl

/-! ## What a search is for -/

/-- The first element that matches goes and nothing else does, or nothing matches and the
search says so. -/
structure RemovesFirst (me : LlistMem α) (l : List Addr) (matchFunc : α → α → ℤ) (needle : α)
    (r : Option (Except ℤ (α × LlistMem α))) : Prop where
  first : ∀ pre a post, l = pre ++ a :: post →
    (∀ b ∈ pre, matchFunc needle (me.ptr b) ≠ 0) → matchFunc needle (me.ptr a) = 0 →
    ∃ me', r = some (.ok (me.ptr a, me')) ∧ me'.links.Ring .dumb (pre ++ post) ∧
      (∀ b ∈ pre ++ post, me'.ptr b = me.ptr b) ∧ me'.nrNodes = me.nrNodes - 1
  none : (∀ a ∈ l, matchFunc needle (me.ptr a) ≠ 0) → r = some (.error (-1))

/-- No element matches, or the first one does. -/
def MatchAtHead (xs : List α) (matchFunc : α → α → ℤ) (needle : α) : Prop :=
  (∀ x ∈ xs, matchFunc needle x ≠ 0) ∨ ∃ x rest, xs = x :: rest ∧ matchFunc needle x = 0

/-- A match that has something before it is not at the head. -/
theorem not_matchAtHead {b : Addr} (hno : matchFunc needle (me.ptr b) ≠ 0)
    (hyes : matchFunc needle (me.ptr a) = 0) :
    ¬ MatchAtHead ((b :: pre ++ a :: post).map me.ptr) matchFunc needle := by
  rintro (hnone | ⟨x, rest, heq, hx⟩)
  · exact hnone _ (List.mem_map_of_mem (by simp)) hyes
  · obtain ⟨rfl, -⟩ := List.cons.inj heq
    exact hno hx

/-- The elements before a match are lost. -/
theorem Linked.not_removesFirst (h : Linked me (pre ++ .heap k :: post)) (hpre : pre ≠ [])
    (hno : ∀ b ∈ pre, matchFunc needle (me.ptr b) ≠ 0)
    (hyes : matchFunc needle (me.ptr (.heap k)) = 0)
    (hn : (pre ++ Addr.heap k :: post).length < n) :
    ¬ RemovesFirst me (pre ++ .heap k :: post) matchFunc needle
      (llistFetchMatchUnlocked me n matchFunc needle) := by
  intro hremoves
  obtain ⟨me', hr, hring, -⟩ := hremoves.first pre (.heap k) post rfl hno hyes
  rw [h.fetchMatch_first hno hyes hn] at hr
  have hme : LlistHeap.fetched me post k = me' :=
    (Prod.mk.inj (Except.ok.inj (Option.some.inj hr))).2
  -- the dumb node is joined to what follows the match
  have hsame := hring.unique (hme ▸ h.cut.ring)
  exact hpre (List.append_left_eq_self.mp hsame)

theorem Linked.removesFirst_iff (h : Linked me l) (hn : l.length < n) :
    RemovesFirst me l matchFunc needle (llistFetchMatchUnlocked me n matchFunc needle) ↔
      MatchAtHead (l.map me.ptr) matchFunc needle := by
  rcases h.match_cases matchFunc needle with hno | ⟨pre, k, post, rfl, hno, hyes⟩
  · refine iff_of_true ⟨?_, fun _ => h.fetchMatch_none hno hn⟩ (.inl ?_)
    · rintro pre a post rfl - hyes
      exact absurd hyes (hno a (by simp))
    · intro x hx
      obtain ⟨b, hb, rfl⟩ := List.mem_map.mp hx
      exact hno b hb
  · cases pre with
    | nil =>
      refine iff_of_true ⟨?_, fun hnone => absurd hyes (hnone _ (by simp))⟩
        (.inr ⟨_, _, rfl, hyes⟩)
      intro pre a rest heq hpre ha
      -- the match at the head is the first one
      cases pre with
      | nil =>
        obtain ⟨rfl, rfl⟩ := List.cons.inj heq
        exact ⟨_, h.fetchMatch_first hno hyes hn, h.cut.ring, fun _ _ => rfl, rfl⟩
      | cons b pre =>
        obtain ⟨rfl, -⟩ := List.cons.inj heq
        exact absurd hyes (hpre _ List.mem_cons_self)
    | cons b pre =>
      exact iff_of_false (h.not_removesFirst (List.cons_ne_nil _ _) hno hyes hn)
        (not_matchAtHead (hno b List.mem_cons_self) hyes)

end Search

section Null

variable {me : LlistMem IntPtr} {l : List Addr} {n : ℕ} {needle : IntPtr}

/-- **`llist_fetch_match` removes exactly the first match** just when no element matches or the
first one does: otherwise the elements before the match go as well. -/
theorem fetchMatch_removesFirst_iff (h : Linked me l) (matchFunc : Option (IntPtr → IntPtr → ℤ))
    (needle : IntPtr) (hn : l.length < n) :
    RemovesFirst me l (matchFunc.getD matchPtr) needle (llistFetchMatch me n matchFunc needle) ↔
      MatchAtHead (l.map me.ptr) (matchFunc.getD matchPtr) needle :=
  h.removesFirst_iff hn

/-- A list of 5 and 7. -/
def twoNodes : LlistMem IntPtr :=
  appended (appended (llistNew 2) [] 0 5) [.heap 0] 1 7

theorem linked_twoNodes : Linked twoNodes [.heap 0, .heap 1] :=
  (((holds_new 2).linked.appended rfl 5).appended rfl 7)

/-- Searching it for 5. -/
theorem fetchMatch_removesFirst_five :
    RemovesFirst twoNodes [.heap 0, .heap 1] matchPtr 5 (llistFetchMatch twoNodes 3 none 5) :=
  (fetchMatch_removesFirst_iff linked_twoNodes none 5 (by decide)).mpr
    (.inr ⟨5, [7], by decide, by decide⟩)

/-- Searching it for 7 loses the 5. -/
theorem fetchMatch_loses_five :
    Linked twoNodes [.heap 0, .heap 1] ∧
      ¬ RemovesFirst twoNodes [.heap 0, .heap 1] matchPtr 7
        (llistFetchMatch twoNodes 3 none 7) := by
  refine ⟨linked_twoNodes, ?_⟩
  have hsplit : Linked twoNodes ([.heap 0] ++ .heap 1 :: []) := linked_twoNodes
  exact hsplit.not_removesFirst (List.cons_ne_nil _ _) (by decide) (by decide) (by decide)

/-! ## The search without a match function -/

theorem matchPtr_eq_zero {p1 p2 : IntPtr} :
    matchPtr p1 p2 = 0 ↔ p2.setWidth 32 = p1.setWidth 32 := by
  unfold matchPtr
  constructor
  · intro h
    have hz : (p1 - p2).setWidth 32 = 0#32 := BitVec.toInt_inj.mp (by simpa using h)
    bv_omega
  · intro h
    have hz : (p1 - p2).setWidth 32 = 0#32 := by bv_omega
    rw [hz]
    rfl

/-- A search returns 0 just when the needle is in the list, and then gives the needle. -/
def FindsNeedle (xs : List IntPtr) (needle : IntPtr)
    (r : Option (Except ℤ (IntPtr × LlistMem IntPtr))) : Prop :=
  ((∃ data me', r = some (.ok (data, me'))) ↔ needle ∈ xs) ∧
    ∀ data me', r = some (.ok (data, me')) → data = needle

/-- The first element with the low 32 bits of the needle. -/
def firstAlike (xs : List IntPtr) (needle : IntPtr) : Option IntPtr :=
  xs.find? fun x => x.setWidth 32 = needle.setWidth 32

/-- No element has the low 32 bits of the needle, or the first one that does is the needle. -/
def FirstAlike (xs : List IntPtr) (needle : IntPtr) : Prop :=
  firstAlike xs needle = none ∨ firstAlike xs needle = some needle

instance (xs : List IntPtr) (needle : IntPtr) : Decidable (FirstAlike xs needle) :=
  inferInstanceAs (Decidable (_ ∨ _))

/-- **The default matcher is equality** just when the first element of which the low 32 bits
are those of the needle is the needle: the difference of two pointers is cut to an `int`. -/
theorem fetchMatch_null_iff (h : Linked me l) (needle : IntPtr) (hn : l.length < n) :
    FindsNeedle (l.map me.ptr) needle (llistFetchMatch me n none needle) ↔
      FirstAlike (l.map me.ptr) needle := by
  show FindsNeedle _ needle (llistFetchMatchUnlocked me n matchPtr needle) ↔ _
  rcases h.match_cases matchPtr needle with hno | ⟨pre, k, post, rfl, hno, hyes⟩
  · rw [h.fetchMatch_none hno hn]
    have hunlike : ∀ x ∈ l.map me.ptr, x.setWidth 32 ≠ needle.setWidth 32 := by
      intro x hx halike
      obtain ⟨b, hb, rfl⟩ := List.mem_map.mp hx
      exact hno b hb (matchPtr_eq_zero.mpr halike)
    refine iff_of_true ⟨iff_of_false nofun fun hmem => hunlike needle hmem rfl, nofun⟩ (.inl ?_)
    exact List.find?_eq_none.mpr fun x hx halike => hunlike x hx (of_decide_eq_true halike)
  · rw [h.fetchMatch_first hno hyes hn]
    have hfind : firstAlike ((pre ++ Addr.heap k :: post).map me.ptr) needle
        = some (me.ptr (.heap k)) := by
      refine List.find?_eq_some_iff_append.mpr ⟨decide_eq_true (matchPtr_eq_zero.mp hyes),
        pre.map me.ptr, post.map me.ptr, List.map_append, fun x hx => ?_⟩
      obtain ⟨b, hb, rfl⟩ := List.mem_map.mp hx
      simpa [matchPtr_eq_zero] using hno b hb
    unfold FirstAlike
    rw [hfind]
    constructor
    · rintro ⟨-, hdata⟩
      exact .inr (congrArg some (hdata _ _ rfl))
    · intro hfirst
      have hsame : me.ptr (.heap k) = needle := Option.some.inj (hfirst.resolve_left nofun)
      constructor
      · refine iff_of_true ⟨_, _, rfl⟩ ?_
        rw [← hsame]
        exact List.mem_map_of_mem (by simp)
      · rintro data me' heq
        obtain ⟨rfl, -⟩ := Prod.mk.inj (Except.ok.inj (Option.some.inj heq))
        exact hsame

/-- The second of two elements. -/
theorem fetchMatch_null_seven :
    FindsNeedle [5, 7] 7 (llistFetchMatch twoNodes 3 none 7) :=
  (fetchMatch_null_iff linked_twoNodes 7 (by decide)).mpr (by decide)

/-- Searching for an element that is 4 GiB away from the 5 gives the 5. -/
theorem fetchMatch_null_far :
    Linked twoNodes [.heap 0, .heap 1] ∧
      ¬ FindsNeedle [5, 7] (5 + 2 ^ 32) (llistFetchMatch twoNodes 3 none (5 + 2 ^ 32)) := by
  refine ⟨linked_twoNodes, ?_⟩
  rintro ⟨-, hdata⟩
  have hsplit : Linked twoNodes ([] ++ .heap 0 :: [.heap 1]) := linked_twoNodes
  have hfound : llistFetchMatch twoNodes 3 none (5 + 2 ^ 32) = some (.ok (5, _)) :=
    hsplit.fetchMatch_first nofun (by decide) (by decide)
  exact absurd (hdata _ _ hfound) (by decide)

end Null

/-! ## Deleting the list -/

section Delete

variable {α : Type} {ll ll' : LlistMem α} {l : List Addr} {k : ℕ}

/-- The loop of `llist_delete` ends, with nothing counted. -/
def Deleted (ll : LlistMem α) : Prop := ∃ ll', Loop.Ends deleteTurn ll ll' ∧ ll'.nrNodes = 0

/-- An empty list gives nothing, whatever the counter says. -/
theorem Linked.fetchHead_nil (h : Linked ll []) :
    llistFetchHeadUnlocked ll = some (.error (-1)) := by
  have hnext : ll.links.next .dumb = some .dumb := (Links.path_nil.mp h.ring.path).1
  unfold llistFetchHeadUnlocked
  split
  next => rfl
  next => exact if_neg (not_not.mpr hnext)

theorem Linked.deleteTurn_cons (h : Linked ll (.heap k :: l)) :
    deleteTurn ll = .next (LlistHeap.fetched ll l k) := by
  unfold deleteTurn
  rw [if_pos (not_le.mp (h.nrNodes_pos (List.cons_ne_nil _ _))), h.fetchHead_cons]
  rfl

/-- A turn for a node that is counted and not there changes nothing. -/
theorem Linked.deleteTurn_nil (h : Linked ll []) (hpos : 0 < ll.nrNodes) :
    deleteTurn ll = .next ll := by
  unfold deleteTurn
  rw [if_pos hpos, h.fetchHead_nil]
  rfl

/-- **Deleting** ends just when the counter counts the nodes. -/
theorem Linked.deleted_iff (h : Linked ll l) : Deleted ll ↔ (l.length : ℤ) = ll.nrNodes := by
  induction l generalizing ll with
  | nil =>
    have hle := h.length_le
    rw [List.length_nil] at hle ⊢
    rcases hle.eq_or_lt with hzero | hpos
    · refine iff_of_true ⟨ll, .done (if_neg ?_), hzero.symm⟩ hzero
      omega
    · refine iff_of_false ?_ hpos.ne
      rintro ⟨ll', hends, -⟩
      refine Loop.not_ends (I := fun s => s = ll) rfl (fun s hs => ?_) hends
      rw [hs]
      exact .inr ⟨ll, h.deleteTurn_nil hpos, rfl⟩
  | cons a l ih =>
    obtain ⟨k, rfl⟩ := h.heap_of_mem List.mem_cons_self
    have hrest := ih h.fetched
    have hnodes : (LlistHeap.fetched ll l k).nrNodes = ll.nrNodes - 1 := rfl
    rw [hnodes] at hrest
    have hturn : Deleted ll ↔ Deleted (LlistHeap.fetched ll l k) :=
      exists_congr fun _ => and_congr_left fun _ => Loop.ends_next h.deleteTurn_cons
    rw [hturn, hrest, List.length_cons]
    push_cast
    omega

end Delete

/-- A call that puts elements into the list or takes some out. -/
inductive MatchCall where
  | appendNb (data : IntPtr) (malloc : Option ℕ)
  | fetchHeadNb
  | fetchMatch (matchFunc : Option (IntPtr → IntPtr → ℤ)) (needle : IntPtr)

/-- `malloc` answers with a free address. -/
def MatchCall.Enabled (s : LlistMem IntPtr) : MatchCall → Prop
  | .appendNb _ malloc => Fresh s malloc
  | .fetchHeadNb | .fetchMatch _ _ => True

instance (s : LlistMem IntPtr) : (c : MatchCall) → Decidable (c.Enabled s)
  | .appendNb _ _ => inferInstanceAs (Decidable (Fresh _ _))
  | .fetchHeadNb | .fetchMatch _ _ => isTrue trivial

/-- The memory a call leaves, unless it faults. -/
def MatchCall.run (s : LlistMem IntPtr) : MatchCall → Option (LlistMem IntPtr)
  | .appendNb data malloc => (llistAppendUnlocked s data malloc).map Prod.snd
  | .fetchHeadNb => (llistFetchHeadUnlocked s).map (after s)
  | .fetchMatch matchFunc needle =>
    (llistFetchMatch s (s.nrNodes.toNat + 1) matchFunc needle).map (after s)

/-- The call sequences on a list made by `llist_new`. -/
def matchRuns : Machine (LlistMem IntPtr) MatchCall where
  init s := ∃ max : ℤ, s = llistNew max
  step s c := if c.Enabled s then c.run s else none

/-- A search finds nothing, or its match at the head. -/
def MatchCall.AtHead (s : LlistMem IntPtr) : MatchCall → Prop
  | .fetchMatch matchFunc needle =>
    ∀ l, Linked s l → MatchAtHead (l.map s.ptr) (matchFunc.getD matchPtr) needle
  | .appendNb _ _ | .fetchHeadNb => True

section Runs

variable {s s' t : LlistMem IntPtr} {l : List Addr}

/-- How many nodes are counted that are not there. -/
def lost (s : LlistMem IntPtr) (l : List Addr) : ℤ := s.nrNodes - l.length

/-- **No call faults**; a call at the head loses no node, and any other one loses some. -/
theorem Linked.run (h : Linked s l) {c : MatchCall} (hc : c.Enabled s) :
    ∃ s' l', c.run s = some s' ∧ Linked s' l' ∧
      ((c.AtHead s ∧ lost s' l' = lost s l) ∨ (¬ c.AtHead s ∧ lost s l < lost s' l')) := by
  cases c with
  | appendNb data malloc =>
    show ∃ s' l', (llistAppendUnlocked s data malloc).map Prod.snd = some s' ∧ _
    rcases h.append_cases data hc with ⟨k, rfl, -, hk, heq⟩ | ⟨-, heq⟩ <;> rw [heq]
    · refine ⟨_, _, rfl, h.appended hk data, .inl ⟨trivial, ?_⟩⟩
      unfold lost
      rw [List.length_append, List.length_singleton]
      show s.nrNodes + 1 - _ = _
      push_cast
      omega
    · exact ⟨s, l, rfl, h, .inl ⟨trivial, rfl⟩⟩
  | fetchHeadNb =>
    show ∃ s' l', (llistFetchHeadUnlocked s).map (after s) = some s' ∧ _
    cases l with
    | nil =>
      rw [h.fetchHead_nil]
      exact ⟨s, [], rfl, h, .inl ⟨trivial, rfl⟩⟩
    | cons a l =>
      obtain ⟨k, rfl⟩ := h.heap_of_mem List.mem_cons_self
      rw [h.fetchHead_cons]
      refine ⟨_, l, rfl, h.fetched, .inl ⟨trivial, ?_⟩⟩
      unfold lost
      rw [List.length_cons]
      show s.nrNodes - 1 - _ = _
      push_cast
      omega
  | fetchMatch matchFunc needle =>
    have hn : l.length < s.nrNodes.toNat + 1 := by
      have hle := h.length_le
      omega
    show ∃ s' l', (llistFetchMatchUnlocked s _ (matchFunc.getD matchPtr) needle).map (after s)
      = some s' ∧ _
    have hhead : MatchCall.AtHead s (.fetchMatch matchFunc needle)
        ↔ MatchAtHead (l.map s.ptr) (matchFunc.getD matchPtr) needle := by
      constructor
      · exact fun hall => hall l h
      · intro hat l' hl'
        rwa [hl'.ring.unique h.ring]
    rw [hhead]
    rcases h.match_cases (matchFunc.getD matchPtr) needle with hno | ⟨pre, k, post, rfl, hno, hyes⟩
    · rw [h.fetchMatch_none hno hn]
      refine ⟨s, l, rfl, h, .inl ⟨.inl fun x hx => ?_, rfl⟩⟩
      obtain ⟨b, hb, rfl⟩ := List.mem_map.mp hx
      exact hno b hb
    · rw [h.fetchMatch_first hno hyes hn]
      refine ⟨_, post, rfl, h.cut, ?_⟩
      unfold lost
      rw [List.length_append, List.length_cons]
      show (_ ∧ s.nrNodes - 1 - _ = _) ∨ (_ ∧ _ < s.nrNodes - 1 - _)
      cases pre with
      | nil =>
        refine .inl ⟨.inr ⟨_, _, rfl, hyes⟩, ?_⟩
        rw [List.length_nil]
        push_cast
        omega
      | cons b pre =>
        refine .inr ⟨not_matchAtHead (hno b List.mem_cons_self) hyes, ?_⟩
        rw [List.length_cons]
        push_cast
        omega

/-- After any calls there is a list; calls at the head lose no node of it. -/
theorem matchRuns_linked {ok : LlistMem IntPtr → MatchCall → Prop} (h : matchRuns.Reach ok s) :
    ∃ l, Linked s l ∧ ((∀ s c, ok s c → c.AtHead s) → lost s l = 0) := by
  refine h.invariant (I := fun s => ∃ l, Linked s l ∧
    ((∀ s c, ok s c → c.AtHead s) → lost s l = 0)) ?_ ?_
  · rintro s ⟨max, rfl⟩
    exact ⟨[], (holds_new max).linked, fun _ => rfl⟩
  · rintro s c s' - ⟨l, hl, hlost⟩ hok hstep
    obtain ⟨hc, hrun⟩ := Option.ite_none_right_eq_some.mp hstep
    obtain ⟨t, l', ht, hl', hcases⟩ := hl.run hc
    obtain rfl := Option.some.inj (hrun.symm.trans ht)
    refine ⟨l', hl', fun hall => ?_⟩
    rcases hcases with ⟨-, hsame⟩ | ⟨hnot, -⟩
    · exact hsame.trans (hlost hall)
    · exact absurd (hall _ _ hok) hnot

/-- What is lost stays lost. -/
theorem Linked.run_lost (h : Linked s l) (hlost : 0 < lost s l)
    (hrun : matchRuns.Run Machine.Always s t) : ∃ l', Linked t l' ∧ 0 < lost t l' := by
  refine hrun.preserves (I := fun s => ∃ l, Linked s l ∧ 0 < lost s l) ⟨l, h, hlost⟩ ?_
  rintro s c s' ⟨l, hl, hpos⟩ - hstep
  obtain ⟨hc, hrun⟩ := Option.ite_none_right_eq_some.mp hstep
  obtain ⟨t, l', ht, hl', hcases⟩ := hl.run hc
  obtain rfl := Option.some.inj (hrun.symm.trans ht)
  refine ⟨l', hl', ?_⟩
  rcases hcases with ⟨-, hsame⟩ | ⟨-, hmore⟩
  · exact hsame ▸ hpos
  · exact hpos.trans hmore

/-- A list with lost nodes is never deleted. -/
theorem Linked.not_deleted (h : Linked s l) (hlost : 0 < lost s l) : ¬ Deleted s := by
  rw [h.deleted_iff]
  unfold lost at hlost
  omega

/-- A search is made when no more than one node is counted. -/
def MatchCall.Alone (s : LlistMem IntPtr) : MatchCall → Prop
  | .fetchMatch _ _ => s.nrNodes ≤ 1
  | .appendNb _ _ | .fetchHeadNb => True

instance (s : LlistMem IntPtr) : (c : MatchCall) → Decidable (c.Alone s)
  | .fetchMatch _ _ => inferInstanceAs (Decidable (s.nrNodes ≤ 1))
  | .appendNb _ _ | .fetchHeadNb => isTrue trivial

/-- Such a search has no match but at the head. -/
theorem MatchCall.Alone.atHead {c : MatchCall} (h : c.Alone s) : c.AtHead s := by
  cases c with
  | appendNb data malloc => trivial
  | fetchHeadNb => trivial
  | fetchMatch matchFunc needle =>
    intro l hl
    have hle := hl.length_le
    have hone : s.nrNodes ≤ 1 := h
    cases l with
    | nil => exact .inl fun x hx => absurd hx List.not_mem_nil
    | cons a l =>
      obtain rfl : l = [] := by
        rw [List.length_cons] at hle
        exact List.length_eq_zero_iff.mp (by omega)
      by_cases hyes : matchFunc.getD matchPtr needle (s.ptr a) = 0
      · exact .inr ⟨_, _, rfl, hyes⟩
      · exact .inl fun x hx => List.mem_singleton.mp hx ▸ hyes

/-- **`llist_delete` terminates** after every sequence of calls whose searches found nothing, or
their match at the head. After a search that found its match further on it never does, whatever
is called in between. -/
theorem delete_ends_iff (s : LlistMem IntPtr) :
    (matchRuns.Reach (fun s c => c.AtHead s) s → Deleted s) ∧
    ∀ c s' t, matchRuns.Reach Machine.Always s → ¬ MatchCall.AtHead s c →
      matchRuns.step s c = some s' → matchRuns.Run Machine.Always s' t → ¬ Deleted t := by
  constructor
  · intro h
    obtain ⟨l, hl, hlost⟩ := matchRuns_linked h
    rw [hl.deleted_iff]
    have hzero := hlost fun _ _ => id
    unfold lost at hzero
    omega
  · intro c s' t h hnot hstep hrun
    obtain ⟨l, hl, -⟩ := matchRuns_linked h
    obtain ⟨hc, hs'⟩ := Option.ite_none_right_eq_some.mp hstep
    obtain ⟨u, l', hu, hl', hcases⟩ := hl.run hc
    obtain rfl := Option.some.inj (hs'.symm.trans hu)
    rcases hcases with ⟨hat, -⟩ | ⟨-, hmore⟩
    · exact absurd hat hnot
    · have hle := hl.length_le
      have hpos : 0 < lost s' l' := lt_of_le_of_lt (by unfold lost; omega) hmore
      obtain ⟨l'', hl'', hlost⟩ := hl'.run_lost hpos hrun
      exact hl''.not_deleted hlost

/-- Two elements go in, and one each comes out from the head and by a search. -/
theorem delete_ends_iff_searched :
    ∃ s, matchRuns.Reach (fun s c => c.AtHead s) s ∧ s.nrNodes = 0 ∧ Deleted s := by
  obtain ⟨s, hreach, hs⟩ := Machine.exec_reach (M := matchRuns)
    (show matchRuns.init (llistNew 2) from ⟨2, rfl⟩)
    (show (matchRuns.exec (fun s c => c.Alone s) (llistNew 2)
      [.appendNb 5 (some 0), .appendNb 7 (some 1), .fetchHeadNb, .fetchMatch none 7]).map
      (fun s => decide (s.nrNodes = 0)) = some true by decide +kernel)
  have hhead := hreach.mono fun _ _ => MatchCall.Alone.atHead
  exact ⟨s, hhead, of_decide_eq_true hs, (delete_ends_iff s).1 hhead⟩

/-- A search for the second of two elements leaves a list that is never deleted. -/
theorem delete_never_ends :
    ∃ s, matchRuns.Reach Machine.Always s ∧ ¬ Deleted s := by
  obtain ⟨s, hreach, hs⟩ := Machine.exec_reach (M := matchRuns)
    (show matchRuns.init (llistNew 2) from ⟨2, rfl⟩)
    (show (matchRuns.exec Machine.Always (llistNew 2)
      [.appendNb 5 (some 0), .appendNb 7 (some 1), .fetchMatch none 7]).map
      (fun s => decide (s.nrNodes = 1 ∧ s.links.next .dumb = some .dumb)) = some true
      by decide +kernel)
  obtain ⟨hnodes, hempty⟩ := of_decide_eq_true hs
  obtain ⟨l, hl, -⟩ := matchRuns_linked hreach
  refine ⟨s, hreach, hl.not_deleted ?_⟩
  cases l with
  | nil =>
    unfold lost
    rw [hnodes]
    decide
  | cons a l =>
    obtain ⟨hnext, hne⟩ := hl.next_dumb
    exact absurd (Option.some.inj (hnext.symm.trans hempty)) hne

end Runs

end LlistHeap

end Dungeon

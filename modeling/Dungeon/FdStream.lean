import Mathlib.Data.List.GetD
import Dungeon.FdParse

/-!
# What the JSON reader takes from a stream (`cJSON.c`)

- `stream`: some results of `read`, and then the same one for ever. `ends_stream_iff`: how the loop
  ends on one.
- `fdParse_inBounds_iff`: the buffer is overrun by the 1024th byte, unless a `NUL` came before.
- `fdParse_terminates_iff`: a stream that ends in an error is read for ever, unless the document
  was complete or its last byte, taken again and again, completes it.
- `fdParse_frames_iff`: a document is framed exactly when its brackets, those inside strings
  counted, balance at its end and not before, and it has fewer than 1024 bytes.
-/

namespace Dungeon

open JsonText

namespace FdParse

variable {realloc : ℤ → Bool} {reads : ℕ → ReadResult} {cs bs : Text} {c : UInt8} {k n : ℕ}

/-! ## Streams -/

theorem heard_succ_cases (reads : ℕ → ReadResult) (k : ℕ) :
    heard (log reads (k + 1)) = heard (log reads k) ∨
      ∃ c, heard (log reads (k + 1)) = heard (log reads k) ++ [c] := by
  rcases received_readerAt reads k with ⟨-, hsame, -⟩ | ⟨-, c, hheard, -⟩
  · exact .inl hsame
  · exact .inr ⟨c, hheard⟩

/-- The bytes looked at come one by one as well. -/
theorem exists_heard_of_part (h : bs <+: heard (log reads k)) :
    ∃ j ≤ k, heard (log reads j) = bs := by
  induction k with
  | zero => exact ⟨0, le_rfl, (List.prefix_nil.mp h).symm⟩
  | succ k ih =>
    have hbefore : bs <+: heard (log reads k) → ∃ j ≤ k + 1, heard (log reads j) = bs := by
      intro hbs
      obtain ⟨j, hj, hheard⟩ := ih hbs
      exact ⟨j, Nat.le_succ_of_le hj, hheard⟩
    rcases heard_succ_cases reads k with hsame | ⟨c, hheard⟩
    · exact hbefore (hsame ▸ h)
    · rcases List.prefix_concat_iff.mp (hheard ▸ h) with hbs | hbs
      · exact ⟨k + 1, le_rfl, hheard.trans hbs.symm⟩
      · exact hbefore hbs

/-- The turn that looked at the last byte. -/
theorem exists_heard_concat (h : heard (log reads k) = bs ++ [c]) :
    ∃ j < k, heard (log reads j) = bs ∧ heard (log reads (j + 1)) = bs ++ [c] := by
  induction k with
  | zero => exact absurd h.symm (List.append_ne_nil_of_right_ne_nil _ (List.cons_ne_nil _ _))
  | succ k ih =>
    rcases heard_succ_cases reads k with hsame | ⟨d, hheard⟩
    · obtain ⟨j, hj, hbefore⟩ := ih (hsame.symm.trans h)
      exact ⟨j, Nat.lt_succ_of_lt hj, hbefore⟩
    · have hsplit := List.append_inj' (hheard.symm.trans h) rfl
      exact ⟨k, Nat.lt_succ_self k, hsplit.1, h⟩

/-- The results `rs`, and then the same one for ever. -/
def stream (rs : List ReadResult) (tail : ReadResult) (k : ℕ) : ReadResult := rs.getD k tail

/-- The loop ends with the last byte, and not before. -/
structure StopsAt (realloc : ℤ → Bool) (cs : Text) : Prop where
  before : ∀ bs, bs <+: cs → bs ≠ cs → Goes realloc bs
  stops : Stops realloc cs

theorem stopsAt_concat :
    StopsAt realloc (cs ++ [c]) ↔ Passes realloc cs ∧ Stops realloc (cs ++ [c]) := by
  constructor
  · intro h
    refine ⟨fun bs hbs => h.before bs (hbs.trans (List.prefix_append cs [c])) ?_, h.stops⟩
    rintro rfl
    have hle := hbs.length_le
    rw [List.length_append, List.length_singleton] at hle
    omega
  · rintro ⟨hp, hs⟩
    refine ⟨fun bs hbs hne => ?_, hs⟩
    exact hp bs ((List.prefix_concat_iff.mp hbs).resolve_left hne)

section Stream

variable {rs : List ReadResult} {tail : ReadResult}

theorem stream_of_lt (h : k < rs.length) (tail : ReadResult) : stream rs tail k = rs[k] :=
  List.getD_eq_getElem rs tail h

theorem stream_of_le (h : rs.length ≤ k) (tail : ReadResult) : stream rs tail k = tail :=
  List.getD_eq_default rs tail h

theorem log_stream (rs : List ReadResult) (tail : ReadResult) (k : ℕ) :
    log (stream rs tail) k = rs.take k ++ List.replicate (k - rs.length) tail := by
  induction k with
  | zero =>
    rw [Nat.zero_sub]
    rfl
  | succ k ih =>
    rw [log_succ, ih]
    by_cases hlt : k < rs.length
    · have hnow : k - rs.length = 0 := by omega
      have hnext : k + 1 - rs.length = 0 := by omega
      rw [hnow, hnext, stream_of_lt hlt, List.take_add_one, List.getElem?_eq_getElem hlt]
      simp
    · have hle := Nat.le_of_not_lt hlt
      rw [stream_of_le hle, Nat.succ_sub hle, List.replicate_succ', List.take_of_length_le hle,
        List.take_of_length_le (Nat.le_succ_of_le hle), List.append_assoc]

theorem hear_eq_append {r : ReadResult} (h : ¬ r.Persistent) (cs : Text) :
    hear cs r = cs ++ bytes [r] := by
  cases r with
  | data c => rfl
  | error errno => exact (if_pos (not_not.mp h)).trans (List.append_nil cs).symm
  | eof => exact (List.append_nil cs).symm

theorem hear_persistent {r : ReadResult} (h : r.Persistent) (cs : Text) :
    hear cs r = cs ++ [stale cs] := by
  cases r with
  | error errno => exact if_neg h
  | data c => cases h
  | eof => cases h

theorem stale_replicate (cs : Text) (n : ℕ) :
    stale (cs ++ List.replicate n (stale cs)) = stale cs := by
  cases n with
  | zero => rw [List.replicate_zero, List.append_nil]
  | succ n => rw [List.replicate_succ', ← List.append_assoc, stale_append]

/-- Without persistent errors the loop looks at the bytes. -/
theorem heard_eq_bytes (h : ∀ r ∈ rs, ¬ r.Persistent) : heard rs = bytes rs := by
  induction rs using List.reverseRecOn with
  | nil => rfl
  | append_singleton rs r ih =>
    have hrest := ih fun r' hr' => h r' (List.mem_append_left [r] hr')
    rw [bytes_append, ← hrest, ← hear_eq_append (h r (by simp))]
    unfold heard
    rw [List.foldl_append]
    rfl

/-- Behind bytes and transient errors a persistent one repeats the last byte. -/
theorem heard_persistent (h : ∀ r ∈ rs, r.Plain) (htail : tail.Persistent) (n : ℕ) :
    heard (rs ++ List.replicate n tail) = bytes rs ++ List.replicate n (stale (bytes rs)) := by
  induction n with
  | zero => rw [List.replicate_zero, List.append_nil, List.replicate_zero, List.append_nil,
      heard_eq_bytes fun r hr => (h r hr).not_persistent]
  | succ n ih =>
    have hheard : heard (rs ++ List.replicate (n + 1) tail)
        = hear (heard (rs ++ List.replicate n tail)) tail := by
      rw [List.replicate_succ', ← List.append_assoc]
      unfold heard
      rw [List.foldl_append]
      rfl
    rw [hheard, ih, hear_persistent htail, stale_replicate, List.replicate_succ', List.append_assoc]

theorem bytes_persistent (rs : List ReadResult) (htail : tail.Persistent) (n : ℕ) :
    bytes (rs ++ List.replicate n tail) = bytes rs := by
  have hnone : bytes (List.replicate n tail) = [] := by
    refine List.filterMap_eq_nil_iff.mpr fun r hr => ?_
    rw [List.eq_of_mem_replicate hr]
    cases tail with
    | error errno => rfl
    | data c => cases htail
    | eof => cases htail
  rw [bytes_append, hnone, List.append_nil]

/-- The bytes looked at in the first turns. -/
theorem heard_log_of_le (hrs : ∀ r ∈ rs, r.Plain) (hk : k ≤ rs.length) :
    heard (log (stream rs tail) k) = bytes (rs.take k) := by
  rw [log_stream, Nat.sub_eq_zero_of_le hk, List.replicate_zero, List.append_nil]
  exact heard_eq_bytes fun r hr => (hrs r (List.mem_of_mem_take hr)).not_persistent

theorem bytes_log_of_le (hk : k ≤ rs.length) :
    bytes (log (stream rs tail) k) = bytes (rs.take k) := by
  rw [log_stream, Nat.sub_eq_zero_of_le hk, List.replicate_zero, List.append_nil]

/-- And in the turns behind them. -/
theorem heard_log_add (hrs : ∀ r ∈ rs, r.Plain) (htail : tail.Persistent) (n : ℕ) :
    heard (log (stream rs tail) (rs.length + n))
      = bytes rs ++ List.replicate n (stale (bytes rs)) := by
  rw [log_stream, List.take_of_length_le (Nat.le_add_right _ _), Nat.add_sub_cancel_left]
  exact heard_persistent hrs htail n

theorem bytes_log_add (htail : tail.Persistent) (n : ℕ) :
    bytes (log (stream rs tail) (rs.length + n)) = bytes rs := by
  rw [log_stream, List.take_of_length_le (Nat.le_add_right _ _), Nat.add_sub_cancel_left]
  exact bytes_persistent rs htail n

theorem stream_ne_eof (hrs : ∀ r ∈ rs, r.Plain) (hk : k < rs.length) : stream rs tail k ≠ .eof := by
  intro heof
  have hplain := hrs _ (List.getElem_mem hk)
  rw [← stream_of_lt hk tail, heof] at hplain
  exact hplain

/-- The loop stops with what it has looked at after the turn. -/
theorem stopsAt_of_endsWith (hgets : GetsTo realloc reads k)
    (hs : Stops realloc (heard (log reads (k + 1)))) :
    StopsAt realloc (heard (log reads (k + 1))) := by
  rcases heard_succ_cases reads k with hsame | ⟨c, hheard⟩
  · exact absurd (hsame ▸ hgets.2.goes) hs.not_goes
  · rw [hheard] at hs ⊢
    exact stopsAt_concat.mpr ⟨hgets.2, hs⟩

/-- With the last of the bytes looked at the loop ends in the turn that looks at it. -/
theorem exists_endsWith (hread : ∀ j < k, reads j ≠ .eof)
    (hs : StopsAt realloc (heard (log reads k))) :
    ∃ j < k, GetsTo realloc reads j ∧ heard (log reads (j + 1)) = heard (log reads k) ∧
      EndsWith realloc reads j
        ⟨result realloc (heard (log reads k)), bytes (log reads (j + 1))⟩ := by
  obtain hnil | ⟨bs, c, hlast⟩ := List.eq_nil_or_concat' (heard (log reads k))
  · rw [hnil] at hs
    exact absurd (goes_nil realloc) hs.stops.not_goes
  · obtain ⟨j, hj, hbefore, hheard⟩ := exists_heard_concat hlast
    rw [hlast] at hs ⊢
    obtain ⟨hp, hstops⟩ := stopsAt_concat.mp hs
    refine ⟨j, hj, ⟨fun i hi => hread i (hi.trans hj), hbefore.symm ▸ hp⟩, hheard,
      .inr ⟨hread j hj, ?_⟩⟩
    rw [hheard]
    exact ⟨hstops, rfl⟩

/-- **How the loop ends on a stream**: with a byte of it, at its end, or with the last byte once
more. -/
theorem ends_stream_iff (hrs : ∀ r ∈ rs, r.Plain) (htail : tail = .eof ∨ tail.Persistent)
    {o : Outcome} : Loop.Ends (fdTurn realloc (stream rs tail)) start o ↔
      (∃ cs, cs <+: bytes rs ∧ StopsAt realloc cs ∧ o = ⟨result realloc cs, cs⟩) ∨
        Passes realloc (bytes rs) ∧ tail = .eof ∧ o = ⟨none, bytes rs⟩ ∨
        tail.Persistent ∧ ∃ n,
          StopsAt realloc (bytes rs ++ List.replicate (n + 1) (stale (bytes rs))) ∧
          o = ⟨result realloc (bytes rs ++ List.replicate (n + 1) (stale (bytes rs))),
            bytes rs⟩ := by
  have hbytes : heard (log (stream rs tail) rs.length) = bytes rs := by
    rw [heard_log_of_le hrs le_rfl, List.take_length]
  rw [ends_iff]
  constructor
  · rintro ⟨k, hgets, ⟨heof, rfl⟩ | ⟨hread, hs, rfl⟩⟩
    · have hle : rs.length ≤ k := Nat.le_of_not_lt fun hlt => stream_ne_eof hrs hlt heof
      have heof' : tail = .eof := (stream_of_le hle tail).symm.trans heof
      have hk : k = rs.length := by
        by_contra hne
        exact hgets.1 rs.length (by omega) ((stream_of_le le_rfl tail).trans heof')
      subst hk
      refine .inr (.inl ⟨hbytes ▸ hgets.2, heof', ?_⟩)
      rw [bytes_log_of_le le_rfl, List.take_length]
    · have hstops := stopsAt_of_endsWith hgets hs
      by_cases hlt : k < rs.length
      · rw [bytes_log_of_le hlt]
        rw [heard_log_of_le hrs hlt] at hstops ⊢
        refine .inl ⟨_, ?_, hstops, rfl⟩
        rw [← hbytes, ← heard_log_of_le hrs hlt]
        exact heard_mono _ hlt
      · have hle := Nat.le_of_not_lt hlt
        have hlive := htail.resolve_left fun heof => hread ((stream_of_le hle tail).trans heof)
        obtain ⟨n, rfl⟩ := Nat.exists_eq_add_of_le hle
        rw [Nat.add_assoc, heard_log_add hrs hlive] at hstops ⊢
        rw [bytes_log_add hlive]
        exact .inr (.inr ⟨hlive, n, hstops, rfl⟩)
  · rintro (⟨cs, hcs, hs, rfl⟩ | ⟨hp, rfl, rfl⟩ | ⟨hlive, n, hs, rfl⟩)
    · rw [← hbytes] at hcs
      obtain ⟨i, hi, rfl⟩ := exists_heard_of_part hcs
      obtain ⟨j, hj, hgets, hheard, hends⟩ :=
        exists_endsWith (fun j hj => stream_ne_eof hrs (hj.trans_le hi)) hs
      refine ⟨j, hgets, ?_⟩
      have hsame : bytes (log (stream rs tail) (j + 1)) = heard (log (stream rs tail) i) := by
        rw [← hheard, heard_log_of_le hrs (by omega), bytes_log_of_le (by omega)]
      rw [hsame] at hends
      exact hends
    · refine ⟨rs.length, ⟨fun j hj => stream_ne_eof hrs hj, hbytes.symm ▸ hp⟩, .inl ⟨?_, ?_⟩⟩
      · exact stream_of_le le_rfl .eof
      · rw [bytes_log_of_le le_rfl, List.take_length]
    · have hread : ∀ j < rs.length + (n + 1), stream rs tail j ≠ .eof := by
        intro j hj heof
        by_cases hlt : j < rs.length
        · exact stream_ne_eof hrs hlt heof
        · rw [stream_of_le (Nat.le_of_not_lt hlt)] at heof
          rw [heof] at hlive
          exact hlive
      have hlong := heard_log_add hrs hlive (n + 1)
      rw [← hlong] at hs ⊢
      obtain ⟨j, hj, hgets, hheard, hends⟩ := exists_endsWith hread hs
      have hle : rs.length ≤ j + 1 := by
        by_contra hlt
        have hshort := (heard_mono (stream rs tail) (show j + 1 ≤ rs.length by omega)).length_le
        rw [hheard, hlong, hbytes, List.length_append, List.length_replicate] at hshort
        omega
      obtain ⟨m, hm⟩ := Nat.exists_eq_add_of_le hle
      rw [hm, bytes_log_add hlive] at hends
      exact ⟨j, hgets, hends⟩

end Stream

/-! ## The buffer -/

/-- There is memory for every size. -/
def plenty : ℤ → Bool := fun _ => true

/-- Every `strcat` stays inside the buffer, when there is memory for every size. -/
def InBounds (reads : ℕ → ReadResult) : Prop :=
  ∀ s, Loop.Reaches (fdTurn plenty reads) start s →
    ∀ s₁, received s (reads s.calls) = some s₁ →
      ∀ s₂, prepare plenty s₁ = .next s₂ → s₂.begun → Fits s₂

/-- The loop does not end before the last byte, and the level is an `int`. -/
def Unclosed (cs : Text) : Prop := ∀ bs, bs <+: cs → LevelOk bs ∧ (Closed bs → bs = cs)

theorem not_refused (cs : Text) : ¬ Refused plenty cs := fun hrefused => Bool.noConfusion hrefused.2

theorem sizeOk_of_lt (h : (kept cs).length ≤ 1024) : SizeOk cs := by
  unfold SizeOk roomFor intMax
  omega

theorem textFits_of_lt (h : (kept cs).length < 1024) : TextFits cs := by
  intro hne
  have hpos := List.length_pos_of_ne_nil hne
  have hle : (text cs).length ≤ (kept cs).length := List.length_filter_le _ _
  unfold roomFor
  omega

/-- A zero byte leaves room for the terminator. -/
theorem textFits_of_zero_mem (h : 0 ∈ kept cs) : TextFits cs := by
  intro _
  have hlt : (text cs).length < (kept cs).length :=
    List.length_filter_lt_length_iff_exists.mpr ⟨0, h, by simp⟩
  unfold roomFor
  omega

theorem text_eq_kept (h : 0 ∉ kept cs) : text cs = kept cs :=
  List.filter_eq_self.mpr fun _ hc => decide_eq_true (ne_of_mem_of_not_mem hc h)

/-- Without one there is none behind the 1024th byte. -/
theorem not_textFits (hlen : (kept cs).length = 1024) (h : 0 ∉ kept cs) : ¬ TextFits cs := by
  intro hfits
  have hne : kept cs ≠ [] := List.ne_nil_of_length_pos (by omega)
  have hle := hfits hne
  rw [text_eq_kept h, hlen] at hle
  unfold roomFor at hle
  omega

/-- The kept bytes come one by one. -/
theorem exists_prefix_kept (hn : n ≤ (kept cs).length) :
    ∃ bs, bs <+: cs ∧ (kept bs).length = n := by
  induction cs using List.reverseRecOn with
  | nil => exact ⟨[], List.prefix_refl _, (Nat.le_zero.mp hn).symm⟩
  | append_singleton cs c ih =>
    by_cases hle : n ≤ (kept cs).length
    · obtain ⟨bs, hbs, hlen⟩ := ih hle
      exact ⟨bs, hbs.trans (List.prefix_append cs [c]), hlen⟩
    · refine ⟨cs ++ [c], List.prefix_refl _, ?_⟩
      have hne : kept (cs ++ [c]) ≠ [] := List.ne_nil_of_length_pos (by omega)
      rw [kept_append_of_ne hne, List.length_append, List.length_singleton] at hn ⊢
      omega

/-- What is appended fits exactly when the string does. -/
theorem inBounds_iff_textFits : InBounds reads ↔ ∀ k, GetsTo plenty reads k → reads k ≠ .eof →
    LevelOk (heard (log reads (k + 1))) → SizeOk (heard (log reads (k + 1))) →
      TextFits (heard (log reads (k + 1))) := by
  constructor
  · intro h k hgets hread hlevel hsize
    rcases received_readerAt reads k with ⟨-, hsame, -⟩ | ⟨-, c, hheard, hsome⟩
    · exact hsame ▸ hgets.2.goes.fits
    · intro hne
      rw [hheard] at hlevel hsize hne ⊢
      have hprepare := prepare_view hgets.2.goes c (k + 1) (bytes (log reads (k + 1)))
      rw [if_pos ⟨hlevel, hsize⟩, if_neg (not_refused _)] at hprepare
      have hreach := reaches_iff.mpr ⟨k, rfl, hgets⟩
      have hfits := h _ hreach _ hsome _ hprepare (decide_eq_true hne)
      exact (fits_viewAtStrcat hne _ _).mp hfits hne
  · intro h s hs s₁ hs₁ s₂ hs₂ hbegun
    obtain ⟨k, rfl, hgets⟩ := reaches_iff.mp hs
    have hs₁ : received (readerAt reads k) (reads k) = some s₁ := hs₁
    rcases received_readerAt reads k with ⟨hnone, -⟩ | ⟨hread, c, hheard, hsome⟩
    · cases hnone.symm.trans hs₁
    · have hfits := h k hgets hread
      cases hsome.symm.trans hs₁
      rw [prepare_view hgets.2.goes c] at hs₂
      rw [hheard] at hfits
      split at hs₂
      next hok =>
        rw [if_neg (not_refused _)] at hs₂
        cases hs₂
        exact (fits_viewAtStrcat (of_decide_eq_true hbegun) _ _).mpr (hfits hok.1 hok.2)
      next => cases hs₂

/-- Fewer than 1024 kept bytes, and a loop that does not end before the last one. -/
theorem passes_plenty (hopen : Unclosed (bs ++ [c])) (hlen : (kept bs).length < 1024) :
    Passes plenty bs := by
  intro as has
  have hle := (kept_mono has).length_le
  obtain ⟨hlevel, hclosed⟩ := hopen as (has.trans (List.prefix_append bs [c]))
  refine ⟨hlevel, sizeOk_of_lt (by omega), not_refused as, textFits_of_lt (by omega), ?_⟩
  intro hend
  have hlast := has.length_le
  rw [hclosed hend, List.length_append, List.length_singleton] at hlast
  omega

/-- **The buffer is not overrun** exactly when no 1024 bytes without a `NUL` are kept in it. -/
theorem fdParse_inBounds_iff (reads : ℕ → ReadResult) : InBounds reads ↔
    ∀ k, (∀ j < k, reads j ≠ .eof) → Unclosed (heard (log reads k)) →
      (kept (heard (log reads k))).length = 1024 → 0 ∈ kept (heard (log reads k)) := by
  rw [inBounds_iff_textFits]
  constructor
  · intro h k hread hopen hlen
    by_contra hzero
    obtain ⟨bs, c, hlast⟩ : ∃ bs c, heard (log reads k) = bs ++ [c] := by
      rcases List.eq_nil_or_concat' (heard (log reads k)) with hnil | ⟨bs, c, hlast⟩
      · rw [hnil] at hlen
        exact absurd hlen (by decide)
      · exact ⟨bs, c, hlast⟩
    obtain ⟨j, hj, hbefore, hheard⟩ := exists_heard_concat hlast
    rw [hlast] at hlen hzero hopen
    have hne : kept (bs ++ [c]) ≠ [] := List.ne_nil_of_length_pos (by omega)
    have hkept := congrArg List.length (kept_append_of_ne hne)
    rw [List.length_append, List.length_singleton] at hkept
    have hgets : GetsTo plenty reads j := by
      refine ⟨fun i hi => hread i (hi.trans hj), ?_⟩
      rw [hbefore]
      exact passes_plenty hopen (by omega)
    have hfits := h j hgets (hread j hj)
    rw [hheard] at hfits
    have hlevel := (hopen _ (List.prefix_refl _)).1
    exact not_textFits hlen hzero (hfits hlevel (sizeOk_of_lt (by omega)))
  · intro h k hgets hread hlevel hsize
    by_cases hlt : (kept (heard (log reads (k + 1)))).length < 1024
    · exact textFits_of_lt hlt
    · obtain ⟨bs, hbs, hlen⟩ := exists_prefix_kept (Nat.le_of_not_lt hlt)
      obtain ⟨j, hj, rfl⟩ := exists_heard_of_part hbs
      have hbefore : ∀ i < j, reads i ≠ .eof := by
        intro i hi
        rcases Nat.lt_or_eq_of_le (Nat.le_of_lt_succ (hi.trans_le hj)) with hlt | rfl
        · exact hgets.1 i hlt
        · exact hread
      have hopen : Unclosed (heard (log reads j)) := by
        intro as has
        have hprefix := has.trans hbs
        have hgoes : as <+: heard (log reads k) →
            LevelOk as ∧ (Closed as → as = heard (log reads j)) := fun has =>
          ⟨(hgets.2 as has).level, fun hclosed => absurd hclosed (hgets.2 as has).opened⟩
        rcases heard_succ_cases reads k with hsame | ⟨c, hheard⟩
        · exact hgoes (hsame ▸ hprefix)
        · rcases List.prefix_concat_iff.mp (hheard ▸ hprefix) with hall | has'
          · have hall := hall.trans hheard.symm
            exact ⟨hall ▸ hlevel, fun _ => has.eq_of_length_le (hall ▸ hbs.length_le)⟩
          · exact hgoes has'
      exact textFits_of_zero_mem ((kept_mono hbs).subset (h j hbefore hopen hlen))

theorem kept_brackets (n : ℕ) :
    kept (List.replicate n openBracket) = List.replicate n openBracket := by
  cases n with
  | zero => rfl
  | succ n => exact kept_of_open (by decide) _

theorem depth_brackets (n : ℕ) : depth (List.replicate n openBracket) = n :=
  (depth_replicate n openBracket).trans (Int.mul_one _)

theorem unclosed_brackets (hn : n ≤ 1024) : Unclosed (List.replicate n openBracket) := by
  intro bs hbs
  obtain ⟨hle, hbs⟩ := List.prefix_replicate_iff.mp hbs
  rw [hbs]
  refine ⟨?_, fun hclosed => ?_⟩
  · unfold LevelOk intMin intMax
    rw [depth_brackets]
    omega
  · have hzero := hclosed.2
    rw [depth_brackets] at hzero
    rw [Int.natCast_eq_zero.mp hzero] at hclosed
    exact absurd rfl hclosed.1

/-- 1024 opening brackets, and the terminator behind them. -/
theorem fdParse_overrun : ¬ InBounds (stream (List.replicate 1024 (.data openBracket)) .eof) := by
  have hopens : ∀ r ∈ List.replicate 1024 (.data openBracket), ReadResult.Plain r := by
    intro r hr
    rw [List.eq_of_mem_replicate hr]
    exact trivial
  have hread : ∀ j < 1024, stream (List.replicate 1024 (.data openBracket)) .eof j ≠ .eof :=
    fun j hj => stream_ne_eof hopens (hj.trans_eq List.length_replicate.symm)
  have hheard : ∀ k ≤ 1024, heard (log (stream (List.replicate 1024 (.data openBracket)) .eof) k)
      = List.replicate k openBracket := by
    intro k hk
    rw [heard_log_of_le hopens (hk.trans_eq List.length_replicate.symm), List.take_replicate,
      Nat.min_eq_left hk]
    exact List.filterMap_replicate_of_some rfl
  have hopen : Unclosed (List.replicate 1023 openBracket ++ [openBracket]) := by
    rw [← List.replicate_succ']
    exact unclosed_brackets le_rfl
  have hgets : GetsTo plenty (stream (List.replicate 1024 (.data openBracket)) .eof) 1023 := by
    refine ⟨fun j hj => hread j (by omega), ?_⟩
    rw [hheard 1023 (by omega)]
    exact passes_plenty hopen (by rw [kept_brackets, List.length_replicate]; omega)
  intro h
  have hfits := inBounds_iff_textFits.mp h 1023 hgets (hread 1023 (by omega))
  rw [hheard 1024 le_rfl] at hfits
  have hlevel := (unclosed_brackets (n := 1024) le_rfl _ (List.prefix_refl _)).1
  refine not_textFits ?_ ?_ (hfits hlevel (sizeOk_of_lt ?_))
  · rw [kept_brackets, List.length_replicate]
  · rw [kept_brackets]
    exact fun hzero => absurd (List.eq_of_mem_replicate hzero) (by decide)
  · rw [kept_brackets, List.length_replicate]

/-! ## Termination -/

/-- The loop ends, and the function returns `NULL` unless a document was complete. -/
def Terminates (realloc : ℤ → Bool) (rs : List ReadResult) (tail : ReadResult) : Prop :=
  ∃ o, Loop.Ends (fdTurn realloc (stream rs tail)) start o ∧
    (returned o.str = some none ∨ ∃ bs, bs <+: bytes rs ∧ Closed bs)

/-- The last byte again and again ends the loop, with nothing that is parsed. -/
def Recovers (realloc : ℤ → Bool) (cs : Text) : Prop :=
  ∃ n, StopsAt realloc (cs ++ List.replicate (n + 1) (stale cs)) ∧
    returned (result realloc (cs ++ List.replicate (n + 1) (stale cs))) = some none

theorem StopsAt.closed (h : StopsAt realloc cs) :
    returned (result realloc cs) = some none ∨ Closed cs := by
  rcases h.stops.ends with hmem | ⟨-, hclosed⟩
  · unfold result
    rw [if_pos hmem]
    exact .inl rfl
  · exact .inr hclosed

theorem StopsAt.passes_replicate (h : StopsAt realloc (cs ++ List.replicate (n + 1) c)) :
    Passes realloc cs := by
  intro bs hbs
  refine h.before bs (hbs.trans (List.prefix_append _ _)) ?_
  rintro rfl
  have hle := hbs.length_le
  rw [List.length_append, List.length_replicate] at hle
  omega

section Termination

variable {rs : List ReadResult} {tail : ReadResult}

/-- **The loop ends on a stream that ends** exactly when a byte of it ends the loop, or it ends
with the end of the file, or its last byte ends the loop when it is taken again. -/
theorem fdParse_terminates_iff (hrs : ∀ r ∈ rs, r.Plain) (htail : tail = .eof ∨ tail.Persistent) :
    Terminates realloc rs tail ↔ (∃ cs, cs <+: bytes rs ∧ StopsAt realloc cs) ∨
      Passes realloc (bytes rs) ∧ (tail = .eof ∨ Recovers realloc (bytes rs)) := by
  constructor
  · rintro ⟨o, hends, hreturned⟩
    rcases (ends_stream_iff hrs htail).mp hends with ⟨cs, hcs, hs, -⟩ | ⟨hp, heof, -⟩
      | ⟨-, n, hs, rfl⟩
    · exact .inl ⟨cs, hcs, hs⟩
    · exact .inr ⟨hp, .inl heof⟩
    · have hp := hs.passes_replicate
      refine .inr ⟨hp, .inr ⟨n, hs, hreturned.resolve_right ?_⟩⟩
      rintro ⟨bs, hbs, hclosed⟩
      exact (hp bs hbs).opened hclosed
  · rintro (⟨cs, hcs, hs⟩ | ⟨hp, hrecovers⟩)
    · refine ⟨_, (ends_stream_iff hrs htail).mpr (.inl ⟨cs, hcs, hs, rfl⟩), ?_⟩
      exact hs.closed.imp_right fun hclosed => ⟨cs, hcs, hclosed⟩
    · by_cases heof : tail = .eof
      · exact ⟨_, (ends_stream_iff hrs htail).mpr (.inr (.inl ⟨hp, heof, rfl⟩)), .inl rfl⟩
      · obtain ⟨n, hs, hreturned⟩ := hrecovers.resolve_left heof
        have hlive := htail.resolve_left heof
        exact ⟨_, (ends_stream_iff hrs htail).mpr (.inr (.inr ⟨hlive, n, hs, rfl⟩)), .inl hreturned⟩

end Termination

/-- An array that a signal interrupts, in front of a read error. -/
theorem fdParse_terminates_interrupted :
    Terminates plenty [.data openBracket, .error eintr, .data closeBracket] (.error eio) := by
  refine (fdParse_terminates_iff (by decide) (.inr (by decide))).mpr
    (.inl ⟨[openBracket] ++ [closeBracket], List.prefix_refl _, stopsAt_concat.mpr ⟨?_, by decide⟩⟩)
  exact (@passes_append plenty [] openBracket).mpr ⟨passes_nil plenty, by decide⟩

/-- A directory is read for ever: the zero that `c` holds counts as an opening bracket. -/
theorem fdParse_directory : ¬ Terminates plenty [] (.error eisdir) := by
  rintro ⟨o, hends, -⟩
  have hnone : ∀ r ∈ ([] : List ReadResult), r.Plain := by decide
  rcases (ends_stream_iff hnone (.inr (by decide))).mp hends with ⟨cs, hcs, hs, -⟩ | ⟨-, heof, -⟩
    | ⟨-, n, hs, -⟩
  · rw [List.prefix_nil.mp hcs] at hs
    exact hs.stops.not_goes (goes_nil plenty)
  · cases heof
  · rcases hs.stops.ends with hmem | ⟨-, -, hdepth⟩
    · exact not_refused _ hmem
    · have hlevel : depth (List.replicate (n + 1) 0) = (n + 1 : ℕ) * 1 := depth_replicate (n + 1) 0
      have hzero : depth (List.replicate (n + 1) 0) = 0 := hdepth
      omega

/-! ## Framing -/

/-- The descriptor gives some bytes, with transient errors between them. -/
def Delivers (reads : ℕ → ReadResult) (cs : Text) : Prop :=
  (∀ k, ¬ (reads k).Persistent) ∧ ∃ k, (∀ j < k, reads j ≠ .eof) ∧ bytes (log reads k) = cs

theorem delivers_stream {rs : List ReadResult} (hrs : ∀ r ∈ rs, r.Plain) :
    Delivers (stream rs .eof) (bytes rs) := by
  refine ⟨fun k => ?_, rs.length, fun j hj => stream_ne_eof hrs hj, ?_⟩
  · by_cases hlt : k < rs.length
    · rw [stream_of_lt hlt]
      exact (hrs _ (List.getElem_mem hlt)).not_persistent
    · rw [stream_of_le (Nat.le_of_not_lt hlt)]
      exact id
  · rw [bytes_log_of_le le_rfl, List.take_length]

/-- `cJSON_fdParse` takes `P` and `D` from the descriptor and no more, and returns what
`cJSON_Parse` returns for `D`. -/
def Frames (realloc : ℤ → Bool) (reads : ℕ → ReadResult) (P D : Text) : Prop :=
  ∃ res, cJSONParse D = some res ∧
    ∃ str, Loop.Ends (fdTurn realloc reads) start ⟨str, P ++ D⟩ ∧ returned str = some res

/-- The brackets, those inside strings counted, balance at the end and not before. -/
def Counted (D : Text) : Prop := depth D = 0 ∧ ∀ bs, bs <+: D → bs ≠ [] → bs ≠ D → depth bs ≠ 0

theorem abs_depth_le (cs : Text) : -(cs.length : ℤ) ≤ depth cs ∧ depth cs ≤ cs.length := by
  induction cs using List.reverseRecOn with
  | nil => exact ⟨Int.le_refl 0, Int.le_refl 0⟩
  | append_singleton cs c ih =>
    have hweight : -1 ≤ weight c ∧ weight c ≤ 1 := by
      unfold weight
      split
      next => omega
      next => split <;> omega
    rw [depth_append, List.length_append, List.length_singleton]
    omega

/-- The level of a few bytes is an `int`. -/
theorem levelOk_of_lt (h : cs.length ≤ 1024) : LevelOk cs := by
  obtain ⟨hmin, hmax⟩ := abs_depth_le cs
  unfold LevelOk intMin intMax
  omega

theorem Delivers.heard_eq (h : Delivers reads cs) (k : ℕ) :
    heard (log reads k) = bytes (log reads k) := by
  refine heard_eq_bytes fun r hr => ?_
  obtain ⟨j, -, rfl⟩ := List.mem_map.mp hr
  exact h.1 j

section Framing

variable {P D R : Text}

theorem kept_unmarked (hP : ∀ c ∈ P, c ∉ openmark ∧ c ∉ closemark ∧ c ≠ 0) : kept P = [] := by
  refine List.dropWhile_eq_nil_iff.mpr fun c hc => decide_eq_true ?_
  rintro (hopen | hzero)
  · exact (hP c hc).1 hopen
  · exact (hP c hc).2.2 hzero

theorem depth_unmarked (hP : ∀ c ∈ P, c ∉ openmark ∧ c ∉ closemark ∧ c ≠ 0) : depth P = 0 := by
  refine List.sum_eq_zero fun n hn => ?_
  obtain ⟨c, hc, rfl⟩ := List.mem_map.mp hn
  obtain ⟨hopen, hclose, hzero⟩ := hP c hc
  have hnotOpen : ¬ strchr openmark c := not_or.mpr ⟨hopen, hzero⟩
  have hnotClose : ¬ strchr closemark c := not_or.mpr ⟨hclose, hzero⟩
  unfold weight
  rw [if_neg hnotOpen, if_neg hnotClose]

/-- Bytes that no bracket precedes are kept from the first one on. -/
theorem kept_unmarked_append (hP : ∀ c ∈ P, c ∉ openmark ∧ c ∉ closemark ∧ c ≠ 0) (bs : Text) :
    kept (P ++ bs) = kept bs := by
  rw [kept_append, if_pos (kept_unmarked hP)]

theorem depth_unmarked_append (hP : ∀ c ∈ P, c ∉ openmark ∧ c ∉ closemark ∧ c ≠ 0) (bs : Text) :
    depth (P ++ bs) = depth bs := by
  have hP := depth_unmarked hP
  unfold depth at hP ⊢
  rw [List.map_append, List.sum_append, hP, zero_add]

/-- A part of a text that begins with a bracket does so as well. -/
theorem kept_of_part (hopen : D.head? = some openBracket ∨ D.head? = some openBrace)
    (hbs : bs <+: D) : kept bs = bs := by
  cases bs with
  | nil => rfl
  | cons c bs =>
    obtain ⟨ds, rfl⟩ := hbs
    refine kept_of_open (.inl ?_) bs
    rcases hopen with hc | hc
    · rw [Option.some.inj hc]
      decide
    · rw [Option.some.inj hc]
      decide

theorem kept_text (hP : ∀ c ∈ P, c ∉ openmark ∧ c ∉ closemark ∧ c ≠ 0)
    (hopen : D.head? = some openBracket ∨ D.head? = some openBrace) (hbs : bs <+: D) :
    kept (P ++ bs) = bs :=
  (kept_unmarked_append hP bs).trans (kept_of_part hopen hbs)

/-- The first 1024 bytes need memory once. -/
theorem not_refused_of_lt (hlt : (kept cs).length < 1024) (hmem : realloc memstep = true) :
    ¬ Refused realloc cs := by
  rintro ⟨hone, hrefused⟩
  rw [show (kept cs).length = 1 by omega, roomFor_one] at hrefused
  cases hmem.symm.trans hrefused

/-- The loop goes on behind a part of the text, when its brackets do not balance. -/
theorem goes_part (hP : ∀ c ∈ P, c ∉ openmark ∧ c ∉ closemark ∧ c ≠ 0) (hkept : kept bs = bs)
    (hlt : bs.length < 1024) (hmem : realloc memstep = true) (hdepth : bs ≠ [] → depth bs ≠ 0) :
    Goes realloc (P ++ bs) := by
  have hkept' : kept (P ++ bs) = bs := (kept_unmarked_append hP bs).trans hkept
  have hlen : (kept (P ++ bs)).length < 1024 := hkept'.symm ▸ hlt
  have hlevel : LevelOk (P ++ bs) := by
    unfold LevelOk
    rw [depth_unmarked_append hP]
    exact levelOk_of_lt hlt.le
  refine ⟨hlevel, sizeOk_of_lt hlen.le, not_refused_of_lt hlen hmem, textFits_of_lt hlen, ?_⟩
  rintro ⟨hne, hzero⟩
  rw [hkept'] at hne
  rw [depth_unmarked_append hP] at hzero
  exact hdepth hne hzero

/-- It stops behind the text, when they balance there for the first time. -/
theorem stopsAt_text (hP : ∀ c ∈ P, c ∉ openmark ∧ c ∉ closemark ∧ c ≠ 0)
    (hopen : D.head? = some openBracket ∨ D.head? = some openBrace) (hD : Counted D)
    (hlt : D.length < 1024) (hmem : realloc memstep = true) : StopsAt realloc (P ++ D) := by
  have hkept := kept_text hP hopen (List.prefix_refl D)
  have hlen : (kept (P ++ D)).length < 1024 := hkept.symm ▸ hlt
  constructor
  · intro bs hbs hne
    rcases List.prefix_or_prefix_of_prefix hbs (List.prefix_append P D) with hshort | ⟨as, rfl⟩
    · have hgoes : Goes realloc (bs ++ []) :=
        goes_part (fun c hc => hP c (hshort.subset hc)) rfl (by decide) hmem
          (fun hnil => absurd rfl hnil)
      rw [List.append_nil] at hgoes
      exact hgoes
    · have has : as <+: D := (List.prefix_append_right_inj P).mp hbs
      refine goes_part hP (kept_of_part hopen has) (has.length_le.trans_lt hlt) hmem ?_
      exact fun hnil => hD.2 as has hnil fun hall => hne (congrArg (P ++ ·) hall)
  · have hne : D ≠ [] := by
      rintro rfl
      exact hopen.elim nofun nofun
    have hlevel : LevelOk (P ++ D) := by
      unfold LevelOk
      rw [depth_unmarked_append hP]
      exact levelOk_of_lt hlt.le
    refine ⟨hlevel, sizeOk_of_lt hlen.le, .inr ⟨textFits_of_lt hlen, ?_, ?_⟩⟩
    · rw [hkept]
      exact hne
    · rw [depth_unmarked_append hP]
      exact hD.1

theorem StopsAt.goes (hs : StopsAt realloc (P ++ D)) (hbs : bs <+: D) (hne : bs ≠ D) :
    Goes realloc (P ++ bs) :=
  hs.before _ ((List.prefix_append_right_inj P).mpr hbs) fun hall =>
    hne (List.append_cancel_left hall)

/-- Where the loop stops behind the text, the brackets balance for the first time. -/
theorem counted_of_stopsAt (hP : ∀ c ∈ P, c ∉ openmark ∧ c ∉ closemark ∧ c ≠ 0)
    (hopen : D.head? = some openBracket ∨ D.head? = some openBrace)
    (hs : StopsAt realloc (P ++ D)) (hclosed : Closed (P ++ D)) : Counted D := by
  refine ⟨(depth_unmarked_append hP D).symm.trans hclosed.2, fun bs hbs hnil hne hdepth => ?_⟩
  refine (hs.goes hbs hne).opened ⟨?_, (depth_unmarked_append hP bs).trans hdepth⟩
  rw [kept_text hP hopen hbs]
  exact hnil

/-- And the text has fewer than 1024 bytes. -/
theorem length_lt_of_stopsAt (hP : ∀ c ∈ P, c ∉ openmark ∧ c ∉ closemark ∧ c ≠ 0)
    (hopen : D.head? = some openBracket ∨ D.head? = some openBrace) (hzero : 0 ∉ D)
    (hs : StopsAt realloc (P ++ D)) (hfits : TextFits (P ++ D)) : D.length < 1024 := by
  by_contra hlong
  have hbs := List.take_prefix 1024 D
  have htake : (D.take 1024).length = 1024 := List.length_take_of_le (Nat.le_of_not_lt hlong)
  have hover : ¬ TextFits (P ++ D.take 1024) := by
    refine not_textFits ?_ ?_
    · rw [kept_text hP hopen hbs, htake]
    · rw [kept_text hP hopen hbs]
      exact fun hmem => hzero (List.mem_of_mem_take hmem)
  by_cases hall : D.take 1024 = D
  · rw [hall] at hover
    exact hover hfits
  · exact hover (hs.goes hbs hall).fits

/-- For which there was memory. -/
theorem granted_of_stopsAt (hP : ∀ c ∈ P, c ∉ openmark ∧ c ∉ closemark ∧ c ≠ 0)
    (hopen : D.head? = some openBracket ∨ D.head? = some openBrace)
    (hs : StopsAt realloc (P ++ D)) (hD : Counted D) : realloc memstep = true := by
  cases D with
  | nil => exact absurd hopen (by simp)
  | cons c ds =>
    have hone : [c] <+: c :: ds := ⟨ds, rfl⟩
    have hne : [c] ≠ c :: ds := by
      intro hall
      have hdepth := hD.1
      rw [← hall] at hdepth
      rcases hopen with hc | hc
      · rw [Option.some.inj hc] at hdepth
        exact absurd hdepth (by decide)
      · rw [Option.some.inj hc] at hdepth
        exact absurd hdepth (by decide)
    by_contra hmem
    refine (hs.goes hone hne).memory ⟨?_, ?_⟩
    · rw [kept_text hP hopen hone]
      rfl
    · rw [kept_text hP hopen hone, List.length_singleton, roomFor_one]
      exact Bool.eq_false_iff.mpr hmem

/-- **A text is framed** exactly when its brackets, those inside strings counted, balance at its
end and not before, and it has fewer than 1024 bytes, for which there is memory. -/
theorem fdParse_frames_iff (hD : Document D)
    (hopen : D.head? = some openBracket ∨ D.head? = some openBrace)
    (hP : ∀ c ∈ P, c ∉ openmark ∧ c ∉ closemark ∧ c ≠ 0) (hreads : Delivers reads (P ++ D ++ R)) :
    Frames realloc reads P D ↔ Counted D ∧ D.length < 1024 ∧ realloc memstep = true := by
  constructor
  · rintro ⟨res, hres, str, hends, hreturned⟩
    obtain ⟨item, hitem⟩ := cJSONParse_document hD
    obtain rfl := Option.some.inj (hres.symm.trans hitem)
    obtain ⟨k, hgets, hend⟩ := ends_iff.mp hends
    have hstr : str ≠ none := by
      rintro rfl
      cases hreturned
    rcases hend with ⟨-, hend⟩ | ⟨-, hs, hend⟩
    · exact absurd (congrArg Outcome.str hend) hstr
    · have hstops := stopsAt_of_endsWith hgets hs
      have hconsumed : P ++ D = heard (log reads (k + 1)) :=
        (congrArg Outcome.consumed hend).trans (hreads.heard_eq (k + 1)).symm
      have hresult : str = result realloc (P ++ D) := by
        rw [hconsumed]
        exact congrArg Outcome.str hend
      rw [← hconsumed] at hstops
      obtain ⟨hfits, hclosed⟩ := hstops.stops.ends.resolve_left fun hrefused =>
        hstr (hresult.trans (if_pos hrefused))
      have hcounted := counted_of_stopsAt hP hopen hstops hclosed
      exact ⟨hcounted, length_lt_of_stopsAt hP hopen hD.zero_notMem hstops hfits,
        granted_of_stopsAt hP hopen hstops hcounted⟩
  · rintro ⟨hcounted, hlt, hmem⟩
    obtain ⟨item, hitem⟩ := cJSONParse_document hD
    have hs : StopsAt realloc (P ++ D) := stopsAt_text hP hopen hcounted hlt hmem
    obtain ⟨n, hread, hbytes⟩ := hreads.2
    have hprefix : P ++ D <+: heard (log reads n) := by
      rw [hreads.heard_eq, hbytes]
      exact List.prefix_append _ _
    obtain ⟨i, hi, hheard⟩ := exists_heard_of_part hprefix
    rw [← hheard] at hs
    obtain ⟨j, hj, hgets, hlast, hend⟩ :=
      exists_endsWith (fun j hj => hread j (hj.trans_le hi)) hs
    rw [← hreads.heard_eq, hlast, hheard] at hend
    have hkept := kept_text hP hopen (List.prefix_refl D)
    have hresult : result realloc (P ++ D) = some D := by
      unfold result
      rw [if_neg (not_refused_of_lt (hkept.symm ▸ hlt) hmem),
        text_eq_kept (hkept.symm ▸ hD.zero_notMem), hkept]
    rw [hresult] at hend
    exact ⟨some item, hitem, some D, ends_iff.mpr ⟨j, hgets, hend⟩, hitem⟩

/-- An empty array, behind a blank and in front of another character. -/
theorem fdParse_frames_emptyArray :
    Frames plenty (stream [.data 0x20, .data openBracket, .error eintr, .data closeBracket,
      .data 0x78] .eof) [0x20] [openBracket, closeBracket] := by
  have hD : Document [openBracket, closeBracket] := ⟨_, _, .nil, .emptyArray .nil, .nil⟩
  have hcounted : Counted [openBracket, closeBracket] := by
    refine ⟨by decide, fun bs hbs hnil hne => ?_⟩
    rcases List.prefix_concat_iff.mp (show bs <+: [openBracket] ++ [closeBracket] from hbs)
      with hall | hbs
    · exact absurd hall hne
    · rcases List.prefix_concat_iff.mp (show bs <+: [] ++ [openBracket] from hbs) with rfl | hbs
      · decide
      · exact absurd (List.prefix_nil.mp hbs) hnil
  exact (fdParse_frames_iff (R := [0x78]) hD (.inl rfl)
    (forall_mem_of_all (by decide))
    (delivers_stream (by decide))).mpr ⟨hcounted, by decide, rfl⟩

/-- A closing bracket in a string ends the text for `cJSON_fdParse`. -/
theorem fdParse_cuts_string :
    Document [openBracket, quote, closeBracket, quote, closeBracket] ∧
      Delivers (stream ([openBracket, quote, closeBracket, quote, closeBracket].map .data) .eof)
        [openBracket, quote, closeBracket, quote, closeBracket] ∧
      ¬ Frames plenty
        (stream ([openBracket, quote, closeBracket, quote, closeBracket].map .data) .eof)
        [] [openBracket, quote, closeBracket, quote, closeBracket] := by
  refine ⟨⟨_, _, .nil, .array (.lastItem .nil (.string (.mk (.plain ?_ ?_ ?_ .nil))) .nil), .nil⟩,
    delivers_stream (by decide), ?_⟩
  · decide
  · decide
  · decide
  · rintro ⟨res, -, str, hends, -⟩
    have hcut : Loop.Ends (fdTurn plenty
        (stream ([openBracket, quote, closeBracket, quote, closeBracket].map .data) .eof)) start
        ⟨some [openBracket, quote, closeBracket], [openBracket, quote, closeBracket]⟩ :=
      ⟨3, by decide⟩
    have hconsumed : [openBracket, quote, closeBracket, quote, closeBracket]
        = [openBracket, quote, closeBracket] := congrArg Outcome.consumed (hends.unique hcut)
    exact absurd hconsumed (by decide)

end Framing

end FdParse

end Dungeon

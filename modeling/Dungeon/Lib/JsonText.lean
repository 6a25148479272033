import Mathlib.Data.List.Basic
import Mathlib.Data.Nat.Notation

/-!
# JSON texts

The grammar of JSON over bytes, as relations between a text and what is left of it after a
phrase. Bytes above `0x7F` stand in strings as they are, so every UTF-8 text is covered.

- `Ws`, `Digits`, `Num`, `Str`: white space, runs of digits, numbers, strings.
- `Derives`: values, the items of an array and the members of an object, each up to and with its
  closing bracket.
- `Document`: a value between white space.
- `Follows`: what may come after a value inside a document; a number ends before it.
- `Spans`: what a phrase consists of, and that no byte of it is zero.
-/

namespace JsonText

abbrev Text := List UInt8

/-! ## Bytes with a meaning -/

/-- `[` -/
def openBracket : UInt8 := 0x5B

/-- `]` -/
def closeBracket : UInt8 := 0x5D

/-- An opening curly bracket. -/
def openBrace : UInt8 := 0x7B

/-- A closing curly bracket. -/
def closeBrace : UInt8 := 0x7D

def comma : UInt8 := 0x2C

def colon : UInt8 := 0x3A

def quote : UInt8 := 0x22

def backslash : UInt8 := 0x5C

def minus : UInt8 := 0x2D

def plus : UInt8 := 0x2B

def point : UInt8 := 0x2E

def zero : UInt8 := 0x30

/-- `e`, `E` -/
def exponents : Text := [0x65, 0x45]

/-- `u` -/
def letterU : UInt8 := 0x75

/-- `null` -/
def wordNull : Text := [0x6E, 0x75, 0x6C, 0x6C]

/-- `false` -/
def wordFalse : Text := [0x66, 0x61, 0x6C, 0x73, 0x65]

/-- `true` -/
def wordTrue : Text := [0x74, 0x72, 0x75, 0x65]

/-- What may stand behind a backslash, apart from a `u`: quote, backslash, `/`, `b`, `f`, `n`, `r`,
`t`. -/
def escapes : Text := [quote, backslash, 0x2F, 0x62, 0x66, 0x6E, 0x72, 0x74]

/-- Blank, tab, line feed, carriage return. -/
def blanks : Text := [0x20, 0x09, 0x0A, 0x0D]

/-- A decimal digit. -/
def IsDigit (c : UInt8) : Prop := 0x30 ≤ c ∧ c ≤ 0x39

instance (c : UInt8) : Decidable (IsDigit c) := inferInstanceAs (Decidable (_ ∧ _))

/-- A hexadecimal digit. -/
def IsHex (c : UInt8) : Prop := IsDigit c ∨ (0x61 ≤ c ∧ c ≤ 0x66) ∨ (0x41 ≤ c ∧ c ≤ 0x46)

instance (c : UInt8) : Decidable (IsHex c) := inferInstanceAs (Decidable (_ ∨ _ ∨ _))

/-! ## Tokens -/

/-- White space, or none. -/
inductive Ws : Text → Text → Prop
  | nil {s} : Ws s s
  | cons {c s t} (hc : c ∈ blanks) (hs : Ws s t) : Ws (c :: s) t

/-- A run of digits, or none. -/
inductive Digits : Text → Text → Prop
  | nil {s} : Digits s s
  | cons {c s t} (hc : IsDigit c) (hs : Digits s t) : Digits (c :: s) t

/-- The integral part of a number: zero, or digits that do not begin with one. -/
inductive Int : Text → Text → Prop
  | zero {s} : Int (zero :: s) s
  | digits {c s t} (hc : IsDigit c) (hne : c ≠ zero) (hs : Digits s t) : Int (c :: s) t

/-- The fraction of a number, if there is one. -/
inductive Frac : Text → Text → Prop
  | none {s} : Frac s s
  | some {c s t} (hc : IsDigit c) (hs : Digits s t) : Frac (point :: c :: s) t

/-- The sign of an exponent, if there is one. -/
inductive Sign : Text → Text → Prop
  | none {s} : Sign s s
  | plus {s} : Sign (plus :: s) s
  | minus {s} : Sign (minus :: s) s

/-- The exponent of a number, if there is one. -/
inductive Exp : Text → Text → Prop
  | none {s} : Exp s s
  | some {e c s s' t} (he : e ∈ exponents) (hsign : Sign s (c :: s'))
      (hc : IsDigit c) (hs : Digits s' t) : Exp (e :: s) t

/-- A number. -/
inductive Num : Text → Text → Prop
  | pos {s a b t} (hint : Int s a) (hfrac : Frac a b) (hexp : Exp b t) : Num s t
  | neg {s a b t} (hint : Int s a) (hfrac : Frac a b) (hexp : Exp b t) : Num (minus :: s) t

/-- The characters of a string. -/
inductive Chars : Text → Text → Prop
  | nil {s} : Chars s s
  | plain {c s t} (hc : 0x20 ≤ c) (hquote : c ≠ quote) (hesc : c ≠ backslash)
      (hs : Chars s t) : Chars (c :: s) t
  | escape {c s t} (hc : c ∈ escapes) (hs : Chars s t) : Chars (backslash :: c :: s) t
  | unicode {c₁ c₂ c₃ c₄ s t} (h₁ : IsHex c₁) (h₂ : IsHex c₂) (h₃ : IsHex c₃) (h₄ : IsHex c₄)
      (hs : Chars s t) : Chars (backslash :: letterU :: c₁ :: c₂ :: c₃ :: c₄ :: s) t

/-- A string. -/
inductive Str : Text → Text → Prop
  | mk {s t} (hs : Chars s (quote :: t)) : Str (quote :: s) t

/-! ## Values -/

/-- The phrases that contain each other. -/
inductive Kind where
  | value
  | items
  | members

/-- A value; the items of an array with `]`; the members of an object with `}`. -/
inductive Derives : Kind → Text → Text → Prop
  | null {s} : Derives .value (wordNull ++ s) s
  | false {s} : Derives .value (wordFalse ++ s) s
  | true {s} : Derives .value (wordTrue ++ s) s
  | number {s t} (hs : Num s t) : Derives .value s t
  | string {s t} (hs : Str s t) : Derives .value s t
  | emptyArray {s t} (hs : Ws s (closeBracket :: t)) : Derives .value (openBracket :: s) t
  | array {s t} (hs : Derives .items s t) : Derives .value (openBracket :: s) t
  | emptyObject {s t} (hs : Ws s (closeBrace :: t)) : Derives .value (openBrace :: s) t
  | object {s t} (hs : Derives .members s t) : Derives .value (openBrace :: s) t
  | lastItem {s a b t} (hw : Ws s a) (hv : Derives .value a b) (hw' : Ws b (closeBracket :: t)) :
      Derives .items s t
  | item {s a b c t} (hw : Ws s a) (hv : Derives .value a b) (hw' : Ws b (comma :: c))
      (hs : Derives .items c t) : Derives .items s t
  | lastMember {s a b c d e t} (hw : Ws s a) (hname : Str a b) (hcolon : Ws b (colon :: c))
      (hw' : Ws c d) (hv : Derives .value d e) (hw'' : Ws e (closeBrace :: t)) :
      Derives .members s t
  | member {s a b c d e f t} (hw : Ws s a) (hname : Str a b) (hcolon : Ws b (colon :: c))
      (hw' : Ws c d) (hv : Derives .value d e) (hw'' : Ws e (comma :: f))
      (hs : Derives .members f t) : Derives .members s t

/-- A whole text. -/
def Document (s : Text) : Prop := ∃ a b, Ws s a ∧ Derives .value a b ∧ Ws b []

variable {k : Kind} {s t u : Text} {c : UInt8}

/-- What holds of each byte of a list, by a check of the list. -/
theorem forall_mem_of_all {p : UInt8 → Prop} [DecidablePred p]
    (h : s.all (fun c => decide (p c)) = true) : ∀ c ∈ s, p c :=
  fun c hc => of_decide_eq_true (List.all_eq_true.mp h c hc)

/-! ## What comes after -/

/-- The bytes that may come next behind a value. -/
def followers : Text := comma :: closeBracket :: closeBrace :: blanks

/-- White space, a comma or a closing bracket comes next, or the end. -/
def Follows (t : Text) : Prop := ∀ c ∈ t.head?, c ∈ followers

theorem Ws.follows (h : Ws s (c :: t)) (hc : c ∈ [comma, closeBracket, closeBrace]) :
    Follows s := by
  cases h with
  | nil =>
    rintro d hd
    obtain rfl := Option.mem_some_iff.mp hd
    exact List.mem_append_left blanks hc
  | cons hb _ =>
    rintro d hd
    obtain rfl := Option.mem_some_iff.mp hd
    exact List.mem_append_right [comma, closeBracket, closeBrace] hb

theorem Ws.follows_end (h : Ws s []) : Follows s := by
  cases h with
  | nil => exact nofun
  | cons hb _ =>
    rintro d hd
    obtain rfl := Option.mem_some_iff.mp hd
    exact List.mem_append_right [comma, closeBracket, closeBrace] hb

/-- What an exponent begins with, or what comes after a number without one. -/
theorem Exp.head (h : Exp s t) (ht : Follows t) : ∀ c ∈ s.head?, c ∈ exponents ++ followers := by
  cases h with
  | none => exact fun c hc => List.mem_append_right _ (ht c hc)
  | some he _ _ _ =>
    intro c hc
    obtain rfl := Option.mem_some_iff.mp hc
    exact List.mem_append_left _ he

/-- What a fraction begins with, or what comes after a number without one. -/
theorem Frac.head (h : Frac s t) (hexp : Exp t u) (hu : Follows u) :
    ∀ c ∈ s.head?, c ∈ point :: exponents ++ followers := by
  cases h with
  | none => exact fun c hc => List.mem_cons_of_mem _ (hexp.head hu c hc)
  | some _ _ =>
    intro c hc
    obtain rfl := Option.mem_some_iff.mp hc
    exact List.mem_cons_self

/-- Inside a string, a backslash and a `u` begin an escape of four digits. -/
theorem Chars.unicode_inv (h : Chars (backslash :: letterU :: s) (quote :: t)) :
    ∃ c₁ c₂ c₃ c₄ s', s = c₁ :: c₂ :: c₃ :: c₄ :: s' ∧ IsHex c₁ ∧ IsHex c₂ ∧ IsHex c₃ ∧ IsHex c₄ ∧
      Chars s' (quote :: t) := by
  generalize hu : quote :: t = u at h
  generalize hb : backslash = b at h
  generalize hl : letterU = l at h
  cases h with
  | nil => exact absurd ((List.cons.inj hu).1.trans hb.symm) (by decide)
  | plain _ _ hesc _ => exact absurd hb.symm hesc
  | escape hc _ => exact absurd (hl ▸ hc) (by decide)
  | unicode h₁ h₂ h₃ h₄ hs => exact ⟨_, _, _, _, _, rfl, h₁, h₂, h₃, h₄, hs⟩

/-- The first byte of a number. -/
theorem Num.head (h : Num s t) : ∃ c s', s = c :: s' ∧ (c = minus ∨ IsDigit c) := by
  cases h with
  | pos hint _ _ =>
    cases hint with
    | zero => exact ⟨_, _, rfl, .inr (by decide)⟩
    | digits hc _ _ => exact ⟨_, _, rfl, .inr hc⟩
  | neg _ _ _ => exact ⟨_, _, rfl, .inl rfl⟩

/-- A value begins neither with white space nor with a closing bracket. -/
theorem Derives.head (h : Derives .value s t) :
    ∃ c s', s = c :: s' ∧ 0x20 < c ∧ c ≠ closeBracket := by
  cases h with
  | null | false | true => exact ⟨_, _, rfl, by decide, by decide⟩
  | number hs =>
    obtain ⟨c, s', rfl, rfl | hc⟩ := hs.head
    · exact ⟨_, _, rfl, by decide, by decide⟩
    · refine ⟨_, _, rfl, UInt8.lt_of_lt_of_le (by decide) hc.1, ?_⟩
      rintro rfl
      exact absurd hc (by decide)
  | string hs =>
    obtain ⟨hs⟩ := hs
    exact ⟨_, _, rfl, by decide, by decide⟩
  | emptyArray | array | emptyObject | object => exact ⟨_, _, rfl, by decide, by decide⟩

/-- An array that is not empty begins with an item. -/
theorem Derives.items_head (h : Derives .items s t) :
    ∃ c a, Ws s (c :: a) ∧ 0x20 < c ∧ c ≠ closeBracket := by
  cases h with
  | lastItem hw hv _ | item hw hv _ _ =>
    obtain ⟨c, a, rfl, hc⟩ := hv.head
    exact ⟨c, a, hw, hc⟩

/-- An object that is not empty begins with a name. -/
theorem Derives.members_head (h : Derives .members s t) : ∃ a, Ws s (quote :: a) := by
  cases h with
  | lastMember hw hname _ _ _ _ | member hw hname _ _ _ _ _ =>
    obtain ⟨hs⟩ := hname
    exact ⟨_, hw⟩

/-! ## What a phrase consists of -/

/-- `s` is a piece without zero bytes in front of `t`. -/
def Spans (s t : Text) : Prop := ∃ u, s = u ++ t ∧ 0 ∉ u

theorem Spans.refl : Spans s s := ⟨[], rfl, List.not_mem_nil⟩

theorem Spans.trans (h : Spans s t) (h' : Spans t u) : Spans s u := by
  obtain ⟨p, rfl, hp⟩ := h
  obtain ⟨q, rfl, hq⟩ := h'
  exact ⟨p ++ q, (List.append_assoc p q u).symm, fun hmem => (List.mem_append.mp hmem).elim hp hq⟩

theorem Spans.cons (hc : c ≠ 0) (h : Spans s t) : Spans (c :: s) t := by
  obtain ⟨p, rfl, hp⟩ := h
  exact ⟨c :: p, rfl, fun hmem => (List.mem_cons.mp hmem).elim (fun heq => hc heq.symm) hp⟩

/-- A word is a phrase. -/
theorem Spans.word {w : Text} (hw : 0 ∉ w) : Spans (w ++ s) s := ⟨w, rfl, hw⟩

theorem Spans.length_le (h : Spans s t) : t.length ≤ s.length := by
  obtain ⟨p, rfl, -⟩ := h
  rw [List.length_append]
  exact Nat.le_add_left _ _

/-- A byte from `n` on is not zero. -/
theorem ne_zero_of_le {n : UInt8} (hn : 0 < n) (hc : n ≤ c) : c ≠ 0 := by
  rintro rfl
  exact absurd hn (UInt8.not_lt.mpr hc)

theorem IsDigit.ne_zero (h : IsDigit c) : c ≠ 0 := ne_zero_of_le (by decide) h.1

theorem IsHex.ne_zero (h : IsHex c) : c ≠ 0 := by
  obtain hdigit | ⟨hlow, -⟩ | ⟨hup, -⟩ := h
  · exact hdigit.ne_zero
  · exact ne_zero_of_le (by decide) hlow
  · exact ne_zero_of_le (by decide) hup

theorem Ws.spans (h : Ws s t) : Spans s t := by
  induction h with
  | nil => exact .refl
  | cons hc _ ih => exact ih.cons ((forall_mem_of_all (by decide) : ∀ c ∈ blanks, c ≠ 0) _ hc)

theorem Digits.spans (h : Digits s t) : Spans s t := by
  induction h with
  | nil => exact .refl
  | cons hc _ ih => exact ih.cons hc.ne_zero

theorem Int.spans (h : Int s t) : Spans s t := by
  cases h with
  | zero => exact Spans.refl.cons (by decide)
  | digits hc _ hs => exact hs.spans.cons hc.ne_zero

theorem Frac.spans (h : Frac s t) : Spans s t := by
  cases h with
  | none => exact .refl
  | some hc hs => exact (hs.spans.cons hc.ne_zero).cons (by decide)

theorem Sign.spans (h : Sign s t) : Spans s t := by
  cases h with
  | none => exact .refl
  | plus | minus => exact Spans.refl.cons (by decide)

theorem Exp.spans (h : Exp s t) : Spans s t := by
  cases h with
  | none => exact .refl
  | some he hsign hc hs =>
    exact (hsign.spans.trans (hs.spans.cons hc.ne_zero)).cons
      ((forall_mem_of_all (by decide) : ∀ c ∈ exponents, c ≠ 0) _ he)

theorem Num.spans (h : Num s t) : Spans s t := by
  cases h with
  | pos hint hfrac hexp => exact (hint.spans.trans hfrac.spans).trans hexp.spans
  | neg hint hfrac hexp =>
    exact ((hint.spans.trans hfrac.spans).trans hexp.spans).cons (by decide)

theorem Chars.spans (h : Chars s t) : Spans s t := by
  induction h with
  | nil => exact .refl
  | plain hc _ _ _ ih => exact ih.cons (ne_zero_of_le (by decide) hc)
  | escape hc _ ih =>
    exact (ih.cons ((forall_mem_of_all (by decide) : ∀ c ∈ escapes, c ≠ 0) _ hc)).cons (by decide)
  | unicode h₁ h₂ h₃ h₄ _ ih =>
    have hhex := (((ih.cons h₄.ne_zero).cons h₃.ne_zero).cons h₂.ne_zero).cons h₁.ne_zero
    exact (hhex.cons (by decide)).cons (by decide)

theorem Str.spans (h : Str s t) : Spans s t := by
  obtain ⟨hs⟩ := h
  exact (hs.spans.trans (Spans.refl.cons (by decide))).cons (by decide)

theorem Num.length_lt (h : Num s t) : t.length < s.length := by
  have hint : ∀ {s a b : Text}, Int s a → Frac a b → Exp b t → t.length < s.length := by
    intro s a b hint hfrac hexp
    have hle := (hfrac.spans.trans hexp.spans).length_le
    cases hint with
    | zero => exact Nat.lt_succ_of_le hle
    | digits _ _ hs => exact Nat.lt_succ_of_le (Nat.le_trans hle hs.spans.length_le)
  cases h with
  | pos h hfrac hexp => exact hint h hfrac hexp
  | neg h hfrac hexp => exact Nat.lt_succ_of_lt (hint h hfrac hexp)

theorem Str.length_lt (h : Str s t) : t.length < s.length := by
  obtain ⟨hs⟩ := h
  have hle := hs.spans.length_le
  rw [List.length_cons] at hle ⊢
  omega

/-- White space, and a byte behind it. -/
theorem Ws.spans_cons (h : Ws s (c :: t)) (hc : c ≠ 0) : Spans s t := h.spans.trans (.cons hc .refl)

theorem Derives.spans (h : Derives k s t) : Spans s t := by
  induction h with
  | null | false | true => exact .word (by decide)
  | number hs => exact hs.spans
  | string hs => exact hs.spans
  | emptyArray hs | emptyObject hs => exact (hs.spans_cons (by decide)).cons (by decide)
  | array _ ih | object _ ih => exact ih.cons (by decide)
  | lastItem hw _ hw' ih => exact (hw.spans.trans ih).trans (hw'.spans_cons (by decide))
  | item hw _ hw' _ ih ih' =>
    exact ((hw.spans.trans ih).trans (hw'.spans_cons (by decide))).trans ih'
  | lastMember hw hname hcolon hw' _ hw'' ih =>
    have hcolon' := hcolon.spans_cons (by decide)
    have hpair := ((hw.spans.trans hname.spans).trans hcolon').trans hw'.spans
    exact (hpair.trans ih).trans (hw''.spans_cons (by decide))
  | member hw hname hcolon hw' _ hw'' _ ih ih' =>
    have hcolon' := hcolon.spans_cons (by decide)
    have hpair := ((hw.spans.trans hname.spans).trans hcolon').trans hw'.spans
    exact ((hpair.trans ih).trans (hw''.spans_cons (by decide))).trans ih'

/-- No byte of a text is zero. -/
theorem Document.zero_notMem (h : Document s) : 0 ∉ s := by
  obtain ⟨a, b, hw, hv, hw'⟩ := h
  obtain ⟨u, hu, hzero⟩ := (hw.spans.trans hv.spans).trans hw'.spans
  rw [List.append_nil] at hu
  exact hu ▸ hzero

end JsonText

import Mathlib.Logic.Basic

/-!
# Objects that answer calls

An object is a function from its state and a call to a reply and the next state.

- `replies`: the replies to a sequence of calls. `Throughout`: every call of a sequence meets a
  condition on the state it finds.
- `replies_eq`: two objects whose states stay related, with the same replies.
- `replies_eq_iff`: two objects whose replies tell them apart as soon as a condition is not met.
-/

namespace Replies

variable {σ τ ι ο : Type*}

/-- The replies to a sequence of calls. -/
def replies (step : σ → ι → ο × σ) : σ → List ι → List ο
  | _, [] => []
  | s, i :: is => (step s i).1 :: replies step (step s i).2 is

/-- Every call meets a condition on the state it finds. -/
def Throughout (step : σ → ι → ο × σ) (ok : σ → ι → Prop) : σ → List ι → Prop
  | _, [] => True
  | s, i :: is => ok s i ∧ Throughout step ok (step s i).2 is

variable {step : σ → ι → ο × σ} {step' : τ → ι → ο × τ} {R : σ → τ → Prop} {s : σ} {t : τ}

/-- **Comparison rule**: when related states give the same reply just to the calls that meet the
condition, and stay related then, the replies are the same just when all calls meet it. -/
theorem replies_eq_iff {ok : σ → ι → Prop}
    (hstep : ∀ s t i, R s t → ((step s i).1 = (step' t i).1 ↔ ok s i) ∧
      (ok s i → R (step s i).2 (step' t i).2)) (h : R s t) (is : List ι) :
    replies step s is = replies step' t is ↔ Throughout step ok s is := by
  induction is generalizing s t with
  | nil => exact iff_of_true rfl trivial
  | cons i is ih =>
    obtain ⟨hiff, hkeep⟩ := hstep s t i h
    rw [replies, replies, Throughout, List.cons.injEq, hiff]
    exact and_congr_right fun hok => ih (hkeep hok)

/-- **Simulation rule**: related states give the same replies, and stay related. -/
theorem replies_eq (hstep : ∀ s t i, R s t → (step s i).1 = (step' t i).1 ∧
    R (step s i).2 (step' t i).2) (h : R s t) (is : List ι) :
    replies step s is = replies step' t is := by
  induction is generalizing s t with
  | nil => rfl
  | cons i is ih =>
    obtain ⟨heq, hkeep⟩ := hstep s t i h
    rw [replies, replies, heq, ih hkeep]

end Replies

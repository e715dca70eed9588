-- Machines that answer every input. Two states are alike when no sequence of inputs
-- tells them apart, and a bisimulation is a proof of that.
import Mathlib.Tactic.TypeStar

namespace machines

variable {σ ι κ ω : Type*}

/-- The answers of a machine to its inputs, one after the other. -/
def answers (step : σ → ι → ω × σ) : σ → List ι → List ω
  | _, [] => []
  | s, i :: is => (step s i).1 :: answers step (step s i).2 is

/-- No `n` inputs, one after the other, tell the two states apart. -/
def Alike (step : σ → ι → ω × σ) (n : Nat) (s s' : σ) : Prop :=
  ∀ is, is.length ≤ n → answers step s is = answers step s' is

variable {step : σ → ι → ω × σ} {n : Nat} {s s' : σ}

/-- States that are alike give the same next answer, and stay alike for one input less. -/
theorem Alike.answer (h : Alike step (n + 1) s s') (i : ι) : (step s i).1 = (step s' i).1 := by
  have hone := h [i] (Nat.le_add_left 1 n)
  simpa [answers] using hone

theorem Alike.next (h : Alike step (n + 1) s s') (i : ι) :
    Alike step n (step s i).2 (step s' i).2 := by
  intro is hn
  have hmore := h (i :: is) (Nat.succ_le_succ hn)
  unfold answers at hmore
  exact (List.cons.inj hmore).2

/-- Related states are alike for ever, if they give the same answers and stay related. -/
theorem alike_of_bisimulation (R : σ → σ → Prop)
    (hanswer : ∀ s s' i, R s s' → (step s i).1 = (step s' i).1)
    (hnext : ∀ s s' i, R s s' → R (step s i).2 (step s' i).2) (h : R s s') : Alike step n s s' := by
  intro is _
  induction is generalizing n s s' with
  | nil => rfl
  | cons i is ih =>
    unfold answers
    rw [hanswer s s' i h, ih (n := is.length) (hnext s s' i h) (Nat.le_refl _)]

end machines

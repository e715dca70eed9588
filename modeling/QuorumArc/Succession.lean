-- Successions of grants. Each grant has an epoch and a time since which it
-- holds, and may act at some times. When every grant stops before the next one
-- holds, no two of them ever act at one time.
import Mathlib.Data.List.Chain
import Mathlib.Order.Defs.LinearOrder

namespace succession

variable {α E T : Type*} [Preorder E] [Preorder T] {epoch : α → E} {since : α → T}
  {acts : α → T → Prop}

/-- Grants in their order: each has a newer epoch than the one before it, holds
no earlier, and holds only after the one before it acted for the last time. -/
structure Succession (epoch : α → E) (since : α → T) (acts : α → T → Prop) (grants : List α) :
    Prop where
  newer : grants.IsChain fun a b => epoch a < epoch b
  later : grants.IsChain fun a b => since a ≤ since b
  stopped : grants.IsChain fun a b => ∀ t, acts a t → t < since b
  held : ∀ a ∈ grants, ∀ t, acts a t → since a ≤ t

/-- `b` came after `a`, when `a` acted no more. -/
structure Supersedes (epoch : α → E) (since : α → T) (acts : α → T → Prop) (a b : α) : Prop where
  newer : epoch a < epoch b
  later : since a ≤ since b
  stopped : ∀ t, acts a t → t < since b

theorem Supersedes.trans {a b c : α} (hab : Supersedes epoch since acts a b)
    (hbc : Supersedes epoch since acts b c) : Supersedes epoch since acts a c := by
  refine ⟨lt_trans hab.newer hbc.newer, le_trans hab.later hbc.later, ?_⟩
  intro t ht
  exact lt_of_lt_of_le (hab.stopped t ht) hbc.later

variable {grants : List α} {a b : α} {t₁ t₂ : T}

/-- Every grant supersedes all the earlier ones, not only the last. -/
theorem Succession.pairwise (h : Succession epoch since acts grants) :
    grants.Pairwise (Supersedes epoch since acts) := by
  have : Trans (Supersedes epoch since acts) (Supersedes epoch since acts)
    (Supersedes epoch since acts) := ⟨Supersedes.trans⟩
  rw [← List.isChain_iff_pairwise]
  have hnewer := List.isChain_iff_forall_rel_of_append_cons_cons.mp h.newer
  have hlater := List.isChain_iff_forall_rel_of_append_cons_cons.mp h.later
  have hstopped := List.isChain_iff_forall_rel_of_append_cons_cons.mp h.stopped
  refine List.isChain_iff_forall_rel_of_append_cons_cons.mpr ?_
  intro a b l₁ l₂ hl
  exact ⟨hnewer hl, hlater hl, hstopped hl⟩

/-- Two grants are the same, or one of them supersedes the other. -/
theorem Succession.trichotomy (h : Succession epoch since acts grants) (ha : a ∈ grants)
    (hb : b ∈ grants) :
    a = b ∨ Supersedes epoch since acts a b ∨ Supersedes epoch since acts b a := by
  have hp := h.pairwise
  clear h
  induction hp with
  | nil => cases ha
  | cons hall _ ih =>
    rcases List.mem_cons.mp ha with rfl | ha'
    · rcases List.mem_cons.mp hb with rfl | hb'
      · exact Or.inl rfl
      · exact Or.inr (Or.inl (hall b hb'))
    · rcases List.mem_cons.mp hb with rfl | hb'
      · exact Or.inr (Or.inr (hall a ha'))
      · exact ih ha' hb'

theorem Succession.epoch_inj (h : Succession epoch since acts grants) (ha : a ∈ grants)
    (hb : b ∈ grants) (he : epoch a = epoch b) : a = b := by
  rcases h.trichotomy ha hb with heq | hab | hba
  · exact heq
  · exact absurd he (ne_of_lt hab.newer)
  · exact absurd he (ne_of_gt hba.newer)

/-- What acts under a later epoch acts at a later time. -/
theorem Succession.ordered (h : Succession epoch since acts grants) (ha : a ∈ grants)
    (hb : b ∈ grants) (h₁ : acts a t₁) (h₂ : acts b t₂) (he : epoch a < epoch b) : t₁ < t₂ := by
  rcases h.trichotomy ha hb with rfl | hab | hba
  · exact absurd he (lt_irrefl _)
  · exact lt_of_lt_of_le (hab.stopped t₁ h₁) (h.held b hb t₂ h₂)
  · exact absurd (lt_trans he hba.newer) (lt_irrefl _)

/-- At one time one grant acts. -/
theorem Succession.exclusive (h : Succession epoch since acts grants) (ha : a ∈ grants)
    (hb : b ∈ grants) (h₁ : acts a t₁) (h₂ : acts b t₁) : a = b := by
  rcases h.trichotomy ha hb with heq | hab | hba
  · exact heq
  · exact absurd (h.ordered ha hb h₁ h₂ hab.newer) (lt_irrefl _)
  · exact absurd (h.ordered hb ha h₂ h₁ hba.newer) (lt_irrefl _)

end succession

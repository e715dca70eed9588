-- Quorum systems: any two quorums share a member, so what two quorums decide
-- cannot differ when no member votes for two decisions.
import Mathlib.Data.Finset.Card

namespace quorums

variable {α δ : Type*}

/-- A family of sets of members, any two of which share a member. -/
structure QuorumSystem (α : Type*) where
  IsQuorum : Finset α → Prop
  meet : ∀ {s t}, IsQuorum s → IsQuorum t → ∃ a, a ∈ s ∧ a ∈ t

/-- The sets of at least `k` of the members `u`, where `k` is more than half. -/
def QuorumSystem.majority [DecidableEq α] (u : Finset α) (k : Nat) (hk : u.card / 2 < k) :
    QuorumSystem α where
  IsQuorum s := s ⊆ u ∧ k ≤ s.card
  meet := by
    rintro s t ⟨hs, hks⟩ ⟨ht, hkt⟩
    have hcard : u.card < s.card + t.card := by omega
    obtain ⟨a, ha⟩ := Finset.inter_nonempty_of_card_lt_card_add_card hs ht hcard
    exact ⟨a, Finset.mem_inter.mp ha⟩

/-- More than half is exactly what it takes: with a smaller size two disjoint sets of
members would do, and with a size of more than all none. -/
theorem majority_iff [DecidableEq α] (u : Finset α) (k : Nat) :
    ((∃ s ⊆ u, k ≤ s.card) ∧ ∀ s t, s ⊆ u → t ⊆ u → k ≤ s.card → k ≤ t.card →
      ∃ a, a ∈ s ∧ a ∈ t) ↔ u.card / 2 < k ∧ k ≤ u.card := by
  constructor
  · rintro ⟨⟨s, hs, hks⟩, hmeet⟩
    refine ⟨Nat.lt_of_not_le fun hhalf => ?_, le_trans hks (Finset.card_le_card hs)⟩
    obtain ⟨s, hs, hcard⟩ := Finset.exists_subset_card_eq (show k ≤ u.card by omega)
    have hrest : k ≤ (u \ s).card := by
      rw [Finset.card_sdiff_of_subset hs]
      omega
    obtain ⟨a, ha, hrest⟩ := hmeet s (u \ s) hs Finset.sdiff_subset (le_of_eq hcard.symm) hrest
    exact (Finset.mem_sdiff.mp hrest).2 ha
  · rintro ⟨hhalf, hall⟩
    refine ⟨⟨u, Finset.Subset.refl u, hall⟩, ?_⟩
    intro s t hs ht hks hkt
    exact (QuorumSystem.majority u k hhalf).meet ⟨hs, hks⟩ ⟨ht, hkt⟩

/-- Two decisions, each voted for by a quorum, are one decision when no member
votes for two. -/
theorem QuorumSystem.agree (Q : QuorumSystem α) {s t : Finset α} (vote : α → δ → Prop) {d e : δ}
    (hs : Q.IsQuorum s) (ht : Q.IsQuorum t) (hd : ∀ a ∈ s, vote a d) (he : ∀ a ∈ t, vote a e)
    (single : ∀ a, vote a d → vote a e → d = e) : d = e := by
  obtain ⟨a, has, hat⟩ := Q.meet hs ht
  exact single a (hd a has) (he a hat)

end quorums

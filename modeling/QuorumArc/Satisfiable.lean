-- Policies that can be satisfied. The checks of `SafetyPolicy.new` leave room for
-- every check of the validator: a proof that every voter votes for, with
-- evidence of this moment, is acceptable once the prior authority is excluded.
import QuorumArc.Acceptance

open words

namespace quorumarc_core

/-! ## What every policy leaves room for -/

theorem voter_of_witness (policy : SafetyPolicy) {w : NodeId}
    (hw : policy.required_witness = some w) : w ∈ policy.voters := by
  have h := policy.witness_votes
  simp only [hw, Option.any_some, decide_eq_true_eq, not_not] at h
  exact h

theorem lease_duration_pos (policy : SafetyPolicy) : 1 ≤ ms policy.max_lease_duration_ms := by
  have hne : policy.max_lease_duration_ms ≠ 0 := fun h0 => policy.bounds_time (Or.inr h0)
  have hpos : policy.max_lease_duration_ms.toNat ≠ 0 := fun h0 => hne (UInt64.toNat_inj.mp h0)
  unfold ms
  omega

/-! ## A proof that every voter votes for -/

/-- The receipt that the required witness verifies, or the candidate if there is none. -/
def receiptBy (policy : SafetyPolicy) (candidate : NodeId) (epoch : Epoch) (target : Option NodeId)
    (mechanism : FenceMechanism) (observed_at_ms : UInt64) : FenceReceipt where
  epoch := epoch
  target := target
  verifier := policy.required_witness.getD candidate
  mechanism := mechanism
  observed_at_ms := observed_at_ms

/-- The proof of a candidate with the votes of `voters`, the fence of the given
receipt and all other evidence of this moment. Its lease is of one millisecond. -/
def unanimous (policy : SafetyPolicy) (voters : List NodeId) (candidate : NodeId)
    (incarnation : Incarnation) (fence : FenceReceipt) (now_ms : UInt64) : PromotionProof where
  workload := policy.workload
  candidate := candidate
  candidate_incarnation := incarnation
  epoch := fence.epoch
  policy_hash := policy.policy_hash
  quorum :=
    { epoch := fence.epoch, workload := policy.workload, candidate
      candidate_incarnation := incarnation, policy_hash := policy.policy_hash
      required_commit := ⟨0⟩, state_root := ⟨Vector.replicate 32 1⟩, lease_not_before_ms := now_ms
      lease_expires_at_ms := now_ms + 1, voters }
  fence := fence
  state :=
    { required_commit := ⟨0⟩, durable_commit := ⟨0⟩, state_root := ⟨Vector.replicate 32 1⟩
      observed_at_ms := now_ms }
  health :=
    { workload := policy.workload, node := candidate, incarnation, epoch := fence.epoch
      healthy := true, passed_checks := policy.min_health_checks, observed_at_ms := now_ms }
  lease :=
    { workload := policy.workload, holder := candidate, incarnation, epoch := fence.epoch
      not_before_ms := now_ms, expires_at_ms := now_ms + 1 }

variable {policy : SafetyPolicy} {voters : List NodeId} {current : AuthorityState}
  {candidate : NodeId} {incarnation : Incarnation} {fence : FenceReceipt} {now_ms end_ms : UInt64}

/-- The votes of all voters are a quorum, of whatever size the policy asks for. -/
theorem unanimous_votes (hvoters : voters.Nodup ∧ voters.toFinset = policy.voters)
    (hcand : candidate ∈ policy.candidates) :
    Votes (unanimous policy voters candidate incarnation fence now_ms) policy := by
  obtain ⟨hn, hv⟩ := hvoters
  have hmem : ∀ n, n ∈ voters ↔ n ∈ policy.voters := by
    intro n
    rw [← hv, List.mem_toFinset]
  refine ⟨hn, ?_, ?_, ?_, ?_⟩
  · intro n hin
    exact (hmem n).mp hin
  · have hfits := policy.quorum_fits
    show policy.quorum_size ≤ voters.length
    rw [← List.toFinset_card_of_nodup hn, hv]
    omega
  · exact (hmem candidate).mpr (policy.candidates_vote hcand)
  · intro w hw
    exact (hmem w).mpr (voter_of_witness policy hw)

/-- The node that verifies the receipt votes, since candidates and the witness do. -/
theorem unanimous_verifies (hvoters : voters.toFinset = policy.voters)
    (hcand : candidate ∈ policy.candidates)
    (hverifier : fence.verifier = policy.required_witness.getD candidate) :
    Verifies (unanimous policy voters candidate incarnation fence now_ms) policy := by
  refine ⟨?_, ?_⟩
  · show fence.verifier ∈ voters
    rw [← List.mem_toFinset, hvoters, hverifier]
    rcases hw : policy.required_witness with _ | w
    · exact policy.candidates_vote hcand
    · exact voter_of_witness policy hw
  · intro w hw
    show fence.verifier = w
    rw [hverifier, hw, Option.getD_some]

/-- A lease of one millisecond is within every bound, while there is a next millisecond. -/
theorem unanimous_leased (hend : now_ms < end_ms) :
    Leased (unanimous policy voters candidate incarnation fence now_ms) policy now_ms := by
  have hsucc := ms_succ hend
  have hmax := lease_duration_pos policy
  refine ⟨rfl, rfl, rfl, ?_, le_refl _, ?_⟩
  · show ms (now_ms + 1) - ms now_ms ≤ ms policy.max_lease_duration_ms
    omega
  · show ms now_ms < ms (now_ms + 1)
    omega

/-- What is left to check is the receipt: it is for a newer epoch, and it
excludes a prior authority other than the candidate. -/
theorem unanimous_acceptable {fence_class : FenceClass} {safe : ℤ}
    (hvoters : voters.Nodup ∧ voters.toFinset = policy.voters)
    (hcand : candidate ∈ policy.candidates) (hother : current.holder ≠ some candidate)
    (hepoch : current.epoch < fence.epoch)
    (hverifier : fence.verifier = policy.required_witness.getD candidate)
    (hfresh : Fresh fence.observed_at_ms now_ms policy.max_evidence_age_ms)
    (hend : now_ms < end_ms)
    (hex : Excludes (unanimous policy voters candidate incarnation fence now_ms) current policy
      now_ms fence_class safe) (hsafe : safe ≤ ms now_ms) :
    Acceptable (unanimous policy voters candidate incarnation fence now_ms) current policy now_ms
      fence_class := by
  have hroot : StateRoot.is_zero ⟨Vector.replicate 32 1⟩ = false := by decide
  exact {
    workload := rfl
    policy_hash := rfl
    newer := hepoch
    configured := hcand
    not_holder := hother
    quorum_epoch := rfl
    fence_epoch := rfl
    health_epoch := rfl
    lease_epoch := rfl
    binds := ⟨rfl, rfl, rfl, rfl, rfl, rfl, rfl, rfl⟩
    votes := unanimous_votes hvoters hcand
    verifies := unanimous_verifies hvoters.2 hcand hverifier
    fence_fresh := hfresh
    state_fresh := fresh_now _ _
    health_fresh := fresh_now _ _
    excludes := ⟨safe, hex, hsafe⟩
    caught_up := le_refl _
    rooted := hroot
    healthy := ⟨rfl, rfl, rfl, rfl, UInt16.le_refl _⟩
    leased := unanimous_leased hend }

/-- After a power cut of the holder that is not too old, another candidate can follow it. -/
theorem unanimous_after_power_cut {target : NodeId} {epoch : Epoch} {observed_at_ms : UInt64}
    (hvoters : voters.Nodup ∧ voters.toFinset = policy.voters)
    (hcand : candidate ∈ policy.candidates) (hholder : current.holder = some target)
    (hother : candidate ≠ target) (hepoch : current.epoch < epoch) (hend : now_ms < end_ms)
    (hfresh : Fresh observed_at_ms now_ms policy.max_evidence_age_ms) :
    Acceptable (unanimous policy voters candidate incarnation
      (receiptBy policy candidate epoch (some target) .HardwarePower observed_at_ms) now_ms)
      current policy now_ms .HardwarePower := by
  have hne : current.holder ≠ some candidate := by
    rw [hholder]
    intro heq
    exact hother (Option.some_inj.mp heq).symm
  exact unanimous_acceptable hvoters hcand hne hepoch rfl hfresh hend (.power hholder rfl rfl)
    hfresh.2

/-! ## The law -/

/-- No policy refuses every promotion. Before the last millisecond of the clock
each of its candidates, in any boot, has a proof that is accepted as the first
authority, and one that is accepted after a power cut of any other holder. -/
theorem every_policy_can_promote (policy : SafetyPolicy) {candidate : NodeId} {now_ms : UInt64}
    (hcand : candidate ∈ policy.candidates) (incarnation : Incarnation) (hnow : now_ms < u64_max) :
    (∃ proof v, proof.candidate = candidate ∧ proof.candidate_incarnation = incarnation ∧
      validate_promotion proof .initial policy now_ms = .ok v) ∧
    ∀ current holder, current.holder = some holder → holder ≠ candidate →
      current.epoch < ⟨u64_max⟩ →
      ∃ proof v, proof.candidate = candidate ∧ proof.candidate_incarnation = incarnation ∧
        proof.fence.mechanism = .HardwarePower ∧ proof.fence.target = some holder ∧
        validate_promotion proof current policy now_ms = .ok v := by
  have hvoters := And.intro policy.voters.nodup_toList policy.voters.toList_toFinset
  have hfresh := fresh_now now_ms policy.max_evidence_age_ms
  refine ⟨?_, ?_⟩
  · have hacc : Acceptable (unanimous policy policy.voters.toList candidate incarnation
        (receiptBy policy candidate ⟨1⟩ none .Bootstrap now_ms) now_ms) .initial policy now_ms
        .Bootstrap := by
      refine unanimous_acceptable hvoters hcand ?_ ?_ rfl hfresh hnow
        (.bootstrap rfl rfl rfl rfl) (le_refl _)
      · simp [AuthorityState.initial]
      · show (⟨0⟩ : Epoch) < ⟨1⟩
        decide
    exact ⟨_, _, rfl, rfl, validate_promotion.spec.mpr ⟨_, hacc, rfl⟩⟩
  · intro current holder hholder hne hepoch
    have hacc : Acceptable (unanimous policy policy.voters.toList candidate incarnation
        (receiptBy policy candidate ⟨u64_max⟩ (some holder) .HardwarePower now_ms) now_ms) current
        policy now_ms .HardwarePower :=
      unanimous_after_power_cut hvoters hcand hholder hne.symm hepoch hnow hfresh
    exact ⟨_, _, rfl, rfl, rfl, rfl, validate_promotion.spec.mpr ⟨_, hacc, rfl⟩⟩

/-- At the last time that the law covers, after a power cut of node-b. -/
theorem every_policy_can_promote_at_the_end_of_the_clock :
    ∃ proof v, proof.candidate = tests.node_a ∧ proof.candidate_incarnation = ⟨1⟩ ∧
      proof.fence.mechanism = .HardwarePower ∧ proof.fence.target = some tests.node_b ∧
      validate_promotion proof ⟨⟨1⟩, some tests.node_b, none⟩ tests.policy 18446744073709551614 =
        .ok v := by
  have hcand : tests.node_a ∈ tests.policy.candidates := by decide
  have hnow : (18446744073709551614 : UInt64) < u64_max := by decide
  obtain ⟨_, hcut⟩ := every_policy_can_promote tests.policy hcand ⟨1⟩ hnow
  exact hcut _ tests.node_b rfl (by decide) (by decide)

end quorumarc_core

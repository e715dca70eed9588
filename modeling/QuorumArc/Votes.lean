-- The laws of the votes: two accepted proofs share a voter, so they agree when
-- no voter votes twice, and the certificate fixes every part of a promotion
-- that it covers.
import QuorumArc.Acceptance
import QuorumArc.Quorums

open quorums

namespace quorumarc_core

/-! ## The subject of a certificate -/

/-- What a vote decides in its epoch. -/
structure Subject where
  workload : WorkloadId
  candidate : NodeId
  candidate_incarnation : Incarnation
  policy_hash : PolicyHash
  required_commit : CommitIndex
  state_root : StateRoot
  lease_not_before_ms : UInt64
  lease_expires_at_ms : UInt64
deriving DecidableEq

def QuorumCertificate.subject (q : QuorumCertificate) : Subject where
  workload := q.workload
  candidate := q.candidate
  candidate_incarnation := q.candidate_incarnation
  policy_hash := q.policy_hash
  required_commit := q.required_commit
  state_root := q.state_root
  lease_not_before_ms := q.lease_not_before_ms
  lease_expires_at_ms := q.lease_expires_at_ms

/-- The capability has the subject and the epoch of the certificate, and a
state no older than the commit that the certificate requires. -/
structure BoundTo (q : QuorumCertificate) (v : ValidatedPromotion) : Prop where
  epoch : v.epoch = q.epoch
  workload : v.workload = q.workload
  candidate : v.candidate = q.candidate
  candidate_incarnation : v.candidate_incarnation = q.candidate_incarnation
  policy_hash : v.policy_hash = q.policy_hash
  not_before_ms : v.not_before_ms = q.lease_not_before_ms
  expires_at_ms : v.expires_at_ms = q.lease_expires_at_ms
  state_root : v.state_root = q.state_root
  durable_commit : q.required_commit ≤ v.durable_commit

variable {p p₁ p₂ : PromotionProof} {c c₁ c₂ : AuthorityState} {pol pol₁ pol₂ : SafetyPolicy}
  {t t₁ t₂ : UInt64} {v v₁ v₂ : ValidatedPromotion}

theorem bound_of_accepted (h : validate_promotion p c pol t = .ok v) : BoundTo p.quorum v := by
  obtain ⟨_, ha, rfl⟩ := validate_promotion.spec.mp h
  obtain ⟨b1, b2, b3, b4, b5, b6, b7, b8⟩ := ha.binds
  refine ⟨ha.quorum_epoch.symm, b1.symm, b2.symm, b3.symm, b4.symm, b7.symm, b8.symm, b6.symm, ?_⟩
  rw [b5]
  exact ha.caught_up

/-! ## The certificate binds the promotion -/

/-- Two accepted proofs with one certificate give capabilities with its
subject, its epoch and its lease. They differ at most in the durable commit,
which is never below the required one, and in the fence class. -/
theorem votes_bind_the_promotion (q : QuorumCertificate) (hq₁ : p₁.quorum = q) (hq₂ : p₂.quorum = q)
    (h₁ : validate_promotion p₁ c₁ pol₁ t₁ = .ok v₁)
    (h₂ : validate_promotion p₂ c₂ pol₂ t₂ = .ok v₂) :
    BoundTo q v₁ ∧ BoundTo q v₂ ∧
      v₁ = { v₂ with durable_commit := v₁.durable_commit, fence_class := v₁.fence_class } := by
  have b₁ := bound_of_accepted h₁
  have b₂ := bound_of_accepted h₂
  rw [hq₁] at b₁
  rw [hq₂] at b₂
  refine ⟨b₁, b₂, ?_⟩
  obtain ⟨e1, e2, e3, e4, e5, e6, e7, e8, _⟩ := b₁
  obtain ⟨f1, f2, f3, f4, f5, f6, f7, f8, _⟩ := b₂
  cases v₁
  cases v₂
  simp_all

theorem votes_bind_the_promotion_ahead :
    BoundTo (tests.proof tests.node_a ⟨1⟩).quorum
        (capabilityOf (tests.proof tests.node_a ⟨1⟩) .Bootstrap) ∧
      BoundTo (tests.proof tests.node_a ⟨1⟩).quorum
        (capabilityOf tests.proof_ahead .Bootstrap) := by
  have hq : tests.proof_ahead.quorum = (tests.proof tests.node_a ⟨1⟩).quorum := rfl
  obtain ⟨b₁, b₂, _⟩ := votes_bind_the_promotion (tests.proof tests.node_a ⟨1⟩).quorum rfl hq
    tests.proof_accepted tests.proof_ahead_accepted
  exact ⟨b₁, b₂⟩

/-! ## Agreement -/

/-- The quorums of a policy: `SafetyPolicy.new` makes them more than half. -/
def SafetyPolicy.quorums (pol : SafetyPolicy) : QuorumSystem NodeId :=
  .majority pol.voters pol.quorum_size (by have := pol.quorums_meet; omega)

theorem isQuorum_of_votes (h : Votes p pol) : pol.quorums.IsQuorum p.quorum.voters.toFinset := by
  refine ⟨fun voter hv => h.configured voter (List.mem_toFinset.mp hv), ?_⟩
  rw [List.toFinset_card_of_nodup h.distinct]
  exact h.enough

/-- No voter is in both certificates when they are of one epoch and differ in
their subject. -/
def SingleVote (q₁ q₂ : QuorumCertificate) : Prop :=
  ∀ voter, voter ∈ q₁.voters → voter ∈ q₂.voters → q₁.epoch = q₂.epoch → q₁.subject = q₂.subject

/-- The capabilities agree on everything that a receipt certifies, the durable
commit and the fence class apart. -/
structure Agree (v₁ v₂ : ValidatedPromotion) : Prop where
  workload : v₁.workload = v₂.workload
  candidate : v₁.candidate = v₂.candidate
  candidate_incarnation : v₁.candidate_incarnation = v₂.candidate_incarnation
  policy_hash : v₁.policy_hash = v₂.policy_hash
  not_before_ms : v₁.not_before_ms = v₂.not_before_ms
  expires_at_ms : v₁.expires_at_ms = v₂.expires_at_ms
  state_root : v₁.state_root = v₂.state_root

theorem same_subject (h₁ : validate_promotion p₁ c₁ pol t₁ = .ok v₁)
    (h₂ : validate_promotion p₂ c₂ pol t₂ = .ok v₂) (hs : SingleVote p₁.quorum p₂.quorum)
    (he : p₁.epoch = p₂.epoch) : p₁.quorum.subject = p₂.quorum.subject := by
  have a₁ := (accepted h₁).1
  have a₂ := (accepted h₂).1
  have hq : p₁.quorum.epoch = p₂.quorum.epoch := by rw [a₁.quorum_epoch, a₂.quorum_epoch, he]
  refine pol.quorums.agree
    (fun voter d => (voter ∈ p₁.quorum.voters ∧ d = p₁.quorum.subject) ∨
      (voter ∈ p₂.quorum.voters ∧ d = p₂.quorum.subject))
    (isQuorum_of_votes a₁.votes) (isQuorum_of_votes a₂.votes) ?_ ?_ ?_
  · intro voter hv
    exact Or.inl ⟨List.mem_toFinset.mp hv, rfl⟩
  · intro voter hv
    exact Or.inr ⟨List.mem_toFinset.mp hv, rfl⟩
  · rintro voter (⟨m₁, _⟩ | ⟨_, e₁⟩) (⟨_, e₂⟩ | ⟨m₂, _⟩)
    · exact e₂.symm
    · exact hs voter m₁ m₂ hq
    · exact e₂.symm
    · exact e₁

/-- The required witness votes in every accepted certificate, verifies its
fence, and is never its candidate. -/
theorem witness_of_accepted {w : NodeId} (h : validate_promotion p c pol t = .ok v)
    (hw : pol.required_witness = some w) :
    w ∈ p.quorum.voters ∧ p.fence.verifier = w ∧ w ≠ p.candidate := by
  have ha := (accepted h).1
  refine ⟨ha.votes.witness w hw, ha.verifies.witness w hw, ?_⟩
  rintro rfl
  have hno := pol.witness_is_no_candidate
  simp [hw, ha.configured] at hno

/-- Agreement by quorum intersection. Two proofs that one policy accepts share
a voter and the required witness; when no voter votes for two subjects in one
epoch, two accepted proofs of one epoch agree. -/
theorem accepted_proofs_of_one_epoch_agree {workload : WorkloadId} {policy_hash : PolicyHash}
    {candidates voters : List NodeId} {quorum_size : Nat} {required_witness : Option NodeId}
    {min_health_checks : UInt16}
    {max_evidence_age_ms max_lease_duration_ms lease_guard_ms : UInt64} {allow : Bool}
    (hpol : SafetyPolicy.new workload policy_hash candidates voters quorum_size required_witness
      min_health_checks max_evidence_age_ms max_lease_duration_ms lease_guard_ms allow = .ok pol)
    (h₁ : validate_promotion p₁ c₁ pol t₁ = .ok v₁)
    (h₂ : validate_promotion p₂ c₂ pol t₂ = .ok v₂) :
    (∃ voter, voter ∈ p₁.quorum.voters ∧ voter ∈ p₂.quorum.voters) ∧
    (∀ w, required_witness = some w → w ∈ p₁.quorum.voters ∧ w ∈ p₂.quorum.voters ∧
      p₁.fence.verifier = w ∧ p₂.fence.verifier = w ∧ w ≠ p₁.candidate ∧ w ≠ p₂.candidate) ∧
    (SingleVote p₁.quorum p₂.quorum → p₁.epoch = p₂.epoch → Agree v₁ v₂) := by
  refine ⟨?_, ?_, ?_⟩
  · obtain ⟨voter, m₁, m₂⟩ := pol.quorums.meet (isQuorum_of_votes (accepted h₁).1.votes)
      (isQuorum_of_votes (accepted h₂).1.votes)
    exact ⟨voter, List.mem_toFinset.mp m₁, List.mem_toFinset.mp m₂⟩
  · intro w hw
    have hreq : pol.required_witness = some w := by rw [← hw]; exact new_required_witness hpol
    obtain ⟨i₁, f₁, n₁⟩ := witness_of_accepted h₁ hreq
    obtain ⟨i₂, f₂, n₂⟩ := witness_of_accepted h₂ hreq
    exact ⟨i₁, i₂, f₁, f₂, n₁, n₂⟩
  · intro hs he
    have hsub := same_subject h₁ h₂ hs he
    obtain ⟨_, e2, e3, e4, e5, e6, e7, e8, _⟩ := bound_of_accepted h₁
    obtain ⟨_, f2, f3, f4, f5, f6, f7, f8, _⟩ := bound_of_accepted h₂
    simp only [QuorumCertificate.subject, Subject.mk.injEq] at hsub
    obtain ⟨s1, s2, s3, s4, _, s6, s7, s8⟩ := hsub
    exact ⟨by rw [e2, f2, s1], by rw [e3, f3, s2], by rw [e4, f4, s3], by rw [e5, f5, s4],
      by rw [e6, f6, s7], by rw [e7, f7, s8], by rw [e8, f8, s6]⟩

theorem accepted_proofs_of_one_epoch_agree_ahead :
    (∃ voter, voter ∈ (tests.proof tests.node_a ⟨1⟩).quorum.voters ∧
      voter ∈ tests.proof_ahead.quorum.voters) ∧
    tests.witness ∈ tests.proof_ahead.quorum.voters ∧
    Agree (capabilityOf (tests.proof tests.node_a ⟨1⟩) .Bootstrap)
      (capabilityOf tests.proof_ahead .Bootstrap) := by
  obtain ⟨hshare, hwitness, hagree⟩ := accepted_proofs_of_one_epoch_agree tests.built_policy_eq
    tests.proof_accepted tests.proof_ahead_accepted
  exact ⟨hshare, (hwitness tests.witness rfl).2.1, hagree (fun _ _ _ _ => rfl) rfl⟩

end quorumarc_core

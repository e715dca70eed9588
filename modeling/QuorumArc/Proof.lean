-- The promotion proof and its validator. The records, the policy and the order
-- of the checks are those of `proof.rs`.
import Mathlib.Data.Finset.Card
import Mathlib.Data.Finset.Dedup
import QuorumArc.Checks
import QuorumArc.Types
import QuorumArc.Words

open checks words

namespace quorumarc_core

/-! ## The evidence -/

/-- The authority accepted before evaluating a new proof. -/
structure AuthorityState where
  epoch : Epoch
  holder : Option NodeId
  lease_expires_at_ms : Option UInt64
deriving DecidableEq

/-- The initial state before any node has held authority. -/
def AuthorityState.initial : AuthorityState :=
  { epoch := ⟨0⟩, holder := none, lease_expires_at_ms := none }

/-- Votes bound to one promotion epoch. -/
structure QuorumCertificate where
  epoch : Epoch
  workload : WorkloadId
  candidate : NodeId
  candidate_incarnation : Incarnation
  policy_hash : PolicyHash
  required_commit : CommitIndex
  state_root : StateRoot
  lease_not_before_ms : UInt64
  lease_expires_at_ms : UInt64
  voters : List NodeId
deriving DecidableEq

/-- Fencing mechanism reported by a fence verifier. -/
inductive FenceMechanism where
  | Bootstrap
  | HardwarePower
  | StorageReservation
  | EffectGateExpired
  | GracefulShutdown
deriving DecidableEq, Repr

/-- Stable fence class copied into an activation receipt. -/
inductive FenceClass where
  | Bootstrap
  | HardwarePower
  | StorageReservation
  | EffectGateExpiry
deriving DecidableEq, Repr

/-- Evidence that the previous authority can no longer create effects. -/
structure FenceReceipt where
  epoch : Epoch
  target : Option NodeId
  verifier : NodeId
  mechanism : FenceMechanism
  observed_at_ms : UInt64
deriving DecidableEq

/-- Candidate durable-state evidence. -/
structure StateEvidence where
  required_commit : CommitIndex
  durable_commit : CommitIndex
  state_root : StateRoot
  observed_at_ms : UInt64
deriving DecidableEq

/-- Workload-specific readiness evidence. -/
structure HealthAttestation where
  workload : WorkloadId
  node : NodeId
  incarnation : Incarnation
  epoch : Epoch
  healthy : Bool
  passed_checks : UInt16
  observed_at_ms : UInt64
deriving DecidableEq

/-- Bounded authority grant checked at every effect. -/
structure LeaseGrant where
  workload : WorkloadId
  holder : NodeId
  incarnation : Incarnation
  epoch : Epoch
  not_before_ms : UInt64
  expires_at_ms : UInt64
deriving DecidableEq

/-- Complete evidence required before local effect preparation. -/
structure PromotionProof where
  workload : WorkloadId
  candidate : NodeId
  candidate_incarnation : Incarnation
  epoch : Epoch
  policy_hash : PolicyHash
  quorum : QuorumCertificate
  fence : FenceReceipt
  state : StateEvidence
  health : HealthAttestation
  lease : LeaseGrant
deriving DecidableEq

/-! ## The policy -/

/-- Invalid policy construction. -/
inductive PolicyError where
  | NoCandidates
  | NoVoters
  | CandidateNotVoter
  | InvalidQuorumSize
  | NonIntersectingQuorum
  | WitnessNotConfigured
  | WitnessIsCandidate
  | ZeroHealthChecks
  | ZeroTimeBound
deriving DecidableEq, Repr

/-- Validated, immutable policy. The last fields are the checks of
`SafetyPolicy.new`, so a policy that fails one cannot be built. A `usize` is a
natural number here: it is only compared, with the size of a set. -/
structure SafetyPolicy where
  workload : WorkloadId
  policy_hash : PolicyHash
  candidates : Finset NodeId
  voters : Finset NodeId
  quorum_size : Nat
  required_witness : Option NodeId
  min_health_checks : UInt16
  max_evidence_age_ms : UInt64
  max_lease_duration_ms : UInt64
  lease_guard_ms : UInt64
  allow_gate_expiry_fence : Bool
  has_candidate : candidates ≠ ∅
  has_voter : voters ≠ ∅
  candidates_vote : candidates ⊆ voters
  quorum_fits : ¬ (quorum_size = 0 ∨ quorum_size > voters.card)
  quorums_meet : ¬ quorum_size ≤ voters.card / 2
  witness_votes : ¬ required_witness.any (fun witness => witness ∉ voters)
  witness_is_no_candidate : ¬ required_witness.any (fun witness => witness ∈ candidates)
  needs_health : min_health_checks ≠ 0
  bounds_time : ¬ (max_evidence_age_ms = 0 ∨ max_lease_duration_ms = 0)

/-- Constructs a policy after validating its quorum and timing bounds. -/
def SafetyPolicy.new (workload : WorkloadId) (policy_hash : PolicyHash)
    (candidates voters : List NodeId) (quorum_size : Nat) (required_witness : Option NodeId)
    (min_health_checks : UInt16)
    (max_evidence_age_ms max_lease_duration_ms lease_guard_ms : UInt64)
    (allow_gate_expiry_fence : Bool) : Except PolicyError SafetyPolicy :=
  if has_candidate : candidates.toFinset = ∅ then .error .NoCandidates
  else if has_voter : voters.toFinset = ∅ then .error .NoVoters
  else if candidates_vote : ¬ candidates.toFinset ⊆ voters.toFinset then .error .CandidateNotVoter
  else if quorum_fits : quorum_size = 0 ∨ quorum_size > voters.toFinset.card then
    .error .InvalidQuorumSize
  else if quorums_meet : quorum_size ≤ voters.toFinset.card / 2 then .error .NonIntersectingQuorum
  else if witness_votes : required_witness.any (fun witness => witness ∉ voters.toFinset) then
    .error .WitnessNotConfigured
  else if witness_is_no_candidate :
      required_witness.any (fun witness => witness ∈ candidates.toFinset) then
    .error .WitnessIsCandidate
  else if needs_health : min_health_checks = 0 then .error .ZeroHealthChecks
  else if bounds_time : max_evidence_age_ms = 0 ∨ max_lease_duration_ms = 0 then
    .error .ZeroTimeBound
  else
    .ok {
      workload, policy_hash, quorum_size, required_witness, min_health_checks
      candidates := candidates.toFinset
      voters := voters.toFinset
      max_evidence_age_ms, max_lease_duration_ms, lease_guard_ms, allow_gate_expiry_fence
      has_candidate, has_voter, quorum_fits, quorums_meet, witness_votes
      witness_is_no_candidate, needs_health, bounds_time
      candidates_vote := not_not.mp candidates_vote }

/-! ## The validator -/

/-- Capability produced only after all checks pass. -/
structure ValidatedPromotion where
  workload : WorkloadId
  candidate : NodeId
  candidate_incarnation : Incarnation
  epoch : Epoch
  policy_hash : PolicyHash
  not_before_ms : UInt64
  expires_at_ms : UInt64
  durable_commit : CommitIndex
  state_root : StateRoot
  fence_class : FenceClass
deriving DecidableEq

/-- Typed refusal reason. -/
inductive ProofError where
  | WorkloadMismatch
  | PolicyHashMismatch
  | StaleEpoch
  | EpochMismatch
  | QuorumBindingMismatch
  | CandidateNotConfigured
  | CandidateAlreadyHoldsAuthority
  | CandidateDidNotVote
  | InsufficientQuorum
  | DuplicateVoter
  | UnknownVoter
  | MissingWitness
  | InvalidFenceVerifier
  | BootstrapNotAllowed
  | InvalidBootstrap
  | WrongFenceTarget
  | WeakFence
  | GateExpiryFenceDisabled
  | FenceGuardNotElapsed
  | EvidenceFromFuture
  | EvidenceTooOld
  | CandidateStateBehind
  | EmptyStateRoot
  | HealthSubjectMismatch
  | CandidateUnhealthy
  | InsufficientHealthChecks
  | LeaseSubjectMismatch
  | InvalidLeaseInterval
  | LeaseTooLong
  | LeaseNotActive
  | LeaseStartsBeforeFence
deriving DecidableEq, Repr

def validate_fresh (observed_at_ms now_ms max_age_ms : UInt64) : Except ProofError Unit := do
  let age ← ok_or (u64_checked_sub now_ms observed_at_ms) .EvidenceFromFuture
  refuse_if (age > max_age_ms) .EvidenceTooOld

/-- The loop of `validate_quorum`: `unique` is the set built so far. -/
def collect_voters (configured : Finset NodeId) (unique : Finset NodeId) :
    List NodeId → Except ProofError (Finset NodeId)
  | [] => .ok unique
  | voter :: voters =>
    if voter ∉ configured then .error .UnknownVoter
    else if voter ∈ unique then .error .DuplicateVoter
    else collect_voters configured (insert voter unique) voters

def validate_quorum (proof : PromotionProof) (policy : SafetyPolicy) :
    Except ProofError (Finset NodeId) := do
  let unique ← collect_voters policy.voters ∅ proof.quorum.voters
  refuse_if (unique.card < policy.quorum_size) .InsufficientQuorum
  refuse_if (proof.candidate ∉ unique) .CandidateDidNotVote
  refuse_if (policy.required_witness.any fun witness => witness ∉ unique) .MissingWitness
  .ok unique

/-- The match of `validate_fence` on the prior holder and the mechanism: the
class of the fence and the time from which the new lease is safe. -/
def match_fence (proof : PromotionProof) (current : AuthorityState) (policy : SafetyPolicy)
    (now_ms : UInt64) : Except ProofError (FenceClass × UInt64) :=
  match current.holder, proof.fence.mechanism with
  | none, .Bootstrap =>
    if current.epoch = ⟨0⟩ ∧ proof.fence.target = none then
      .ok (.Bootstrap, proof.fence.observed_at_ms)
    else .error .InvalidBootstrap
  | none, _ => .error .InvalidBootstrap
  | some _, .Bootstrap => .error .BootstrapNotAllowed
  | some holder, mechanism => do
    refuse_if (proof.fence.target ≠ some holder) .WrongFenceTarget
    match mechanism with
    | .HardwarePower => .ok (.HardwarePower, proof.fence.observed_at_ms)
    | .StorageReservation => .ok (.StorageReservation, proof.fence.observed_at_ms)
    | .EffectGateExpired => do
      refuse_if (!policy.allow_gate_expiry_fence) .GateExpiryFenceDisabled
      let previous_lease_expires_at_ms ← ok_or current.lease_expires_at_ms .FenceGuardNotElapsed
      let safe_time ← ok_or
        (u64_checked_add previous_lease_expires_at_ms policy.lease_guard_ms) .FenceGuardNotElapsed
      refuse_if (now_ms < safe_time) .FenceGuardNotElapsed
      .ok (.EffectGateExpiry, safe_time)
    | .GracefulShutdown => .error .WeakFence
    | .Bootstrap => .error .BootstrapNotAllowed

def validate_fence (proof : PromotionProof) (current : AuthorityState) (policy : SafetyPolicy)
    (quorum : Finset NodeId) (now_ms : UInt64) : Except ProofError (FenceClass × UInt64) := do
  refuse_if (proof.fence.verifier ∉ policy.voters ∨ proof.fence.verifier ∉ quorum ∨
    policy.required_witness.any fun witness => witness ≠ proof.fence.verifier)
    .InvalidFenceVerifier
  validate_fresh proof.fence.observed_at_ms now_ms policy.max_evidence_age_ms
  match_fence proof current policy now_ms

def validate_health (proof : PromotionProof) (policy : SafetyPolicy) (now_ms : UInt64) :
    Except ProofError Unit := do
  refuse_if (proof.health.workload ≠ proof.workload ∨ proof.health.node ≠ proof.candidate ∨
    proof.health.incarnation ≠ proof.candidate_incarnation) .HealthSubjectMismatch
  validate_fresh proof.health.observed_at_ms now_ms policy.max_evidence_age_ms
  refuse_if (!proof.health.healthy) .CandidateUnhealthy
  refuse_if (proof.health.passed_checks < policy.min_health_checks) .InsufficientHealthChecks

def validate_lease (proof : PromotionProof) (policy : SafetyPolicy)
    (safe_not_before_ms now_ms : UInt64) : Except ProofError Unit := do
  refuse_if (proof.lease.workload ≠ proof.workload ∨ proof.lease.holder ≠ proof.candidate ∨
    proof.lease.incarnation ≠ proof.candidate_incarnation) .LeaseSubjectMismatch
  let duration ← ok_or (u64_checked_sub proof.lease.expires_at_ms proof.lease.not_before_ms)
    .InvalidLeaseInterval
  refuse_if (duration = 0) .InvalidLeaseInterval
  refuse_if (duration > policy.max_lease_duration_ms) .LeaseTooLong
  refuse_if (proof.lease.not_before_ms < safe_not_before_ms) .LeaseStartsBeforeFence
  refuse_if (now_ms < proof.lease.not_before_ms ∨ now_ms ≥ proof.lease.expires_at_ms)
    .LeaseNotActive

/-- Validates every proof component and returns an activation capability. -/
def validate_promotion (proof : PromotionProof) (current : AuthorityState)
    (policy : SafetyPolicy) (now_ms : UInt64) : Except ProofError ValidatedPromotion := do
  refuse_if (proof.workload ≠ policy.workload) .WorkloadMismatch
  refuse_if (proof.policy_hash ≠ policy.policy_hash) .PolicyHashMismatch
  refuse_if (proof.epoch ≤ current.epoch) .StaleEpoch
  refuse_if (proof.candidate ∉ policy.candidates) .CandidateNotConfigured
  refuse_if (current.holder = some proof.candidate) .CandidateAlreadyHoldsAuthority
  refuse_if (proof.quorum.epoch ≠ proof.epoch ∨ proof.fence.epoch ≠ proof.epoch ∨
    proof.health.epoch ≠ proof.epoch ∨ proof.lease.epoch ≠ proof.epoch) .EpochMismatch
  refuse_if (proof.quorum.workload ≠ proof.workload ∨
    proof.quorum.candidate ≠ proof.candidate ∨
    proof.quorum.candidate_incarnation ≠ proof.candidate_incarnation ∨
    proof.quorum.policy_hash ≠ proof.policy_hash ∨
    proof.quorum.required_commit ≠ proof.state.required_commit ∨
    proof.quorum.state_root ≠ proof.state.state_root ∨
    proof.quorum.lease_not_before_ms ≠ proof.lease.not_before_ms ∨
    proof.quorum.lease_expires_at_ms ≠ proof.lease.expires_at_ms) .QuorumBindingMismatch
  let quorum ← validate_quorum proof policy
  let (fence_class, safe_not_before_ms) ← validate_fence proof current policy quorum now_ms
  validate_fresh proof.state.observed_at_ms now_ms policy.max_evidence_age_ms
  refuse_if (proof.state.durable_commit < proof.state.required_commit) .CandidateStateBehind
  refuse_if proof.state.state_root.is_zero .EmptyStateRoot
  validate_health proof policy now_ms
  validate_lease proof policy safe_not_before_ms now_ms
  .ok {
    workload := proof.workload
    candidate := proof.candidate
    candidate_incarnation := proof.candidate_incarnation
    epoch := proof.epoch
    policy_hash := proof.policy_hash
    not_before_ms := proof.lease.not_before_ms
    expires_at_ms := proof.lease.expires_at_ms
    durable_commit := proof.state.durable_commit
    state_root := proof.state.state_root
    fence_class }

end quorumarc_core

-- Validating a proof again. The capability depends on the proof alone, and the
-- times at which the proof is accepted run from one instant to another.
import QuorumArc.Retry

open runs

namespace quorumarc_core

variable {proof : PromotionProof} {current current' : AuthorityState}
  {policy policy' : SafetyPolicy} {now_ms now_ms' t : UInt64} {v v' : ValidatedPromotion}

/-! ## The capability -/

/-- The mechanism that a fence class stands for. -/
def FenceClass.mechanism : FenceClass → FenceMechanism
  | .Bootstrap => .Bootstrap
  | .HardwarePower => .HardwarePower
  | .StorageReservation => .StorageReservation
  | .EffectGateExpiry => .EffectGateExpired

theorem FenceClass.mechanism_injective : Function.Injective FenceClass.mechanism := by
  intro a b h
  cases a <;> cases b <;> first | rfl | cases h

/-- The receipt alone decides the class of an accepted fence. -/
theorem Excludes.mechanism_eq {fence_class : FenceClass} {safe : ℤ}
    (h : Excludes proof current policy now_ms fence_class safe) :
    proof.fence.mechanism = fence_class.mechanism := by
  cases h <;> assumption

theorem fence_class_unique (h : validate_promotion proof current policy now_ms = .ok v)
    (h' : validate_promotion proof current' policy' now_ms' = .ok v') :
    v.fence_class = v'.fence_class := by
  obtain ⟨_, hex, _⟩ := (accepted h).1.excludes
  obtain ⟨_, hex', _⟩ := (accepted h').1.excludes
  exact FenceClass.mechanism_injective (hex.mechanism_eq.symm.trans hex'.mechanism_eq)

theorem capability_unique (h : validate_promotion proof current policy now_ms = .ok v)
    (h' : validate_promotion proof current' policy' now_ms' = .ok v') : v = v' := by
  rw [(accepted h).2, (accepted h').2, fence_class_unique h h']

/-! ## The times of acceptance -/

def Accepts (proof : PromotionProof) (current : AuthorityState) (policy : SafetyPolicy)
    (now_ms : UInt64) : Prop :=
  ∃ v, validate_promotion proof current policy now_ms = .ok v

/-- The time from which the fence makes a new lease safe. -/
def safe_ms (proof : PromotionProof) (current : AuthorityState) (policy : SafetyPolicy) : ℤ :=
  match proof.fence.mechanism, current.lease_expires_at_ms with
  | .EffectGateExpired, some expires_at_ms => ms expires_at_ms + ms policy.lease_guard_ms
  | _, _ => ms proof.fence.observed_at_ms

/-- The first time that no check finds too early. -/
def accepted_from (proof : PromotionProof) (current : AuthorityState) (policy : SafetyPolicy) : ℤ :=
  max (max (max (ms proof.fence.observed_at_ms) (ms proof.state.observed_at_ms))
    (max (ms proof.health.observed_at_ms) (ms proof.lease.not_before_ms)))
    (safe_ms proof current policy)

/-- The first time after that which some check finds too late. -/
def accepted_until (proof : PromotionProof) (policy : SafetyPolicy) : ℤ :=
  min (min (ms proof.fence.observed_at_ms) (min (ms proof.state.observed_at_ms)
    (ms proof.health.observed_at_ms)) + ms policy.max_evidence_age_ms + 1)
    (ms proof.lease.expires_at_ms)

theorem accepted_from_le_iff {x : ℤ} : accepted_from proof current policy ≤ x ↔
    ms proof.fence.observed_at_ms ≤ x ∧ ms proof.state.observed_at_ms ≤ x ∧
      ms proof.health.observed_at_ms ≤ x ∧ ms proof.lease.not_before_ms ≤ x ∧
      safe_ms proof current policy ≤ x := by
  unfold accepted_from
  simp only [max_le_iff, and_assoc]

theorem lt_accepted_until_iff {x : ℤ} : x < accepted_until proof policy ↔
    x ≤ ms proof.fence.observed_at_ms + ms policy.max_evidence_age_ms ∧
      x ≤ ms proof.state.observed_at_ms + ms policy.max_evidence_age_ms ∧
      x ≤ ms proof.health.observed_at_ms + ms policy.max_evidence_age_ms ∧
      x < ms proof.lease.expires_at_ms := by
  unfold accepted_until
  omega

theorem Excludes.safe_eq {fence_class : FenceClass} {safe : ℤ}
    (h : Excludes proof current policy now_ms fence_class safe) :
    safe = safe_ms proof current policy := by
  unfold safe_ms
  cases h with
  | bootstrap _ _ _ hm | power _ _ hm | storage _ _ hm => simp [hm]
  | expiry _ _ hm _ hx => simp [hm, hx]

/-- The safe time is that of the receipt, or was checked to be over. -/
theorem Excludes.safe_le {fence_class : FenceClass} {safe : ℤ}
    (h : Excludes proof current policy now_ms fence_class safe)
    (hfence : ms proof.fence.observed_at_ms ≤ ms now_ms) : safe ≤ ms now_ms := by
  cases h with
  | bootstrap | power | storage => exact hfence
  | expiry _ _ _ _ _ hnow => exact hnow

/-- An exclusion holds from its safe time on. -/
theorem Excludes.at_time {fence_class : FenceClass} {safe : ℤ}
    (h : Excludes proof current policy now_ms fence_class safe) (hsafe : safe ≤ ms t) :
    Excludes proof current policy t fence_class safe := by
  cases h with
  | bootstrap hh hz ht hm => exact .bootstrap hh hz ht hm
  | power hh ht hm => exact .power hh ht hm
  | storage hh ht hm => exact .storage hh ht hm
  | expiry hh ht hm hallow hx _ => exact .expiry hh ht hm hallow hx hsafe

/-- No time of acceptance is outside the two bounds. -/
theorem in_bounds {fence_class : FenceClass}
    (h : Acceptable proof current policy now_ms fence_class) :
    accepted_from proof current policy ≤ ms now_ms ∧ ms now_ms < accepted_until proof policy := by
  obtain ⟨safe, hex, hsafe⟩ := h.excludes
  obtain ⟨hfence, hfence'⟩ := h.fence_fresh
  obtain ⟨hstate, hstate'⟩ := h.state_fresh
  obtain ⟨hhealth, hhealth'⟩ := h.health_fresh
  have hstart := h.leased.started
  have hs := hex.safe_le hfence'
  rw [hex.safe_eq] at hs
  rw [accepted_from_le_iff, lt_accepted_until_iff]
  refine ⟨⟨hfence', hstate', hhealth', hstart, hs⟩, ?_, ?_, ?_, h.leased.running⟩ <;> omega

/-- A proof that was accepted once is accepted at every time within the bounds. -/
theorem acceptable_in_bounds {fence_class : FenceClass}
    (h : Acceptable proof current policy now_ms fence_class)
    (hfrom : accepted_from proof current policy ≤ ms t)
    (huntil : ms t < accepted_until proof policy) :
    Acceptable proof current policy t fence_class := by
  obtain ⟨safe, hex, hsafe⟩ := h.excludes
  obtain ⟨hfence, hstate, hhealth, hstart, hafter⟩ := accepted_from_le_iff.mp hfrom
  obtain ⟨hfence', hstate', hhealth', hrunning⟩ := lt_accepted_until_iff.mp huntil
  have hs : safe ≤ ms t := hex.safe_eq.trans_le hafter
  exact { h with
    fence_fresh := ⟨by omega, hfence⟩
    state_fresh := ⟨by omega, hstate⟩
    health_fresh := ⟨by omega, hhealth⟩
    excludes := ⟨safe, hex.at_time hs, hsafe⟩
    leased := { h.leased with started := hstart, running := hrunning } }

theorem accepts_iff (h : Accepts proof current policy now_ms) :
    Accepts proof current policy t ↔
      accepted_from proof current policy ≤ ms t ∧ ms t < accepted_until proof policy := by
  obtain ⟨v, hval⟩ := h
  constructor
  · rintro ⟨v', hval'⟩
    exact in_bounds (accepted hval').1
  · rintro ⟨hfrom, huntil⟩
    have hacc := acceptable_in_bounds (accepted hval).1 hfrom huntil
    exact ⟨_, validate_promotion.spec.mpr ⟨_, hacc, rfl⟩⟩

/-! ## The law -/

open EffectGate

/-- Validation of one proof is stable. All its capabilities are equal, whatever
it is validated against; the times at which it is accepted against one authority
and policy are none, or all from one bound to the other; and a gate in which
its capability waits recognises the one of a later validation. -/
theorem validation_is_stable (proof : PromotionProof) :
    (∀ current current' policy policy' now_ms now_ms' v v',
      validate_promotion proof current policy now_ms = .ok v →
      validate_promotion proof current' policy' now_ms' = .ok v' → v = v') ∧
    (∀ current policy t₁ t₂ t₃, Accepts proof current policy t₁ → Accepts proof current policy t₃ →
      t₁ ≤ t₂ → t₂ ≤ t₃ → Accepts proof current policy t₂) ∧
    (∀ current policy now_ms, Accepts proof current policy now_ms →
      ∀ t, Accepts proof current policy t ↔
        accepted_from proof current policy ≤ ms t ∧ ms t < accepted_until proof policy) ∧
    (∀ current current' policy policy' now_ms now_ms' v v' node workload policy_hash recovery calls t,
      validate_promotion proof current policy now_ms = .ok v →
      validate_promotion proof current' policy' now_ms' = .ok v' →
      let g := EffectGate.after (.recover node workload policy_hash recovery) calls
      g.Pending v → g.last_observed_ms ≤ t →
      GateStep g ⟨.stage t v', .ok (.Record ((g.observed t).persistence_record v))⟩
        (g.observed t)) := by
  refine ⟨?_, ?_, ?_, ?_⟩
  · intro current current' policy policy' now_ms now_ms' v v' h h'
    exact capability_unique h h'
  · intro current policy t₁ t₂ t₃ h₁ h₃ h₁₂ h₂₃
    obtain ⟨hfrom, _⟩ := (accepts_iff h₁).mp h₁
    obtain ⟨_, huntil⟩ := (accepts_iff h₁).mp h₃
    rw [← ms_le] at h₁₂ h₂₃
    exact (accepts_iff h₁).mpr ⟨by omega, by omega⟩
  · intro current policy now_ms h t
    exact accepts_iff h
  · intro current current' policy policy' now_ms now_ms' v v' node workload policy_hash recovery
      calls t h h' g hv hle
    obtain rfl := capability_unique h h'
    have hidle : (recover node workload policy_hash recovery).Idle :=
      Or.inl ⟨recovery.accepted_epoch, rfl⟩
    exact stage_recognises hv (bound_of_pending hidle calls hv) hle

/-- The proof of node-a was accepted at 10000, and so it is at 10200. -/
theorem validation_is_stable_for_a_retry :
    Accepts (tests.proof tests.node_a ⟨1⟩) .initial tests.policy 10200 ∧
    GateStep (tests.gate.after [.stage 10000 tests.capability])
      ⟨.stage 10200 tests.capability,
        .ok (.Record { tests.record with last_observed_ms := 10200 })⟩
      ((tests.gate.after [.stage 10000 tests.capability]).observed 10200) := by
  obtain ⟨_, _, hwindow, hretry⟩ := validation_is_stable (tests.proof tests.node_a ⟨1⟩)
  have hfirst := tests.proof_accepted
  have hagain : Accepts (tests.proof tests.node_a ⟨1⟩) .initial tests.policy 10200 :=
    (hwindow _ _ _ ⟨_, hfirst⟩ 10200).mpr (by decide)
  obtain ⟨v, hv⟩ := hagain
  refine ⟨⟨v, hv⟩, ?_⟩
  obtain rfl := capability_unique hfirst hv
  exact hretry _ _ _ _ _ _ _ _ tests.node_a tests.workload tests.hash tests.recovery
    [.stage 10000 tests.capability] 10200 hfirst hv (Or.inl (by decide)) (by decide)

end quorumarc_core

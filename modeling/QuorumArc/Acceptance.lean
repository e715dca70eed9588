-- What the validator accepts. Each check of `proof.rs` gets a spec with times
-- as unbounded integers, and together they say exactly which proofs
-- `validate_promotion` accepts and what it gives back.
import Mathlib.Algebra.Order.Ring.Int
import Mathlib.Data.Finset.Insert
import QuorumArc.Proof

open checks words

namespace quorumarc_core

/-! ## Times as integers -/

/-- A time or a duration as an unbounded integer. -/
def ms (t : UInt64) : ℤ := t.toNat

theorem ms_le {a b : UInt64} : ms a ≤ ms b ↔ a ≤ b := by
  rw [UInt64.le_iff_toNat_le]
  exact Int.ofNat_le

theorem ms_lt {a b : UInt64} : ms a < ms b ↔ a < b := by
  rw [UInt64.lt_iff_toNat_lt]
  exact Int.ofNat_lt

theorem ms_inj {a b : UInt64} : ms a = ms b ↔ a = b := by
  rw [← UInt64.toNat_inj]
  exact Int.ofNat_inj

theorem ms_nonneg (a : UInt64) : 0 ≤ ms a := Int.natCast_nonneg _

/-- An integer between 0 and a time is a time. -/
theorem exists_ms {x : ℤ} {b : UInt64} (h0 : 0 ≤ x) (hx : x ≤ ms b) : ∃ t, ms t = x := by
  have hb := b.toNat_lt_size
  have hlt : x.toNat < UInt64.size := by unfold ms at hx; omega
  refine ⟨UInt64.ofNat x.toNat, ?_⟩
  unfold ms
  rw [UInt64.toNat_ofNat_of_lt' hlt]
  exact Int.toNat_of_nonneg h0

/-- A time before another one has a next millisecond. -/
theorem ms_succ {t u : UInt64} (h : t < u) : ms (t + 1) = ms t + 1 := by
  have hlt := UInt64.lt_iff_toNat_lt.mp h
  have hsize := u.toNat_lt
  have hone : (1 : UInt64).toNat = 1 := rfl
  unfold ms
  rw [UInt64.toNat_add, Nat.mod_eq_of_lt (by omega)]
  omega

theorem checked_add_eq_some {a b c : UInt64} :
    u64_checked_add a b = some c ↔ ms a + ms b = ms c := by
  rw [u64_checked_add_eq_some]
  unfold ms
  omega

theorem checked_sub_eq_some {a b c : UInt64} :
    u64_checked_sub a b = some c ↔ ms a - ms b = ms c := by
  rw [u64_checked_sub_eq_some]
  unfold ms
  omega

/-! ## The statement of each check -/

/-- The sample was taken in the window of `max_age_ms` that ends now. -/
def Fresh (observed_at_ms now_ms max_age_ms : UInt64) : Prop :=
  ms now_ms - ms max_age_ms ≤ ms observed_at_ms ∧ ms observed_at_ms ≤ ms now_ms

/-- A sample of this moment is in every window. -/
theorem fresh_now (now_ms max_age_ms : UInt64) : Fresh now_ms now_ms max_age_ms := by
  have hage := ms_nonneg max_age_ms
  unfold Fresh
  omega

/-- The certificate covers the subject, the commit, the root and the lease of the proof. -/
structure Binds (quorum : QuorumCertificate) (proof : PromotionProof) : Prop where
  workload : quorum.workload = proof.workload
  candidate : quorum.candidate = proof.candidate
  candidate_incarnation : quorum.candidate_incarnation = proof.candidate_incarnation
  policy_hash : quorum.policy_hash = proof.policy_hash
  required_commit : quorum.required_commit = proof.state.required_commit
  state_root : quorum.state_root = proof.state.state_root
  lease_not_before_ms : quorum.lease_not_before_ms = proof.lease.not_before_ms
  lease_expires_at_ms : quorum.lease_expires_at_ms = proof.lease.expires_at_ms

/-- The votes are a quorum of the policy: configured, pairwise distinct, enough
of them, with the candidate and the required witness among them. -/
structure Votes (proof : PromotionProof) (policy : SafetyPolicy) : Prop where
  distinct : proof.quorum.voters.Nodup
  configured : ∀ voter ∈ proof.quorum.voters, voter ∈ policy.voters
  enough : policy.quorum_size ≤ proof.quorum.voters.length
  candidate : proof.candidate ∈ proof.quorum.voters
  witness : ∀ w, policy.required_witness = some w → w ∈ proof.quorum.voters

/-- The fence verifier voted, and is the required witness if there is one. -/
structure Verifies (proof : PromotionProof) (policy : SafetyPolicy) : Prop where
  voted : proof.fence.verifier ∈ proof.quorum.voters
  witness : ∀ w, policy.required_witness = some w → proof.fence.verifier = w

/-- How the prior authority is excluded, and the time from which that is safe. -/
inductive Excludes (proof : PromotionProof) (current : AuthorityState) (policy : SafetyPolicy)
    (now_ms : UInt64) : FenceClass → ℤ → Prop
  | bootstrap : current.holder = none → current.epoch = ⟨0⟩ → proof.fence.target = none →
      proof.fence.mechanism = .Bootstrap →
      Excludes proof current policy now_ms .Bootstrap (ms proof.fence.observed_at_ms)
  | power {holder : NodeId} : current.holder = some holder → proof.fence.target = some holder →
      proof.fence.mechanism = .HardwarePower →
      Excludes proof current policy now_ms .HardwarePower (ms proof.fence.observed_at_ms)
  | storage {holder : NodeId} : current.holder = some holder → proof.fence.target = some holder →
      proof.fence.mechanism = .StorageReservation →
      Excludes proof current policy now_ms .StorageReservation (ms proof.fence.observed_at_ms)
  | expiry {holder : NodeId} {expires_at_ms : UInt64} : current.holder = some holder →
      proof.fence.target = some holder → proof.fence.mechanism = .EffectGateExpired →
      policy.allow_gate_expiry_fence = true → current.lease_expires_at_ms = some expires_at_ms →
      ms expires_at_ms + ms policy.lease_guard_ms ≤ ms now_ms →
      Excludes proof current policy now_ms .EffectGateExpiry
        (ms expires_at_ms + ms policy.lease_guard_ms)

section exclusion

variable {proof : PromotionProof} {current : AuthorityState} {policy : SafetyPolicy}
  {now_ms : UInt64} {fence_class : FenceClass} {safe : ℤ}

/-- A receipt that excludes a holder names it, and is no bootstrap. -/
theorem Excludes.of_holder {holder : NodeId}
    (h : Excludes proof current policy now_ms fence_class safe)
    (hholder : current.holder = some holder) :
    proof.fence.target = some holder ∧ proof.fence.mechanism ≠ .Bootstrap := by
  cases h with
  | bootstrap hh => rw [hholder] at hh; cases hh
  | power hh ht hm | storage hh ht hm | expiry hh ht hm =>
    rw [hholder] at hh
    cases hh
    exact ⟨ht, by simp [hm]⟩

/-- The expiry of a gate is safe from a guard after the end of its lease on. -/
theorem Excludes.of_expired (h : Excludes proof current policy now_ms fence_class safe)
    (hmech : proof.fence.mechanism = .EffectGateExpired) :
    ∃ expires_at_ms, current.lease_expires_at_ms = some expires_at_ms ∧
      safe = ms expires_at_ms + ms policy.lease_guard_ms ∧ safe ≤ ms now_ms := by
  cases h with
  | bootstrap _ _ _ hm | power _ _ hm | storage _ _ hm => rw [hmech] at hm; cases hm
  | expiry _ _ _ _ hx hnow => exact ⟨_, hx, rfl, hnow⟩

end exclusion

/-- The candidate is attested healthy. -/
structure Healthy (proof : PromotionProof) (policy : SafetyPolicy) : Prop where
  workload : proof.health.workload = proof.workload
  node : proof.health.node = proof.candidate
  incarnation : proof.health.incarnation = proof.candidate_incarnation
  healthy : proof.health.healthy = true
  enough : policy.min_health_checks ≤ proof.health.passed_checks

/-- The lease is the candidate's, is bounded, and is active now. -/
structure Leased (proof : PromotionProof) (policy : SafetyPolicy) (now_ms : UInt64) : Prop where
  workload : proof.lease.workload = proof.workload
  holder : proof.lease.holder = proof.candidate
  incarnation : proof.lease.incarnation = proof.candidate_incarnation
  bounded : ms proof.lease.expires_at_ms - ms proof.lease.not_before_ms ≤
    ms policy.max_lease_duration_ms
  started : ms proof.lease.not_before_ms ≤ ms now_ms
  running : ms now_ms < ms proof.lease.expires_at_ms

/-- The complete acceptance condition, over unbounded integers. -/
structure Acceptable (proof : PromotionProof) (current : AuthorityState) (policy : SafetyPolicy)
    (now_ms : UInt64) (fence_class : FenceClass) : Prop where
  workload : proof.workload = policy.workload
  policy_hash : proof.policy_hash = policy.policy_hash
  newer : current.epoch < proof.epoch
  configured : proof.candidate ∈ policy.candidates
  not_holder : current.holder ≠ some proof.candidate
  quorum_epoch : proof.quorum.epoch = proof.epoch
  fence_epoch : proof.fence.epoch = proof.epoch
  health_epoch : proof.health.epoch = proof.epoch
  lease_epoch : proof.lease.epoch = proof.epoch
  binds : Binds proof.quorum proof
  votes : Votes proof policy
  verifies : Verifies proof policy
  fence_fresh : Fresh proof.fence.observed_at_ms now_ms policy.max_evidence_age_ms
  state_fresh : Fresh proof.state.observed_at_ms now_ms policy.max_evidence_age_ms
  health_fresh : Fresh proof.health.observed_at_ms now_ms policy.max_evidence_age_ms
  excludes : ∃ safe, Excludes proof current policy now_ms fence_class safe ∧
    safe ≤ ms proof.lease.not_before_ms
  caught_up : proof.state.required_commit ≤ proof.state.durable_commit
  rooted : proof.state.state_root.is_zero = false
  healthy : Healthy proof policy
  leased : Leased proof policy now_ms

/-- The capability of an accepted proof. -/
def capabilityOf (proof : PromotionProof) (fence_class : FenceClass) : ValidatedPromotion where
  workload := proof.workload
  candidate := proof.candidate
  candidate_incarnation := proof.candidate_incarnation
  epoch := proof.epoch
  policy_hash := proof.policy_hash
  not_before_ms := proof.lease.not_before_ms
  expires_at_ms := proof.lease.expires_at_ms
  durable_commit := proof.state.durable_commit
  state_root := proof.state.state_root
  fence_class := fence_class

/-! ## The specs of the Rust functions -/

theorem validate_fresh.spec {observed_at_ms now_ms max_age_ms : UInt64} {u : Unit} :
    validate_fresh observed_at_ms now_ms max_age_ms = .ok u ↔
      Fresh observed_at_ms now_ms max_age_ms := by
  simp only [validate_fresh, chain_eq_ok, ok_or_eq_ok, refuse_if_eq_ok, checked_sub_eq_some,
    gt_iff_lt, ← ms_lt, not_lt, Fresh]
  constructor
  · rintro ⟨age, hage, hle⟩
    have := ms_nonneg age
    omega
  · rintro ⟨hold, hpast⟩
    obtain ⟨age, hage⟩ := exists_ms (x := ms now_ms - ms observed_at_ms) (b := now_ms)
      (by omega) (by have := ms_nonneg observed_at_ms; omega)
    exact ⟨age, hage.symm, by omega⟩

/-- The loop accepts the voters that are configured, not yet in the set, and
pairwise distinct; the set then holds them too. -/
theorem collect_voters.spec {configured unique s : Finset NodeId} {voters : List NodeId} :
    collect_voters configured unique voters = .ok s ↔
      voters.Nodup ∧ (∀ v ∈ voters, v ∈ configured) ∧ (∀ v ∈ voters, v ∉ unique) ∧
        s = unique ∪ voters.toFinset := by
  induction voters generalizing unique with
  | nil => simp [collect_voters, eq_comm]
  | cons voter voters ih =>
    unfold collect_voters
    split
    next hc => simp [hc]
    next hc =>
      split
      next hu => simp [hu]
      next hu =>
        rw [ih]
        simp only [List.nodup_cons, List.forall_mem_cons, Finset.mem_insert, not_or,
          List.toFinset_cons, Finset.insert_union, Finset.union_insert]
        have hc' : voter ∈ configured := not_not.mp hc
        constructor
        · rintro ⟨hn, hall, hnew, hs⟩
          exact ⟨⟨fun hv => (hnew voter hv).1 rfl, hn⟩, ⟨hc', hall⟩,
            ⟨hu, fun v hv => (hnew v hv).2⟩, hs⟩
        · rintro ⟨⟨hv, hn⟩, ⟨_, hall⟩, ⟨_, hnew⟩, hs⟩
          exact ⟨hn, hall, fun v hv' => ⟨fun he => hv (he ▸ hv'), hnew v hv'⟩, hs⟩

/-- `is_some_and(|w| ...)` refuses exactly when the witness there is fails. -/
theorem not_any_iff {α : Type} {o : Option α} {p : α → Prop} [DecidablePred p] :
    ¬ (o.any fun a => decide (¬ p a)) = true ↔ ∀ a, o = some a → p a := by
  cases o <;> simp

theorem validate_quorum.spec {proof : PromotionProof} {policy : SafetyPolicy}
    {s : Finset NodeId} :
    validate_quorum proof policy = .ok s ↔
      Votes proof policy ∧ s = proof.quorum.voters.toFinset := by
  simp only [validate_quorum, chain_eq_ok, collect_voters.spec, refuse_if_eq_ok,
    exists_const, not_any_iff, not_lt, not_not, Finset.empty_union, Except.ok.injEq, Finset.notMem_empty,
    not_false_eq_true, implies_true, true_and]
  constructor
  · rintro ⟨_, ⟨hn, hc, rfl⟩, he, hcand, hw, rfl⟩
    rw [List.toFinset_card_of_nodup hn] at he
    simp only [List.mem_toFinset] at hcand hw
    exact ⟨⟨hn, hc, he, hcand, hw⟩, rfl⟩
  · rintro ⟨⟨hn, hc, he, hcand, hw⟩, rfl⟩
    refine ⟨_, ⟨hn, hc, rfl⟩, ?_, by simpa using hcand, by simpa using hw, rfl⟩
    rwa [List.toFinset_card_of_nodup hn]

theorem match_fence.spec {proof : PromotionProof} {current : AuthorityState}
    {policy : SafetyPolicy} {now_ms safe : UInt64} {fence_class : FenceClass} :
    match_fence proof current policy now_ms = .ok (fence_class, safe) ↔
      Excludes proof current policy now_ms fence_class (ms safe) := by
  constructor
  · intro h
    unfold match_fence at h
    rcases hh : current.holder with _ | holder <;> rcases hm : proof.fence.mechanism <;>
      simp only [hh, hm, reduceCtorEq] at h
    case none.Bootstrap =>
      split at h
      next hz => cases h; exact .bootstrap hh hz.1 hz.2 hm
      next => cases h
    all_goals
      simp only [chain_eq_ok, refuse_if_eq_ok, ok_or_eq_ok, exists_const, not_not, reduceCtorEq,
        and_false, Except.ok.injEq, Prod.mk.injEq] at h
    case some.HardwarePower => obtain ⟨ht, rfl, rfl⟩ := h; exact .power hh ht hm
    case some.StorageReservation => obtain ⟨ht, rfl, rfl⟩ := h; exact .storage hh ht hm
    case some.EffectGateExpired =>
      obtain ⟨ht, hallow, expires, hexp, _, hadd, hnow, rfl, rfl⟩ := h
      rw [checked_add_eq_some] at hadd
      rw [UInt64.not_lt, ← ms_le, ← hadd] at hnow
      rw [← hadd]
      exact .expiry hh ht hm (by simpa using hallow) hexp hnow
  · intro h
    unfold match_fence
    generalize hx : ms safe = x at h
    cases h with
    | bootstrap hh hz ht hm =>
      obtain rfl := ms_inj.mp hx
      simp [hh, hm, hz, ht]
    | power hh ht hm =>
      obtain rfl := ms_inj.mp hx
      simp [hh, hm, ht, chain_eq_ok]
    | storage hh ht hm =>
      obtain rfl := ms_inj.mp hx
      simp [hh, hm, ht, chain_eq_ok]
    | expiry hh ht hm hallow hexp hnow =>
      have hadd := checked_add_eq_some.mpr hx.symm
      rw [← hx, ms_le] at hnow
      simp [hh, hm, ht, hallow, hexp, hadd, hnow, chain_eq_ok]

/-- The safe time of an exclusion is a time. -/
theorem Excludes.exists_safe {proof : PromotionProof} {current : AuthorityState}
    {policy : SafetyPolicy} {now_ms : UInt64} {fence_class : FenceClass} {x : ℤ}
    (h : Excludes proof current policy now_ms fence_class x) : ∃ safe, ms safe = x := by
  cases h with
  | bootstrap => exact ⟨_, rfl⟩
  | power => exact ⟨_, rfl⟩
  | storage => exact ⟨_, rfl⟩
  | expiry _ _ _ _ _ hnow => exact exists_ms (Int.add_nonneg (ms_nonneg _) (ms_nonneg _)) hnow

theorem validate_fence.spec {proof : PromotionProof} {current : AuthorityState}
    {policy : SafetyPolicy} {now_ms safe : UInt64} {fence_class : FenceClass}
    (hv : Votes proof policy) :
    validate_fence proof current policy proof.quorum.voters.toFinset now_ms =
        .ok (fence_class, safe) ↔
      Verifies proof policy ∧
        Fresh proof.fence.observed_at_ms now_ms policy.max_evidence_age_ms ∧
        Excludes proof current policy now_ms fence_class (ms safe) := by
  simp only [validate_fence, chain_eq_ok, refuse_if_eq_ok, validate_fresh.spec, exists_const,
    match_fence.spec, List.mem_toFinset, not_or, not_not, ne_eq, not_any_iff]
  constructor
  · rintro ⟨⟨_, hvoted, hw⟩, hfresh, hex⟩
    exact ⟨⟨hvoted, fun w hw' => (hw w hw').symm⟩, hfresh, hex⟩
  · rintro ⟨⟨hvoted, hw⟩, hfresh, hex⟩
    exact ⟨⟨hv.configured _ hvoted, hvoted, fun w hw' => (hw w hw').symm⟩, hfresh, hex⟩

theorem validate_health.spec {proof : PromotionProof} {policy : SafetyPolicy} {now_ms : UInt64}
    {u : Unit} :
    validate_health proof policy now_ms = .ok u ↔
      Healthy proof policy ∧
        Fresh proof.health.observed_at_ms now_ms policy.max_evidence_age_ms := by
  simp only [validate_health, chain_eq_ok, refuse_if_eq_ok, validate_fresh.spec, exists_const,
    not_or, not_not, ne_eq, Bool.not_eq_true', Bool.not_eq_false, UInt16.not_lt]
  constructor
  · rintro ⟨⟨hw, hn, hi⟩, hfresh, hh, hc⟩
    exact ⟨⟨hw, hn, hi, hh, hc⟩, hfresh⟩
  · rintro ⟨⟨hw, hn, hi, hh, hc⟩, hfresh⟩
    exact ⟨⟨hw, hn, hi⟩, hfresh, hh, hc⟩

theorem validate_lease.spec {proof : PromotionProof} {policy : SafetyPolicy}
    {safe now_ms : UInt64} {u : Unit} :
    validate_lease proof policy safe now_ms = .ok u ↔
      Leased proof policy now_ms ∧ ms safe ≤ ms proof.lease.not_before_ms := by
  simp only [validate_lease, chain_eq_ok, refuse_if_eq_ok, ok_or_eq_ok, exists_const, not_or,
    not_not, ne_eq, gt_iff_lt, ge_iff_le, checked_sub_eq_some, ← ms_inj, ← ms_lt, ← ms_le, not_lt,
    not_le]
  constructor
  · rintro ⟨⟨hw, hh, hi⟩, d, hd, _, hmax, hsafe, hstart, hrun⟩
    exact ⟨⟨hw, hh, hi, by omega, hstart, hrun⟩, hsafe⟩
  · rintro ⟨⟨hw, hh, hi, hmax, hstart, hrun⟩, hsafe⟩
    obtain ⟨d, hd⟩ := exists_ms
      (x := ms proof.lease.expires_at_ms - ms proof.lease.not_before_ms)
      (b := proof.lease.expires_at_ms) (by omega) (by have := ms_nonneg proof.lease.not_before_ms; omega)
    have h0 : ms 0 = 0 := rfl
    exact ⟨⟨hw, hh, hi⟩, d, hd.symm, by omega, by omega, hsafe, hstart, hrun⟩

/-- `validate_promotion` gives back `v` exactly when the proof is acceptable
and `v` is its capability. -/
theorem validate_promotion.spec {proof : PromotionProof} {current : AuthorityState}
    {policy : SafetyPolicy} {now_ms : UInt64} {v : ValidatedPromotion} :
    validate_promotion proof current policy now_ms = .ok v ↔
      ∃ fence_class, Acceptable proof current policy now_ms fence_class ∧
        v = capabilityOf proof fence_class := by
  simp only [validate_promotion, chain_eq_ok, refuse_if_eq_ok, validate_quorum.spec, exists_const,
    not_or, not_not, ne_eq, not_le, not_lt, Prod.exists, validate_fresh.spec,
    validate_health.spec, validate_lease.spec, Bool.not_eq_true, Except.ok.injEq]
  constructor
  · rintro ⟨hw, hp, he, hc, hh, ⟨e1, e2, e3, e4⟩, ⟨b1, b2, b3, b4, b5, b6, b7, b8⟩, _,
      ⟨hv, rfl⟩, cls, safe, hf, hs, hcu, hr, ⟨hhl, hhf⟩, ⟨hl, hsafe⟩, rfl⟩
    obtain ⟨hver, hff, hex⟩ := (validate_fence.spec hv).mp hf
    exact ⟨cls, ⟨hw, hp, he, hc, hh, e1, e2, e3, e4, ⟨b1, b2, b3, b4, b5, b6, b7, b8⟩, hv, hver,
      hff, hs, hhf, ⟨_, hex, hsafe⟩, hcu, hr, hhl, hl⟩, rfl⟩
  · rintro ⟨cls, ⟨hw, hp, he, hc, hh, e1, e2, e3, e4, ⟨b1, b2, b3, b4, b5, b6, b7, b8⟩, hv, hver,
      hff, hs, hhf, ⟨x, hex, hsafe⟩, hcu, hr, hhl, hl⟩, rfl⟩
    obtain ⟨safe, rfl⟩ := hex.exists_safe
    exact ⟨hw, hp, he, hc, hh, ⟨e1, e2, e3, e4⟩, ⟨b1, b2, b3, b4, b5, b6, b7, b8⟩, _, ⟨hv, rfl⟩,
      cls, safe, (validate_fence.spec hv).mpr ⟨hver, hff, hex⟩, hs, hcu, hr, ⟨hhl, hhf⟩,
      ⟨hl, hsafe⟩, rfl⟩

theorem accepted {proof : PromotionProof} {current : AuthorityState} {policy : SafetyPolicy}
    {now_ms : UInt64} {v : ValidatedPromotion}
    (h : validate_promotion proof current policy now_ms = .ok v) :
    Acceptable proof current policy now_ms v.fence_class ∧
      v = capabilityOf proof v.fence_class := by
  obtain ⟨cls, hacc, rfl⟩ := validate_promotion.spec.mp h
  exact ⟨hacc, rfl⟩

/-! ## The laws -/

/-- `SafetyPolicy.new` builds every policy there is, from its own fields. -/
theorem every_policy_is_built (p : SafetyPolicy) :
    SafetyPolicy.new p.workload p.policy_hash p.candidates.toList p.voters.toList p.quorum_size
      p.required_witness p.min_health_checks p.max_evidence_age_ms p.max_lease_duration_ms
      p.lease_guard_ms p.allow_gate_expiry_fence = .ok p := by
  obtain ⟨_, _, _, _, _, _, _, _, _, _, _, h1, h2, h3, h4, h5, h6, h7, h8, h9⟩ := p
  simp only [SafetyPolicy.new, Finset.toList_toFinset]
  rw [dif_neg h1, dif_neg h2, dif_neg (not_not.mpr h3), dif_neg h4, dif_neg h5, dif_neg h6,
    dif_neg h7, dif_neg h8, dif_neg h9]

/-- The policy that `SafetyPolicy.new` gives back has the witness it was given. -/
theorem new_required_witness {workload : WorkloadId} {policy_hash : PolicyHash}
    {candidates voters : List NodeId} {quorum_size : Nat} {required_witness : Option NodeId}
    {min_health_checks : UInt16}
    {max_evidence_age_ms max_lease_duration_ms lease_guard_ms : UInt64} {allow : Bool}
    {p : SafetyPolicy}
    (h : SafetyPolicy.new workload policy_hash candidates voters quorum_size required_witness
      min_health_checks max_evidence_age_ms max_lease_duration_ms lease_guard_ms allow = .ok p) :
    p.required_witness = required_witness := by
  simp only [SafetyPolicy.new, dite_error_eq_ok, Except.ok.injEq] at h
  obtain ⟨_, _, _, _, _, _, _, _, _, rfl⟩ := h
  rfl

/-- `validate_promotion` accepts exactly the proofs of `Acceptable`, whose
arithmetic is over unbounded integers: an overflow of the checked arithmetic
is a refusal there too. -/
theorem validate_promotion_accepts_exactly (proof : PromotionProof) (current : AuthorityState)
    (policy : SafetyPolicy) (now_ms : UInt64) :
    (∃ v, validate_promotion proof current policy now_ms = .ok v) ↔
      ∃ fence_class, Acceptable proof current policy now_ms fence_class := by
  constructor
  · rintro ⟨v, h⟩
    exact ⟨v.fence_class, (accepted h).1⟩
  · rintro ⟨fence_class, h⟩
    exact ⟨capabilityOf proof fence_class, validate_promotion.spec.mpr ⟨fence_class, h, rfl⟩⟩

/-! ## The evidence of the unit tests -/

namespace tests

def node_a : NodeId := ⟨"node-a", by decide⟩

def node_b : NodeId := ⟨"node-b", by decide⟩

def witness : NodeId := ⟨"witness", by decide⟩

def workload : WorkloadId := ⟨"orders", by decide⟩

def hash : PolicyHash := ⟨Vector.replicate 32 7⟩

def root : StateRoot := ⟨Vector.replicate 32 9⟩

def built_policy : Except PolicyError SafetyPolicy :=
  SafetyPolicy.new workload hash [node_a, node_b] [node_a, node_b, witness] 2 (some witness) 3
    1000 2000 100 true

def policy : SafetyPolicy := built_policy.toOption.get (by decide)

theorem built_policy_eq : built_policy = .ok policy := rfl

/-- The proof of the unit tests, for a lease from 9995 to 10500. -/
def proof (candidate : NodeId) (epoch : Epoch) : PromotionProof where
  workload := workload
  candidate := candidate
  candidate_incarnation := ⟨1⟩
  epoch := epoch
  policy_hash := hash
  quorum :=
    { epoch, workload, candidate, candidate_incarnation := ⟨1⟩, policy_hash := hash
      required_commit := ⟨42⟩, state_root := root, lease_not_before_ms := 9995
      lease_expires_at_ms := 10500, voters := [candidate, witness] }
  fence :=
    { epoch, target := none, verifier := witness, mechanism := .Bootstrap, observed_at_ms := 9990 }
  state :=
    { required_commit := ⟨42⟩, durable_commit := ⟨42⟩, state_root := root, observed_at_ms := 9990 }
  health :=
    { workload, node := candidate, incarnation := ⟨1⟩, epoch, healthy := true, passed_checks := 3
      observed_at_ms := 9990 }
  lease :=
    { workload, holder := candidate, incarnation := ⟨1⟩, epoch, not_before_ms := 9995
      expires_at_ms := 10500 }

/-- The same votes for a candidate that is one commit ahead. -/
def proof_ahead : PromotionProof :=
  { proof node_a ⟨1⟩ with
    state := { (proof node_a ⟨1⟩).state with durable_commit := ⟨43⟩ } }

/-- The proof of a candidate that takes over, with a lease from the time at
which the power of the holder `target` was cut. -/
def takeover (target candidate : NodeId) (epoch : Epoch) (cut_at_ms : UInt64) : PromotionProof :=
  { proof candidate epoch with
    quorum := { (proof candidate epoch).quorum with lease_not_before_ms := cut_at_ms }
    fence := { (proof candidate epoch).fence with
      target := some target, mechanism := .HardwarePower, observed_at_ms := cut_at_ms }
    lease := { (proof candidate epoch).lease with not_before_ms := cut_at_ms } }

theorem proof_accepted : validate_promotion (proof node_a ⟨1⟩) .initial policy 10000 =
    .ok (capabilityOf (proof node_a ⟨1⟩) .Bootstrap) := by decide

theorem proof_ahead_accepted : validate_promotion proof_ahead .initial policy 10000 =
    .ok (capabilityOf proof_ahead .Bootstrap) := by decide

end tests

end quorumarc_core

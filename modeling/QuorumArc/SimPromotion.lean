-- What `promote` decides. The validator and the fresh gate behind it are run on
-- the evidence of the model once and for all, and what is left is a table over
-- the state.
import QuorumArc.Handshake
import QuorumArc.SimWriters

open quorumarc_core checks words runs

namespace quorumarc_sim

/-! ## The table -/

/-- The old holder is fenced, or its lease and the guard of one tick have run out. -/
def holder_excluded (s : ModelState) : Bool :=
  match s.metadata_holder with
  | none => true
  | some h => (s.node h).fenced || match s.metadata_lease_expires_at_tick with
    | some x => decide (x.toNat + 1 ≤ s.now_tick.toNat)
    | none => false

/-- What `promote` decides, read off the state. -/
def decision (s : ModelState) (c : Node) : Outcome :=
  if !(s.node c).powered || (s.node c).fenced then .Rejected .CandidateUnavailable
  else if !(s.node c).connected_to_witness || !s.witness_up then .Rejected .NoQuorum
  else if (s.node c).gate_is_effective s.now_tick then .Rejected .AlreadyEffective
  else
    match u64_checked_add s.epoch 1, u8_checked_add s.now_tick 3 with
    | none, _ | some _, none => .Rejected .NoStateChange
    | some new_epoch, some expires_at_tick =>
      if s.metadata_holder = some c then .Rejected .AlreadyEffective
      else if s.metadata_holder = none ∧ s.epoch ≠ 0 then .Rejected .CoreRefused
      else if !holder_excluded s then .Rejected .OldGateEffective
      else if !(s.node c).caught_up then .Rejected .CandidateBehind
      else if new_epoch ≤ (s.node c).accepted_epoch then .Rejected .CoreRefused
      else .Applied (promoted s c new_epoch expires_at_tick)

/-! ## The policy and the evidence of the model -/

structure OfModel (policy : SafetyPolicy) : Prop where
  workload : policy.workload = model_workload
  policy_hash : policy.policy_hash = model_policy_hash
  candidates : ∀ c, model_node_id c ∈ policy.candidates
  voters : ∀ c, model_node_id c ∈ policy.voters
  witness_votes : model_witness_id ∈ policy.voters
  quorum_size : policy.quorum_size = 2
  required_witness : policy.required_witness = some model_witness_id
  min_health_checks : policy.min_health_checks = 3
  max_evidence_age_ms : policy.max_evidence_age_ms = 500
  max_lease_duration_ms : policy.max_lease_duration_ms = 300
  lease_guard_ms : policy.lease_guard_ms = 100
  allow_gate_expiry_fence : policy.allow_gate_expiry_fence = true

theorem policy_result.spec : ∃ policy, policy_result = .ok policy ∧ OfModel policy := by
  refine ⟨_, rfl, rfl, rfl, ?_, ?_, ?_, rfl, rfl, rfl, rfl, rfl, rfl, rfl⟩
  · intro c
    cases c <;> decide
  · intro c
    cases c <;> decide
  · decide

variable {s : ModelState} {c : Node} {e : UInt64} {x : UInt8} {policy : SafetyPolicy}

theorem model_node_id_injective : Function.Injective model_node_id := by
  intro a b h
  cases a <;> cases b <;> first | rfl | exact absurd h (by decide)

theorem model_node_id_ne_witness (c : Node) : model_node_id c ≠ model_witness_id := by
  cases c <;> decide

theorem current_authority_holder {n : Node} :
    (current_authority s).holder = some (model_node_id n) ↔ s.metadata_holder = some n := by
  unfold current_authority
  rcases s.metadata_holder with _ | m
  · simp
  · simp [model_node_id_injective.eq_iff]

theorem validate_fresh_now (now_ms max_age_ms : UInt64) :
    validate_fresh now_ms now_ms max_age_ms = .ok () := by
  rw [validate_fresh.spec]
  exact fresh_now now_ms max_age_ms

theorem validate_quorum_model (hp : OfModel policy) :
    validate_quorum (promotion_proof s c e x) policy =
      .ok (promotion_proof s c e x).quorum.voters.toFinset := by
  rw [validate_quorum.spec]
  refine ⟨⟨?_, ?_, ?_, ?_, ?_⟩, rfl⟩
  · simpa [promotion_proof] using model_node_id_ne_witness c
  · simp [promotion_proof, hp.voters, hp.witness_votes]
  · simp [promotion_proof, hp.quorum_size]
  · simp [promotion_proof]
  · intro w hw
    rw [hp.required_witness] at hw
    cases hw
    simp [promotion_proof]

theorem validate_fence_model (hp : OfModel policy) (now_ms : UInt64)
    (hnow : now_ms = tick_ms s.now_tick) :
    validate_fence (promotion_proof s c e x) (current_authority s) policy
      (promotion_proof s c e x).quorum.voters.toFinset now_ms =
      match_fence (promotion_proof s c e x) (current_authority s) policy now_ms := by
  have hfresh : validate_fresh (promotion_proof s c e x).fence.observed_at_ms now_ms
      policy.max_evidence_age_ms = .ok () := by
    rw [hnow]
    exact validate_fresh_now _ _
  unfold validate_fence
  rw [hfresh]
  simp [refuse_if, promotion_proof, hp.witness_votes, hp.required_witness]

theorem validate_health_model (hp : OfModel policy) (hup : (s.node c).powered = true) :
    validate_health (promotion_proof s c e x) policy (tick_ms s.now_tick) = .ok () := by
  rw [validate_health.spec]
  refine ⟨⟨rfl, rfl, rfl, hup, ?_⟩, fresh_now _ _⟩
  rw [hp.min_health_checks]
  exact UInt16.le_refl _

theorem validate_lease_model (hp : OfModel policy) (hx : s.now_tick.toNat + 3 = x.toNat)
    {safe : UInt64} (hsafe : ms safe ≤ ms (tick_ms s.now_tick)) :
    validate_lease (promotion_proof s c e x) policy safe (tick_ms s.now_tick) = .ok () := by
  have hstart := ms_tick s.now_tick
  have hend := ms_tick x
  have h300 : ms 300 = 300 := rfl
  rw [validate_lease.spec]
  refine ⟨⟨rfl, rfl, rfl, ?_, le_refl _, ?_⟩, hsafe⟩
  · rw [hp.max_lease_duration_ms]
    show ms (tick_ms x) - ms (tick_ms s.now_tick) ≤ ms 300
    omega
  · show ms (tick_ms s.now_tick) < ms (tick_ms x)
    omega

/-- A history with an epoch and no holder cannot be bootstrapped again. -/
theorem match_fence_no_bootstrap {now_ms : UInt64} (hh : s.metadata_holder = none)
    (hz : s.epoch ≠ 0) : match_fence (promotion_proof s c e x) (current_authority s) policy now_ms =
      .error .InvalidBootstrap := by
  simp [match_fence, promotion_proof, current_authority, fence_evidence, hh, hz]

/-- A holder that is not excluded is an unfenced one whose guard still runs. -/
theorem match_fence_guarded (hp : OfModel policy) (hex : holder_excluded s = false) :
    match_fence (promotion_proof s c e x) (current_authority s) policy (tick_ms s.now_tick) =
      .error .FenceGuardNotElapsed := by
  unfold holder_excluded at hex
  rcases hh : s.metadata_holder with _ | h
  · simp [hh] at hex
  · simp only [hh, Bool.or_eq_false_iff] at hex
    obtain ⟨hf, hrun⟩ := hex
    rcases hx : s.metadata_lease_expires_at_tick with _ | y
    · simp [match_fence, promotion_proof, current_authority, fence_evidence, hh, hf, hx, refuse_if,
        ok_or, hp.allow_gate_expiry_fence]
    · simp only [hx, decide_eq_false_iff_not] at hrun
      have hend := ms_tick y
      have hnow := ms_tick s.now_tick
      have h100 : ms 100 = 100 := rfl
      rcases hs : u64_checked_add (tick_ms y) 100 with _ | safe
      · simp [match_fence, promotion_proof, current_authority, fence_evidence, hh, hf, hx,
          refuse_if, ok_or, hp.allow_gate_expiry_fence, hp.lease_guard_ms, hs]
      · have hlt : tick_ms s.now_tick < safe := by
          rw [checked_add_eq_some] at hs
          rw [← ms_lt]
          omega
        simp [match_fence, promotion_proof, current_authority, fence_evidence, hh, hf, hx,
          refuse_if, ok_or, hp.allow_gate_expiry_fence, hp.lease_guard_ms, hs, hlt]

/-- The class of the fence of the model. -/
def fence_class_of (s : ModelState) : FenceClass :=
  match s.metadata_holder with
  | none => .Bootstrap
  | some h => if (s.node h).fenced then .HardwarePower else .EffectGateExpiry

/-- An excluded holder is fenced from some time on that is not after now. -/
theorem match_fence_excluded (hp : OfModel policy) (hex : holder_excluded s = true)
    (hz : s.metadata_holder = none → s.epoch = 0) : ∃ safe, ms safe ≤ ms (tick_ms s.now_tick) ∧
      match_fence (promotion_proof s c e x) (current_authority s) policy (tick_ms s.now_tick) =
        .ok (fence_class_of s, safe) := by
  unfold holder_excluded at hex
  rcases hh : s.metadata_holder with _ | h
  · refine ⟨tick_ms s.now_tick, le_refl _, ?_⟩
    simp [match_fence, promotion_proof, current_authority, fence_evidence, fence_class_of, hh, hz hh]
  · rcases hf : (s.node h).fenced with _ | _
    · simp only [hh, hf, Bool.false_or] at hex
      rcases hx : s.metadata_lease_expires_at_tick with _ | y
      · simp [hx] at hex
      · simp only [hx, decide_eq_true_eq] at hex
        have hend := ms_tick y
        have hnow := ms_tick s.now_tick
        have h100 : ms 100 = 100 := rfl
        obtain ⟨safe, hs⟩ := exists_ms (x := ms (tick_ms y) + ms 100) (b := tick_ms s.now_tick)
          (by omega) (by omega)
        have hadd := checked_add_eq_some.mpr hs.symm
        have hnot : ¬ tick_ms s.now_tick < safe := UInt64.not_lt.mpr (ms_le.mp (by omega))
        refine ⟨safe, by omega, ?_⟩
        simp [match_fence, promotion_proof, current_authority, fence_evidence, fence_class_of, hh,
          hf, hx, refuse_if, ok_or, hp.allow_gate_expiry_fence, hp.lease_guard_ms, hadd, hnot]
    · refine ⟨tick_ms s.now_tick, le_refl _, ?_⟩
      simp [match_fence, promotion_proof, current_authority, fence_evidence, fence_class_of, hh, hf,
        refuse_if]

theorem newer_epoch_model (he : s.epoch.toNat + 1 = e.toNat) :
    ¬ (promotion_proof s c e x).epoch ≤ (current_authority s).epoch := by
  rw [Epoch.le_iff]
  show ¬ e.toNat ≤ s.epoch.toNat
  omega

/-- All evidence of the model is under one epoch. -/
theorem epochs_model : ¬ ((promotion_proof s c e x).quorum.epoch ≠ (promotion_proof s c e x).epoch ∨
    (promotion_proof s c e x).fence.epoch ≠ (promotion_proof s c e x).epoch ∨
    (promotion_proof s c e x).health.epoch ≠ (promotion_proof s c e x).epoch ∨
    (promotion_proof s c e x).lease.epoch ≠ (promotion_proof s c e x).epoch) := by
  simp [promotion_proof]

/-- The votes of the model are for the evidence that they come with. -/
theorem binds_model :
    ¬ ((promotion_proof s c e x).quorum.workload ≠ (promotion_proof s c e x).workload ∨
      (promotion_proof s c e x).quorum.candidate ≠ (promotion_proof s c e x).candidate ∨
      (promotion_proof s c e x).quorum.candidate_incarnation ≠
        (promotion_proof s c e x).candidate_incarnation ∨
      (promotion_proof s c e x).quorum.policy_hash ≠ (promotion_proof s c e x).policy_hash ∨
      (promotion_proof s c e x).quorum.required_commit ≠
        (promotion_proof s c e x).state.required_commit ∨
      (promotion_proof s c e x).quorum.state_root ≠ (promotion_proof s c e x).state.state_root ∨
      (promotion_proof s c e x).quorum.lease_not_before_ms ≠
        (promotion_proof s c e x).lease.not_before_ms ∨
      (promotion_proof s c e x).quorum.lease_expires_at_ms ≠
        (promotion_proof s c e x).lease.expires_at_ms) := by
  simp [promotion_proof]

theorem behind_model : (promotion_proof s c e x).state.durable_commit <
    (promotion_proof s c e x).state.required_commit ↔ (s.node c).caught_up = false := by
  show (if (s.node c).caught_up then (⟨10⟩ : CommitIndex) else ⟨9⟩) < ⟨10⟩ ↔ _
  rcases (s.node c).caught_up with _ | _ <;> decide

theorem rooted_model : ¬ (promotion_proof s c e x).state.state_root.is_zero = true := by
  show ¬ model_state_root.is_zero = true
  decide

/-- The checks that the evidence of the model can fail, in their order. -/
theorem validate_promotion_model (hp : OfModel policy) (hup : (s.node c).powered = true)
    (he : s.epoch.toNat + 1 = e.toNat) :
    validate_promotion (promotion_proof s c e x) (current_authority s) policy
      (tick_ms s.now_tick) = (do
        refuse_if (s.metadata_holder = some c) .CandidateAlreadyHoldsAuthority
        let (fence_class, safe) ← match_fence (promotion_proof s c e x) (current_authority s) policy
          (tick_ms s.now_tick)
        refuse_if ((s.node c).caught_up = false) .CandidateStateBehind
        validate_lease (promotion_proof s c e x) policy safe (tick_ms s.now_tick)
        .ok (capabilityOf (promotion_proof s c e x) fence_class)) := by
  have hw : (promotion_proof s c e x).workload = policy.workload := hp.workload.symm
  have hh : (promotion_proof s c e x).policy_hash = policy.policy_hash := hp.policy_hash.symm
  have hc : (promotion_proof s c e x).candidate ∈ policy.candidates := hp.candidates c
  have hholder : (current_authority s).holder = some (promotion_proof s c e x).candidate ↔
      s.metadata_holder = some c := current_authority_holder
  have hstate : validate_fresh (promotion_proof s c e x).state.observed_at_ms
      (tick_ms s.now_tick) policy.max_evidence_age_ms = .ok () := validate_fresh_now _ _
  unfold validate_promotion
  rw [refuse_if_neg (not_not.mpr hw), refuse_if_neg (not_not.mpr hh),
    refuse_if_neg (newer_epoch_model he), refuse_if_neg (not_not.mpr hc), validate_quorum_model hp]
  simp only [ok_bind, validate_fence_model hp _ rfl, validate_health_model hp hup, hstate,
    refuse_if_neg rooted_model, hholder, behind_model]
  rw [refuse_if_neg epochs_model, refuse_if_neg binds_model]
  rfl

theorem validate_holder (hp : OfModel policy) (hup : (s.node c).powered = true)
    (he : s.epoch.toNat + 1 = e.toNat) (hh : s.metadata_holder = some c) :
    validate_promotion (promotion_proof s c e x) (current_authority s) policy
      (tick_ms s.now_tick) = .error .CandidateAlreadyHoldsAuthority := by
  rw [validate_promotion_model hp hup he, refuse_if_pos hh, error_bind]

/-- For another candidate the match of the fence comes next. -/
theorem validate_fence_error {err : ProofError} (hp : OfModel policy)
    (hup : (s.node c).powered = true) (he : s.epoch.toNat + 1 = e.toNat)
    (hh : s.metadata_holder ≠ some c)
    (herr : match_fence (promotion_proof s c e x) (current_authority s) policy
      (tick_ms s.now_tick) = .error err) :
    validate_promotion (promotion_proof s c e x) (current_authority s) policy
      (tick_ms s.now_tick) = .error err := by
  rw [validate_promotion_model hp hup he, refuse_if_neg hh, ok_bind, herr, error_bind]

theorem validate_excluded (hp : OfModel policy) (hup : (s.node c).powered = true)
    (he : s.epoch.toNat + 1 = e.toNat) (hx : s.now_tick.toNat + 3 = x.toNat)
    (hh : s.metadata_holder ≠ some c) (hex : holder_excluded s = true)
    (hz : s.metadata_holder = none → s.epoch = 0) :
    validate_promotion (promotion_proof s c e x) (current_authority s) policy
      (tick_ms s.now_tick) =
      if (s.node c).caught_up = false then .error .CandidateStateBehind
      else .ok (capabilityOf (promotion_proof s c e x) (fence_class_of s)) := by
  obtain ⟨safe, hsafe, hmatch⟩ := match_fence_excluded hp hex hz
  rw [validate_promotion_model hp hup he, refuse_if_neg hh, ok_bind, hmatch, ok_bind]
  dsimp only
  rw [validate_lease_model hp hx hsafe, ok_bind]
  by_cases hc : (s.node c).caught_up = false
  · rw [refuse_if_pos hc, if_pos hc, error_bind]
  · rw [refuse_if_neg hc, if_neg hc, ok_bind]

/-! ## The fresh gate -/

/-- The gate that `promote` recovers for the candidate. -/
def fresh_gate (s : ModelState) (c : Node) : EffectGate :=
  .recover (model_node_id c) model_workload model_policy_hash
    { accepted_epoch := ⟨(s.node c).accepted_epoch⟩
      incarnation := ⟨(s.node c).incarnation⟩
      last_observed_ms := tick_ms s.now_tick }

/-- The capability of the model for the candidate. -/
def model_capability (s : ModelState) (c : Node) (e : UInt64) (x : UInt8) : ValidatedPromotion :=
  capabilityOf (promotion_proof s c e x) (fence_class_of s)

theorem lease_of_model (hx : s.now_tick.toNat + 3 = x.toNat) : tick_ms s.now_tick < tick_ms x := by
  have hstart := ms_tick s.now_tick
  have hend := ms_tick x
  rw [← ms_lt]
  omega

theorem gate_admits_newer (hx : s.now_tick.toNat + 3 = x.toNat)
    (hlt : (s.node c).accepted_epoch < e) :
    gate_admits (fresh_gate s c) (tick_ms s.now_tick) (model_capability s c e x) (model_node_id c)
      ⟨e⟩ = true := by
  have hend := lease_of_model hx
  have hno : ¬ (fresh_gate s c).IsOpen := by
    rintro ⟨h, e', x', hs⟩
    cases hs
  obtain ⟨r, g₁, g₂, hstage, hconfirm, hactivate⟩ := EffectGate.handshake_opens
    (g := fresh_gate s c) (v := model_capability s c e x) (UInt64.le_refl (tick_ms s.now_tick))
    ⟨rfl, rfl, rfl, rfl⟩ hno (UInt64.lt_iff_toNat_lt.mp hlt) (UInt64.le_refl _) hend
  have hcheck := EffectGate.check_of_open (g := (fresh_gate s c).openedFor (model_capability s c e x)
    (tick_ms s.now_tick)) (t := tick_ms s.now_tick) (h := model_node_id c) (e := ⟨e⟩) rfl
    (UInt64.le_refl _) hend
  unfold gate_admits
  simp only [hstage, hconfirm, hactivate, hcheck]

theorem gate_admits_stale (hle : e ≤ (s.node c).accepted_epoch) :
    gate_admits (fresh_gate s c) (tick_ms s.now_tick) (model_capability s c e x) (model_node_id c)
      ⟨e⟩ = false := by
  have hstale : ((fresh_gate s c).observed (tick_ms s.now_tick)).stage_newer
      (model_capability s c e x) =
      (.error .StaleAuthorization, (fresh_gate s c).observed (tick_ms s.now_tick)) :=
    if_pos (UInt64.le_iff_toNat_le.mp hle)
  have hstage := EffectGate.stage_of_bound (g := fresh_gate s c) (v := model_capability s c e x)
    (UInt64.le_refl (tick_ms s.now_tick)) ⟨rfl, rfl, rfl, rfl⟩
  have hstate : (fresh_gate s c).state = .Closed ⟨(s.node c).accepted_epoch⟩ := rfl
  rw [hstate] at hstage
  unfold gate_admits
  simp only [hstage, hstale]

/-! ## The table is what `promote` computes -/

theorem promote_eq_decision (s : ModelState) (c : Node) : promote s c = decision s c := by
  obtain ⟨policy, hpolicy, hp⟩ := policy_result.spec
  unfold promote decision
  simp only
  split
  · rfl
  next havail =>
  split
  · rfl
  split
  · rfl
  have hup : (s.node c).powered = true := by
    simp only [Bool.or_eq_true, Bool.not_eq_true', not_or, Bool.not_eq_false] at havail
    exact havail.1
  rcases he : u64_checked_add s.epoch 1 with _ | e
  · rfl
  rcases hx : u8_checked_add s.now_tick 3 with _ | x
  · rfl
  have hepoch := u64_checked_add_eq_some.mp he
  have hlease := u8_checked_add_eq_some.mp hx
  simp only [hpolicy]
  by_cases hh : s.metadata_holder = some c
  · rw [validate_holder hp hup hepoch hh, if_pos hh]
  rw [if_neg hh]
  by_cases hz : s.metadata_holder = none ∧ s.epoch ≠ 0
  · rw [validate_fence_error hp hup hepoch hh (match_fence_no_bootstrap hz.1 hz.2), if_pos hz]
  rw [if_neg hz]
  rcases hex : holder_excluded s with _ | _
  · rw [validate_fence_error hp hup hepoch hh (match_fence_guarded hp hex)]
    rfl
  have hz' : s.metadata_holder = none → s.epoch = 0 := by
    intro hnone
    exact not_not.mp (not_and.mp hz hnone)
  rw [validate_excluded hp hup hepoch hlease hh hex hz']
  rcases hc : (s.node c).caught_up with _ | _
  · rfl
  by_cases hle : e ≤ (s.node c).accepted_epoch
  · have hgate := gate_admits_stale (s := s) (c := c) (x := x) hle
    simp only [fresh_gate, model_capability] at hgate
    simp [hgate, hle]
  · have hgate := gate_admits_newer hlease (UInt64.not_le.mp hle)
    simp only [fresh_gate, model_capability] at hgate
    simp [hgate, hle]

end quorumarc_sim

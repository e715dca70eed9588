-- The age of evidence at the moment of use. The validator bounds the lease of a
-- capability by the age of its evidence, and a gate allows effects under an epoch
-- for one capability only, so no delay on the way extends what the proof gave.
import QuorumArc.AntiReplay
import QuorumArc.Handshake
import QuorumArc.Mediation

open runs

namespace quorumarc_core

/-! ## The validator's half -/

/-- When the evidence of the proof was observed. -/
def PromotionProof.observations (proof : PromotionProof) : List UInt64 :=
  [proof.fence.observed_at_ms, proof.state.observed_at_ms, proof.health.observed_at_ms]

section validator

variable {proof : PromotionProof} {current : AuthorityState} {policy : SafetyPolicy}
  {now_ms : UInt64} {v : ValidatedPromotion}

theorem observations_fresh {fence_class : FenceClass}
    (hacc : Acceptable proof current policy now_ms fence_class) :
    ∀ o ∈ proof.observations, Fresh o now_ms policy.max_evidence_age_ms := by
  simpa [PromotionProof.observations] using
    ⟨hacc.fence_fresh, hacc.state_fresh, hacc.health_fresh⟩

/-- A capability expires within the lease bound after its evaluation. -/
theorem expires_after_evaluation
    (hval : validate_promotion proof current policy now_ms = .ok v) :
    ms v.expires_at_ms ≤ ms now_ms + ms policy.max_lease_duration_ms := by
  obtain ⟨hacc, hv⟩ := accepted hval
  have hbounded := hacc.leased.bounded
  have hstarted := hacc.leased.started
  rw [hv]
  show ms proof.lease.expires_at_ms ≤ ms now_ms + ms policy.max_lease_duration_ms
  omega

/-- And within the age bound and the lease bound after each of its observations. -/
theorem expires_after_observation
    (hval : validate_promotion proof current policy now_ms = .ok v) {o : UInt64}
    (ho : o ∈ proof.observations) :
    ms v.expires_at_ms ≤
      ms o + ms policy.max_evidence_age_ms + ms policy.max_lease_duration_ms := by
  have hfresh := (observations_fresh (accepted hval).1 o ho).1
  have hexpires := expires_after_evaluation hval
  omega

end validator

/-! ## One capability for each epoch -/

/-- `v` was staged among the events. -/
def StagedIn (v : ValidatedPromotion) (es : List GateEvent) : Prop :=
  ∃ t r, (⟨.stage t v, .ok (.Record r)⟩ : GateEvent) ∈ es

variable {g₀ g g' : EffectGate} {es past : List GateEvent} {ev : GateEvent}
  {v w : ValidatedPromotion}

/-- The last event staged `v`, if no earlier one did. -/
theorem stagedIn_snoc (h : StagedIn v (es ++ [ev])) :
    StagedIn v es ∨ ∃ t r, ev = ⟨.stage t v, .ok (.Record r)⟩ := by
  obtain ⟨t, r, hmem⟩ := h
  rcases List.mem_append.mp hmem with hold | hnew
  · exact Or.inl ⟨t, r, hold⟩
  · exact Or.inr ⟨t, r, (List.mem_singleton.mp hnew).symm⟩

theorem stagedIn_of_activated {r : ContinuityReceipt} (h : ActivatedSince g v r past) :
    StagedIn v past := by
  obtain ⟨_, _, ⟨hconfirmed, _⟩, _, hbefore⟩ := h.mem
  obtain ⟨_, _, ⟨hstaged, _⟩, _, hbefore'⟩ := hconfirmed.mem
  obtain ⟨_, _, ⟨t, r, rfl⟩, hmem, _⟩ := hstaged.mem
  exact ⟨t, r, hbefore (hbefore' hmem)⟩

/-- The gate knows the epochs of all that was staged, and what was staged under
the epoch of a pending capability is that capability. -/
structure OnePerEpoch (es : List GateEvent) (g : EffectGate) : Prop where
  known : ∀ v, StagedIn v es → v.epoch ≤ g.state.last_epoch
  pending : ∀ v w, StagedIn v es → g.Pending w → v.epoch = w.epoch → v = w
  unique : ∀ v w, StagedIn v es → StagedIn w es → v.epoch = w.epoch → v = w

theorem onePerEpoch_nil (g : EffectGate) : OnePerEpoch [] g := by
  refine ⟨?_, ?_, ?_⟩ <;> simp [StagedIn]

/-- A stage leaves its capability pending. -/
theorem pending_of_stage (ho : g.Outcome ev.call ev.answer g')
    (hev : ∃ t r, ev = ⟨.stage t v, .ok (.Record r)⟩) : g'.Pending v := by
  obtain ⟨t, r, rfl⟩ := hev
  exact ho.of_stage.1

theorem onePerEpoch_step (h : OnePerEpoch es g) (ho : g.Outcome ev.call ev.answer g') :
    OnePerEpoch (es ++ [ev]) g' := by
  have hpending : ∀ v w, StagedIn v (es ++ [ev]) → g'.Pending w → v.epoch = w.epoch → v = w := by
    intro v w hv hw heq
    rcases stagedIn_snoc hv with hold | hnew
    · rcases ho.to_pending hw with hw | ⟨_, _, hlt, _⟩
      · exact h.pending v w hold hw heq
      · -- A stage above the epoch of the gate is above all that was staged.
        have hknown := h.known v hold
        rw [heq] at hknown
        exact absurd hknown (not_le_of_gt hlt)
    · exact (pending_of_stage ho hnew).unique hw
  refine ⟨?_, hpending, ?_⟩
  · intro v hv
    rcases stagedIn_snoc hv with hold | hnew
    · exact le_trans (h.known v hold) ho.last_epoch_le
    · exact ge_of_eq (pending_of_stage ho hnew).last_epoch
  · intro v w hv hw heq
    rcases stagedIn_snoc hw with hold | hnew
    · rcases stagedIn_snoc hv with hold' | hnew'
      · exact h.unique v w hold' hold heq
      · exact (hpending w v hw (pending_of_stage ho hnew') heq.symm).symm
    · exact hpending v w hv (pending_of_stage ho hnew) heq

theorem onePerEpoch_run (hrun : GateRun g₀ es g) : OnePerEpoch es g := by
  refine hrun.history OnePerEpoch (onePerEpoch_nil g₀) ?_
  intro es g ev g' _ ih hstep
  exact onePerEpoch_step ih hstep.outcome

/-! ## The law -/

/-- An effect that is allowed under the epoch of a capability that the run
stages is mediated by that capability. -/
theorem mediated_of_staged {t : UInt64} {holder : NodeId} {later : List GateEvent} (hs : g₀.Idle)
    (hrun : GateRun g₀ (past ++ ⟨.check_effect t holder v.epoch, .ok .Allowed⟩ :: later) g)
    (hv : StagedIn v (past ++ ⟨.check_effect t holder v.epoch, .ok .Allowed⟩ :: later)) :
    ∃ r, Mediated g₀ past holder v.epoch t v r := by
  obtain ⟨_, _, hpast, hstep, _⟩ := hrun.at_event
  obtain ⟨w, r, hmed⟩ := mediated_of_allowed hs hpast hstep
  obtain ⟨t', r', hmem⟩ := stagedIn_of_activated hmed.activated
  have hw : StagedIn w (past ++ ⟨.check_effect t holder v.epoch, .ok .Allowed⟩ :: later) :=
    ⟨t', r', List.mem_append_left _ hmem⟩
  obtain rfl := (onePerEpoch_run hrun).unique v w hv hw hmed.epoch
  exact ⟨r, hmed⟩

/-- A capability is used only within the lease bound after its evaluation, and
within the age bound and the lease bound after each observation behind it: this
holds of every effect that a recovered gate allows under its epoch, in any run
that stages it, and the capability was then confirmed and activated before. -/
theorem effects_are_bounded_by_the_evidence {policy : SafetyPolicy} {proof : PromotionProof}
    {current : AuthorityState} {now_ms : UInt64} {v : ValidatedPromotion}
    (hval : validate_promotion proof current policy now_ms = .ok v)
    (node : NodeId) (workload : WorkloadId) (policy_hash : PolicyHash)
    (recovery : GateRecoveryState) {past later : List GateEvent} {t : UInt64} {holder : NodeId}
    {g : EffectGate}
    (hrun : GateRun (.recover node workload policy_hash recovery)
      (past ++ ⟨.check_effect t holder v.epoch, .ok .Allowed⟩ :: later) g)
    (hstaged : StagedIn v (past ++ ⟨.check_effect t holder v.epoch, .ok .Allowed⟩ :: later)) :
    (∃ r, Mediated (.recover node workload policy_hash recovery) past holder v.epoch t v r) ∧
    ms t < ms now_ms + ms policy.max_lease_duration_ms ∧
    ∀ o ∈ proof.observations,
      ms t < ms o + ms policy.max_evidence_age_ms + ms policy.max_lease_duration_ms := by
  obtain ⟨r, hmed⟩ := mediated_of_staged (Or.inl ⟨recovery.accepted_epoch, rfl⟩) hrun hstaged
  have hrunning := ms_lt.mpr hmed.running
  refine ⟨⟨r, hmed⟩, lt_of_lt_of_le hrunning (expires_after_evaluation hval), ?_⟩
  intro o ho
  exact lt_of_lt_of_le hrunning (expires_after_observation hval ho)

theorem effects_are_bounded_by_the_evidence_after_handshake :
    ms 10100 < ms 10000 + ms tests.policy.max_lease_duration_ms ∧
    ms 10100 < ms 9990 + ms tests.policy.max_evidence_age_ms +
      ms tests.policy.max_lease_duration_ms := by
  have hrun := gateRun_of_calls tests.gate
    (tests.handshake ++ [.check_effect 10100 tests.node_a ⟨1⟩])
  have htrace : tests.gate.trace (tests.handshake ++ [.check_effect 10100 tests.node_a ⟨1⟩]) =
      tests.gate.trace tests.handshake ++
        ⟨.check_effect 10100 tests.node_a ⟨1⟩, .ok .Allowed⟩ :: [] := by decide
  rw [htrace] at hrun
  have hstaged : StagedIn tests.capability (tests.gate.trace tests.handshake ++
      ⟨.check_effect 10100 tests.node_a ⟨1⟩, .ok .Allowed⟩ :: []) :=
    ⟨10000, tests.record, by decide⟩
  obtain ⟨_, hlease, hage⟩ := effects_are_bounded_by_the_evidence tests.proof_accepted
    tests.node_a tests.workload tests.hash tests.recovery hrun hstaged
  exact ⟨hlease, hage 9990 (by decide)⟩

end quorumarc_core

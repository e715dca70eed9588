-- Retrying the persistence handshake. A caller that lost an answer stages the
-- capability again, and `stage` recognises it; but `confirm_persisted` accepts
-- only a staged capability, not one that is prepared already.
import QuorumArc.Handshake
import QuorumArc.Mediation

open runs

namespace quorumarc_core

namespace EffectGate

variable {g g₁ : EffectGate} {v : ValidatedPromotion} {r : GatePersistenceRecord} {t : UInt64}

/-- Whenever a stage of `v` at `t` succeeds, the record that it gives is
confirmed right after it, and the gate is then prepared for `v`. -/
def Retriable (g : EffectGate) (t : UInt64) (v : ValidatedPromotion) : Prop :=
  ∀ r g₁, GateStep g ⟨.stage t v, .ok (.Record r)⟩ g₁ →
    ∃ g₂, GateStep g₁ ⟨.confirm_persisted r, .ok .Confirmed⟩ g₂ ∧ g₂.state = .Prepared v

/-- A stage that succeeds stages the capability, unless it is prepared. -/
theorem Outcome.state_of_stage (ho : g.Outcome (.stage t v) (.ok (.Record r)) g₁) :
    g.state = .Prepared v ∧ g₁.state = .Prepared v ∨
      g.state ≠ .Prepared v ∧ g₁.state = .Staged v := by
  cases ho with
  | staged _ _ _ hlt =>
    refine Or.inr ⟨?_, rfl⟩
    intro hp
    rw [hp] at hlt
    exact absurd hlt (lt_irrefl _)
  | restaged _ _ hv =>
    rcases hv with hs | hp
    · exact Or.inr ⟨by simp [hs], hs⟩
    · exact Or.inl ⟨hp, hp⟩

/-- A gate recognises the capability of its own that waits in it. -/
theorem stage_recognises (hv : g.Pending v) (hb : g.Bound v) (hle : g.last_observed_ms ≤ t) :
    GateStep g ⟨.stage t v, .ok (.Record ((g.observed t).persistence_record v))⟩
      (g.observed t) := by
  have hstage : g.stage t v =
      (.ok ((g.observed t).persistence_record v), g.observed t) := by
    rw [stage_of_bound hle hb]
    rcases hv with hs | hp
    · simp [hs]
    · simp [hp]
  unfold GateStep
  simp [step, hstage, Except.map]

/-- A gate that is not staged confirms nothing. -/
theorem not_confirmed (hp : g.state = .Prepared v) :
    ¬ ∃ g₂, GateStep g ⟨.confirm_persisted r, .ok .Confirmed⟩ g₂ := by
  rintro ⟨g₂, hstep⟩
  have ho := hstep.outcome
  generalize hc : Call.confirm_persisted r = c, hg : g₂ = g' at ho
  cases ho with
  | confirmed hs => rw [hp] at hs; cases hs

/-- A stage of a capability that the gate may hold can be retried exactly if the
gate is not prepared for it, or the stage comes too early to read the clock. -/
theorem retriable_iff (hb : g.Pending v → g.Bound v) :
    g.Retriable t v ↔ (g.last_observed_ms ≤ t → g.state ≠ .Prepared v) := by
  constructor
  · intro h hle hp
    obtain ⟨g₂, hstep, _⟩ := h _ _ (stage_recognises (Or.inr hp) (hb (Or.inr hp)) hle)
    have hp' : (g.observed t).state = .Prepared v := hp
    exact not_confirmed hp' ⟨g₂, hstep⟩
  · intro h r g₁ hstage
    have ho := hstage.outcome
    have hrec := ho.of_stage.2.2
    have hle : g.last_observed_ms ≤ t := by
      have hobs := ho.of_stage.2.1
      have hmono := ho.last_observed_le
      rwa [hobs] at hmono
    rcases ho.state_of_stage with ⟨hp, _⟩ | ⟨_, hs⟩
    · exact absurd hp (h hle)
    · exact (confirms_iff hs).mpr hrec

/-- In the runs of an idle gate only capabilities of the gate wait. -/
theorem bound_of_pending {g₀ : EffectGate} (hs : g₀.Idle) (calls : List Call)
    (hv : (g₀.after calls).Pending v) : (g₀.after calls).Bound v := by
  have hprov := provenance_run (gateRun_of_calls g₀ calls) hs
  obtain ⟨hn, hw, hp, hi⟩ := hprov.binding
  have hback : g₀.Bound v := by
    rcases hv with hv | hv
    · exact (hprov.staged v hv).1
    · exact (hprov.prepared v hv).1
  exact bound_of_same ⟨hn.symm, hw.symm, hp.symm, hi.symm⟩ hback

end EffectGate

/-! ## The law -/

open EffectGate

/-- Every stage of the run can be retried from the beginning. -/
def HandshakesRetry (g₀ : EffectGate) (calls : List Call) : Prop :=
  ∀ before t v after, calls = before ++ .stage t v :: after → (g₀.after before).Retriable t v

/-- A recovered gate recognises what waits in it, after any calls: a stage of it at a
reading that the gate accepts succeeds again. The handshakes of the run can be retried
to their end exactly if no stage of the run, at a reading that the gate accepts, meets
the gate prepared for the same capability. -/
theorem handshakes_retry_iff_never_prepared (node : NodeId) (workload : WorkloadId)
    (policy_hash : PolicyHash) (recovery : GateRecoveryState) (calls : List Call) :
    (∀ t v, (EffectGate.after (.recover node workload policy_hash recovery) calls).Pending v →
      (EffectGate.after (.recover node workload policy_hash recovery) calls).last_observed_ms ≤ t →
      ∃ r g₁, GateStep (EffectGate.after (.recover node workload policy_hash recovery) calls)
        ⟨.stage t v, .ok (.Record r)⟩ g₁ ∧ g₁.Pending v) ∧
    (HandshakesRetry (.recover node workload policy_hash recovery) calls ↔
      ∀ before t v after, calls = before ++ .stage t v :: after →
        (EffectGate.after (.recover node workload policy_hash recovery) before).last_observed_ms ≤
          t →
        (EffectGate.after (.recover node workload policy_hash recovery) before).state ≠
          .Prepared v) := by
  have hidle : (recover node workload policy_hash recovery).Idle :=
    Or.inl ⟨recovery.accepted_epoch, rfl⟩
  refine ⟨?_, ?_, ?_⟩
  · intro t v hv hle
    exact ⟨_, _, stage_recognises hv (bound_of_pending hidle calls hv) hle, hv⟩
  · intro h before t v after hsplit
    exact (retriable_iff (bound_of_pending hidle before)).mp (h before t v after hsplit)
  · intro h before t v after hsplit
    exact (retriable_iff (bound_of_pending hidle before)).mpr (h before t v after hsplit)

/-- The answer of the confirmation is lost. A millisecond later the caller
validates the proof again and stages it; the stage succeeds, and the
confirmation of its record is refused. -/
theorem retry_of_a_prepared_handshake_is_refused :
    validate_promotion (tests.proof tests.node_a ⟨1⟩) .initial tests.policy 10000 =
      .ok tests.capability ∧
    validate_promotion (tests.proof tests.node_a ⟨1⟩) .initial tests.policy 10001 =
      .ok tests.capability ∧
    tests.gate.trace [.stage 10000 tests.capability, .confirm_persisted tests.record,
        .stage 10001 tests.capability,
        .confirm_persisted { tests.record with last_observed_ms := 10001 }] =
      [⟨.stage 10000 tests.capability, .ok (.Record tests.record)⟩,
        ⟨.confirm_persisted tests.record, .ok .Confirmed⟩,
        ⟨.stage 10001 tests.capability,
          .ok (.Record { tests.record with last_observed_ms := 10001 })⟩,
        ⟨.confirm_persisted { tests.record with last_observed_ms := 10001 },
          .error .NotStaged⟩] ∧
    ¬ HandshakesRetry tests.gate [.stage 10000 tests.capability,
      .confirm_persisted tests.record, .stage 10001 tests.capability] := by
  refine ⟨tests.proof_accepted, by decide, by decide, ?_⟩
  intro h
  have hp : (tests.gate.after [.stage 10000 tests.capability,
    .confirm_persisted tests.record]).state = .Prepared tests.capability := by decide
  have hretry := h [.stage 10000 tests.capability, .confirm_persisted tests.record] 10001
    tests.capability [] rfl
  refine (retriable_iff ?_).mp hretry (by decide) hp
  intro _
  exact ⟨rfl, rfl, rfl, rfl⟩

end quorumarc_core

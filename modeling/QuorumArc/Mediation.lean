-- Complete mediation of effects. A gate that allows an effect was opened by one
-- capability, staged, confirmed and activated in this order, and nothing has
-- closed it since.
import QuorumArc.GateCalls

open runs

namespace quorumarc_core

/-! ## The steps of the handshake -/

/-- The event closed the gate: a close, a safety fault, or a detected rollback
of the clock. -/
def GateEvent.Closes (ev : GateEvent) : Prop :=
  ev.call = .close ∨ ev.call = .safety_fault ∨ ev.answer = .error .ClockRollback

/-- The event staged a capability other than `v`. -/
def GateEvent.Replaces (v : ValidatedPromotion) (ev : GateEvent) : Prop :=
  ∃ t w r, ev.call = .stage t w ∧ ev.answer = .ok (.Record r) ∧ w ≠ v

def GateEvent.Keeps (v : ValidatedPromotion) (ev : GateEvent) : Prop :=
  ¬ ev.Closes ∧ ¬ ev.Replaces v

/-- `v` was staged, and nothing closed the gate or staged another capability since. -/
def StagedSince (v : ValidatedPromotion) : List GateEvent → Prop :=
  Since (fun _ ev => ∃ t r, ev = ⟨.stage t v, .ok (.Record r)⟩) (·.Keeps v)

/-- The record is of this gate and for the epoch of `v`. -/
structure RecordOf (g : EffectGate) (v : ValidatedPromotion) (r : GatePersistenceRecord) :
    Prop where
  node : r.node = g.node
  workload : r.workload = g.workload
  policy_hash : r.policy_hash = g.policy_hash
  incarnation : r.incarnation = g.incarnation
  accepted_epoch : r.accepted_epoch = v.epoch

/-- After that stage a record of `v` was confirmed, with nothing in between or since. -/
def ConfirmedSince (g : EffectGate) (v : ValidatedPromotion) : List GateEvent → Prop :=
  Since (fun past ev => StagedSince v past ∧
    ∃ r, ev = ⟨.confirm_persisted r, .ok .Confirmed⟩ ∧ RecordOf g v r) (·.Keeps v)

/-- After that confirmation `v` was activated with the receipt `r`, with nothing
in between or since. -/
def ActivatedSince (g : EffectGate) (v : ValidatedPromotion) (r : ContinuityReceipt) :
    List GateEvent → Prop :=
  Since (fun past ev => ConfirmedSince g v past ∧ ∃ t, ev = ⟨.activate t, .ok (.Receipt r)⟩)
    (·.Keeps v)

/-- Every field that the receipt shares with the capability is the capability's. -/
structure Certifies (r : ContinuityReceipt) (v : ValidatedPromotion) : Prop where
  workload : r.workload = v.workload
  holder : r.holder = v.candidate
  incarnation : r.incarnation = v.candidate_incarnation
  epoch : r.epoch = v.epoch
  expires_at_ms : r.expires_at_ms = v.expires_at_ms
  durable_commit : r.durable_commit = v.durable_commit
  state_root : r.state_root = v.state_root
  fence_class : r.fence_class = v.fence_class
  policy_hash : r.policy_hash = v.policy_hash

theorem certifies_receiptOf (v : ValidatedPromotion) (t : UInt64) : Certifies (receiptOf v t) v :=
  ⟨rfl, rfl, rfl, rfl, rfl, rfl, rfl, rfl, rfl⟩

/-! ## The history of a gate -/

/-- How a gate that began as `g₀` came to its state. -/
structure Provenance (g₀ : EffectGate) (past : List GateEvent) (g : EffectGate) : Prop where
  binding : g.node = g₀.node ∧ g.workload = g₀.workload ∧ g.policy_hash = g₀.policy_hash ∧
    g.incarnation = g₀.incarnation
  staged : ∀ v, g.state = .Staged v → g₀.Bound v ∧ StagedSince v past
  prepared : ∀ v, g.state = .Prepared v → g₀.Bound v ∧ ConfirmedSince g₀ v past
  opened : ∀ h e x, g.state = .Open h e x → ∃ v r, g₀.Bound v ∧ ActivatedSince g₀ v r past ∧
    Certifies r v ∧ h = v.candidate ∧ e = v.epoch ∧ x = v.expires_at_ms ∧
    v.not_before_ms ≤ r.activated_at_ms ∧ r.activated_at_ms ≤ g.last_observed_ms

variable {g₀ g g' : EffectGate} {ev : GateEvent} {past : List GateEvent} {v : ValidatedPromotion}

theorem bound_of_same (h : g.node = g₀.node ∧ g.workload = g₀.workload ∧
    g.policy_hash = g₀.policy_hash ∧ g.incarnation = g₀.incarnation) (hb : g.Bound v) :
    g₀.Bound v := by
  obtain ⟨hn, hw, hp, hi⟩ := h
  exact ⟨hb.workload.trans hw, hb.policy_hash.trans hp, hb.candidate.trans hn,
    hb.incarnation.trans hi⟩

theorem refusal_keeps {t : UInt64} {c : Call} {e : GateError} (h : g.Refusal t c e) :
    GateEvent.Keeps v ⟨c, .error e⟩ := by
  refine ⟨?_, ?_⟩
  · rintro (hc | hc | ha)
    · cases h <;> cases hc
    · cases h <;> cases hc
    · cases h <;> cases ha
  · rintro ⟨_, _, _, _, ha, _⟩
    cases ha

/-- A call that leaves the state of a gate as it was closes nothing, unless the
gate had closed itself, and stages only what was pending. -/
theorem keeps_of_same (ho : g.Outcome ev.call ev.answer g') (hs : g'.state = g.state)
    (hsf : ∀ e r, g.state ≠ .SelfFenced e r) (hp : ∀ w, g.Pending w → w = v) : ev.Keeps v := by
  obtain ⟨c, a⟩ := ev
  cases ho with
  | rolled_back | missed | lapsed | ticked_out | closed | faulted => exact absurd hs.symm (hsf _ _)
  | refused _ _ hr => exact refusal_keeps hr
  | staged _ _ _ hlt =>
    rw [← hs] at hlt
    exact absurd hlt (lt_irrefl _)
  | restaged _ _ hw =>
    refine ⟨by simp [GateEvent.Closes], ?_⟩
    rintro ⟨_, w, _, hc, _, hne⟩
    cases hc
    exact hne (hp _ hw)
  | confirmed | not_staged | mismatched | activated | allowed | ticked =>
    simp [GateEvent.Keeps, GateEvent.Closes, GateEvent.Replaces]

theorem keeps_of_pending (ho : g.Outcome ev.call ev.answer g') (hs : g'.state = g.state)
    (hv : g.Pending v) : ev.Keeps v := by
  apply keeps_of_same ho hs
  · rcases hv with hv | hv <;> simp [hv]
  · intro w hw
    exact hw.unique hv

theorem keeps_of_open (ho : g.Outcome ev.call ev.answer g') (hs : g'.state = g.state)
    (hv : g.IsOpen) : ev.Keeps v := by
  obtain ⟨h, e, x, hv⟩ := hv
  apply keeps_of_same ho hs
  · simp [hv]
  · intro w hw
    rcases hw with hw | hw <;> rw [hv] at hw <;> cases hw

/-- Nothing is pending and the gate is not open. -/
def EffectGate.Idle (g : EffectGate) : Prop :=
  (∃ e, g.state = .Closed e) ∨ ∃ e r, g.state = .SelfFenced e r

theorem provenance_start (hs : g.Idle) : Provenance g [] g := by
  rcases hs with ⟨e, hs⟩ | ⟨e, r, hs⟩
  · exact ⟨⟨rfl, rfl, rfl, rfl⟩, by simp [hs], by simp [hs], by simp [hs]⟩
  · exact ⟨⟨rfl, rfl, rfl, rfl⟩, by simp [hs], by simp [hs], by simp [hs]⟩

theorem provenance_step (h : Provenance g₀ past g) (ho : g.Outcome ev.call ev.answer g') :
    Provenance g₀ (past ++ [ev]) g' := by
  have hsame := ho.same_binding
  refine ⟨?_, ?_, ?_, ?_⟩
  · obtain ⟨b1, b2, b3, b4⟩ := h.binding
    obtain ⟨s1, s2, s3, s4⟩ := hsame
    exact ⟨s1.trans b1, s2.trans b2, s3.trans b3, s4.trans b4⟩
  · intro v hs
    rcases ho.to_staged hs with hold | ⟨t, _, hb, _, _, hc, ha, _⟩
    · obtain ⟨hb, hst⟩ := h.staged v hold
      exact ⟨hb, hst.still (keeps_of_pending ho (hs.trans hold.symm) (Or.inl hold))⟩
    · refine ⟨bound_of_same h.binding hb, Since.now ⟨t, (g.observed t).persistence_record v, ?_⟩⟩
      rw [← hc, ← ha]
  · intro v hs
    rcases ho.to_prepared hs with hold | ⟨hst, hc, ha⟩
    · obtain ⟨hb, hcs⟩ := h.prepared v hold
      exact ⟨hb, hcs.still (keeps_of_pending ho (hs.trans hold.symm) (Or.inr hold))⟩
    · obtain ⟨hb, hss⟩ := h.staged v hst
      obtain ⟨b1, b2, b3, b4⟩ := h.binding
      refine ⟨hb, Since.now ⟨hss, g.persistence_record v, ?_, ⟨b1, b2, b3, b4, rfl⟩⟩⟩
      rw [← hc, ← ha]
  · intro hn e x hs
    rcases ho.to_open hs with hold | ⟨v, t, _, hp, hnb, _, hc, ha, hobs, hh, he, hx⟩
    · obtain ⟨v, r, hb, hact, hcert, hh, he, hx, hnb, hle⟩ := h.opened hn e x hold
      have hkeep := keeps_of_open (v := v) ho (hs.trans hold.symm) ⟨hn, e, x, hold⟩
      exact ⟨v, r, hb, hact.still hkeep, hcert, hh, he, hx, hnb,
        UInt64.le_trans hle ho.last_observed_le⟩
    · obtain ⟨hb, hcs⟩ := h.prepared v hp
      refine ⟨v, receiptOf v t, hb, Since.now ⟨hcs, t, ?_⟩, certifies_receiptOf v t, hh, he, hx,
        hnb, ?_⟩
      · rw [← hc, ← ha]
      · rw [hobs]
        exact UInt64.le_refl _

theorem provenance_run (hrun : GateRun g₀ past g) (hs : g₀.Idle) : Provenance g₀ past g := by
  refine hrun.history (Provenance g₀) (provenance_start hs) ?_
  intro es g ev g' _ ih hstep
  exact provenance_step ih hstep.outcome

/-! ## The law -/

/-- What stands behind an effect that is allowed for `holder` under `epoch` at
the time `t`, after the calls of `past`. -/
structure Mediated (g : EffectGate) (past : List GateEvent) (holder : NodeId) (epoch : Epoch)
    (t : UInt64) (v : ValidatedPromotion) (r : ContinuityReceipt) : Prop where
  bound : g.Bound v
  activated : ActivatedSince g v r past
  certifies : Certifies r v
  holder : holder = v.candidate
  epoch : epoch = v.epoch
  started : v.not_before_ms ≤ r.activated_at_ms
  activated_before : r.activated_at_ms ≤ t
  running : t < v.expires_at_ms

/-- An effect that is allowed in a run of an idle gate is mediated by the run. -/
theorem mediated_of_allowed {t : UInt64} {h : NodeId} {e : Epoch} (hs : g₀.Idle)
    (hrun : GateRun g₀ past g) (hstep : GateStep g ⟨.check_effect t h e, .ok .Allowed⟩ g') :
    ∃ v r, Mediated g₀ past h e t v r := by
  have hprov := provenance_run hrun hs
  obtain ⟨x, hle, hopen, hlt, _⟩ := hstep.outcome.of_allowed
  obtain ⟨v, r, hb, hact, hcert, hh, he, rfl, hnb, hact_le⟩ := hprov.opened h e x hopen
  exact ⟨v, r, hb, hact, hcert, hh, he, hnb, UInt64.le_trans hact_le hle, hlt⟩

/-- Every effect that a recovered gate allows, after any calls and at any clock
readings, is mediated by one capability. -/
theorem every_effect_is_mediated (node : NodeId) (workload : WorkloadId) (policy_hash : PolicyHash)
    (recovery : GateRecoveryState) {past later : List GateEvent} {t : UInt64} {holder : NodeId}
    {epoch : Epoch} {g : EffectGate}
    (hrun : GateRun (.recover node workload policy_hash recovery)
      (past ++ ⟨.check_effect t holder epoch, .ok .Allowed⟩ :: later) g) :
    ∃ v r, Mediated (.recover node workload policy_hash recovery) past holder epoch t v r := by
  obtain ⟨g₁, g₂, hpast, hstep, _⟩ := hrun.at_event
  exact mediated_of_allowed (Or.inl ⟨recovery.accepted_epoch, rfl⟩) hpast hstep

theorem every_effect_is_mediated_after_handshake :
    ∃ v r, Mediated tests.gate (tests.gate.trace tests.handshake) tests.node_a ⟨1⟩ 10100 v r := by
  have hrun := gateRun_of_calls tests.gate
    (tests.handshake ++ [.check_effect 10100 tests.node_a ⟨1⟩])
  have htrace : tests.gate.trace (tests.handshake ++ [.check_effect 10100 tests.node_a ⟨1⟩]) =
      tests.gate.trace tests.handshake ++
        ⟨.check_effect 10100 tests.node_a ⟨1⟩, .ok .Allowed⟩ :: [] := by decide
  rw [htrace] at hrun
  exact every_effect_is_mediated tests.node_a tests.workload tests.hash tests.recovery hrun

end quorumarc_core

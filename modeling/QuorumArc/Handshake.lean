-- The persistence handshake. A gate stages a capability with a record, and
-- confirms the record once it is durable. It makes the record again from its
-- own fields when it confirms, and one of them is the time it last observed.
import QuorumArc.GateCalls

open runs

namespace quorumarc_core

namespace EffectGate

variable {g g' g₁ g₂ : EffectGate} {v : ValidatedPromotion} {r : GatePersistenceRecord}
  {t : UInt64}

/-! ## The record of a stage -/

/-- A stage that succeeds leaves the capability pending at the time it read, and
its record is the one that the gate makes of it then. -/
theorem Outcome.of_stage (ho : g.Outcome (.stage t v) (.ok (.Record r)) g') :
    g'.Pending v ∧ g'.last_observed_ms = t ∧ g'.persistence_record v = r := by
  cases ho with
  | staged => exact ⟨Or.inl rfl, rfl, rfl⟩
  | restaged _ _ hp => exact ⟨hp, rfl, rfl⟩

/-- A staged gate confirms the record that it makes of its capability now, and no other. -/
theorem confirms_iff (hs : g.state = .Staged v) :
    (∃ g', GateStep g ⟨.confirm_persisted r, .ok .Confirmed⟩ g' ∧ g'.state = .Prepared v) ↔
      g.persistence_record v = r := by
  constructor
  · rintro ⟨g', hstep, hp⟩
    rcases hstep.outcome.to_prepared hp with hold | ⟨_, hc, _⟩
    · rw [hs] at hold
      cases hold
    · cases hc
      rfl
  · intro hr
    refine ⟨(g.step (.confirm_persisted r)).2, ?_, ?_⟩ <;>
      simp [GateStep, step, confirm_persisted, hs, ← hr, persistence_record, Except.map]

/-! ## A handshake that goes through -/

/-- A stage that is not refused for its subject looks at the state next. -/
theorem stage_of_bound (hle : g.last_observed_ms ≤ t) (hb : g.Bound v) :
    g.stage t v = match g.state with
      | .Staged existing | .Prepared existing =>
        if existing = v then (.ok ((g.observed t).persistence_record existing), g.observed t)
        else (g.observed t).stage_newer v
      | .Open .. => (.error .AlreadyOpen, g.observed t)
      | _ => (g.observed t).stage_newer v := by
  have hbound : v.workload = (g.observed t).workload ∧ v.policy_hash = (g.observed t).policy_hash ∧
      v.candidate = (g.observed t).node ∧ v.candidate_incarnation = (g.observed t).incarnation :=
    ⟨hb.workload, hb.policy_hash, hb.candidate, hb.incarnation⟩
  unfold stage
  rw [observe_time_late (UInt64.not_lt.mpr hle)]
  cases hs : g.state <;> simp [hbound, hs]

theorem stage_of_newer (hle : g.last_observed_ms ≤ t) (hb : g.Bound v) (hno : ¬ g.IsOpen)
    (hlt : g.state.last_epoch < v.epoch) :
    g.stage t v = (.ok ((g.observed t).persistence_record v),
      { g.observed t with state := .Staged v }) := by
  have hnew : (g.observed t).stage_newer v = (.ok ((g.observed t).persistence_record v),
      { g.observed t with state := .Staged v }) := if_neg (not_le_of_gt hlt)
  have hne : ∀ w, g.Pending w → w ≠ v := by
    rintro w (hw | hw) rfl <;> rw [hw] at hlt <;> exact absurd hlt (lt_irrefl _)
  rw [stage_of_bound hle hb]
  rcases hs : g.state with e | w | w | ⟨h, e, x⟩ | ⟨e, r⟩
  case Open => exact absurd ⟨h, e, x, hs⟩ hno
  case Staged => simp only [if_neg (hne w (Or.inl hs)), hnew]
  case Prepared => simp only [if_neg (hne w (Or.inr hs)), hnew]
  all_goals exact hnew

theorem confirm_of_staged (hs : g.state = .Staged v) :
    g.confirm_persisted (g.persistence_record v) = (.ok (), { g with state := .Prepared v }) := by
  simp [confirm_persisted, hs, persistence_record]

theorem activate_of_prepared (hs : g.state = .Prepared v) (hle : g.last_observed_ms ≤ t)
    (hstart : v.not_before_ms ≤ t) (hend : t < v.expires_at_ms) :
    g.activate t = (.ok (receiptOf v t),
      { g.observed t with state := .Open v.candidate v.epoch v.expires_at_ms }) := by
  unfold activate
  rw [observe_time_late (UInt64.not_lt.mpr hle)]
  simp [hs, UInt64.not_lt.mpr hstart, UInt64.not_le.mpr hend, receiptOf]

/-- The gate after it was opened for `v` at `t`. -/
def openedFor (g : EffectGate) (v : ValidatedPromotion) (t : UInt64) : EffectGate :=
  { g.observed t with state := .Open v.candidate v.epoch v.expires_at_ms }

/-- The handshake of a newer capability within its lease opens a gate that is not open. -/
theorem handshake_opens (hle : g.last_observed_ms ≤ t) (hb : g.Bound v) (hno : ¬ g.IsOpen)
    (hlt : g.state.last_epoch < v.epoch) (hstart : v.not_before_ms ≤ t)
    (hend : t < v.expires_at_ms) :
    ∃ r g₁ g₂, g.stage t v = (.ok r, g₁) ∧ g₁.confirm_persisted r = (.ok (), g₂) ∧
      g₂.activate t = (.ok (receiptOf v t), g.openedFor v t) :=
  ⟨_, _, _, stage_of_newer hle hb hno hlt, confirm_of_staged rfl,
    activate_of_prepared rfl (UInt64.le_refl t) hstart hend⟩

theorem check_of_open {h : NodeId} {e : Epoch} {x : UInt64} (hs : g.state = .Open h e x)
    (hle : g.last_observed_ms ≤ t) (hend : t < x) :
    g.check_effect t h e = (.ok (), g.observed t) := by
  unfold check_effect
  rw [observe_time_late (UInt64.not_lt.mpr hle)]
  simp [hs, UInt64.not_le.mpr hend]

/-! ## Waiting for the commit -/

/-- What a caller may do while the record of a staged capability is on its way to the store:
tick, check effects, try to activate, and confirm in vain. -/
def Waits (ev : GateEvent) : Prop :=
  match ev.call with
  | .tick _ | .check_effect .. | .activate _ => True
  | .confirm_persisted _ => ∃ e, ev.answer = .error e
  | .stage .. | .close | .safety_fault => False

/-- A call that waits and leaves the gate staged changes at most the observed time. -/
theorem Outcome.of_waiting {ev : GateEvent} (ho : g.Outcome ev.call ev.answer g')
    (hw : Waits ev) (hs : g'.state = .Staged v) :
    (∃ t, ev.call.reading? = some t ∧ g.last_observed_ms ≤ t ∧ g' = g.observed t) ∨
      (ev.call.reading? = none ∧ g' = g) := by
  obtain ⟨c, a⟩ := ev
  cases ho with
  | refused hr hle => exact Or.inl ⟨_, hr, hle, rfl⟩
  | allowed hle => exact Or.inl ⟨_, rfl, hle, rfl⟩
  | ticked hle => exact Or.inl ⟨_, rfl, hle, rfl⟩
  | not_staged | mismatched => exact Or.inr ⟨rfl, rfl⟩
  | staged | restaged => exact hw.elim
  | rolled_back | confirmed | activated | missed | lapsed | ticked_out | closed | faulted => cases hs

/-- After any number of such calls the gate is as it was, at a time that is later
exactly if some call read a later one. -/
theorem waiting_run {es : List GateEvent} (hrun : GateRun g₁ es g₂) (hes : ∀ ev ∈ es, Waits ev)
    (hs : g₂.state = .Staged v) :
    ∃ t, g₂ = g₁.observed t ∧ g₁.last_observed_ms ≤ t ∧
      (t = g₁.last_observed_ms ↔
        ∀ ev ∈ es, ∀ t', ev.call.reading? = some t' → t' ≤ g₁.last_observed_ms) := by
  induction hrun with
  | nil => exact ⟨g₁.last_observed_ms, rfl, UInt64.le_refl _, by simp⟩
  | snoc hrun hstep ih =>
    rename_i es ev g g'
    have hw : Waits ev := hes ev (by simp)
    have hprev : (∃ t, g' = g.observed t) ∨ g' = g → g.state = .Staged v := by
      rintro (⟨t, rfl⟩ | rfl)
      · exact hs
      · exact hs
    simp only [List.mem_append, List.mem_singleton, or_imp, forall_and, forall_eq] at hes ⊢
    rcases hstep.outcome.of_waiting hw hs with ⟨t', hr, hle, hg⟩ | ⟨hr, hg⟩
    · obtain ⟨t, rfl, hle₁, hiff⟩ := ih hes.1 (hprev (Or.inl ⟨t', hg⟩))
      have hle₂ : t ≤ t' := hle
      refine ⟨t', hg, UInt64.le_trans hle₁ hle₂, ?_⟩
      rw [← hiff, hr]
      constructor
      · rintro rfl
        have heq := UInt64.le_antisymm hle₂ hle₁
        exact ⟨heq, by simp⟩
      · rintro ⟨_, hmax⟩
        exact UInt64.le_antisymm (hmax t' rfl) (UInt64.le_trans hle₁ hle₂)
    · obtain ⟨t, rfl, hle₁, hiff⟩ := ih hes.1 (hprev (Or.inr hg))
      refine ⟨t, hg, hle₁, ?_⟩
      rw [← hiff, hr]
      simp

end EffectGate

/-! ## The law -/

open EffectGate

/-- The record of a stage is confirmed after a wait exactly if no call of the
wait read a later time than the stage. A later reading is part of the record
that `confirm_persisted` compares with, so the record that was emitted no
longer matches. -/
theorem staged_record_confirms_iff_no_time_passes {g g₁ g₂ : EffectGate} {v : ValidatedPromotion}
    {r : GatePersistenceRecord} {t : UInt64} {es : List GateEvent}
    (hstage : GateStep g ⟨.stage t v, .ok (.Record r)⟩ g₁) (hwait : GateRun g₁ es g₂)
    (hes : ∀ ev ∈ es, Waits ev) (hstill : g₂.state = .Staged v) :
    (∃ g₃, GateStep g₂ ⟨.confirm_persisted r, .ok .Confirmed⟩ g₃ ∧ g₃.state = .Prepared v) ↔
      ∀ ev ∈ es, ∀ t', ev.call.reading? = some t' → t' ≤ t := by
  obtain ⟨_, rfl, rfl⟩ := hstage.outcome.of_stage
  obtain ⟨t', rfl, _, hiff⟩ := waiting_run hwait hes hstill
  rw [confirms_iff hstill, ← hiff]
  simp [persistence_record, observed]

theorem staged_record_confirms_after_a_tick :
    ∃ g₃, GateStep (tests.gate.after [.stage 10000 tests.capability, .tick 10000])
      ⟨.confirm_persisted tests.record, .ok .Confirmed⟩ g₃ ∧ g₃.state = .Prepared tests.capability := by
  have hwait := gateRun_of_calls (tests.gate.after [.stage 10000 tests.capability]) [.tick 10000]
  have htrace : (tests.gate.after [.stage 10000 tests.capability]).trace [.tick 10000] =
      [⟨.tick 10000, .ok (.Expired false)⟩] := by decide
  rw [htrace] at hwait
  have hstage : GateStep tests.gate ⟨.stage 10000 tests.capability, .ok (.Record tests.record)⟩
      (tests.gate.after [.stage 10000 tests.capability]) := by
    unfold GateStep
    decide
  have hlaw := staged_record_confirms_iff_no_time_passes hstage hwait (by simp [Waits]) (by decide)
  exact hlaw.mpr (by simp [Call.reading?])

/-- One tick a millisecond after the stage, and the record that `stage` emitted
is refused while the gate is still staged. -/
theorem staged_record_is_refused_after_a_later_tick :
    validate_promotion (tests.proof tests.node_a ⟨1⟩) .initial tests.policy 10000 =
      .ok tests.capability ∧
    tests.gate.trace
      [.stage 10000 tests.capability, .tick 10001, .confirm_persisted tests.record] =
      [⟨.stage 10000 tests.capability, .ok (.Record tests.record)⟩,
        ⟨.tick 10001, .ok (.Expired false)⟩,
        ⟨.confirm_persisted tests.record, .error .PersistenceMismatch⟩] ∧
    (tests.gate.after [.stage 10000 tests.capability]).state = .Staged tests.capability ∧
    (tests.gate.after [.stage 10000 tests.capability, .tick 10001]).state =
      .Staged tests.capability := by
  refine ⟨tests.proof_accepted, ?_, ?_, ?_⟩ <;> decide

end quorumarc_core

-- Gates under any clock. The time that a gate last observed bounds every reading
-- of its life, accepted or not, and a gate that saw the clock go back leaves
-- its epoch behind.
import QuorumArc.AntiReplay
import QuorumArc.Atomicity
import QuorumArc.Expiry
import QuorumArc.Mediation

open runs

namespace quorumarc_core

namespace EffectGate

variable {g₀ g g' : EffectGate} {c : Call} {a : Answer} {es : List GateEvent}

/-- The events of a run tell where it leads. -/
theorem gateRun_unique (h : GateRun g₀ es g) (h' : GateRun g₀ es g') : g = g' := by
  refine h.unique ?_ h'
  intro g ev g₁ g₂ h₁ h₂
  exact congrArg Prod.snd (h₁.symm.trans h₂)

/-! ## The readings of a life -/

/-- The gate has observed the time that the call read, or a later one. -/
theorem Outcome.reading_le {t : UInt64} (ho : g.Outcome c a g') (hr : c.reading? = some t) :
    t ≤ g'.last_observed_ms := by
  cases ho with
  | rolled_back hr' hlt =>
    rw [hr] at hr'
    cases hr'
    exact UInt64.le_of_lt hlt
  | refused hr' =>
    rw [hr] at hr'
    cases hr'
    exact UInt64.le_refl _
  | staged | restaged | activated | missed | allowed | lapsed | ticked_out | ticked =>
    cases hr
    exact UInt64.le_refl _
  | confirmed | not_staged | mismatched | closed | faulted => cases hr

/-- After a run a gate has observed a time no earlier than it had at the start,
and than every reading of the run. -/
theorem readings_le (hrun : GateRun g₀ es g) :
    g₀.last_observed_ms ≤ g.last_observed_ms ∧
      ∀ ev ∈ es, ∀ t, ev.call.reading? = some t → t ≤ g.last_observed_ms := by
  refine hrun.history (fun es g => g₀.last_observed_ms ≤ g.last_observed_ms ∧
    ∀ ev ∈ es, ∀ t, ev.call.reading? = some t → t ≤ g.last_observed_ms) ?_ ?_
  · exact ⟨UInt64.le_refl _, by simp⟩
  · rintro es g ev g' _ ⟨hstart, hall⟩ hstep
    have ho := hstep.outcome
    refine ⟨UInt64.le_trans hstart ho.last_observed_le, ?_⟩
    intro ev' hev' t hr
    rcases List.mem_append.mp hev' with hold | hnew
    · exact UInt64.le_trans (hall ev' hold t hr) ho.last_observed_le
    · rw [List.mem_singleton.mp hnew] at hr
      exact ho.reading_le hr

/-! ## The epoch that a rollback leaves behind -/

/-- The gate remembers `e`, and waits for or is open under newer epochs only. -/
structure LeftBehind (e : Epoch) (g : EffectGate) : Prop where
  known : e ≤ g.state.last_epoch
  pending : ∀ v, g.Pending v → e < v.epoch
  opened : ∀ h e' x, g.state = .Open h e' x → e < e'

theorem leftBehind_of_idle (hs : g.Idle) : LeftBehind g.state.last_epoch g := by
  refine ⟨le_refl _, ?_, ?_⟩
  · rintro v (hv | hv) <;> rcases hs with ⟨e, hs⟩ | ⟨e, r, hs⟩ <;> rw [hs] at hv <;> cases hv
  · rintro h e' x hv
    rcases hs with ⟨e, hs⟩ | ⟨e, r, hs⟩ <;> rw [hs] at hv <;> cases hv

/-- Only a stage above the epoch of the gate brings a new capability. -/
theorem Outcome.leftBehind {e : Epoch} (h : LeftBehind e g) (ho : g.Outcome c a g') :
    LeftBehind e g' := by
  refine ⟨le_trans h.known ho.last_epoch_le, ?_, ?_⟩
  · intro v hv
    rcases ho.to_pending hv with hold | ⟨_, _, hlt, _⟩
    · exact h.pending v hold
    · exact lt_of_le_of_lt h.known hlt
  · intro n e' x hs
    rcases ho.to_open hs with hold | ⟨v, _, _, hp, _, _, _, _, _, _, rfl, _⟩
    · exact h.opened n e' x hold
    · exact h.pending v (Or.inr hp)

theorem leftBehind_run {e : Epoch} (h : LeftBehind e g₀) (hrun : GateRun g₀ es g) :
    LeftBehind e g :=
  hrun.invariant (LeftBehind e) h fun _ _ _ hg hstep => hstep.outcome.leftBehind hg

/-- A gate that saw the clock go back closed itself. -/
theorem idle_of_rolled_back (ho : g.Outcome c (.error .ClockRollback) g') : g'.Idle := by
  rw [ho.of_rolled_back]
  exact Or.inr ⟨_, _, rfl⟩

end EffectGate

/-! ## The law -/

open EffectGate

/-- Whatever a recovered gate is called with and whatever its clock reads: an
effect is allowed only at a reading that no earlier one exceeds, also none that
was refused; and once a call found that the clock went back, only for an epoch
above the one that the gate then remembered, with a handshake of its own since. -/
theorem effects_are_safe_under_any_clock (node : NodeId) (workload : WorkloadId)
    (policy_hash : PolicyHash) (recovery : GateRecoveryState) {past later : List GateEvent}
    {t : UInt64} {holder : NodeId} {epoch : Epoch} {g : EffectGate}
    (hrun : GateRun (.recover node workload policy_hash recovery)
      (past ++ ⟨.check_effect t holder epoch, .ok .Allowed⟩ :: later) g) :
    recovery.last_observed_ms ≤ t ∧
    (∀ ev ∈ past, ∀ t', ev.call.reading? = some t' → t' ≤ t) ∧
    ∀ before c between g₁, past = before ++ ⟨c, .error .ClockRollback⟩ :: between →
      GateRun (.recover node workload policy_hash recovery)
        (before ++ [⟨c, .error .ClockRollback⟩]) g₁ →
      g₁.state.last_epoch < epoch ∧ ∃ v r, Mediated g₁ between holder epoch t v r := by
  obtain ⟨g₂, _, hpast, hstep, _⟩ := hrun.at_event
  obtain ⟨x, hle, hopen, _⟩ := hstep.outcome.of_allowed
  obtain ⟨hstart, hall⟩ := readings_le hpast
  refine ⟨UInt64.le_trans hstart hle, ?_, ?_⟩
  · intro ev hev t' hr
    exact UInt64.le_trans (hall ev hev t' hr) hle
  · intro before c between g₁ hsplit hrun₁
    rw [hsplit, List.append_cons] at hpast
    obtain ⟨g₁', hrun₁', hbetween⟩ := hpast.split
    obtain rfl := gateRun_unique hrun₁ hrun₁'
    obtain ⟨_, _, hback⟩ := hrun₁.last
    have hidle := idle_of_rolled_back hback.outcome
    have hleft := leftBehind_run (leftBehind_of_idle hidle) hbetween
    exact ⟨hleft.opened holder epoch x hopen, mediated_of_allowed hidle hbetween hstep⟩

namespace tests

/-- The handshake of `newer` at 10000. -/
def second_handshake : List Call :=
  [.stage 10000 newer, .confirm_persisted { record with accepted_epoch := ⟨3⟩ }, .activate 10000]

/-- A gate opens epoch 1, sees its clock go back, and opens epoch 3. -/
def rolled_back : List GateEvent :=
  gate.trace handshake ++ ⟨.tick 9999, .error .ClockRollback⟩ ::
    (gate.after (handshake ++ [.tick 9999])).trace second_handshake

end tests

theorem effects_are_safe_after_a_rollback :
    (∀ ev ∈ tests.rolled_back, ∀ t, ev.call.reading? = some t → t ≤ 10100) ∧
    (⟨1⟩ : Epoch) < ⟨3⟩ ∧
    ∃ v r, Mediated (tests.gate.after (tests.handshake ++ [.tick 9999]))
      ((tests.gate.after (tests.handshake ++ [.tick 9999])).trace tests.second_handshake)
      tests.node_a ⟨3⟩ 10100 v r := by
  have hrun := gateRun_of_calls tests.gate (tests.handshake ++ .tick 9999 ::
    tests.second_handshake ++ [.check_effect 10100 tests.node_a ⟨3⟩])
  have htrace : tests.gate.trace (tests.handshake ++ .tick 9999 ::
      tests.second_handshake ++ [.check_effect 10100 tests.node_a ⟨3⟩]) =
      tests.rolled_back ++ ⟨.check_effect 10100 tests.node_a ⟨3⟩, .ok .Allowed⟩ :: [] := by decide
  rw [htrace] at hrun
  have hback := gateRun_of_calls tests.gate (tests.handshake ++ [.tick 9999])
  have hbefore : tests.gate.trace (tests.handshake ++ [.tick 9999]) =
      tests.gate.trace tests.handshake ++ [⟨.tick 9999, .error .ClockRollback⟩] := by decide
  rw [hbefore] at hback
  obtain ⟨_, hall, hnew⟩ := effects_are_safe_under_any_clock tests.node_a tests.workload tests.hash
    tests.recovery hrun
  exact ⟨hall, hnew _ _ _ _ rfl hback⟩

end quorumarc_core

-- What an open gate does at the expiry of its lease. `tick` and `check_effect`
-- close it when they read a time past the expiry; `stage` and `activate` read
-- the clock and leave it open.
import QuorumArc.GateCalls

open runs

namespace quorumarc_core

namespace EffectGate

variable {g g₀ g' : EffectGate} {c : Call} {a : Answer}

/-- An open gate has observed no time at or past the expiry of its lease. -/
def InLease (g : EffectGate) : Prop :=
  ∀ h e x, g.state = .Open h e x → g.last_observed_ms < x

/-- A stage or an activation that meets an open gate at or past the expiry of its lease. -/
def Overruns (g : EffectGate) (c : Call) : Prop :=
  ∃ h e x t, g.state = .Open h e x ∧ x ≤ t ∧ (c = .activate t ∨ ∃ v, c = .stage t v)

/-- Only an overrun leaves an open gate past the expiry of its lease. -/
theorem Outcome.inLease (ho : g.Outcome c a g') (hg : g.InLease) (hc : ¬ g.Overruns c) :
    g'.InLease := by
  intro h e x hs
  cases ho with
  | refused hr hle href =>
    rename_i t err
    have hs : g.state = .Open h e x := hs
    show t < x
    refine UInt64.not_le.mp ?_
    intro hx
    cases href with
    | binding | candidate | incarnation | already_open | stale =>
      exact hc ⟨h, e, x, t, hs, hx, Or.inr ⟨_, rfl⟩⟩
    | not_prepared => exact hc ⟨h, e, x, t, hs, hx, Or.inl rfl⟩
    | not_started hp => rw [hs] at hp; cases hp
    | shut hno => exact hno ⟨h, e, x, hs⟩
    | wrong_holder hs' hlt | wrong_epoch hs' hlt =>
      rw [hs] at hs'
      cases hs'
      exact UInt64.not_le.mpr hlt hx
  | restaged _ _ hp =>
    have hs : g.state = .Open h e x := hs
    rcases hp with hp | hp <;> rw [hs] at hp <;> cases hp
  | activated _ _ _ hx => cases hs; exact hx
  | not_staged | mismatched => exact hg h e x hs
  | allowed _ hs' hlt =>
    have hs : g.state = .Open h e x := hs
    rw [hs] at hs'
    cases hs'
    exact hlt
  | ticked _ hlt => exact hlt h e x hs
  | rolled_back | staged | confirmed | missed | lapsed | ticked_out | closed | faulted => cases hs

/-- An overrun of a gate that is in its lease leaves it open past the expiry. -/
theorem Outcome.of_overrun (ho : g.Outcome c a g') (hg : g.InLease) (hc : g.Overruns c) :
    ¬ g'.InLease := by
  obtain ⟨h, e, x, t, hs, hx, hc⟩ := hc
  have hlt := hg h e x hs
  intro hg'
  have hleft : g' = g.observed t → False := by
    rintro rfl
    exact UInt64.not_le.mpr (hg' h e x hs) hx
  have hno : ∀ w, ¬ g.Pending w := by
    rintro w (hw | hw) <;> rw [hs] at hw <;> cases hw
  cases ho with
  | rolled_back hr hback =>
    rcases hc with rfl | ⟨v, rfl⟩ <;> cases hr <;>
      exact UInt64.not_le.mpr (UInt64.lt_trans hback hlt) hx
  | refused hr =>
    rcases hc with rfl | ⟨v, rfl⟩ <;> cases hr <;> exact hleft rfl
  | staged _ _ hopen => exact hopen ⟨h, e, x, hs⟩
  | restaged _ _ hp => exact hno _ hp
  | activated _ hp | missed _ hp => exact hno _ (Or.inr hp)
  | confirmed | not_staged | mismatched | allowed | lapsed | ticked_out | ticked | closed
  | faulted => rcases hc with hc | ⟨v, hc⟩ <;> cases hc

/-- A call that read a time leaves the gate at that time, or closed. -/
theorem Outcome.last_observed_of_open {t : UInt64} (ho : g.Outcome c a g')
    (hr : c.reading? = some t) (hopen : g'.IsOpen) : g'.last_observed_ms = t := by
  obtain ⟨h, e, x, hs⟩ := hopen
  cases ho with
  | refused hr' =>
    rw [hr] at hr'
    cases hr'
    rfl
  | restaged | activated | allowed | ticked => cases hr; rfl
  | not_staged | mismatched => cases hr
  | rolled_back | staged | confirmed | missed | lapsed | ticked_out | closed | faulted => cases hs

/-- A call that read a time at or past the expiry of an open lease, and left the
gate in its lease, closed it. -/
theorem Outcome.shut_of_expired {h : NodeId} {e : Epoch} {x t : UInt64} (ho : g.Outcome c a g')
    (hs : g.state = .Open h e x) (hr : c.reading? = some t) (hx : x ≤ t) (hin : g'.InLease) :
    ¬ g'.IsOpen := by
  intro hopen
  have hobs := ho.last_observed_of_open hr hopen
  obtain ⟨h', e', x', hs'⟩ := hopen
  have hlt := hin h' e' x' hs'
  rcases ho.to_open hs' with hold | ⟨v, _, _, hp, _⟩
  · rw [hs] at hold
    cases hold
    rw [hobs] at hlt
    exact UInt64.not_le.mpr hlt hx
  · rw [hs] at hp
    cases hp

theorem recover_inLease (node : NodeId) (workload : WorkloadId) (policy_hash : PolicyHash)
    (recovery : GateRecoveryState) : (recover node workload policy_hash recovery).InLease := by
  intro h e x hs
  cases hs

theorem inLease_after {calls : List Call} (h₀ : g₀.InLease)
    (hno : ∀ before c after, calls = before ++ c :: after → ¬ (g₀.after before).Overruns c)
    {before after : List Call} (hsplit : calls = before ++ after) : (g₀.after before).InLease := by
  induction before using List.reverseRecOn generalizing after with
  | nil => exact h₀
  | append_singleton cs c ih =>
    rw [List.append_assoc, List.singleton_append] at hsplit
    rw [after_snoc]
    exact (step.spec _ c).inLease (ih hsplit) (hno cs c after hsplit)

end EffectGate

/-! ## The law -/

open EffectGate

/-- In a run of calls, an open gate is always in its lease; a call that reads a
time at or past the expiry leaves the gate closed; and a newer capability of
this gate is refused as `AlreadyOpen` only before the expiry. -/
structure ClosesAtExpiry (g₀ : EffectGate) (calls : List Call) : Prop where
  in_lease : ∀ before after, calls = before ++ after → (g₀.after before).InLease
  closes : ∀ before c after h e x t, calls = before ++ c :: after →
    (g₀.after before).state = .Open h e x → c.reading? = some t → x ≤ t →
    ¬ ((g₀.after before).step c).2.IsOpen
  admits : ∀ before v after h e x t, calls = before ++ .stage t v :: after →
    (g₀.after before).state = .Open h e x → (g₀.after before).Bound v → e < v.epoch →
    ((g₀.after before).step (.stage t v)).1 = .error .AlreadyOpen → t < x

/-- A recovered gate closes at the expiry of its lease through a run of calls
exactly if no stage and no activation of the run meets it open at or past its
expiry. -/
theorem closes_at_expiry_iff_no_overrun (node : NodeId) (workload : WorkloadId)
    (policy_hash : PolicyHash) (recovery : GateRecoveryState) (calls : List Call) :
    ClosesAtExpiry (.recover node workload policy_hash recovery) calls ↔
      ∀ before c after, calls = before ++ c :: after →
        ¬ (EffectGate.after (.recover node workload policy_hash recovery) before).Overruns c := by
  have h₀ := recover_inLease node workload policy_hash recovery
  constructor
  · intro hclose before c after hsplit hover
    have hg := hclose.in_lease before (c :: after) hsplit
    have hg' := hclose.in_lease (before ++ [c]) after (by simp [hsplit])
    rw [after_snoc] at hg'
    exact (step.spec _ c).of_overrun hg hover hg'
  · intro hno
    refine ⟨?_, ?_, ?_⟩
    · intro before after hsplit
      exact inLease_after h₀ hno hsplit
    · intro before c after h e x t hsplit hs hr hx
      have hin := inLease_after h₀ hno (hsplit.trans (List.append_cons before c after))
      rw [after_snoc] at hin
      exact (step.spec _ c).shut_of_expired hs hr hx hin
    · intro before v after h e x t hsplit hs _ _ _
      refine UInt64.not_le.mp ?_
      intro hx
      exact hno before _ after hsplit ⟨h, e, x, t, hs, hx, Or.inr ⟨v, rfl⟩⟩

namespace tests

/-- The authority of the other node, which held epoch 2. -/
def node_b_authority : AuthorityState :=
  { epoch := ⟨2⟩, holder := some node_b, lease_expires_at_ms := some 10500 }

/-- A capability of the same gate for epoch 3, taken over from the other node. -/
def newer : ValidatedPromotion := capabilityOf (takeover node_b node_a ⟨3⟩ 9990) .HardwarePower

end tests

/-- A newer capability that is staged at the expiry of the open lease is refused
as `AlreadyOpen`, and leaves the gate open past that expiry. -/
theorem stage_at_expiry_leaves_the_gate_open :
    validate_promotion (tests.takeover tests.node_b tests.node_a ⟨3⟩ 9990) tests.node_b_authority
      tests.policy 10000 = .ok tests.newer ∧
    (tests.gate.after tests.handshake).Bound tests.newer ∧
    ((tests.gate.after tests.handshake).step (.stage 10500 tests.newer)).1 =
      .error .AlreadyOpen ∧
    (tests.gate.after (tests.handshake ++ [.stage 10500 tests.newer])).state =
      .Open tests.node_a ⟨1⟩ 10500 ∧
    (tests.gate.after (tests.handshake ++ [.stage 10500 tests.newer])).last_observed_ms = 10500 ∧
    ¬ ClosesAtExpiry tests.gate (tests.handshake ++ [.stage 10500 tests.newer]) := by
  have hopen : (tests.gate.after (tests.handshake ++ [.stage 10500 tests.newer])).state =
      .Open tests.node_a ⟨1⟩ 10500 := by decide
  refine ⟨by decide, ⟨rfl, rfl, rfl, rfl⟩, by decide, hopen, by decide, ?_⟩
  intro hclose
  have hin := hclose.in_lease _ [] (List.append_nil _).symm
  exact absurd (hin _ _ _ hopen) (by decide)

end quorumarc_core

-- Policies that change. The authority checks each proof under some policy of a set, as
-- when a policy is rotated while nodes run, and a gate keeps the policy that it was
-- recovered with. The guard that counts at a handover is the one of the next holder's
-- policy, not the one under which the lease was granted.
import QuorumArc.ClockLag

open runs words

namespace quorumarc_core

/-! ## The system -/

/-- One event of the deployment, under some policy of the set. -/
def RotationStep (policies : Set SafetyPolicy) (lag : UInt64) (d : Deployment)
    (ev : DeploymentEvent) (d' : Deployment) : Prop :=
  ∃ policy ∈ policies, DeploymentStep policy lag d ev d'

abbrev RotationRun (policies : Set SafetyPolicy) (lag : UInt64) := Run (RotationStep policies lag)

/-- Under the policy a holder that some policy accepted can be replaced after the
expiry of its gate. -/
def ReplacesAfterExpiry (policies : Set SafetyPolicy) (policy : SafetyPolicy) : Prop :=
  policy.allow_gate_expiry_fence = true ∧
    (∃ prior ∈ policies, ∃ a ∈ prior.candidates, ∃ b ∈ policy.candidates, a ≠ b) ∧
    ms policy.lease_guard_ms + 2 ≤ ms u64_max

variable {policies : Set SafetyPolicy} {policy : SafetyPolicy} {lag now_ms : UInt64}
  {d₀ d d' : Deployment} {es : List DeploymentEvent} {ev : DeploymentEvent}
  {store : NodeId → GateStore}

/-- A run under one of the policies. -/
theorem RotationRun.of_run (hpolicy : policy ∈ policies) (h : DeploymentRun policy lag d₀ es d) :
    RotationRun policies lag d₀ es d := by
  induction h with
  | nil => exact .nil
  | snoc _ hstep ih => exact ih.snoc ⟨policy, hpolicy, hstep⟩

/-! ## What holds of every run -/

/-- Promotions follow each other, each under a policy of its own, and the authority is
the one of the last. -/
structure Rotated (policies : Set SafetyPolicy) (es : List DeploymentEvent) (d : Deployment) :
    Prop where
  chain : d.history.IsChain fun a b => ∃ policy ∈ policies, Follows policy a b
  last : ∀ a, d.history.getLast? = some a → d.current = a.capability.authority
  past : ∀ p ∈ d.history, p.now_ms ≤ d.now_ms
  evaluated : ∀ p ∈ d.history, .evaluated p.proof (.ok p.capability) ∈ es ∧
    ∃ policy ∈ policies, ∃ current,
      validate_promotion p.proof current policy p.now_ms = .ok p.capability
  gates : ∀ node g, (d.sites node).gate = some g → HoldsGranted d.history node g

theorem rotated_begin : Rotated policies [] (.begin now_ms store) := by
  refine ⟨.nil, ?_, ?_, ?_, ?_⟩
  · intro a ha
    cases ha
  · intro p hp
    cases hp
  · intro p hp
    cases hp
  · intro node g hg
    cases hg

/-- An accepted promotion follows the last one under the policy of the event. -/
theorem chain_step (h : Rotated policies es d) (hpolicy : policy ∈ policies)
    (hstep : DeploymentStep policy lag d ev d') :
    d'.history.IsChain fun a b => ∃ policy ∈ policies, Follows policy a b := by
  rcases authority_cases hstep with ⟨proof, v, _, hval, _, hhistory, _⟩ | ⟨_, hhistory, _⟩
  · rw [hhistory]
    refine h.chain.append (List.isChain_singleton _) ?_
    intro a ha b hb
    cases hb
    rw [h.last a ha] at hval
    exact ⟨policy, hpolicy, hval, h.past a (List.mem_of_getLast? ha)⟩
  · rw [hhistory]
    exact h.chain

theorem rotated_step (h : Rotated policies es d) (hstep : RotationStep policies lag d ev d') :
    Rotated policies (es ++ [ev]) d' := by
  obtain ⟨policy, hpolicy, hstep⟩ := hstep
  refine ⟨chain_step h hpolicy hstep, ?_, past_step h.past hstep, ?_, gates_step h.gates hstep⟩
  · intro a ha
    rcases authority_cases hstep with ⟨proof, v, _, _, hcur, hhistory, _⟩ | ⟨hcur, hhistory, _⟩
    · rw [hhistory, List.getLast?_concat] at ha
      cases ha
      exact hcur
    · rw [hhistory] at ha
      rw [hcur]
      exact h.last a ha
  · refine evaluated_step h.evaluated ?_ hstep
    intro proof v hval
    exact ⟨policy, hpolicy, d.current, hval⟩

theorem rotated_run (hrun : RotationRun policies lag (.begin now_ms store) es d) :
    Rotated policies es d := by
  refine hrun.history (Rotated policies) rotated_begin ?_
  intro es d ev d' _ ih hstep
  exact rotated_step ih hstep

/-! ## The office under changing policies -/

section guarded

variable {t : UInt64} {node holder : NodeId} {epoch : Epoch}

/-- An effect is of the current term, when no clock lags by more than the guard of any
policy that replaces a holder after the expiry of its gate. -/
theorem current_of_rotated (h : Rotated policies es d)
    (hguard : ∀ policy ∈ policies, ReplacesAfterExpiry policies policy →
      lag ≤ policy.lease_guard_ms)
    (hfence : FencesStop (es ++ [effect node t holder epoch]))
    (hstep : DeploymentStep policy lag d (effect node t holder epoch) d') :
    d.office = some ⟨node, epoch⟩ := by
  obtain ⟨p, hp, hterm, hx, hlag⟩ := promotion_of_effect h.gates hstep
  cases hterm
  obtain ⟨before, after, hsplit⟩ := List.append_of_mem hp
  rcases after with _ | ⟨q, after⟩
  · simp [Deployment.office, hsplit, Promotion.term]
  · exfalso
    obtain ⟨next, hnext, hfollows⟩ :=
      List.isChain_iff_forall_rel_of_append_cons_cons.mp h.chain hsplit
    have hq : q ∈ d.history := by simp [hsplit]
    refine superseded hfence hfollows (h.evaluated q hq).1 ?_ (h.past q hq) hx hlag
    intro hallow hwait
    obtain ⟨_, prior, hprior, current, hacc⟩ := h.evaluated p hp
    obtain ⟨hother, hroom⟩ := room_of_follows hfollows hwait (lease_running hacc).2
    exact hguard next hnext
      ⟨hallow, ⟨prior, hprior, _, configured_of_accepted hacc, hother⟩, hroom⟩

theorem rotation_office_run (hrun : RotationRun policies lag (.begin now_ms store) es d)
    (hguard : ∀ policy ∈ policies, ReplacesAfterExpiry policies policy →
      lag ≤ policy.lease_guard_ms) (hfence : FencesStop es) :
    Run terms.Step none (es.filterMap DeploymentEvent.view?) d.office := by
  refine hrun.history (fun es d => FencesStop es →
    Run terms.Step none (es.filterMap DeploymentEvent.view?) d.office) (fun _ => .nil) ?_ hfence
  intro es d ev d' hrun ih hstep hfence
  have hrotated := rotated_run hrun
  obtain ⟨policy, _, hstep⟩ := hstep
  rw [filterMap_snoc]
  refine (ih hfence.of_append).append (office_event hstep hrotated.last ?_)
  rintro node t holder epoch rfl
  exact current_of_rotated hrotated hguard hfence hstep

end guarded

/-! ## The law -/

/-- Policies can be rotated freely exactly if no clock lags by more than the guard of
any policy of the set under which a holder can be replaced after the expiry of its
gate, whoever of the set accepted that holder. The guard of the policy under which the
lease was granted plays no part. -/
theorem rotation_bears_the_guards_of_the_next (policies : Set SafetyPolicy) (lag : UInt64) :
    (∀ now_ms store es d, RotationRun policies lag (.begin now_ms store) es d → FencesStop es →
      terms.InOrder (effects es)) ↔
    ∀ policy ∈ policies, ReplacesAfterExpiry policies policy → lag ≤ policy.lease_guard_ms := by
  constructor
  · rintro hall policy hpolicy ⟨hallow, ⟨prior, hprior, a, ha, b, hb, hne⟩, hroom⟩
    refine Classical.byContradiction fun hlag => ?_
    obtain ⟨es, es', d₁, d, hrun, hrun', hfence, hnot⟩ := late_effect hlag hallow ha hb hne hroom
    have hfirst := RotationRun.of_run hprior hrun
    have hnext := RotationRun.of_run hpolicy hrun'
    exact hnot (hall _ _ _ d (hfirst.append hnext) hfence)
  · intro hguard now_ms store es d hrun hfence
    exact terms.inOrder_run (rotation_office_run hrun hguard hfence)

end quorumarc_core

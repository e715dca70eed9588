-- A deployment without a serial authority. Proofs are accepted against any authority
-- state at any time, as if several authorities had split or had forgotten what they
-- granted. As long as no voter votes twice, no epoch has two holders even then.
import QuorumArc.Lives
import QuorumArc.Votes

open runs

namespace quorumarc_core

/-! ## The system -/

/-- One event of the deployment, where a promotion may be accepted against any
authority state `seen` and at any time `at_ms`. -/
inductive SplitStep (policy : SafetyPolicy) (lag : UInt64) :
    Deployment → DeploymentEvent → Deployment → Prop
  | granted {d : Deployment} {v : ValidatedPromotion} (proof : PromotionProof)
      (seen : AuthorityState) (at_ms : UInt64) :
      validate_promotion proof seen policy at_ms = .ok v →
      SplitStep policy lag d (.evaluated proof (.ok v))
        { d with current := v.authority, history := d.history ++ [⟨proof, at_ms, v⟩] }
  | same {d d' : Deployment} {ev : DeploymentEvent} : DeploymentStep policy lag d ev d' →
      SplitStep policy lag d ev d'

abbrev SplitRun (policy : SafetyPolicy) (lag : UInt64) := Run (SplitStep policy lag)

variable {policy : SafetyPolicy} {lag now_ms : UInt64} {d d' : Deployment}
  {es : List DeploymentEvent} {ev : DeploymentEvent} {store : NodeId → GateStore}

theorem SplitRun.of_run {d₀ : Deployment} (h : DeploymentRun policy lag d₀ es d) :
    SplitRun policy lag d₀ es d := by
  induction h with
  | nil => exact .nil
  | snoc _ hstep ih => exact ih.snoc (.same hstep)

/-! ## What was granted -/

/-- Every promotion was accepted under the policy by some authority, gates hold what
was granted to their node, and every effect so far was of a promotion of its node. -/
structure Backed (policy : SafetyPolicy) (es : List DeploymentEvent) (d : Deployment) : Prop where
  accepted : ∀ p ∈ d.history, .evaluated p.proof (.ok p.capability) ∈ es ∧
    ∃ seen at_ms, validate_promotion p.proof seen policy at_ms = .ok p.capability
  gates : ∀ node g, (d.sites node).gate = some g → HoldsGranted d.history node g
  acted : ∀ term ∈ effects es, ∃ p ∈ d.history, p.term = term

theorem backed_begin : Backed policy [] (.begin now_ms store) := by
  refine ⟨?_, ?_, ?_⟩
  · intro p hp
    cases hp
  · intro node g hg
    cases hg
  · intro term hterm
    cases hterm

theorem Backed.granted {proof : PromotionProof} {v : ValidatedPromotion}
    {seen current : AuthorityState} {at_ms : UInt64} (h : Backed policy es d)
    (hval : validate_promotion proof seen policy at_ms = .ok v) :
    Backed policy (es ++ [.evaluated proof (.ok v)])
      { d with current, history := d.history ++ [⟨proof, at_ms, v⟩] } := by
  refine ⟨?_, ?_, ?_⟩
  · intro q hq
    rcases List.mem_append.mp hq with hq | hq
    · obtain ⟨hmem, hacc⟩ := h.accepted q hq
      exact ⟨List.mem_append_left _ hmem, hacc⟩
    · rw [List.mem_singleton.mp hq]
      exact ⟨by simp, seen, at_ms, hval⟩
  · intro node g hg
    exact (h.gates node g hg).append _
  · intro term hterm
    rw [effects_append] at hterm
    rcases List.mem_append.mp hterm with hterm | hterm
    · obtain ⟨q, hq, hterm⟩ := h.acted term hterm
      exact ⟨q, List.mem_append_left _ hq, hterm⟩
    · cases hterm

/-- Only an open gate has an effect, and it was opened for a promotion. -/
theorem acted_step (h : Backed policy es d) (hstep : DeploymentStep policy lag d ev d') :
    ∀ term ∈ effects (es ++ [ev]), ∃ p ∈ d.history, p.term = term := by
  intro term hterm
  rw [effects_append] at hterm
  rcases List.mem_append.mp hterm with hterm | hterm
  · exact h.acted term hterm
  · obtain ⟨t, holder, hmem⟩ := mem_effects hterm
    rw [← List.mem_singleton.mp hmem] at hstep
    obtain ⟨p, hp, hterm, _⟩ := promotion_of_effect h.gates hstep
    exact ⟨p, hp, hterm⟩

theorem backed_same (h : Backed policy es d) (hstep : DeploymentStep policy lag d ev d') :
    Backed policy (es ++ [ev]) d' := by
  refine ⟨?_, gates_step h.gates hstep, ?_⟩
  · refine evaluated_step h.accepted ?_ hstep
    intro proof v hval
    exact ⟨_, _, hval⟩
  · intro term hterm
    obtain ⟨ps, hps⟩ := history_step hstep
    obtain ⟨p, hp, hterm⟩ := acted_step h hstep term hterm
    rw [hps]
    exact ⟨p, List.mem_append_left ps hp, hterm⟩

theorem backed_run (hrun : SplitRun policy lag (.begin now_ms store) es d) :
    Backed policy es d := by
  refine hrun.history (Backed policy) backed_begin ?_
  intro es d ev d' _ ih hstep
  cases hstep with
  | granted proof seen at_ms hval => exact ih.granted hval
  | same hstep => exact backed_same ih hstep

/-! ## The law -/

/-- No epoch has two holders, even without a serial authority. Whatever authorities
accept, at whatever times and however the clocks go, as long as no voter is in two
certificates of one epoch that differ in their subject, all effects under one epoch
are of one node. -/
theorem epoch_has_one_holder_without_an_authority
    (hrun : SplitRun policy lag (.begin now_ms store) es d)
    (hvotes : ∀ proof v proof' v', .evaluated proof (.ok v) ∈ es → .evaluated proof' (.ok v') ∈ es →
      SingleVote proof.quorum proof'.quorum) :
    ∀ a ∈ effects es, ∀ b ∈ effects es, a.epoch = b.epoch → a = b := by
  intro a ha b hb he
  have hbacked := backed_run hrun
  obtain ⟨p, hp, rfl⟩ := hbacked.acted a ha
  obtain ⟨q, hq, rfl⟩ := hbacked.acted b hb
  have he : p.capability.epoch = q.capability.epoch := he
  obtain ⟨hmem, seen, at_ms, hval⟩ := hbacked.accepted p hp
  obtain ⟨hmem', seen', at_ms', hval'⟩ := hbacked.accepted q hq
  have hbound := bound_of_accepted hval
  have hbound' := bound_of_accepted hval'
  have hepoch : p.proof.epoch = q.proof.epoch := by
    rw [← (accepted hval).1.quorum_epoch, ← (accepted hval').1.quorum_epoch, ← hbound.epoch,
      ← hbound'.epoch]
    exact he
  have hsubject := same_subject hval hval' (hvotes _ _ _ _ hmem hmem') hepoch
  have hcand : p.capability.candidate = q.capability.candidate := by
    rw [hbound.candidate, hbound'.candidate]
    exact congrArg Subject.candidate hsubject
  rw [Promotion.term, Promotion.term, hcand, he]

/-- After a term of node-a a second authority, which has seen nothing, accepts another
proof with the same certificate. -/
theorem epoch_has_one_holder_after_a_split : ∃ es d,
    SplitRun tests.policy 0 (.begin 10000 fun _ => .empty) es d ∧
      .evaluated tests.proof_ahead (.ok (capabilityOf tests.proof_ahead .Bootstrap)) ∈ es ∧
      ⟨tests.node_a, ⟨1⟩⟩ ∈ effects es ∧
      ∀ a ∈ effects es, a.epoch = ⟨1⟩ → a = ⟨tests.node_a, ⟨1⟩⟩ := by
  let first : Deployment := .begin 10000 fun _ => .empty
  have hlag : ms first.now_ms ≤ ms 10000 + ms 0 := by decide
  obtain ⟨d, hterm, _⟩ := term_run (d := first) (t := 10000) tests.proof_accepted (by decide)
    (by decide) (by decide) (by decide) hlag
  have hrun := (SplitRun.of_run hterm).snoc
    (.granted tests.proof_ahead .initial 10000 tests.proof_ahead_accepted)
  have hone := epoch_has_one_holder_without_an_authority hrun ?_
  · have hact : ⟨tests.node_a, ⟨1⟩⟩ ∈ effects (termEvents (tests.proof tests.node_a ⟨1⟩)
        (capabilityOf (tests.proof tests.node_a ⟨1⟩) .Bootstrap) 10000 ++
        [.evaluated tests.proof_ahead (.ok (capabilityOf tests.proof_ahead .Bootstrap))]) := by
      decide
    exact ⟨_, _, hrun, by simp, hact, fun a ha he => hone a ha _ hact he⟩
  · -- Both accepted proofs have the same certificate.
    have hquorum : ∀ proof v, .evaluated proof (.ok v) ∈
        termEvents (tests.proof tests.node_a ⟨1⟩) (capabilityOf (tests.proof tests.node_a ⟨1⟩)
          .Bootstrap) 10000 ++
        [.evaluated tests.proof_ahead (.ok (capabilityOf tests.proof_ahead .Bootstrap))] →
        proof.quorum = (tests.proof tests.node_a ⟨1⟩).quorum := by
      intro proof v hmem
      simp [termEvents, opening, effect] at hmem
      rcases hmem with ⟨rfl, _⟩ | ⟨rfl, _⟩ <;> rfl
    intro proof v proof' v' hmem hmem' voter _ _ _
    rw [hquorum _ _ hmem, hquorum _ _ hmem']

end quorumarc_core

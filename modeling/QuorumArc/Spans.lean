-- Times in a deployment. How long authority lasts after its grant, whatever lags,
-- crashes and recovers, and how far the terms of two holders are apart.
import QuorumArc.Lives

open runs

namespace quorumarc_core

variable {policy : SafetyPolicy} {lag now_ms t t' : UInt64} {d d' d₁ d₂ d₃ : Deployment}
  {es es' : List DeploymentEvent} {store : NodeId → GateStore} {n n' holder holder' : NodeId}
  {e e' : Epoch} {p q : Promotion}

/-! ## How long authority lasts -/

/-- A lease ends within its longest duration after the grant. -/
theorem expires_soon (h : Regular policy es d) (hp : p ∈ d.history) :
    ms p.capability.expires_at_ms ≤ ms p.now_ms + ms policy.max_lease_duration_ms := by
  obtain ⟨_, current, hval⟩ := h.evaluated p hp
  obtain ⟨hacc, hv⟩ := accepted hval
  rw [hv]
  obtain ⟨_, _, _, hbound, hstart, _⟩ := hacc.leased
  show ms p.proof.lease.expires_at_ms ≤ _
  omega

/-- What a run without a grant leaves of the history. -/
theorem history_of_no_grant (hrun : DeploymentRun policy lag d es d')
    (hno : ∀ proof v, .evaluated proof (.ok v) ∉ es) : d'.history = d.history := by
  refine hrun.history (fun es d' => (∀ proof v, .evaluated proof (.ok v) ∉ es) →
    d'.history = d.history) (fun _ => rfl) ?_ hno
  intro es d₁ ev d₂ _ ih hstep hno
  have hsame := ih fun proof v hmem => hno proof v (List.mem_append_left _ hmem)
  cases hstep with
  | promoted proof hval =>
    exact absurd (List.mem_append_right _ (List.mem_singleton_self _)) (hno proof _)
  | advanced | refused | called | wrote | crashed | restarted => exact hsame

/-! ## The promotion after an effect -/

theorem history_run (hrun : DeploymentRun policy lag d es d') :
    ∃ ps, d'.history = d.history ++ ps := by
  refine hrun.invariant (fun d' => ∃ ps, d'.history = d.history ++ ps) ⟨[], by simp⟩ ?_
  rintro d₁ ev d₂ ⟨ps, hps⟩ hstep
  obtain ⟨qs, hqs⟩ := history_step hstep
  exact ⟨ps ++ qs, by rw [hqs, hps, List.append_assoc]⟩

/-- A promotion that a newer one came after is followed by one. -/
theorem followed_of_newer (h : Regular policy es d) (hp : p ∈ d.history) (hq : q ∈ d.history)
    (hlt : p.capability.epoch < q.capability.epoch) :
    ∃ before b after, d.history = before ++ p :: b :: after ∧ Follows policy p b := by
  obtain ⟨before, rest, hsplit⟩ := List.append_of_mem hp
  obtain ⟨l, hserial, _, _⟩ := h.serial
  obtain ⟨hchain, _, _⟩ := authority_run hserial
  rcases rest with _ | ⟨b, after⟩
  · -- Nothing is newer than the last promotion.
    exfalso
    have horder := h.inOrder
    rw [hsplit, List.map_append] at horder
    rw [hsplit] at hq
    rcases List.mem_append.mp hq with hq | hq
    · have hold := (List.pairwise_append.mp horder).2.2 q.term (List.mem_map_of_mem hq) p.term
        (by simp)
      rcases hold with heq | hold
      · exact absurd hlt (not_lt_of_ge (le_of_eq (congrArg terms.Term.epoch heq)))
      · exact lt_irrefl _ (lt_trans hlt hold)
    · rw [List.mem_singleton.mp hq] at hlt
      exact lt_irrefl _ hlt
  · have hfollows := List.isChain_iff_forall_rel_of_append_cons_cons.mp hchain hsplit
    exact ⟨before, b, after, hsplit, hfollows⟩

/-! ## The laws -/

/-- Without grants a deployment falls silent. When no promotion was granted for the
longest lease and the lag of the clocks, no gate on any node lets an effect through,
whatever crashed, restarted and was called since. -/
theorem deployment_falls_silent (hrun : DeploymentRun policy lag (.begin now_ms store) es d)
    (hrun' : DeploymentRun policy lag d es' d') (hno : ∀ proof v, .evaluated proof (.ok v) ∉ es')
    (hlong : ms d.now_ms + ms policy.max_lease_duration_ms + ms lag ≤ ms d'.now_ms) :
    ∀ n t holder e d'', ¬ DeploymentStep policy lag d' (effect n t holder e) d'' := by
  intro n t holder e d'' hstep
  have hregular := regular_run (hrun.append hrun')
  obtain ⟨p, hp, _, hend, hlag⟩ := promotion_of_effect hregular.gates hstep
  have hexpires := expires_soon hregular hp
  rw [history_of_no_grant hrun' hno] at hp
  have hpast := ms_le.mpr ((regular_run hrun).past p hp)
  have hlt := ms_lt.mpr hend
  omega

/-- Node-a had a term at 10000, and nothing was granted until 12100. -/
theorem deployment_falls_silent_after_a_term : ∃ d, d.now_ms = 12100 ∧
    ∀ n t holder e d', ¬ DeploymentStep tests.policy 100 d (effect n t holder e) d' := by
  let d₀ : Deployment := .begin 10000 fun _ => .empty
  have hlag : ms d₀.now_ms ≤ ms 10000 + ms 100 := by decide
  obtain ⟨d, hrun, hin⟩ := term_run (d := d₀) (t := 10000) tests.proof_accepted (by decide)
    (by decide) (by decide) (by decide) hlag
  have hnow : d.now_ms = 10000 := hin.now_ms
  have hadvance : DeploymentRun tests.policy 100 d [.advanced 12100] { d with now_ms := 12100 } := by
    refine Run.nil.snoc (.advanced 12100 ?_)
    rw [hnow]
    decide
  have hlong : ms 10000 + ms tests.policy.max_lease_duration_ms + ms 100 ≤ ms 12100 := by decide
  rw [← hnow] at hlong
  refine ⟨_, rfl, deployment_falls_silent hrun hadvance ?_ hlong⟩
  intro proof v hmem
  cases List.mem_singleton.mp hmem

/-- The terms of two holders are apart. Between an effect and an effect under a newer
epoch the promotion that followed the first one shows a hard fence, or more time has
passed than the guard of the policy less the lag of the clocks. -/
theorem terms_are_apart (hrun : DeploymentRun policy lag (.begin now_ms store) es d)
    (heffect : DeploymentStep policy lag d (effect n t holder e) d₁)
    (hrun' : DeploymentRun policy lag d₁ es' d₂)
    (heffect' : DeploymentStep policy lag d₂ (effect n' t' holder' e') d₃) (hlt : e < e') :
    ∃ before p q after, d₂.history = before ++ p :: q :: after ∧ p.term = ⟨n, e⟩ ∧
      (q.proof.fence.Hard ∨
        ms d.now_ms + ms policy.lease_guard_ms < ms d₂.now_ms + ms lag) := by
  have hregular₂ := regular_run ((hrun.snoc heffect).append hrun')
  obtain ⟨p, hp, hterm, hend, hlag⟩ := promotion_of_effect (regular_run hrun).gates heffect
  obtain ⟨p', hp', hterm', _, _⟩ := promotion_of_effect hregular₂.gates heffect'
  obtain ⟨ps, hps⟩ := history_run ((Run.nil.snoc heffect).append hrun')
  have hmem : p ∈ d₂.history := by
    rw [hps]
    exact List.mem_append_left _ hp
  have hnewer : p.capability.epoch < p'.capability.epoch := by
    have h := congrArg terms.Term.epoch hterm
    have h' := congrArg terms.Term.epoch hterm'
    exact (show p.capability.epoch = e from h) ▸ (show p'.capability.epoch = e' from h') ▸ hlt
  obtain ⟨before, q, after, hsplit, hfollows⟩ := followed_of_newer hregular₂ hmem hp' hnewer
  refine ⟨before, p, q, after, hsplit, hterm, ?_⟩
  rcases hard_or_expired hfollows with hhard | ⟨_, hwait⟩
  · exact Or.inl hhard
  · have hq : q ∈ d₂.history := by
      rw [hsplit]
      simp
    have h1 := ms_lt.mpr hend
    have h2 := ms_le.mpr (lease_running hfollows.1).1
    have h3 := ms_le.mpr (hregular₂.past q hq)
    exact Or.inr (by omega)

/-- The handover from node-a to node-b after the expiry of a gate, with a lag of 40 ms. -/
theorem terms_are_apart_in_takeover : ∃ d d' before p q after,
    Deployment.history d' = before ++ p :: q :: after ∧ p.term = ⟨tests.node_a, ⟨1⟩⟩ ∧
      (q.proof.fence.Hard ∨ ms (Deployment.now_ms d) + ms 100 < ms d'.now_ms + ms 40) := by
  have hvoters : [tests.node_a, tests.node_b, tests.witness].Nodup ∧
      [tests.node_a, tests.node_b, tests.witness].toFinset = tests.policy.voters := by decide
  have ha : tests.node_a ∈ tests.policy.candidates := by decide
  have hb : tests.node_b ∈ tests.policy.candidates := by decide
  have hnow : ms 101 = 1 + ms tests.policy.lease_guard_ms := by decide
  obtain ⟨d, hrun, _⟩ := takeover_run tests.policy 40 hvoters ha hb (by decide) rfl hnow
    (by decide)
  unfold takeoverEvents termEvents at hrun
  rw [← List.cons_append] at hrun
  obtain ⟨d₁, hterm, hrest⟩ := hrun.split
  obtain ⟨d₀, hgrant, heffect⟩ := hterm.last
  obtain ⟨d₃, hrest, heffect'⟩ := hrest.last
  have hlt : (⟨1⟩ : Epoch) < ⟨2⟩ := by decide
  exact ⟨d₀, d₃, terms_are_apart hgrant heffect hrest heffect' hlt⟩

end quorumarc_core

-- What a policy decides. A policy can be built exactly if its quorums are quorums and
-- its bounds are bounds. A deployment under a tighter policy does nothing that one under
-- a looser policy could not do, with the digest of the looser policy for its own.
import QuorumArc.Lives
import QuorumArc.TranslatedRuns
import QuorumArc.Votes

open checks runs

namespace quorumarc_core

/-! ## Policies that can be built -/

/-- The parameters make sense: there are candidates, all voters; some votes are enough
and any two that are enough share a voter; the witness, if any, votes and is no
candidate; and health, age and lease are bounded. -/
structure MakesSense (candidates voters : List NodeId) (quorum_size : Nat)
    (required_witness : Option NodeId) (min_health_checks : UInt16)
    (max_evidence_age_ms max_lease_duration_ms : UInt64) : Prop where
  some_candidate : ∃ c, c ∈ candidates
  candidates_vote : ∀ c ∈ candidates, c ∈ voters
  enough : ∃ votes ⊆ voters.toFinset, quorum_size ≤ votes.card
  shared : ∀ votes votes', votes ⊆ voters.toFinset → votes' ⊆ voters.toFinset →
    quorum_size ≤ votes.card → quorum_size ≤ votes'.card → ∃ voter, voter ∈ votes ∧ voter ∈ votes'
  witness : ∀ w, required_witness = some w → w ∈ voters ∧ w ∉ candidates
  health : min_health_checks ≠ 0
  age : max_evidence_age_ms ≠ 0
  lease : max_lease_duration_ms ≠ 0

section new

variable {workload : WorkloadId} {policy_hash : PolicyHash} {candidates voters : List NodeId}
  {quorum_size : Nat} {required_witness : Option NodeId} {min_health_checks : UInt16}
  {max_evidence_age_ms max_lease_duration_ms lease_guard_ms : UInt64} {allow : Bool}

theorem witness_votes_iff {votes : Finset NodeId} :
    (¬ required_witness.any (fun w => w ∉ votes)) ↔ ∀ w, required_witness = some w → w ∈ votes := by
  rcases required_witness with _ | w <;> simp

theorem witness_is_no_candidate_iff {cs : Finset NodeId} :
    (¬ required_witness.any (fun w => w ∈ cs)) ↔ ∀ w, required_witness = some w → w ∉ cs := by
  rcases required_witness with _ | w <;> simp

theorem makesSense_of_new {policy : SafetyPolicy}
    (h : SafetyPolicy.new workload policy_hash candidates voters quorum_size required_witness
      min_health_checks max_evidence_age_ms max_lease_duration_ms lease_guard_ms allow =
        .ok policy) :
    MakesSense candidates voters quorum_size required_witness min_health_checks max_evidence_age_ms
      max_lease_duration_ms := by
  simp only [SafetyPolicy.new, dite_error_eq_ok] at h
  obtain ⟨hcand, _, hsub, hfits, hmeet, hvotes, hno, hhealth, htime, _⟩ := h
  obtain ⟨henough, hshared⟩ := (quorums.majority_iff voters.toFinset quorum_size).mpr
    ⟨by omega, by omega⟩
  obtain ⟨c, hc⟩ := Finset.nonempty_iff_ne_empty.mpr hcand
  refine ⟨⟨c, List.mem_toFinset.mp hc⟩, ?_, henough, hshared, ?_, hhealth, ?_, ?_⟩
  · intro c hc
    exact List.mem_toFinset.mp (not_not.mp hsub (List.mem_toFinset.mpr hc))
  · intro w hw
    have h1 := witness_votes_iff.mp hvotes w hw
    have h2 := witness_is_no_candidate_iff.mp hno w hw
    rw [List.mem_toFinset] at h1 h2
    exact ⟨h1, h2⟩
  · exact fun h0 => htime (Or.inl h0)
  · exact fun h0 => htime (Or.inr h0)

theorem new_of_makesSense (h : MakesSense candidates voters quorum_size required_witness
    min_health_checks max_evidence_age_ms max_lease_duration_ms) :
    ∃ policy, SafetyPolicy.new workload policy_hash candidates voters quorum_size required_witness
      min_health_checks max_evidence_age_ms max_lease_duration_ms lease_guard_ms allow =
        .ok policy := by
  obtain ⟨hhalf, hall⟩ := (quorums.majority_iff voters.toFinset quorum_size).mp
    ⟨h.enough, h.shared⟩
  obtain ⟨c, hc⟩ := h.some_candidate
  have hcand : candidates.toFinset ≠ ∅ :=
    Finset.nonempty_iff_ne_empty.mp ⟨c, List.mem_toFinset.mpr hc⟩
  have hvoter : voters.toFinset ≠ ∅ :=
    Finset.nonempty_iff_ne_empty.mp ⟨c, List.mem_toFinset.mpr (h.candidates_vote c hc)⟩
  have hsub : candidates.toFinset ⊆ voters.toFinset := by
    intro n hn
    exact List.mem_toFinset.mpr (h.candidates_vote n (List.mem_toFinset.mp hn))
  have hvotes := witness_votes_iff.mpr fun w hw => List.mem_toFinset.mpr (h.witness w hw).1
  have hno := witness_is_no_candidate_iff.mpr fun w hw =>
    mt List.mem_toFinset.mp (h.witness w hw).2
  simp only [SafetyPolicy.new, dite_error_eq_ok]
  exact ⟨_, hcand, hvoter, not_not.mpr hsub, by omega, by omega, hvotes, hno, h.health,
    fun htime => htime.elim h.age h.lease, rfl⟩

/-- A policy can be built exactly if its parameters make sense: for every number of
voters the sizes of quorums that are let through are the ones at which some votes are
enough and any two that are enough share a voter. -/
theorem policies_that_can_be_built : (∃ policy, SafetyPolicy.new workload policy_hash candidates
    voters quorum_size required_witness min_health_checks max_evidence_age_ms
    max_lease_duration_ms lease_guard_ms allow = .ok policy) ↔
    MakesSense candidates voters quorum_size required_witness min_health_checks
      max_evidence_age_ms max_lease_duration_ms :=
  ⟨fun ⟨_, h⟩ => makesSense_of_new h, new_of_makesSense⟩

end new

/-! ## Tighter and looser policies -/

/-- The policy `p'` for the same workload asks for no more than `p`. The witness may be
dropped, and the expiry of gates be allowed as a fence. The digest may be any other. -/
structure Looser (p p' : SafetyPolicy) : Prop where
  workload : p'.workload = p.workload
  candidates : p.candidates ⊆ p'.candidates
  voters : p.voters ⊆ p'.voters
  quorum_size : p'.quorum_size ≤ p.quorum_size
  required_witness : ∀ w, p'.required_witness = some w → p.required_witness = some w
  min_health_checks : p'.min_health_checks ≤ p.min_health_checks
  max_evidence_age_ms : p.max_evidence_age_ms ≤ p'.max_evidence_age_ms
  max_lease_duration_ms : p.max_lease_duration_ms ≤ p'.max_lease_duration_ms
  lease_guard_ms : p'.lease_guard_ms ≤ p.lease_guard_ms
  allow_gate_expiry_fence : p.allow_gate_expiry_fence = true → p'.allow_gate_expiry_fence = true

variable {p p' : SafetyPolicy} {proof : PromotionProof} {current : AuthorityState}
  {now_ms lag lag' : UInt64} {v : ValidatedPromotion} {d₀ d : Deployment}
  {es : List DeploymentEvent}

theorem Looser.fresh {observed_at_ms : UInt64} (h : Looser p p')
    (hf : Fresh observed_at_ms now_ms p.max_evidence_age_ms) :
    Fresh observed_at_ms now_ms p'.max_evidence_age_ms := by
  have hage := ms_le.mpr h.max_evidence_age_ms
  obtain ⟨hold, hpast⟩ := hf
  exact ⟨by omega, hpast⟩

/-- The prior authority is excluded under the looser policy too, and no later. -/
theorem Looser.excludes {fence_class : FenceClass} {safe : ℤ} (h : Looser p p')
    (hex : Excludes proof current p now_ms fence_class safe) :
    ∃ safe', Excludes proof current p' now_ms fence_class safe' ∧ safe' ≤ safe := by
  cases hex with
  | bootstrap hh hz ht hm => exact ⟨_, .bootstrap hh hz ht hm, le_refl _⟩
  | power hh ht hm => exact ⟨_, .power hh ht hm, le_refl _⟩
  | storage hh ht hm => exact ⟨_, .storage hh ht hm, le_refl _⟩
  | expiry hh ht hm hallow hx hnow =>
    have hguard := ms_le.mpr h.lease_guard_ms
    exact ⟨_, .expiry hh ht hm (h.allow_gate_expiry_fence hallow) hx (by omega), by omega⟩

theorem Looser.acceptable {fence_class : FenceClass} (h : Looser p p')
    (hhash : p'.policy_hash = p.policy_hash)
    (hacc : Acceptable proof current p now_ms fence_class) :
    Acceptable proof current p' now_ms fence_class := by
  obtain ⟨safe, hex, hsafe⟩ := hacc.excludes
  obtain ⟨safe', hex', hle⟩ := h.excludes hex
  have hlease := ms_le.mpr h.max_lease_duration_ms
  have hvotes := hacc.votes
  have hleased := hacc.leased
  have hbounded := hleased.bounded
  exact { hacc with
    workload := hacc.workload.trans h.workload.symm
    policy_hash := hacc.policy_hash.trans hhash.symm
    configured := h.candidates hacc.configured
    votes := { hvotes with
      configured := fun voter hv => h.voters (hvotes.configured voter hv)
      enough := le_trans h.quorum_size hvotes.enough
      witness := fun w hw => hvotes.witness w (h.required_witness w hw) }
    verifies := { hacc.verifies with
      witness := fun w hw => hacc.verifies.witness w (h.required_witness w hw) }
    fence_fresh := h.fresh hacc.fence_fresh
    state_fresh := h.fresh hacc.state_fresh
    health_fresh := h.fresh hacc.health_fresh
    excludes := ⟨safe', hex', le_trans hle hsafe⟩
    healthy := { hacc.healthy with
      enough := UInt16.le_trans h.min_health_checks hacc.healthy.enough }
    leased := { hleased with bounded := le_trans hbounded hlease } }

/-- What a policy accepts a looser one of its digest accepts, with the same capability. -/
theorem Looser.accepts (h : Looser p p') (hhash : p'.policy_hash = p.policy_hash)
    (hval : validate_promotion proof current p now_ms = .ok v) :
    validate_promotion proof current p' now_ms = .ok v := by
  obtain ⟨cls, hacc, rfl⟩ := validate_promotion.spec.mp hval
  exact validate_promotion.spec.mpr ⟨cls, h.acceptable hhash hacc, rfl⟩

/-- Whether the event is anything but the refusal of a proof. -/
def DeploymentEvent.happens : DeploymentEvent → Bool
  | .evaluated _ (.error _) => false
  | _ => true

/-- A step under a policy is one under a looser policy of its digest, unless it is a refusal. -/
theorem Looser.step {ev : DeploymentEvent} {d' : Deployment} (h : Looser p p')
    (hhash : p'.policy_hash = p.policy_hash) (hlag : lag ≤ lag')
    (hstep : DeploymentStep p lag d ev d') :
    DeploymentRun p' lag' d ([ev].filter DeploymentEvent.happens) d' := by
  have hle := ms_le.mpr hlag
  cases hstep with
  | refused => exact .nil
  | advanced now_ms hnow => exact Run.nil.snoc (.advanced now_ms hnow)
  | promoted proof hval => exact Run.nil.snoc (.promoted proof (h.accepts hhash hval))
  | called node ev hg hcall hread hoffer hwritten =>
    refine Run.nil.snoc (.called node ev hg hcall ?_ hoffer hwritten)
    intro t ht
    have := hread t ht
    omega
  | wrote node r => exact Run.nil.snoc (.wrote node r)
  | crashed node => exact Run.nil.snoc (.crashed node)
  | restarted node workload policy_hash incarnation =>
    exact Run.nil.snoc (.restarted node workload policy_hash incarnation)

theorem Looser.run (h : Looser p p') (hhash : p'.policy_hash = p.policy_hash) (hlag : lag ≤ lag')
    (hrun : DeploymentRun p lag d₀ es d) :
    DeploymentRun p' lag' d₀ (es.filter DeploymentEvent.happens) d := by
  induction hrun with
  | nil => exact .nil
  | snoc _ hstep ih =>
    rw [List.filter_append]
    exact ih.append (h.step hhash hlag hstep)

theorem effects_happen : effects (es.filter DeploymentEvent.happens) = effects es := by
  have hview : (fun ev : DeploymentEvent => if ev.happens = true then ev.view? else none) =
      DeploymentEvent.view? := by
    funext ev
    unfold DeploymentEvent.happens
    split <;> rfl
  unfold effects
  rw [List.filterMap_filter, hview]

/-- What happened before and after an event is what happened of all before and after it. -/
theorem fencesStop_happens (h : FencesStop es) :
    FencesStop (es.filter DeploymentEvent.happens) := by
  intro before proof v after target t holder epoch hes hhard htarget hlt hmem
  obtain ⟨l₁, l₂, rfl, _, hl₂⟩ := List.filter_eq_append_iff.mp hes
  obtain ⟨l₃, l₄, rfl, _, _, rfl⟩ := List.filter_eq_cons_iff.mp hl₂
  refine h (l₁ ++ l₃) proof v l₄ target t holder epoch ?_ hhard htarget hlt ?_
  · rw [List.append_assoc]
  · exact (List.mem_filter.mp hmem).1

/-! ## The digest of the looser policy -/

/-- The digest of `p'` for the one of `p`. Names and times stay. -/
def redigest (p p' : SafetyPolicy) : Translation where
  name := Equiv.refl NodeId
  digest := Equiv.swap p.policy_hash p'.policy_hash
  shift := 0

theorem redigested_hash : ((redigest p p').policy p).policy_hash = p'.policy_hash :=
  Equiv.swap_apply_left ..

/-- A looser policy is looser than the tighter one under its own digest. -/
theorem Looser.redigested (h : Looser p p') : Looser ((redigest p p').policy p) p' := by
  have hmap : ∀ nodes : Finset NodeId,
      nodes.map (redigest p p').name.toEmbedding = nodes := fun _ => Finset.map_refl
  refine { h with candidates := ?_, voters := ?_, required_witness := ?_ }
  · exact (hmap _).subset.trans h.candidates
  · exact (hmap _).subset.trans h.voters
  · intro w hw
    have hwitness := h.required_witness w hw
    show p.required_witness.map (redigest p p').name = some w
    rw [hwitness]
    rfl

/-! ## The law -/

/-- A tighter policy and better clocks add no behaviour. What a deployment does under a
policy, one under every looser policy for the same workload, with clocks that may lag as
much, can do too: every start has a counterpart that differs in the digest of the policy
only, and from each the events of the run, refusals of proofs apart, lead to the
counterpart of its end, with the same effects and with fences that stop as many targets. -/
theorem tightening_a_policy_adds_no_behaviour (h : Looser p p') (hlag : lag ≤ lag')
    (hrun : DeploymentRun p lag d₀ es d) :
    (∃ d₀', (redigest p p').DeploymentOf d₀ d₀') ∧
    ∀ d₀', (redigest p p').DeploymentOf d₀ d₀' →
      ∃ es' d', List.Forall₂ (redigest p p').EventOf es es' ∧
        (redigest p p').DeploymentOf d d' ∧
        DeploymentRun p' lag' d₀' (es'.filter DeploymentEvent.happens) d' ∧
        effects (es'.filter DeploymentEvent.happens) = effects es ∧
        (FencesStop es → FencesStop (es'.filter DeploymentEvent.happens)) := by
  refine ⟨Translation.exists_deployment rfl d₀, ?_⟩
  intro d₀' h0
  obtain ⟨es', hes⟩ := exists_forall₂ (Translation.exists_event (T := redigest p p') rfl) es
  obtain ⟨d', hrun', hd⟩ := Translation.run_translated hrun h0 hes
  refine ⟨es', d', hes, hd, h.redigested.run redigested_hash.symm hlag hrun', ?_, ?_⟩
  · have hterm : (redigest p p').term = id := rfl
    rw [effects_happen, Translation.effects_translated hes, hterm, List.map_id]
  · intro hfence
    exact fencesStop_happens (Translation.fencesStop_translated hes hfence)

namespace tests

/-- Looser than the policy of the unit tests, and of another digest. -/
def looser_policy : SafetyPolicy :=
  (SafetyPolicy.new workload ⟨Vector.replicate 32 9⟩ [node_a, node_b] [node_a, node_b, witness] 2
    none 1 5000 9000 0 true).toOption.get (by decide)

end tests

/-- The crash of node-a and the takeovers after it, without a required witness or a guard. -/
theorem tightening_a_policy_adds_no_behaviour_after_a_crash : ∃ es d,
    DeploymentRun tests.looser_policy 5 (.begin 10000 fun _ => .empty) es d ∧
      effects es = [⟨tests.node_a, ⟨1⟩⟩, ⟨tests.node_b, ⟨2⟩⟩, ⟨tests.node_a, ⟨3⟩⟩] := by
  have hloose : Looser tests.policy tests.looser_policy := by
    refine ⟨rfl, by decide, by decide, by decide, ?_, by decide, by decide, by decide,
      by decide, fun _ => rfl⟩
    intro w hw
    cases hw
  have hlag : (0 : UInt64) ≤ 5 := by decide
  have hbegin : (redigest tests.policy tests.looser_policy).DeploymentOf
      (.begin 10000 fun _ => GateStore.empty) (.begin 10000 fun _ => GateStore.empty) :=
    Translation.begin_translated (Translation.time_refl rfl _)
      fun _ => ⟨rfl, Translation.time_refl rfl _, .nil⟩
  obtain ⟨d, hrun⟩ := tests.crash_run
  obtain ⟨es, d', _, _, hrun', heffects, _⟩ :=
    (tightening_a_policy_adds_no_behaviour hloose hlag hrun).2 _ hbegin
  exact ⟨_, d', hrun', heffects⟩

end quorumarc_core

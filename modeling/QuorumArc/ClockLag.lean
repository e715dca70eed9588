-- How far a clock may lag. The gates of a deployment may lag the clock of the
-- authority by the guard of the policy, and by nothing more: at a longer lag a
-- gate is still open when the next holder acts.
import QuorumArc.Deployment
import QuorumArc.Handshake

open runs words

namespace quorumarc_core

variable {policy : SafetyPolicy} {lag : UInt64} {d : Deployment} {node : NodeId}

/-! ## Opening a gate -/

/-- The record of the capability at the time `t`. -/
def recordFor (v : ValidatedPromotion) (t : UInt64) : GatePersistenceRecord where
  node := v.candidate
  workload := v.workload
  policy_hash := v.policy_hash
  accepted_epoch := v.epoch
  incarnation := v.candidate_incarnation
  last_observed_ms := t

theorem record_of_bound {g : EffectGate} {v : ValidatedPromotion} {t : UInt64} (hb : g.Bound v) :
    (g.observed t).persistence_record v = recordFor v t := by
  obtain ⟨hw, hp, hc, hi⟩ := hb
  simp [EffectGate.persistence_record, EffectGate.observed, recordFor, hw, hp, hc, hi]

/-- The calls that open the gate of `node` for `v` at `t`, with the write of the record. -/
def opening (node : NodeId) (t : UInt64) (v : ValidatedPromotion) (r : GatePersistenceRecord)
    (receipt : ContinuityReceipt) : List DeploymentEvent :=
  [.called node ⟨.stage t v, .ok (.Record r)⟩, .wrote node r,
    .called node ⟨.confirm_persisted r, .ok .Confirmed⟩,
    .called node ⟨.activate t, .ok (.Receipt receipt)⟩]

/-- A handshake whose calls succeed is a run, when its record is written before it is confirmed. -/
theorem opening_run (policy : SafetyPolicy) {g g₁ g₂ g₃ : EffectGate} {v : ValidatedPromotion}
    {t : UInt64} {r : GatePersistenceRecord} {receipt : ContinuityReceipt}
    (hg : (d.sites node).gate = some g) (hgrant : Granted d.history v)
    (hlag : ms d.now_ms ≤ ms t + ms lag) (hstage : g.stage t v = (.ok r, g₁))
    (hconfirm : g₁.confirm_persisted r = (.ok (), g₂))
    (hactivate : g₂.activate t = (.ok receipt, g₃)) :
    DeploymentRun policy lag d (opening node t v r receipt)
      (d.put node ⟨(d.sites node).store.write r, some g₃⟩) := by
  have hread : ∀ c : Call, c.reading? = some t ∨ c.reading? = none →
      c.ReadsWithin lag d.now_ms := by
    rintro c (hc | hc) t' ht' <;> rw [hc] at ht' <;> cases ht'
    exact hlag
  have hstaged : GateStep g ⟨.stage t v, .ok (.Record r)⟩ g₁ := by
    simp [GateStep, EffectGate.step, hstage, Except.map]
  have hconfirmed : GateStep g₁ ⟨.confirm_persisted r, .ok .Confirmed⟩ g₂ := by
    simp [GateStep, EffectGate.step, hconfirm, Except.map]
  have hactivated : GateStep g₂ ⟨.activate t, .ok (.Receipt receipt)⟩ g₃ := by
    simp [GateStep, EffectGate.step, hactivate, Except.map]
  have h1 : DeploymentRun policy lag d [.called node ⟨.stage t v, .ok (.Record r)⟩]
      (d.put node { d.sites node with gate := some g₁ }) := by
    refine Run.nil.snoc (.called node _ hg hstaged (hread _ (Or.inl rfl)) ?_ ?_)
    · intro t' v' hc
      cases hc
      exact hgrant
    · intro r' hc
      cases hc
  have h2 := h1.snoc (.wrote node r)
  have h3 := h2.snoc (.called node _ (by simp) hconfirmed (hread _ (Or.inr rfl))
    (by intro t' v' hc; cases hc) (by intro r' hc; cases hc; simp [GateStore.write]))
  have h4 := h3.snoc (.called node _ (by simp) hactivated (hread _ (Or.inl rfl))
    (by intro t' v' hc; cases hc) (by intro r' hc; cases hc))
  simpa [opening] using h4

/-- An open gate allows an effect of its holder before the end of its lease. -/
theorem effect_step {g : EffectGate} {t x : UInt64} {holder : NodeId} {epoch : Epoch}
    (hg : (d.sites node).gate = some g) (hopen : g.state = .Open holder epoch x)
    (hle : g.last_observed_ms ≤ t) (hx : t < x) (hlag : ms d.now_ms ≤ ms t + ms lag) :
    DeploymentStep policy lag d (effect node t holder epoch)
      (d.put node { d.sites node with gate := some (g.observed t) }) := by
  refine .called node _ hg ?_ ?_ ?_ ?_
  · simp [GateStep, EffectGate.step, EffectGate.check_of_open hopen hle hx, Except.map]
  · intro t' ht'
    cases ht'
    exact hlag
  · intro t' v hc
    cases hc
  · intro r hc
    cases hc

/-! ## A term with an effect -/

/-- The candidate of the proof starts again, the proof is accepted as `v`, and the
candidate opens its gate and has an effect, all at the time `t` of its clock. -/
def termEvents (proof : PromotionProof) (v : ValidatedPromotion) (t : UInt64) :
    List DeploymentEvent :=
  [.restarted v.candidate v.workload v.policy_hash v.candidate_incarnation,
    .evaluated proof (.ok v)] ++
  opening v.candidate t v (recordFor v t) (receiptOf v t) ++
    [effect v.candidate t v.candidate v.epoch]

/-- What is left of a deployment `d` after a term of `v`: only the candidate changed, its
gate is open, and its store has the record. -/
structure InTerm (d : Deployment) (v : ValidatedPromotion) (t : UInt64) (d' : Deployment) :
    Prop where
  now_ms : d'.now_ms = d.now_ms
  current : d'.current = v.authority
  others : ∀ n, n ≠ v.candidate → d'.sites n = d.sites n
  store : (d'.sites v.candidate).store = (d.sites v.candidate).store.write (recordFor v t)
  gate : ∃ g, (d'.sites v.candidate).gate = some g ∧
    g.state = .Open v.candidate v.epoch v.expires_at_ms ∧ g.last_observed_ms = t

/-- An accepted proof can be brought to an effect at once, if the store of its
candidate knows neither its epoch nor a time after this one. -/
theorem term_run {proof : PromotionProof} {v : ValidatedPromotion} {t : UInt64}
    (hval : validate_promotion proof d.current policy d.now_ms = .ok v)
    (hstore : (d.sites v.candidate).store.accepted_epoch < v.epoch)
    (hobs : (d.sites v.candidate).store.last_observed_ms ≤ t) (hstart : v.not_before_ms ≤ t)
    (hend : t < v.expires_at_ms) (hlag : ms d.now_ms ≤ ms t + ms lag) :
    ∃ d', DeploymentRun policy lag d (termEvents proof v t) d' ∧ InTerm d v t d' := by
  let g : EffectGate := .recover v.candidate v.workload v.policy_hash
    ((d.sites v.candidate).store.recovery v.candidate_incarnation)
  let d₁ := d.put v.candidate { d.sites v.candidate with gate := some g }
  let d₂ : Deployment :=
    { d₁ with current := v.authority, history := d.history ++ [⟨proof, d.now_ms, v⟩] }
  let d₃ := d₂.put v.candidate
    ⟨(d₂.sites v.candidate).store.write (recordFor v t), some (g.openedFor v t)⟩
  have hrestart : DeploymentRun policy lag d
      [.restarted v.candidate v.workload v.policy_hash v.candidate_incarnation] d₁ :=
    Run.nil.snoc (.restarted _ _ _ _)
  have hgrant : DeploymentStep policy lag d₁ (.evaluated proof (.ok v)) d₂ := .promoted proof hval
  have hgate : (d₂.sites v.candidate).gate = some g := by simp [d₂, d₁]
  have hno : ¬ g.IsOpen := by
    rintro ⟨h, e, x, hs⟩
    cases hs
  have hgranted : Granted d₂.history v :=
    ⟨_, List.mem_append_right _ (List.mem_singleton_self _), rfl⟩
  have hbound : g.Bound v := ⟨rfl, rfl, rfl, rfl⟩
  have hstage := EffectGate.stage_of_newer hobs hbound hno hstore
  rw [record_of_bound hbound] at hstage
  have hopening : DeploymentRun policy lag d₂
      (opening v.candidate t v (recordFor v t) (receiptOf v t)) d₃ :=
    opening_run policy hgate hgranted hlag hstage (EffectGate.confirm_of_staged rfl)
      (EffectGate.activate_of_prepared rfl (UInt64.le_refl t) hstart hend)
  have hopened : (d₃.sites v.candidate).gate = some (g.openedFor v t) := by
    rw [Deployment.put_self]
  have heffect : DeploymentStep policy lag d₃ (effect v.candidate t v.candidate v.epoch) _ :=
    effect_step hopened rfl (UInt64.le_refl t) hend hlag
  refine ⟨_, ((hrestart.snoc hgrant).append hopening).snoc heffect, rfl, rfl, ?_, ?_, ?_⟩
  · intro n hn
    simp [d₃, d₂, d₁, hn]
  · simp [d₃, d₂, d₁]
  · exact ⟨_, by rw [Deployment.put_self], rfl, rfl⟩

/-! ## A takeover after the expiry of a gate -/

def GateStore.empty : GateStore where
  accepted_epoch := ⟨0⟩
  last_observed_ms := 0
  written := []
  covers := by simp

section takeover

variable {prior : SafetyPolicy} {voters prior_voters : List NodeId} {a b : NodeId}
  {now_ms : UInt64}

/-- The first authority of `a`, for one millisecond. -/
def firstProof (policy : SafetyPolicy) (voters : List NodeId) (a : NodeId) : PromotionProof :=
  unanimous policy voters a ⟨0⟩ (receiptBy policy a ⟨1⟩ none .Bootstrap 0) 0

def firstGrant (policy : SafetyPolicy) (voters : List NodeId) (a : NodeId) : ValidatedPromotion :=
  capabilityOf (firstProof policy voters a) .Bootstrap

/-- The takeover of `b` after the authority of `a` has expired. -/
def nextProof (policy : SafetyPolicy) (voters : List NodeId) (a b : NodeId) (now_ms : UInt64) :
    PromotionProof :=
  unanimous policy voters b ⟨0⟩ (receiptBy policy b ⟨2⟩ (some a) .EffectGateExpired now_ms) now_ms

def nextGrant (policy : SafetyPolicy) (voters : List NodeId) (a b : NodeId) (now_ms : UInt64) :
    ValidatedPromotion :=
  capabilityOf (nextProof policy voters a b now_ms) .EffectGateExpiry

theorem firstProof_accepted (hvoters : voters.Nodup ∧ voters.toFinset = policy.voters)
    (ha : a ∈ policy.candidates) :
    validate_promotion (firstProof policy voters a) .initial policy 0 =
      .ok (firstGrant policy voters a) := by
  refine validate_promotion.spec.mpr ⟨.Bootstrap, ?_, rfl⟩
  refine unanimous_acceptable hvoters ha ?_ ?_ rfl (fresh_now 0 _)
    (by decide : (0 : UInt64) < 1) (.bootstrap rfl rfl rfl rfl) (le_refl _)
  · simp [AuthorityState.initial]
  · show (⟨0⟩ : Epoch) < ⟨1⟩
    decide

theorem nextProof_accepted (hvoters : voters.Nodup ∧ voters.toFinset = policy.voters)
    (hb : b ∈ policy.candidates) (hne : a ≠ b) (hallow : policy.allow_gate_expiry_fence = true)
    (hnow : ms now_ms = 1 + ms policy.lease_guard_ms) (hend : now_ms < u64_max) :
    validate_promotion (nextProof policy voters a b now_ms)
      (firstGrant prior prior_voters a).authority policy now_ms =
        .ok (nextGrant policy voters a b now_ms) := by
  have hsafe : ms (firstGrant prior prior_voters a).expires_at_ms + ms policy.lease_guard_ms ≤
      ms now_ms := le_of_eq hnow.symm
  refine validate_promotion.spec.mpr ⟨.EffectGateExpiry, ?_, rfl⟩
  refine unanimous_acceptable hvoters hb ?_ ?_ rfl (fresh_now now_ms _) hend
    (.expiry rfl rfl rfl hallow rfl hsafe) hsafe
  · intro heq
    exact hne (Option.some_inj.mp heq)
  · show (⟨1⟩ : Epoch) < ⟨2⟩
    decide

/-- `a` has authority under `prior` and an effect, and `b` takes over under `policy` at
`now_ms` and has one. -/
def handoverEvents (prior policy : SafetyPolicy) (prior_voters voters : List NodeId) (a b : NodeId)
    (now_ms : UInt64) : List DeploymentEvent :=
  termEvents (firstProof prior prior_voters a) (firstGrant prior prior_voters a) 0 ++
    .advanced now_ms ::
      termEvents (nextProof policy voters a b now_ms) (nextGrant policy voters a b now_ms) now_ms

/-- `a` has authority and an effect, and `b` takes over at `now_ms` and has one. -/
def takeoverEvents (policy : SafetyPolicy) (voters : List NodeId) (a b : NodeId)
    (now_ms : UInt64) : List DeploymentEvent :=
  termEvents (firstProof policy voters a) (firstGrant policy voters a) 0 ++ .advanced now_ms ::
    termEvents (nextProof policy voters a b now_ms) (nextGrant policy voters a b now_ms) now_ms

/-- The policy of the first holder and the one of the next holder may differ. -/
theorem handover_run (prior policy : SafetyPolicy) (lag : UInt64)
    (hprior : prior_voters.Nodup ∧ prior_voters.toFinset = prior.voters)
    (hvoters : voters.Nodup ∧ voters.toFinset = policy.voters)
    (ha : a ∈ prior.candidates) (hb : b ∈ policy.candidates) (hne : a ≠ b)
    (hallow : policy.allow_gate_expiry_fence = true)
    (hnow : ms now_ms = 1 + ms policy.lease_guard_ms) (hend : now_ms < u64_max) :
    ∃ d₁ d, DeploymentRun prior lag (.begin 0 fun _ => .empty)
        (termEvents (firstProof prior prior_voters a) (firstGrant prior prior_voters a) 0) d₁ ∧
      DeploymentRun policy lag d₁ (.advanced now_ms ::
        termEvents (nextProof policy voters a b now_ms) (nextGrant policy voters a b now_ms)
          now_ms) d ∧
      d.now_ms = now_ms ∧
      ∃ g, (d.sites a).gate = some g ∧ g.state = .Open a ⟨1⟩ 1 ∧ g.last_observed_ms = 0 := by
  have hlag : ∀ t, ms t ≤ ms t + ms lag := by
    intro t
    have hnonneg := ms_nonneg lag
    omega
  have hlease : now_ms < now_ms + 1 := by
    rw [← ms_lt, ms_succ hend]
    omega
  have hfirst : (⟨0⟩ : Epoch) < ⟨1⟩ := by decide
  have hnext : (⟨0⟩ : Epoch) < ⟨2⟩ := by decide
  have hsecond : (0 : UInt64) < 0 + 1 := by decide
  obtain ⟨d₁, hrun₁, hin₁⟩ := term_run (d := .begin 0 fun _ => .empty)
    (firstProof_accepted hprior ha) hfirst (UInt64.le_refl 0) (UInt64.le_refl 0) hsecond (hlag 0)
  have hother : d₁.sites b = ⟨.empty, none⟩ := hin₁.others b hne.symm
  have hadvance : DeploymentStep policy lag d₁ (.advanced now_ms) { d₁ with now_ms } := by
    refine .advanced now_ms ?_
    rw [hin₁.now_ms]
    exact UInt64.zero_le
  have hval : validate_promotion (nextProof policy voters a b now_ms) d₁.current policy now_ms =
      .ok (nextGrant policy voters a b now_ms) := by
    rw [hin₁.current]
    exact nextProof_accepted hvoters hb hne hallow hnow hend
  obtain ⟨d₂, hrun₂, hin₂⟩ := term_run (d := { d₁ with now_ms })
    (t := now_ms) hval (by show (d₁.sites b).store.accepted_epoch < _; rw [hother]; exact hnext)
    (by show (d₁.sites b).store.last_observed_ms ≤ _; rw [hother]; exact UInt64.zero_le)
    (UInt64.le_refl _) hlease (hlag now_ms)
  refine ⟨d₁, d₂, hrun₁, (Run.nil.snoc hadvance).append hrun₂, hin₂.now_ms, ?_⟩
  rw [hin₂.others a hne]
  exact hin₁.gate

theorem takeover_run (policy : SafetyPolicy) (lag : UInt64)
    (hvoters : voters.Nodup ∧ voters.toFinset = policy.voters)
    (ha : a ∈ policy.candidates) (hb : b ∈ policy.candidates) (hne : a ≠ b)
    (hallow : policy.allow_gate_expiry_fence = true)
    (hnow : ms now_ms = 1 + ms policy.lease_guard_ms) (hend : now_ms < u64_max) :
    ∃ d, DeploymentRun policy lag (.begin 0 fun _ => .empty)
      (takeoverEvents policy voters a b now_ms) d ∧ d.now_ms = now_ms ∧
      ∃ g, (d.sites a).gate = some g ∧ g.state = .Open a ⟨1⟩ 1 ∧ g.last_observed_ms = 0 := by
  obtain ⟨d₁, d, hfirst, hnext, hrest⟩ :=
    handover_run policy policy lag hvoters hvoters ha hb hne hallow hnow hend
  exact ⟨d, hfirst.append hnext, hrest⟩

/-- No receipt of these handovers is of a hard fence. -/
theorem fencesStop_of_takeover {es : List DeploymentEvent}
    (hes : ∀ proof v, .evaluated proof (.ok v) ∈ es →
      .evaluated proof (.ok v) ∈ handoverEvents prior policy prior_voters voters a b now_ms) :
    FencesStop es := by
  intro before proof v after target t holder epoch hsplit hhard
  exfalso
  have hmem := hes proof v (by simp [hsplit])
  simp [handoverEvents, termEvents, opening, effect] at hmem
  rcases hmem with ⟨rfl, _⟩ | ⟨rfl, _⟩ <;> rcases hhard with hm | hm <;> cases hm

/-- At a lag of more than the guard of the policy of the next holder, the gate of the
first holder allows one more effect after the handover. -/
theorem late_effect (hlag : ¬ lag ≤ policy.lease_guard_ms)
    (hallow : policy.allow_gate_expiry_fence = true) (ha : a ∈ prior.candidates)
    (hb : b ∈ policy.candidates) (hne : a ≠ b) (hroom : ms policy.lease_guard_ms + 2 ≤ ms u64_max) :
    ∃ es es' d₁ d, DeploymentRun prior lag (.begin 0 fun _ => .empty) es d₁ ∧
      DeploymentRun policy lag d₁ es' d ∧ FencesStop (es ++ es') ∧
      ¬ terms.InOrder (effects (es ++ es')) := by
  rw [← ms_le] at hlag
  have hguard := ms_nonneg policy.lease_guard_ms
  obtain ⟨now_ms, hnow⟩ := exists_ms (x := 1 + ms policy.lease_guard_ms) (b := u64_max)
    (by omega) (by omega)
  have hend : now_ms < u64_max := by
    rw [← ms_lt]
    omega
  obtain ⟨d₁, d, hfirst, hnext, hd, g, hg, hopen, hobs⟩ := handover_run prior policy lag
    ⟨prior.voters.nodup_toList, prior.voters.toList_toFinset⟩
    ⟨policy.voters.nodup_toList, policy.voters.toList_toFinset⟩ ha hb hne hallow hnow hend
  have hread : ms d.now_ms ≤ ms 0 + ms lag := by
    have h0 := ms_nonneg 0
    rw [hd]
    omega
  have hlate : DeploymentStep policy lag d (effect a 0 a ⟨1⟩) _ :=
    effect_step hg hopen (by rw [hobs]) (by decide) hread
  have hsame : ∀ proof v, .evaluated proof (.ok v) ∈
      handoverEvents prior policy prior.voters.toList policy.voters.toList a b now_ms ++
        [effect a 0 a ⟨1⟩] →
      .evaluated proof (.ok v) ∈
        handoverEvents prior policy prior.voters.toList policy.voters.toList a b now_ms := by
    intro proof v hmem
    rcases List.mem_append.mp hmem with hmem | hmem
    · exact hmem
    · cases List.mem_singleton.mp hmem
  refine ⟨_, _, d₁, _, hfirst, hnext.snoc hlate, ?_, ?_⟩
  · rw [← List.append_assoc]
    exact fencesStop_of_takeover hsame
  · intro horder
    have hpair : terms.InOrder [⟨a, ⟨1⟩⟩, ⟨b, ⟨2⟩⟩, ⟨a, (⟨1⟩ : Epoch)⟩] := horder
    -- The late effect of `a` comes after the one of `b`.
    obtain ⟨_, hlate⟩ := List.pairwise_cons.mp hpair
    rcases (List.pairwise_cons.mp hlate).1 ⟨a, ⟨1⟩⟩ (by simp) with heq | hlt
    · cases heq
    · have hback : (⟨2⟩ : Epoch) < ⟨1⟩ := hlt
      exact absurd hback (by decide)

end takeover

/-! ## The laws -/

/-- While no clock lags by more than the guard, the deployment is an office with one
holder at a time, whatever crashes, recovers and is called in whatever order: the
effects of a run come term by term, and no effect is of an older term than one
before it. -/
theorem deployment_has_one_holder_at_a_time {now_ms : UInt64} {store : NodeId → GateStore}
    {es : List DeploymentEvent} (hrun : DeploymentRun policy lag (.begin now_ms store) es d)
    (hfence : FencesStop es) (hlag : lag ≤ policy.lease_guard_ms) :
    Run terms.Step none (es.filterMap DeploymentEvent.view?) d.office ∧
      terms.InOrder (effects es) := by
  have hoffice := office_run hrun (fun _ => hlag) hfence
  exact ⟨hoffice, terms.inOrder_run hoffice⟩

/-- A handover from node-a to node-b, with clocks that lag by the guard. -/
theorem deployment_has_one_holder_at_a_time_in_takeover :
    ∃ d, Run terms.Step none
      ((takeoverEvents tests.policy [tests.node_a, tests.node_b, tests.witness] tests.node_a
        tests.node_b 101).filterMap DeploymentEvent.view?) (Deployment.office d) ∧
      terms.InOrder [⟨tests.node_a, ⟨1⟩⟩, ⟨tests.node_b, (⟨2⟩ : Epoch)⟩] := by
  have hvoters : [tests.node_a, tests.node_b, tests.witness].Nodup ∧
      [tests.node_a, tests.node_b, tests.witness].toFinset = tests.policy.voters := by decide
  have ha : tests.node_a ∈ tests.policy.candidates := by decide
  have hb : tests.node_b ∈ tests.policy.candidates := by decide
  have hnow : ms 101 = 1 + ms tests.policy.lease_guard_ms := by decide
  obtain ⟨d, hrun, _⟩ := takeover_run tests.policy 100 hvoters ha hb (by decide) rfl hnow
    (by decide)
  exact ⟨d, deployment_has_one_holder_at_a_time hrun
    (fencesStop_of_takeover fun _ _ h => h) (by decide)⟩

/-- The guard of a policy is exactly the lag that its deployments can bear, as long as
hard fences stop their targets: the effects of all such runs come term by term exactly
if no clock lags by more than the guard, or the policy leaves no takeover after the
expiry of a gate, because it does not allow one, has only one candidate, or has a guard
so long that no lease has room after it. -/
theorem lease_guard_is_the_lag_that_is_safe (policy : SafetyPolicy) (lag : UInt64) :
    (∀ now_ms store es d, DeploymentRun policy lag (.begin now_ms store) es d → FencesStop es →
      terms.InOrder (effects es)) ↔ (ExpiryTakeover policy → lag ≤ policy.lease_guard_ms) := by
  constructor
  · rintro hall ⟨hallow, ⟨a, ha, b, hb, hne⟩, hroom⟩
    refine Classical.byContradiction fun hlag => ?_
    obtain ⟨es, es', d₁, d, hrun, hrun', hfence, hnot⟩ := late_effect hlag hallow ha hb hne hroom
    exact hnot (hall _ _ _ d (hrun.append hrun') hfence)
  · intro hguard now_ms store es d hrun hfence
    exact terms.inOrder_run (office_run hrun hguard hfence)

end quorumarc_core

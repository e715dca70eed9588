-- Liveness of a deployment. Whatever happened so far, a candidate that is not the
-- holder can be brought to an effect at once, unless the epochs or the time have run
-- out or its store knows a time after every lease of now; and only then it cannot.
import QuorumArc.Lives

open runs words

namespace quorumarc_core

variable {policy : SafetyPolicy} {lag now_ms : UInt64} {d d' : Deployment} {c : NodeId}
  {es : List DeploymentEvent} {store : NodeId → GateStore} {proof : PromotionProof}
  {v : ValidatedPromotion} {t x : UInt64}

/-! ## A longer lease -/

/-- The proof with a lease until `x`. -/
def PromotionProof.until (proof : PromotionProof) (x : UInt64) : PromotionProof :=
  { proof with
    quorum := { proof.quorum with lease_expires_at_ms := x }
    lease := { proof.lease with expires_at_ms := x } }

/-- An acceptable proof stays acceptable with any lease that is running and bounded. -/
theorem Acceptable.until {current : AuthorityState} {fence_class : FenceClass}
    (h : Acceptable proof current policy now_ms fence_class) (hrun : now_ms < x)
    (hbound : ms x - ms proof.lease.not_before_ms ≤ ms policy.max_lease_duration_ms) :
    Acceptable (proof.until x) current policy now_ms fence_class := by
  obtain ⟨safe, hex, hle⟩ := h.excludes
  have hex' : Excludes (proof.until x) current policy now_ms fence_class safe := by
    cases hex with
    | bootstrap h1 h2 h3 h4 => exact .bootstrap h1 h2 h3 h4
    | power h1 h2 h3 => exact .power h1 h2 h3
    | storage h1 h2 h3 => exact .storage h1 h2 h3
    | expiry h1 h2 h3 h4 h5 h6 => exact .expiry h1 h2 h3 h4 h5 h6
  have hb := h.binds
  have hl := h.leased
  exact { h with
    binds := { hb with lease_expires_at_ms := rfl }
    votes := { h.votes with }
    verifies := { h.verifies with }
    excludes := ⟨safe, hex', hle⟩
    healthy := { h.healthy with }
    leased := { hl with bounded := hbound, running := ms_lt.mpr hrun } }

/-! ## When a term is possible -/

/-- The candidate can be granted a term and have an effect in it at once. -/
structure CanTakeOver (policy : SafetyPolicy) (d : Deployment) (c : NodeId) : Prop where
  configured : c ∈ policy.candidates
  not_holder : d.current.holder ≠ some c
  epoch_left : d.current.epoch < ⟨u64_max⟩
  stored_epoch_left : (d.sites c).store.accepted_epoch < ⟨u64_max⟩
  time_left : d.now_ms < u64_max
  stored_time_left : (d.sites c).store.last_observed_ms < u64_max
  stored_in_lease : ms (d.sites c).store.last_observed_ms <
    ms d.now_ms + ms policy.max_lease_duration_ms

theorem le_u64_max (t : UInt64) : ms t ≤ ms u64_max :=
  ms_le.mpr (UInt64.le_iff_toNat_le.mpr (Nat.le_of_lt_succ t.toNat_lt))

/-- A lease from now on that ends after the given time. -/
theorem lease_end (hnow : now_ms < u64_max) (ht : t < u64_max)
    (hlt : ms t < ms now_ms + ms policy.max_lease_duration_ms) :
    ∃ x, now_ms < x ∧ t < x ∧ ms x - ms now_ms ≤ ms policy.max_lease_duration_ms := by
  have hpos := lease_duration_pos policy
  have h0 := ms_nonneg now_ms
  have hmax := ms_lt.mpr hnow
  have htmax := ms_lt.mpr ht
  obtain ⟨x, hx⟩ := exists_ms (x := max (ms now_ms) (ms t) + 1) (b := u64_max)
    (by omega) (by omega)
  refine ⟨x, ms_lt.mp ?_, ms_lt.mp ?_, ?_⟩ <;> omega

/-- The least epoch that is newer than both. -/
theorem next_epoch {a b : Epoch} (ha : a < ⟨u64_max⟩) (hb : b < ⟨u64_max⟩) :
    ∃ e : Epoch, a < e ∧ b < e ∧ ∀ e' : Epoch, a < e' → b < e' → e ≤ e' := by
  simp only [Epoch.lt_iff, Epoch.le_iff] at *
  have hlt : max a.val.toNat b.val.toNat + 1 < UInt64.size := by
    have hsize : UInt64.size = u64_max.toNat + 1 := rfl
    have hmax : max a.val.toNat b.val.toNat < u64_max.toNat := max_lt ha hb
    omega
  have hval := UInt64.toNat_ofNat_of_lt' hlt
  have hle := le_max_left a.val.toNat b.val.toNat
  have hle' := le_max_right a.val.toNat b.val.toNat
  refine ⟨⟨.ofNat (max a.val.toNat b.val.toNat + 1)⟩, ?_, ?_, ?_⟩
  · simp only [hval]
    omega
  · simp only [hval]
    omega
  · intro e' ha' hb'
    simp only [hval]
    exact max_lt ha' hb'

/-! ## A term that is granted at once -/

theorem holder_unless_initial (h : Regular policy es d) :
    d.current.holder = none → d.current.epoch = ⟨0⟩ := by
  obtain ⟨l, hserial, hcur, _⟩ := h.serial
  obtain ⟨_, hlast, _⟩ := authority_run hserial
  intro hnone
  rcases hh : d.history.getLast? with _ | a
  · rw [List.getLast?_eq_none_iff.mp hh] at hserial
    rw [← hcur]
    generalize hps : ([] : List Promotion) = ps at hserial
    cases hserial with
    | nil => rfl
    | snoc => simp at hps
  · rw [← hcur, hlast a hh] at hnone
    cases hnone

/-- The least term that the authority can grant to the candidate now, with a fence of
the holder, if there is one. -/
theorem grant_exists (h : Regular policy es d) (hcan : CanTakeOver policy d c) :
    ∃ proof v, validate_promotion proof d.current policy d.now_ms = .ok v ∧ v.candidate = c ∧
      v.not_before_ms = d.now_ms ∧ (d.sites c).store.last_observed_ms < v.expires_at_ms ∧
      d.current.epoch < v.epoch ∧ (d.sites c).store.accepted_epoch < v.epoch ∧
      (∀ e, d.current.epoch < e → (d.sites c).store.accepted_epoch < e → v.epoch ≤ e) ∧
      proof.fence.target ≠ some c := by
  obtain ⟨e, hnew, hstored, hleast⟩ := next_epoch hcan.epoch_left hcan.stored_epoch_left
  obtain ⟨x, hrun, hobs, hbound⟩ := lease_end hcan.time_left hcan.stored_time_left
    hcan.stored_in_lease
  have hvoters := And.intro policy.voters.nodup_toList policy.voters.toList_toFinset
  have hfresh := fresh_now d.now_ms policy.max_evidence_age_ms
  -- The fence of the holder, or the bootstrap if there is none.
  obtain ⟨target, mechanism, cls, htarget, hex⟩ : ∃ target mechanism cls, target ≠ some c ∧
      Excludes (unanimous policy policy.voters.toList c ⟨0⟩
        (receiptBy policy c e target mechanism d.now_ms) d.now_ms) d.current policy d.now_ms cls
        (ms d.now_ms) := by
    rcases hh : d.current.holder with _ | holder
    · exact ⟨none, .Bootstrap, _, by simp, .bootstrap hh (holder_unless_initial h hh) rfl rfl⟩
    · refine ⟨some holder, .HardwarePower, _, ?_, .power hh rfl rfl⟩
      rw [← hh]
      exact hcan.not_holder
  have hacc := (unanimous_acceptable hvoters hcan.configured hcan.not_holder hnew rfl hfresh
    hcan.time_left hex (le_refl _)).until hrun hbound
  exact ⟨_, _, validate_promotion.spec.mpr ⟨_, hacc, rfl⟩, rfl, rfl, hobs, hnew, hstored, hleast,
    htarget⟩

/-- Every epoch that was granted is no newer than the authority. -/
theorem granted_le_current (hrun : DeploymentRun policy lag (.begin now_ms store) es d) :
    ∀ proof v, .evaluated proof (.ok v) ∈ es → v.epoch ≤ d.current.epoch := by
  refine hrun.history (fun es d => ∀ proof v, .evaluated proof (.ok v) ∈ es →
    v.epoch ≤ d.current.epoch) ?_ ?_
  · intro proof v hmem
    cases hmem
  · intro es d ev d' _ ih hstep proof v hmem
    rcases List.mem_append.mp hmem with hmem | hmem
    · refine le_trans (ih proof v hmem) ?_
      cases hstep with
      | promoted proof hval =>
        rename_i w
        obtain ⟨hacc, hw⟩ := accepted hval
        rw [hw]
        exact le_of_lt hacc.newer
      | advanced | refused | called | wrote | crashed | restarted => exact le_refl _
    · obtain rfl := List.mem_singleton.mp hmem
      cases hstep with
      | promoted proof hval => exact le_refl _

theorem effect_of_term {node holder : NodeId} {u : UInt64} {epoch : Epoch}
    (h : effect node u holder epoch ∈ termEvents proof v t) :
    node = v.candidate ∧ epoch = v.epoch := by
  simp [termEvents, opening, effect] at h
  exact ⟨h.1, h.2.2.2⟩

/-- The fences go on to stop their targets in a newer term of another node. -/
theorem fencesStop_term (hfence : FencesStop es)
    (hrun : DeploymentRun policy lag (.begin now_ms store) es d) (hnew : d.current.epoch < v.epoch)
    (htarget : proof.fence.target ≠ some v.candidate) :
    FencesStop (es ++ termEvents proof v t) := by
  refine hfence.append ?_ ?_
  · intro before proof' v' after target u holder epoch hes _ ht _ hmem
    have heffect : effect target u holder epoch ∈ termEvents proof v t := by
      rw [hes]
      exact List.mem_append_right _ (List.mem_cons_of_mem _ hmem)
    obtain ⟨hcand, _⟩ := effect_of_term heffect
    have hproof : .evaluated proof' (.ok v') ∈ termEvents proof v t := by
      rw [hes]
      simp
    simp [termEvents, opening, effect] at hproof
    rw [hproof.1, hcand] at ht
    exact htarget ht
  · intro proof' v' target u holder epoch hmem _ _ hlt heffect
    obtain ⟨_, rfl⟩ := effect_of_term heffect
    exact absurd (lt_trans hlt (lt_of_le_of_lt (granted_le_current hrun proof' v' hmem) hnew))
      (lt_irrefl _)

/-! ## What a term says of the state before it -/

theorem canTakeOver_of_granted
    (hval : validate_promotion proof d.current policy d.now_ms = .ok v)
    (hstored : (d.sites v.candidate).store.accepted_epoch < v.epoch)
    (hobs : (d.sites v.candidate).store.last_observed_ms ≤ t) (hend : t < v.expires_at_ms) :
    CanTakeOver policy d v.candidate := by
  obtain ⟨cls, hacc, rfl⟩ := validate_promotion.spec.mp hval
  have hepoch : proof.epoch ≤ ⟨u64_max⟩ := Nat.le_of_lt_succ proof.epoch.val.toNat_lt
  have hobs' := ms_le.mpr hobs
  have hend' : ms t < ms proof.lease.expires_at_ms := ms_lt.mpr hend
  have hmax := le_u64_max proof.lease.expires_at_ms
  obtain ⟨_, _, _, hbound, hstart, hrunning⟩ := hacc.leased
  refine ⟨hacc.configured, hacc.not_holder, lt_of_lt_of_le hacc.newer hepoch,
    lt_of_lt_of_le hstored hepoch, ms_lt.mp ?_, ms_lt.mp ?_, ?_⟩ <;> omega

theorem of_handshake {g g₁ g₂ g₃ : EffectGate} {r r' : GatePersistenceRecord}
    {receipt : ContinuityReceipt} (hstage : GateStep g ⟨.stage t v, .ok (.Record r)⟩ g₁)
    (hconfirm : GateStep g₁ ⟨.confirm_persisted r', .ok .Confirmed⟩ g₂)
    (hactivate : GateStep g₂ ⟨.activate t, .ok (.Receipt receipt)⟩ g₃) :
    g.last_observed_ms ≤ t ∧ (g.Pending v ∨ g.state.last_epoch < v.epoch) ∧
      t < v.expires_at_ms := by
  have hpending : g₁.Pending v := hstage.outcome.of_stage.1
  have hstaged : g.last_observed_ms ≤ t ∧ (g.Pending v ∨ g.state.last_epoch < v.epoch) := by
    have ho := hstage.outcome
    generalize ha : (.ok (.Record r) : Answer) = a at ho
    cases ho with
    | staged hle _ _ hlt => exact ⟨hle, Or.inr hlt⟩
    | restaged hle _ hp => exact ⟨hle, Or.inl hp⟩
    | rolled_back | refused => cases ha
  refine ⟨hstaged.1, hstaged.2, ?_⟩
  -- What is confirmed is what was staged, and what is activated is what was confirmed.
  have hprepared : g₂.state = .Prepared v := by
    have ho := hconfirm.outcome
    cases ho with
    | confirmed hs =>
      obtain rfl := hpending.unique (Or.inl hs)
      rfl
  have ho := hactivate.outcome
  generalize ha : (.ok (.Receipt receipt) : Answer) = a at ho
  cases ho with
  | activated _ hs _ hend =>
    rw [hprepared] at hs
    cases hs
    exact hend
  | rolled_back | refused | missed => cases ha

/-- The restart reads the store, and the handshake succeeds only from there. -/
theorem canTakeOver_of_term (hrun : DeploymentRun policy lag d (termEvents proof v t) d') :
    CanTakeOver policy d v.candidate := by
  simp only [termEvents, opening, List.cons_append, List.nil_append] at hrun
  obtain ⟨d₁, hrestart, hrun⟩ := hrun.first
  obtain ⟨d₂, hgrant, hrun⟩ := hrun.first
  obtain ⟨d₃, hstage, hrun⟩ := hrun.first
  obtain ⟨d₄, hwrote, hrun⟩ := hrun.first
  obtain ⟨d₅, hconfirm, hrun⟩ := hrun.first
  obtain ⟨d₆, hactivate, _⟩ := hrun.first
  cases hrestart
  cases hgrant with
  | promoted _ hval =>
  cases hstage with
  | called _ _ hg hstage =>
  cases hwrote
  cases hconfirm with
  | called _ _ hg₁ hconfirm =>
  cases hactivate with
  | called _ _ hg₂ hactivate =>
  simp only [Deployment.put_self, Option.some_inj] at hg hg₁ hg₂
  subst hg hg₁ hg₂
  obtain ⟨hobs, hnewer, hend⟩ := of_handshake hstage hconfirm hactivate
  have hstored : (d.sites v.candidate).store.accepted_epoch < v.epoch := by
    rcases hnewer with (hs | hs) | hlt
    · cases hs
    · cases hs
    · exact hlt
  exact canTakeOver_of_granted hval hstored hobs hend

/-! ## The law -/

/-- From every reachable state of a deployment whose fences stop their targets a node
can be granted a term and have an effect in it at once exactly if it is a candidate
other than the holder, epochs and time are left, and its store knows no time after
every lease of now. Such a term can take the least epoch that is newer than the
authority and the store, and its fence stops its target like the ones before. -/
theorem takeover_is_possible_exactly_when (hrun : DeploymentRun policy lag (.begin now_ms store) es d)
    (hfence : FencesStop es) (c : NodeId) :
    ((∃ proof v t d', v.candidate = c ∧ DeploymentRun policy lag d (termEvents proof v t) d') ↔
      CanTakeOver policy d c) ∧
    (CanTakeOver policy d c → ∃ proof v t d', v.candidate = c ∧
      DeploymentRun policy lag d (termEvents proof v t) d' ∧ InTerm d v t d' ∧
      FencesStop (es ++ termEvents proof v t) ∧
      ∀ e, d.current.epoch < e → (d.sites c).store.accepted_epoch < e → v.epoch ≤ e) := by
  have hforward : CanTakeOver policy d c → ∃ proof v t d', v.candidate = c ∧
      DeploymentRun policy lag d (termEvents proof v t) d' ∧ InTerm d v t d' ∧
      FencesStop (es ++ termEvents proof v t) ∧
      ∀ e, d.current.epoch < e → (d.sites c).store.accepted_epoch < e → v.epoch ≤ e := by
    intro hcan
    obtain ⟨proof, v, hval, rfl, hstart, hend, hnew, hstored, hleast, htarget⟩ :=
      grant_exists (regular_run hrun) hcan
    -- The gate of the candidate reads the time of the authority, or that of the store if later.
    obtain ⟨t, hobs, hnow, ht⟩ : ∃ t, (d.sites v.candidate).store.last_observed_ms ≤ t ∧
        d.now_ms ≤ t ∧ t < v.expires_at_ms := by
      by_cases hle : (d.sites v.candidate).store.last_observed_ms ≤ d.now_ms
      · exact ⟨d.now_ms, hle, UInt64.le_refl _, (lease_running hval).2⟩
      · exact ⟨_, UInt64.le_refl _, UInt64.le_of_lt (UInt64.not_le.mp hle), hend⟩
    have hlag : ms d.now_ms ≤ ms t + ms lag :=
      le_trans (ms_le.mpr hnow) (le_add_of_nonneg_right (ms_nonneg lag))
    obtain ⟨d', hterm, hin⟩ := term_run hval hstored hobs (by rw [hstart]; exact hnow) ht hlag
    exact ⟨proof, v, t, d', rfl, hterm, hin, fencesStop_term hfence hrun hnew htarget, hleast⟩
  refine ⟨⟨?_, ?_⟩, hforward⟩
  · rintro ⟨proof, v, t, d', rfl, hterm⟩
    exact canTakeOver_of_term hterm
  · intro hcan
    obtain ⟨proof, v, t, d', hcand, hterm, _⟩ := hforward hcan
    exact ⟨proof, v, t, d', hcand, hterm⟩

/-- In a term of node-a, node-b can take over, and node-a cannot. -/
theorem takeover_is_possible_for_node_b : ∃ d,
    (∃ proof v t d', v.candidate = tests.node_b ∧
      DeploymentRun tests.policy 0 d (termEvents proof v t) d') ∧
    ¬ ∃ proof v t d', v.candidate = tests.node_a ∧
      DeploymentRun tests.policy 0 d (termEvents proof v t) d' := by
  obtain ⟨d, hrun, hin⟩ := tests.term_at_10000 (d := .begin 10000 fun _ => .empty)
    (v := tests.capability) rfl rfl rfl tests.proof_accepted (by decide) (by decide)
  have hfence : FencesStop (termEvents (tests.proof tests.node_a ⟨1⟩) tests.capability 10000) := by
    intro before proof v after target u holder epoch hes hhard _ _ _
    have hmem : .evaluated proof (.ok v) ∈
        termEvents (tests.proof tests.node_a ⟨1⟩) tests.capability 10000 := by
      rw [hes]
      simp
    simp [termEvents, opening, effect] at hmem
    rw [hmem.1] at hhard
    rcases hhard with hm | hm <;> cases hm
  have hb : d.sites tests.node_b = ⟨.empty, none⟩ := hin.others tests.node_b (by decide)
  have hnow : d.now_ms = 10000 := hin.now_ms
  have hcur : d.current = tests.capability.authority := hin.current
  refine ⟨d, (takeover_is_possible_exactly_when hrun hfence tests.node_b).1.mpr ?_, ?_⟩
  · refine ⟨by decide, ?_, ?_, ?_, ?_, ?_, ?_⟩
    · rw [hcur]
      decide
    · rw [hcur]
      decide
    · rw [hb]
      decide
    · rw [hnow]
      decide
    · rw [hb]
      decide
    · rw [hb, hnow]
      decide
  · rw [(takeover_is_possible_exactly_when hrun hfence tests.node_a).1]
    intro hcan
    have hne := hcan.not_holder
    rw [hcur] at hne
    exact hne rfl

end quorumarc_core

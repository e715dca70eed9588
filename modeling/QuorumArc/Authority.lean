-- Serial authority histories. Each accepted promotion replaces the authority
-- that the next proof is checked against, so consecutive leases are related
-- only by what that state and the proof say.
import Mathlib.Data.List.Chain
import QuorumArc.Runs
import QuorumArc.Satisfiable

open runs

namespace quorumarc_core

/-! ## Accepted promotions, one after another -/

def ValidatedPromotion.authority (v : ValidatedPromotion) : AuthorityState where
  epoch := v.epoch
  holder := some v.candidate
  lease_expires_at_ms := some v.expires_at_ms

/-- An accepted promotion: its proof, the time of its evaluation and its capability. -/
structure Promotion where
  proof : PromotionProof
  now_ms : UInt64
  capability : ValidatedPromotion

/-- The serial authority and the time of the last evaluation. -/
structure Ledger where
  current : AuthorityState
  now_ms : UInt64

def Ledger.initial : Ledger where
  current := .initial
  now_ms := 0

/-- A promotion is accepted against the current authority, no earlier than the
one before it, and replaces that authority. -/
def Promotes (policy : SafetyPolicy) (l : Ledger) (p : Promotion) (l' : Ledger) : Prop :=
  validate_promotion p.proof l.current policy p.now_ms = .ok p.capability ∧
    l.now_ms ≤ p.now_ms ∧ l' = ⟨p.capability.authority, p.now_ms⟩

abbrev AuthorityRun (policy : SafetyPolicy) := Run (Promotes policy) .initial

def Follows (policy : SafetyPolicy) (a b : Promotion) : Prop :=
  validate_promotion b.proof a.capability.authority policy b.now_ms = .ok b.capability ∧
    a.now_ms ≤ b.now_ms

variable {policy : SafetyPolicy} {ps : List Promotion} {l : Ledger} {a b : Promotion}

/-- The lease of an accepted promotion is running when it is evaluated. -/
theorem lease_running {proof : PromotionProof} {current : AuthorityState} {now_ms : UInt64}
    {v : ValidatedPromotion} (h : validate_promotion proof current policy now_ms = .ok v) :
    v.not_before_ms ≤ now_ms ∧ now_ms < v.expires_at_ms := by
  obtain ⟨hacc, hv⟩ := accepted h
  rw [hv]
  exact ⟨ms_le.mp hacc.leased.started, ms_lt.mp hacc.leased.running⟩

/-- A history is a chain of promotions that follow each other, its ledger holds
the authority of the last one, and every lease in it ran at its evaluation. -/
theorem authority_run (hrun : AuthorityRun policy ps l) :
    ps.IsChain (Follows policy) ∧
    (∀ a, ps.getLast? = some a → l = ⟨a.capability.authority, a.now_ms⟩) ∧
    ∀ a ∈ ps, a.capability.not_before_ms ≤ a.now_ms ∧ a.now_ms < a.capability.expires_at_ms := by
  refine hrun.history (fun ps l => ps.IsChain (Follows policy) ∧
    (∀ a, ps.getLast? = some a → l = ⟨a.capability.authority, a.now_ms⟩) ∧
    ∀ a ∈ ps, a.capability.not_before_ms ≤ a.now_ms ∧ a.now_ms < a.capability.expires_at_ms) ?_ ?_
  · simp
  · rintro ps l p l' _ ⟨hchain, hlast, hleases⟩ ⟨hval, hle, rfl⟩
    refine ⟨?_, by simp, ?_⟩
    · refine hchain.append (List.isChain_singleton p) ?_
      intro a ha b hb
      cases hb
      have hl := hlast a ha
      subst hl
      exact ⟨hval, hle⟩
    · intro a ha
      rcases List.mem_append.mp ha with ha | ha
      · exact hleases a ha
      · rw [List.mem_singleton.mp ha]
        exact lease_running hval

/-! ## The receipt of a hard fence -/

/-- The receipt is of a power cut or of a storage reservation. -/
def FenceReceipt.Hard (fence : FenceReceipt) : Prop :=
  fence.mechanism = .HardwarePower ∨ fence.mechanism = .StorageReservation

/-- A hard fence was observed no earlier than the lease that it ends began, and
the new lease begins no earlier either. -/
def FencesReplaced (a b : Promotion) : Prop :=
  (b.proof.fence.Hard → a.capability.not_before_ms ≤ b.proof.fence.observed_at_ms) ∧
    a.capability.not_before_ms ≤ b.capability.not_before_ms

/-- The receipt of a hard fence passes the freshness check also with the time
since the replaced lease began as its age limit. -/
def FreshUnderReplaced (a b : Promotion) : Prop :=
  b.proof.fence.Hard →
    validate_fresh b.proof.fence.observed_at_ms b.now_ms
      (b.now_ms - a.capability.not_before_ms) = .ok ()

/-- The new lease starts no earlier than the hard fence, or than the end of the
replaced lease. -/
theorem lease_after_fence (h : Follows policy a b) :
    b.proof.fence.Hard ∧ b.proof.fence.observed_at_ms ≤ b.capability.not_before_ms ∨
      ¬ b.proof.fence.Hard ∧ a.capability.expires_at_ms ≤ b.capability.not_before_ms := by
  obtain ⟨hacc, hv⟩ := accepted h.1
  obtain ⟨safe, hex, hle⟩ := hacc.excludes
  rw [hv]
  unfold FenceReceipt.Hard
  generalize b.capability.fence_class = cls at hex
  cases hex with
  | bootstrap hh => cases hh
  | power _ _ hm => exact Or.inl ⟨Or.inl hm, ms_le.mp hle⟩
  | storage _ _ hm => exact Or.inl ⟨Or.inr hm, ms_le.mp hle⟩
  | expiry _ _ hm _ hx =>
    cases hx
    refine Or.inr ⟨by simp [hm], ms_le.mp ?_⟩
    have hguard := ms_nonneg policy.lease_guard_ms
    have hle : ms a.capability.expires_at_ms + ms policy.lease_guard_ms ≤
      ms b.proof.lease.not_before_ms := hle
    show ms a.capability.expires_at_ms ≤ ms b.proof.lease.not_before_ms
    omega

/-- A promotion whose hard fence was observed since the replaced lease began does not begin
before that lease, and one without a hard fence does not anyway. -/
theorem fencesReplaced_of_follows (h : Follows policy a b)
    (ha : a.capability.not_before_ms ≤ a.now_ms ∧ a.now_ms < a.capability.expires_at_ms)
    (hfence : b.proof.fence.Hard → a.capability.not_before_ms ≤ b.proof.fence.observed_at_ms) :
    FencesReplaced a b := by
  refine ⟨hfence, ?_⟩
  rcases lease_after_fence h with ⟨hhard, hle⟩ | ⟨_, hle⟩
  · exact UInt64.le_trans (hfence hhard) hle
  · have hlt := UInt64.lt_of_le_of_lt ha.1 ha.2
    exact UInt64.le_trans (UInt64.le_of_lt hlt) hle

/-- An age limit of the time since `start` admits what was observed since `start`. -/
theorem fresh_since_iff {start observed now : UInt64} (hs : start ≤ now) (ho : observed ≤ now) :
    validate_fresh observed now (now - start) = .ok () ↔ start ≤ observed := by
  have hsub := UInt64.toNat_sub_of_le now start hs
  rw [UInt64.le_iff_toNat_le] at hs ho
  rw [validate_fresh.spec, UInt64.le_iff_toNat_le]
  unfold Fresh ms
  omega

theorem fencesReplaced_iff (h : Follows policy a b)
    (ha : a.capability.not_before_ms ≤ a.now_ms ∧ a.now_ms < a.capability.expires_at_ms) :
    FencesReplaced a b ↔ FreshUnderReplaced a b := by
  have hacc := (accepted h.1).1
  have hstart := UInt64.le_trans ha.1 h.2
  have hiff := fresh_since_iff hstart (ms_le.mp hacc.fence_fresh.2)
  constructor
  · intro hf hhard
    exact hiff.mpr (hf.1 hhard)
  · intro hf
    exact fencesReplaced_of_follows h ha fun hhard => hiff.mp (hf hhard)

theorem fencesReplaced_chain_iff (hrun : AuthorityRun policy ps l) :
    ps.IsChain FencesReplaced ↔ ps.IsChain FreshUnderReplaced := by
  obtain ⟨hchain, _, hleases⟩ := authority_run hrun
  have hstep : ∀ ⦃a b : Promotion⦄ ⦃l₁ l₂⦄, ps = l₁ ++ a :: b :: l₂ →
      (FencesReplaced a b ↔ FreshUnderReplaced a b) := by
    intro a b l₁ l₂ hps
    have hf := List.isChain_iff_forall_rel_of_append_cons_cons.mp hchain hps
    exact fencesReplaced_iff hf (hleases a (by simp [hps]))
  simp only [List.isChain_iff_forall_rel_of_append_cons_cons]
  constructor
  · intro h a b l₁ l₂ hps
    exact (hstep hps).mp (h hps)
  · intro h a b l₁ l₂ hps
    exact (hstep hps).mpr (h hps)

/-! ## When the age limit is enough -/

/-- At this time the age limit alone keeps out what was observed before the lease began. -/
def Settled (policy : SafetyPolicy) (a : Promotion) (now_ms : UInt64) : Prop :=
  a.capability.not_before_ms = 0 ∨
    ms a.capability.not_before_ms + ms policy.max_evidence_age_ms ≤ ms now_ms

/-- There is an epoch, a lease end and a candidate left for a next promotion. -/
def Replaceable (policy : SafetyPolicy) (a : Promotion) (now_ms : UInt64) : Prop :=
  (∃ epoch, a.capability.epoch < epoch) ∧ (∃ end_ms, now_ms < end_ms) ∧
    ∃ candidate ∈ policy.candidates, candidate ≠ a.capability.candidate

/-- The proof of a candidate that every voter votes for, with a power cut of the
holder `target` that was observed at `observed_at_ms`. -/
def powerCut (policy : SafetyPolicy) (voters : List NodeId) (target candidate : NodeId)
    (epoch : Epoch) (observed_at_ms now_ms : UInt64) : PromotionProof where
  workload := policy.workload
  candidate := candidate
  candidate_incarnation := ⟨0⟩
  epoch := epoch
  policy_hash := policy.policy_hash
  quorum :=
    { epoch, workload := policy.workload, candidate, candidate_incarnation := ⟨0⟩
      policy_hash := policy.policy_hash, required_commit := ⟨0⟩
      state_root := ⟨Vector.replicate 32 1⟩, lease_not_before_ms := now_ms
      lease_expires_at_ms := now_ms + 1, voters }
  fence :=
    { epoch, target := some target, verifier := policy.required_witness.getD candidate
      mechanism := .HardwarePower, observed_at_ms }
  state :=
    { required_commit := ⟨0⟩, durable_commit := ⟨0⟩, state_root := ⟨Vector.replicate 32 1⟩
      observed_at_ms := now_ms }
  health :=
    { workload := policy.workload, node := candidate, incarnation := ⟨0⟩, epoch, healthy := true
      passed_checks := policy.min_health_checks, observed_at_ms := now_ms }
  lease :=
    { workload := policy.workload, holder := candidate, incarnation := ⟨0⟩, epoch
      not_before_ms := now_ms, expires_at_ms := now_ms + 1 }

theorem powerCut_acceptable {voters : List NodeId} {current : AuthorityState}
    {target candidate : NodeId} {epoch : Epoch} {observed_at_ms now_ms end_ms : UInt64}
    (hvoters : voters.Nodup ∧ voters.toFinset = policy.voters)
    (hholder : current.holder = some target) (hepoch : current.epoch < epoch) (hend : now_ms < end_ms)
    (hcand : candidate ∈ policy.candidates) (hother : candidate ≠ target)
    (hfresh : Fresh observed_at_ms now_ms policy.max_evidence_age_ms) :
    Acceptable (powerCut policy voters target candidate epoch observed_at_ms now_ms) current policy
      now_ms .HardwarePower := by
  exact unanimous_after_power_cut hvoters hcand hholder hother hepoch hend hfresh

/-- Any next promotion shows that the one before it can be replaced. -/
theorem replaceable_of_accepted {proof : PromotionProof} {v : ValidatedPromotion} {now_ms : UInt64}
    (hval : validate_promotion proof a.capability.authority policy now_ms = .ok v) :
    Replaceable policy a now_ms := by
  obtain ⟨hacc, _⟩ := accepted hval
  refine ⟨⟨proof.epoch, hacc.newer⟩, ⟨proof.lease.expires_at_ms, ms_lt.mp hacc.leased.running⟩,
    proof.candidate, hacc.configured, ?_⟩
  intro heq
  exact hacc.not_holder (congrArg some heq.symm)

/-- Before the settling time a power cut of the millisecond before the lease is accepted. -/
theorem early_cut_of_not_settled {now_ms : UInt64} (hstart : a.capability.not_before_ms ≤ now_ms)
    (hrep : Replaceable policy a now_ms) (hnot : ¬ Settled policy a now_ms) :
    ∃ proof v, validate_promotion proof a.capability.authority policy now_ms = .ok v ∧
      proof.fence.Hard ∧ ms proof.fence.observed_at_ms < ms a.capability.not_before_ms := by
  obtain ⟨⟨epoch, hepoch⟩, ⟨end_ms, hend⟩, candidate, hcand, hother⟩ := hrep
  obtain ⟨hne, hearly⟩ := not_or.mp hnot
  have hpos : ms a.capability.not_before_ms ≠ 0 := by
    intro h0
    exact hne (ms_inj.mp h0)
  have hnb := ms_nonneg a.capability.not_before_ms
  have hle := ms_le.mpr hstart
  obtain ⟨observed, hobs⟩ := exists_ms (x := ms a.capability.not_before_ms - 1)
    (b := a.capability.not_before_ms) (by omega) (by omega)
  have hfresh : Fresh observed now_ms policy.max_evidence_age_ms := by
    unfold Fresh
    omega
  have hacc : Acceptable (powerCut policy policy.voters.toList a.capability.candidate candidate
      epoch observed now_ms) a.capability.authority policy now_ms .HardwarePower :=
    powerCut_acceptable ⟨Finset.nodup_toList _, Finset.toList_toFinset _⟩ rfl hepoch hend hcand
      hother hfresh
  refine ⟨_, _, validate_promotion.spec.mpr ⟨_, hacc, rfl⟩, Or.inl rfl, ?_⟩
  show ms observed < ms a.capability.not_before_ms
  omega

/-- At a settled time every receipt that is young enough is of the lease or later. -/
theorem observed_since_of_settled {proof : PromotionProof} {current : AuthorityState}
    {v : ValidatedPromotion} {now_ms : UInt64} (hsettled : Settled policy a now_ms)
    (hval : validate_promotion proof current policy now_ms = .ok v) :
    a.capability.not_before_ms ≤ proof.fence.observed_at_ms := by
  rcases hsettled with h0 | hage
  · rw [h0]
    exact UInt64.zero_le
  · have hfresh := (accepted hval).1.fence_fresh.1
    rw [← ms_le]
    omega

/-- While a promotion can be replaced, the age limit of the policy sees to it that its
lease is covered from the settling time on, and not before. -/
theorem settled_iff {now_ms : UInt64} (hnow : a.now_ms ≤ now_ms)
    (ha : a.capability.not_before_ms ≤ a.now_ms ∧ a.now_ms < a.capability.expires_at_ms) :
    (∀ proof v, validate_promotion proof a.capability.authority policy now_ms = .ok v →
      FencesReplaced a ⟨proof, now_ms, v⟩) ↔
      (Replaceable policy a now_ms → Settled policy a now_ms) := by
  constructor
  · intro hall hrep
    refine Classical.byContradiction fun hnot => ?_
    obtain ⟨proof, v, hval, hhard, hlt⟩ :=
      early_cut_of_not_settled (UInt64.le_trans ha.1 hnow) hrep hnot
    have hle : a.capability.not_before_ms ≤ proof.fence.observed_at_ms :=
      (hall proof v hval).1 hhard
    rw [← ms_le] at hle
    omega
  · intro h proof v hval
    refine fencesReplaced_of_follows (b := ⟨proof, now_ms, v⟩) ⟨hval, hnow⟩ ha ?_
    intro _
    exact observed_since_of_settled (h (replaceable_of_accepted hval)) hval

/-- A handover by a hard fence is made at a time at which the replaced lease is settled. -/
def HandedOverSettled (policy : SafetyPolicy) (a b : Promotion) : Prop :=
  b.proof.fence.Hard → Settled policy a b.now_ms

theorem fencesReplaced_of_settled (hrun : AuthorityRun policy ps l)
    (hsettled : ps.IsChain (HandedOverSettled policy)) : ps.IsChain FencesReplaced := by
  obtain ⟨hchain, _, hleases⟩ := authority_run hrun
  rw [List.isChain_iff_forall_rel_of_append_cons_cons] at hsettled ⊢
  intro a b before after hps
  have hfollows := List.isChain_iff_forall_rel_of_append_cons_cons.mp hchain hps
  refine fencesReplaced_of_follows hfollows (hleases a (by simp [hps])) ?_
  intro hhard
  exact observed_since_of_settled (hsettled hps hhard) hfollows.1

/-! ## The law -/

/-- Hard fences cover the leases that they end, and lease starts go forward, through
every history in which the replaced lease is settled at each handover by a hard fence.
At a time at which the lease is not settled and the holder can be replaced, the
validator also accepts a proof that breaks this. Of one history it holds exactly if
every receipt of a hard fence is also fresh under the lease it ends. -/
theorem hard_fences_cover_replaced_leases_iff (hrun : AuthorityRun policy ps l) :
    (ps.IsChain (HandedOverSettled policy) → ps.IsChain FencesReplaced) ∧
    (∀ a, ps.getLast? = some a → ∀ now_ms, l.now_ms ≤ now_ms →
      ((∀ proof v, validate_promotion proof l.current policy now_ms = .ok v →
        FencesReplaced a ⟨proof, now_ms, v⟩) ↔
        (Replaceable policy a now_ms → Settled policy a now_ms))) ∧
    (ps.IsChain FencesReplaced ↔ ps.IsChain FreshUnderReplaced) := by
  refine ⟨fencesReplaced_of_settled hrun, ?_, fencesReplaced_chain_iff hrun⟩
  intro a ha now_ms hle
  obtain ⟨_, hlast, hleases⟩ := authority_run hrun
  have hl := hlast a ha
  subst hl
  exact settled_iff hle (hleases a (List.mem_of_getLast? ha))

namespace tests

/-- The first promotion: node-a, with a lease from 9995 to 10500. -/
def first : Promotion where
  proof := proof node_a ⟨1⟩
  now_ms := 10000
  capability := capabilityOf (proof node_a ⟨1⟩) .Bootstrap

/-- The second: node-b, after a power cut of node-a at the given time. -/
def second (cut_at_ms : UInt64) : Promotion where
  proof := takeover node_a node_b ⟨2⟩ cut_at_ms
  now_ms := 10000
  capability := capabilityOf (takeover node_a node_b ⟨2⟩ cut_at_ms) .HardwarePower

def ledger (cut_at_ms : UInt64) : Ledger := ⟨(second cut_at_ms).capability.authority, 10000⟩

end tests

theorem hard_fences_cover_replaced_leases_at_lease_start :
    [tests.first, tests.second 9995].IsChain FencesReplaced := by
  have h1 : AuthorityRun tests.policy [tests.first] ⟨tests.first.capability.authority, 10000⟩ :=
    Run.nil.snoc ⟨tests.proof_accepted, by decide, rfl⟩
  have h2 : AuthorityRun tests.policy [tests.first, tests.second 9995] (tests.ledger 9995) :=
    h1.snoc ⟨by decide, by decide, rfl⟩
  refine (hard_fences_cover_replaced_leases_iff h2).2.2.mpr ?_
  refine List.isChain_pair.mpr ?_
  intro _
  decide

/-- A power cut that was observed 5 milliseconds before the lease of node-a
began is accepted as the exclusion of node-a, and the lease of node-b starts
before the one it replaces. -/
theorem power_cut_before_the_lease_is_accepted :
    AuthorityRun tests.policy [tests.first, tests.second 9990] (tests.ledger 9990) ∧
    (tests.second 9990).proof.fence.Hard ∧
    (tests.second 9990).proof.fence.observed_at_ms < tests.first.capability.not_before_ms ∧
    (tests.second 9990).capability.not_before_ms < tests.first.capability.not_before_ms ∧
    ¬ [tests.first, tests.second 9990].IsChain FencesReplaced := by
  have h1 : AuthorityRun tests.policy [tests.first] ⟨tests.first.capability.authority, 10000⟩ :=
    Run.nil.snoc ⟨tests.proof_accepted, by decide, rfl⟩
  refine ⟨h1.snoc ⟨by decide, by decide, rfl⟩, Or.inl rfl, by decide, by decide, ?_⟩
  intro hchain
  exact absurd (List.isChain_pair.mp hchain).2 (by decide)

end quorumarc_core

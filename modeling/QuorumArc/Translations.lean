-- Other names and another time. A translation renames the nodes and the digests of
-- policies and moves every time by the same shift, forth or back. The validator gives a
-- translated proof the translated answer, and refuses it for the same reason.
import Mathlib.Data.Finset.Image
import Mathlib.Data.Option.Basic
import QuorumArc.Acceptance

open checks words

namespace quorumarc_core

structure Translation where
  name : Equiv.Perm NodeId
  digest : Equiv.Perm PolicyHash
  shift : ℤ

namespace Translation

variable (T : Translation)

/-! ## Translated evidence -/

/-- The second time is the first one, moved. A time that would leave the word has no
translation. -/
def Time (t t' : UInt64) : Prop := ms t' = ms t + T.shift

instance (t t' : UInt64) : Decidable (T.Time t t') :=
  inferInstanceAs (Decidable (ms t' = ms t + T.shift))

inductive Quorum : QuorumCertificate → QuorumCertificate → Prop
  | mk {q : QuorumCertificate} {not_before expires : UInt64} :
      T.Time q.lease_not_before_ms not_before → T.Time q.lease_expires_at_ms expires →
      Quorum q { q with
        candidate := T.name q.candidate
        policy_hash := T.digest q.policy_hash
        lease_not_before_ms := not_before
        lease_expires_at_ms := expires
        voters := q.voters.map T.name }

inductive Fence : FenceReceipt → FenceReceipt → Prop
  | mk {f : FenceReceipt} {observed : UInt64} : T.Time f.observed_at_ms observed →
      Fence f { f with
        target := f.target.map T.name
        verifier := T.name f.verifier
        observed_at_ms := observed }

inductive Evidence : StateEvidence → StateEvidence → Prop
  | mk {s : StateEvidence} {observed : UInt64} : T.Time s.observed_at_ms observed →
      Evidence s { s with observed_at_ms := observed }

inductive Health : HealthAttestation → HealthAttestation → Prop
  | mk {h : HealthAttestation} {observed : UInt64} : T.Time h.observed_at_ms observed →
      Health h { h with node := T.name h.node, observed_at_ms := observed }

inductive Lease : LeaseGrant → LeaseGrant → Prop
  | mk {l : LeaseGrant} {not_before expires : UInt64} :
      T.Time l.not_before_ms not_before → T.Time l.expires_at_ms expires →
      Lease l { l with
        holder := T.name l.holder, not_before_ms := not_before, expires_at_ms := expires }

inductive Proof : PromotionProof → PromotionProof → Prop
  | mk {p : PromotionProof} {quorum : QuorumCertificate} {fence : FenceReceipt}
      {state : StateEvidence} {health : HealthAttestation} {lease : LeaseGrant} :
      T.Quorum p.quorum quorum → T.Fence p.fence fence → T.Evidence p.state state →
      T.Health p.health health → T.Lease p.lease lease →
      Proof p { p with
        candidate := T.name p.candidate
        policy_hash := T.digest p.policy_hash
        quorum, fence, state, health, lease }

inductive Authority : AuthorityState → AuthorityState → Prop
  | mk {a : AuthorityState} {expires : Option UInt64} :
      Option.Rel T.Time a.lease_expires_at_ms expires →
      Authority a { a with holder := a.holder.map T.name, lease_expires_at_ms := expires }

inductive Capability : ValidatedPromotion → ValidatedPromotion → Prop
  | mk {v : ValidatedPromotion} {not_before expires : UInt64} :
      T.Time v.not_before_ms not_before → T.Time v.expires_at_ms expires →
      Capability v { v with
        candidate := T.name v.candidate
        policy_hash := T.digest v.policy_hash
        not_before_ms := not_before
        expires_at_ms := expires }

@[simp] theorem mem_names {n : NodeId} {nodes : Finset NodeId} :
    T.name n ∈ nodes.map T.name.toEmbedding ↔ n ∈ nodes := by
  simp

theorem any_not_in_names (o : Option NodeId) (nodes : Finset NodeId) :
    (o.map T.name).any (fun n => n ∉ nodes.map T.name.toEmbedding) = o.any fun n => n ∉ nodes := by
  cases o <;> simp

theorem any_in_names (o : Option NodeId) (nodes : Finset NodeId) :
    (o.map T.name).any (fun n => n ∈ nodes.map T.name.toEmbedding) = o.any fun n => n ∈ nodes := by
  cases o <;> simp

/-- The policy about the renamed nodes, with its own digest. Its bounds are durations, and
stay. -/
def policy (p : SafetyPolicy) : SafetyPolicy :=
  { p with
    policy_hash := T.digest p.policy_hash
    candidates := p.candidates.map T.name.toEmbedding
    voters := p.voters.map T.name.toEmbedding
    required_witness := p.required_witness.map T.name
    has_candidate := by simpa using p.has_candidate
    has_voter := by simpa using p.has_voter
    candidates_vote := Finset.map_subset_map.mpr p.candidates_vote
    quorum_fits := by simpa using p.quorum_fits
    quorums_meet := by simpa using p.quorums_meet
    witness_votes := by rw [any_not_in_names]; exact p.witness_votes
    witness_is_no_candidate := by rw [any_in_names]; exact p.witness_is_no_candidate }

/-! ## Times -/

variable {T} {s s' t t' u u' : UInt64}

theorem Time.lt_iff (ht : T.Time t t') (hu : T.Time u u') : t' < u' ↔ t < u := by
  unfold Time at ht hu
  rw [← ms_lt, ← ms_lt]
  omega

theorem Time.le_iff (ht : T.Time t t') (hu : T.Time u u') : t' ≤ u' ↔ t ≤ u := by
  unfold Time at ht hu
  rw [← ms_le, ← ms_le]
  omega

theorem Time.eq_iff (ht : T.Time t t') (hu : T.Time u u') : t' = u' ↔ t = u := by
  unfold Time at ht hu
  rw [← ms_inj, ← ms_inj]
  omega

/-- Differences do not move. -/
theorem Time.sub_eq (ht : T.Time t t') (hu : T.Time u u') :
    u64_checked_sub t' u' = u64_checked_sub t u := by
  unfold Time at ht hu
  apply Option.ext
  intro d
  rw [checked_sub_eq_some, checked_sub_eq_some, ht, hu]
  omega

/-- A sum that leaves the word is after every time. -/
theorem lt_of_overflow (h : u64_checked_add t u = none) : ms s < ms t + ms u := by
  unfold u64_checked_add at h
  have hs := s.toNat_lt_size
  split at h
  · cases h
  · unfold ms
    omega

/-- The wait for a guard is translated. If only one of the two sums leaves the word, the
guard of the other one has not elapsed. -/
theorem Time.guard {now now' guard : UInt64} {cls : FenceClass} (hnow : T.Time now now')
    (ht : T.Time t t') : Agrees (fun a a' => a'.1 = a.1 ∧ T.Time a.2 a'.2)
    (do
      let safe ← ok_or (u64_checked_add t guard) ProofError.FenceGuardNotElapsed
      refuse_if (now < safe) .FenceGuardNotElapsed
      .ok (cls, safe))
    (do
      let safe ← ok_or (u64_checked_add t' guard) ProofError.FenceGuardNotElapsed
      refuse_if (now' < safe) .FenceGuardNotElapsed
      .ok (cls, safe)) := by
  have hwait : ∀ {now t safe : UInt64}, u64_checked_add t guard = some safe →
      (now < safe ↔ ms now < ms t + ms guard) := by
    intro now t safe hadd
    rw [← ms_lt, checked_add_eq_some.mp hadd]
  rcases h : u64_checked_add t guard with _ | safe <;>
    rcases h' : u64_checked_add t' guard with _ | safe' <;> simp only [ok_or, ok_bind, error_bind]
  · exact .error
  · have hlt : now' < safe' := by
      rw [hwait h']
      have hover := lt_of_overflow (s := now) h
      unfold Time at hnow ht
      omega
    rw [refuse_if_pos hlt]
    exact .error
  · have hlt : now < safe := by
      rw [hwait h]
      have hover := lt_of_overflow (s := now') h'
      unfold Time at hnow ht
      omega
    rw [refuse_if_pos hlt]
    exact .error
  · have hsafe : T.Time safe safe' := by
      have h1 := checked_add_eq_some.mp h
      have h2 := checked_add_eq_some.mp h'
      unfold Time at ht ⊢
      omega
    exact .refuse (hnow.lt_iff hsafe) fun _ => .ok ⟨rfl, hsafe⟩

/-! ## The checks -/

variable {p p' : PromotionProof} {a a' : AuthorityState} {now now' : UInt64} {P : SafetyPolicy}

theorem fresh_translated {max_age_ms : UInt64} (ht : T.Time t t') (hnow : T.Time now now') :
    validate_fresh t' now' max_age_ms = validate_fresh t now max_age_ms := by
  unfold validate_fresh
  rw [hnow.sub_eq ht]

theorem collect_voters_translated (configured unique : Finset NodeId) (voters : List NodeId) :
    Agrees (fun s s' => s' = s.map T.name.toEmbedding) (collect_voters configured unique voters)
      (collect_voters (configured.map T.name.toEmbedding) (unique.map T.name.toEmbedding)
        (voters.map T.name)) := by
  induction voters generalizing unique with
  | nil => exact .ok rfl
  | cons voter voters ih =>
    unfold collect_voters
    refine ite_related (not_congr (T.mem_names)) (fun _ => .error) fun _ => ?_
    refine ite_related T.mem_names (fun _ => .error) fun _ => ?_
    have hnext := ih (insert voter unique)
    rw [Finset.map_insert] at hnext
    exact hnext

theorem quorum_translated (hp : T.Proof p p') :
    Agrees (fun s s' => s' = s.map T.name.toEmbedding) (validate_quorum p P)
      (validate_quorum p' (T.policy P)) := by
  obtain ⟨⟨hnb, hex⟩, hfence, hstate, hhealth, hlease⟩ := hp
  unfold validate_quorum
  refine (T.collect_voters_translated P.voters ∅ p.quorum.voters).bind ?_
  rintro s _ rfl
  refine .refuse ?_ fun _ => .refuse ?_ fun _ => .refuse ?_ fun _ => .ok rfl
  · simp [policy]
  · simp
  · rw [policy, any_not_in_names]

theorem name_eq_some {o : Option NodeId} {n : NodeId} :
    o.map T.name = some (T.name n) ↔ o = some n := by
  cases o <;> simp

theorem match_fence_translated (hp : T.Proof p p') (ha : T.Authority a a')
    (hnow : T.Time now now') : Agrees (fun x x' => x'.1 = x.1 ∧ T.Time x.2 x'.2)
      (match_fence p a P now) (match_fence p' a' (T.policy P) now') := by
  obtain ⟨_, ⟨hobserved⟩, _, _, _⟩ := hp
  obtain ⟨hx⟩ := ha
  unfold match_fence
  rcases hh : a.holder with _ | holder <;> rcases hm : p.fence.mechanism
  case none.Bootstrap =>
    refine ite_related ?_ (fun _ => .ok ⟨rfl, hobserved⟩) fun _ => .error
    simp
  case some.Bootstrap | none.HardwarePower | none.StorageReservation | none.EffectGateExpired |
    none.GracefulShutdown => exact .error
  case some.HardwarePower | some.StorageReservation =>
    exact .refuse (not_congr name_eq_some) fun _ => .ok ⟨rfl, hobserved⟩
  case some.GracefulShutdown => exact .refuse (not_congr name_eq_some) fun _ => .error
  case some.EffectGateExpired =>
    refine .refuse (not_congr name_eq_some) fun _ => .refuse Iff.rfl fun _ => ?_
    dsimp only
    generalize a.lease_expires_at_ms = x at hx ⊢
    cases hx with
    | none => exact .error
    | some hx => exact hnow.guard hx

theorem any_other_name (o : Option NodeId) (n : NodeId) :
    (o.map T.name).any (fun m => m ≠ T.name n) = o.any fun m => m ≠ n := by
  cases o <;> simp

theorem fence_translated (quorum : Finset NodeId) (hp : T.Proof p p') (ha : T.Authority a a')
    (hnow : T.Time now now') : Agrees (fun x x' => x'.1 = x.1 ∧ T.Time x.2 x'.2)
      (validate_fence p a P quorum now)
      (validate_fence p' a' (T.policy P) (quorum.map T.name.toEmbedding) now') := by
  have hmatch := T.match_fence_translated (P := P) hp ha hnow
  obtain ⟨_, ⟨hobserved⟩, _, _, _⟩ := hp
  unfold validate_fence
  refine .refuse ?_ fun _ => ?_
  · refine or_congr (not_congr T.mem_names) (or_congr (not_congr T.mem_names) ?_)
    rw [policy, any_other_name]
  · rw [fresh_translated hobserved hnow]
    exact Agrees.of_eq.bind fun _ _ _ => hmatch

theorem health_translated (hp : T.Proof p p') (hnow : T.Time now now') :
    Agrees (· = ·) (validate_health p P now) (validate_health p' (T.policy P) now') := by
  obtain ⟨_, _, _, ⟨hobserved⟩, _⟩ := hp
  unfold validate_health
  refine .refuse ?_ fun _ => ?_
  · simp
  · rw [fresh_translated hobserved hnow]
    exact Agrees.of_eq.bind fun _ _ _ => .refuse Iff.rfl fun _ => agrees_refuse_if Iff.rfl

theorem lease_translated (hp : T.Proof p p') (hsafe : T.Time t t') (hnow : T.Time now now') :
    Agrees (· = ·) (validate_lease p P t now) (validate_lease p' (T.policy P) t' now') := by
  obtain ⟨_, _, _, _, ⟨hnb, hex⟩⟩ := hp
  unfold validate_lease
  refine .refuse ?_ fun _ => ?_
  · simp
  dsimp only
  rw [hex.sub_eq hnb]
  apply Agrees.of_eq.bind
  rintro duration _ rfl
  refine .refuse Iff.rfl fun _ => .refuse Iff.rfl fun _ => ?_
  exact .refuse (hnb.lt_iff hsafe) fun _ =>
    agrees_refuse_if (or_congr (hnow.lt_iff hnb) (hex.le_iff hnow))

/-! ## The law -/

/-- No name, no digest and no absolute time matters to the validator. A proof about other
names, under another digest or from another time is checked as the one it is a translation
of: both are refused for the same reason, or both accepted with a capability that is the
translation. -/
theorem validation_is_translated (hp : T.Proof p p') (ha : T.Authority a a')
    (hnow : T.Time now now') : Agrees T.Capability (validate_promotion p a P now)
      (validate_promotion p' a' (T.policy P) now') := by
  have hquorum := T.quorum_translated (P := P) hp
  have hfence := fun quorum => T.fence_translated (P := P) quorum hp ha hnow
  have hhealth := T.health_translated (P := P) hp hnow
  have hlease := fun safe safe' (hsafe : T.Time safe safe') =>
    T.lease_translated (P := P) hp hsafe hnow
  obtain ⟨⟨hqnb, hqex⟩, ⟨_⟩, ⟨hobserved⟩, ⟨_⟩, ⟨hnb, hex⟩⟩ := hp
  obtain ⟨hx⟩ := ha
  unfold validate_promotion
  refine .refuse Iff.rfl fun _ => .refuse ?_ fun _ => .refuse Iff.rfl fun _ => ?_
  · simp [policy]
  refine .refuse (not_congr T.mem_names) fun _ => .refuse name_eq_some fun _ => ?_
  refine .refuse Iff.rfl fun _ => .refuse ?_ fun _ => ?_
  · simp [hqnb.eq_iff hnb, hqex.eq_iff hex]
  apply hquorum.bind
  rintro quorum _ rfl
  apply (hfence quorum).bind
  rintro ⟨cls, safe⟩ ⟨_, safe'⟩ ⟨rfl, hsafe⟩
  dsimp only at hsafe ⊢
  rw [fresh_translated hobserved hnow]
  apply Agrees.of_eq.bind
  rintro _ _ _
  refine .refuse Iff.rfl fun _ => .refuse Iff.rfl fun _ => ?_
  apply hhealth.bind
  rintro _ _ _
  apply (hlease safe safe' hsafe).bind
  rintro _ _ _
  exact .ok (.mk hnb hex)

end Translation

namespace tests

/-- The two nodes change their names, five seconds later and under the same digests. -/
def exchanged : Translation := ⟨Equiv.swap node_a node_b, Equiv.refl _, 5000⟩

/-- The proof of the unit tests for node-b, five seconds later. -/
def moved_proof : PromotionProof :=
  { proof node_b ⟨1⟩ with
    quorum := { (proof node_b ⟨1⟩).quorum with
      lease_not_before_ms := 14995, lease_expires_at_ms := 15500 }
    fence := { (proof node_b ⟨1⟩).fence with observed_at_ms := 14990 }
    state := { (proof node_b ⟨1⟩).state with observed_at_ms := 14990 }
    health := { (proof node_b ⟨1⟩).health with observed_at_ms := 14990 }
    lease := { (proof node_b ⟨1⟩).lease with not_before_ms := 14995, expires_at_ms := 15500 } }

theorem proof_moved : exchanged.Proof (proof node_a ⟨1⟩) moved_proof := by
  have hnb : exchanged.Time 9995 14995 := by decide
  have hex : exchanged.Time 10500 15500 := by decide
  have hobserved : exchanged.Time 9990 14990 := by decide
  exact .mk (.mk hnb hex) (.mk hobserved) (.mk hobserved) (.mk hobserved) (.mk hnb hex)

end tests

theorem validation_is_translated_for_node_b :
    Agrees tests.exchanged.Capability
      (validate_promotion (tests.proof tests.node_a ⟨1⟩) .initial tests.policy 10000)
      (validate_promotion tests.moved_proof .initial (tests.exchanged.policy tests.policy) 15000) ∧
    validate_promotion (tests.proof tests.node_a ⟨1⟩) .initial tests.policy 10000 =
      .ok (capabilityOf (tests.proof tests.node_a ⟨1⟩) .Bootstrap) := by
  have hnow : tests.exchanged.Time 10000 15000 := by decide
  exact ⟨Translation.validation_is_translated tests.proof_moved (.mk .none) hnow,
    tests.proof_accepted⟩

end quorumarc_core

-- When a promotion is applied in a reachable state of the compact model. The
-- metadata are paced: a handover takes four ticks, except the one handover that
-- the fencing of a holder allows.
import QuorumArc.SimPromotion

open quorumarc_core words runs

namespace quorumarc_sim

/-! ## The invariant of the metadata -/

/-- The epoch against the expiry `x` of the lease of `h`: four ticks for each
epoch, and four more once every other node is fenced. -/
def Paced (s : ModelState) (h : Node) (x : UInt8) : Prop :=
  4 * s.epoch.toNat ≤ x.toNat + 1 ∨
    (∀ n, n ≠ h → (s.node n).fenced = true) ∧ 4 * s.epoch.toNat ≤ x.toNat + 5

structure Sound (s : ModelState) : Prop where
  unheld : s.metadata_holder = none → s.epoch = 0
  leased : ∀ h, s.metadata_holder = some h → ∃ x, s.metadata_lease_expires_at_tick = some x ∧
    x.toNat ≤ s.now_tick.toNat + 3 ∧ Paced s h x
  accepted : ∀ n, (s.node n).accepted_epoch.toNat ≤ s.epoch.toNat
  off : ∀ n, (s.node n).fenced = true → (s.node n).powered = false

variable {s s' : ModelState} {c : Node}

theorem sound_default : Sound .default := by
  refine ⟨fun _ => rfl, ?_, ?_, ?_⟩
  · intro h hh
    cases hh
  · intro n
    cases n <;> exact le_refl _
  · intro n hf
    cases n <;> cases hf

/-- The node has its accepted epoch and its fence, if any, and is off if fenced. -/
structure KeepsFence (m m' : NodeState) : Prop where
  accepted : m'.accepted_epoch = m.accepted_epoch
  fenced : m.fenced = true → m'.fenced = true
  off : m'.fenced = true → m'.powered = false

/-- A change that leaves the metadata alone and unfences no node. -/
theorem sound_of_same (h : Sound s) (hnodes : ∀ n, KeepsFence (s.node n) (s'.node n))
    (hholder : s'.metadata_holder = s.metadata_holder) (hepoch : s'.epoch = s.epoch)
    (hexp : s'.metadata_lease_expires_at_tick = s.metadata_lease_expires_at_tick)
    (hnow : s.now_tick.toNat ≤ s'.now_tick.toNat) : Sound s' := by
  refine ⟨?_, ?_, ?_, fun n => (hnodes n).off⟩
  · rw [hholder, hepoch]
    exact h.unheld
  · intro m hm
    rw [hholder] at hm
    obtain ⟨x, hx, hle, hpaced⟩ := h.leased m hm
    refine ⟨x, hexp.trans hx, by omega, ?_⟩
    unfold Paced
    rw [hepoch]
    rcases hpaced with hp | ⟨hall, hp⟩
    · exact Or.inl hp
    · exact Or.inr ⟨fun n hn => (hnodes n).fenced (hall n hn), hp⟩
  · intro n
    rw [(hnodes n).accepted, hepoch]
    exact h.accepted n

theorem sound_node_mut {n : Node} {f : NodeState → NodeState} (h : Sound s)
    (hf : KeepsFence (s.node n) (f (s.node n))) : Sound (s.node_mut n f) := by
  apply sound_of_same h <;> try simp
  apply ModelState.node_mut_forall
  · exact hf
  · intro m _
    exact ⟨rfl, id, h.off m⟩

theorem Node.eq_of_ne {m n : Node} (hm : m ≠ c) (hn : n ≠ c) : m = n := by
  cases c <;> cases m <;> cases n <;> first | rfl | exact absurd rfl hm | exact absurd rfl hn

/-- A promotion after the guard of the old lease comes four ticks after the
promotion of the old holder, and one after its fencing leaves no other candidate. -/
theorem paced_promoted {e : UInt64} {x : UInt8} (h : Sound s) (hp : Promotable s c e x) :
    Paced (promoted s c e x) c x := by
  have hlease := hp.lease
  have hepoch := hp.next_epoch
  unfold Paced
  rw [promoted_epoch]
  rcases hh : s.metadata_holder with _ | m
  · have hz := congrArg UInt64.toNat (h.unheld hh)
    have h0 : (0 : UInt64).toNat = 0 := rfl
    exact Or.inl (by omega)
  · have hmc : m ≠ c := by
      rintro rfl
      exact hp.not_holder hh
    obtain ⟨y, hy, hle, hpaced⟩ := h.leased m hh
    -- The candidate is not fenced, so the old epoch came in at most four ticks.
    have hslow : 4 * s.epoch.toNat ≤ y.toNat + 1 := by
      rcases hpaced with hslow | ⟨hall, _⟩
      · exact hslow
      · have hf := hall c hmc.symm
        rw [hp.not_fenced] at hf
        cases hf
    rcases hp.excluded m hh with hf | ⟨y', hy', hlate⟩
    · refine Or.inr ⟨?_, by omega⟩
      intro n hn
      rw [promoted_of_ne hn, Node.eq_of_ne hn hmc]
      exact hf
    · rw [hy] at hy'
      cases hy'
      exact Or.inl (by omega)

theorem sound_promoted {e : UInt64} {x : UInt8} (h : Sound s) (hp : Promotable s c e x) :
    Sound (promoted s c e x) := by
  have hlease := hp.lease
  have hepoch := hp.next_epoch
  refine ⟨by simp, ?_, ?_, ?_⟩
  · intro m hm
    rw [promoted_metadata_holder] at hm
    cases hm
    refine ⟨x, by simp, ?_, paced_promoted h hp⟩
    rw [promoted_now_tick]
    omega
  · intro n
    rw [promoted_epoch]
    by_cases hn : n = c
    · subst hn
      rw [promoted_self]
    · rw [promoted_of_ne hn]
      have hacc := h.accepted n
      omega
  · intro n hf
    by_cases hn : n = c
    · subst hn
      rw [promoted_self] at hf
      rw [hp.not_fenced] at hf
      cases hf
    · rw [promoted_of_ne hn] at hf ⊢
      exact h.off n hf

theorem sound_step {a : Action} (h : Sound s) (hc : Change s a s') : Sound s' := by
  have hsame : ∀ n, KeepsFence (s.node n) (s.node n) := fun n => ⟨rfl, id, h.off n⟩
  cases hc with
  | linked n up | copied n caught_up => exact sound_node_mut h ⟨rfl, id, h.off n⟩
  | crashed n => exact sound_node_mut h ⟨rfl, id, fun _ => rfl⟩
  | restarted n i _ hf =>
    refine sound_node_mut h ⟨rfl, id, ?_⟩
    intro hf'
    rw [hf] at hf'
    cases hf'
  | fenced n => exact sound_node_mut h ⟨rfl, fun _ => rfl, fun _ => rfl⟩
  | witnessed up => exact sound_of_same h (fun n => by cases n <;> exact hsame _) rfl rfl rfl (le_refl _)
  | passed t ht =>
    have hnow : s.now_tick.toNat ≤ t.toNat := by omega
    exact sound_of_same h (fun n => by cases n <;> exact hsame _) rfl rfl rfl hnow
  | promoted c e x hp => exact sound_promoted h hp

theorem sound_run {actions : List Action} (hrun : ModelRun actions s) : Sound s := by
  refine hrun.invariant Sound sound_default ?_
  intro s a s' h happly
  exact sound_step h (apply.spec happly)

/-! ## The rule -/

/-- When a promotion of `c` is applied. -/
structure MayPromote (s : ModelState) (c : Node) : Prop where
  powered : (s.node c).powered = true
  connected : (s.node c).connected_to_witness = true
  caught_up : (s.node c).caught_up = true
  witness_up : s.witness_up = true
  in_time : s.now_tick.toNat ≤ 252
  not_holder : s.metadata_holder ≠ some c
  free : s.metadata_holder = none ∨ (∃ h, s.metadata_holder = some h ∧ (s.node h).fenced = true) ∨
    ∃ x, s.metadata_lease_expires_at_tick = some x ∧ x.toNat + 1 ≤ s.now_tick.toNat

theorem epoch_le (h : Sound s) : s.epoch.toNat ≤ s.now_tick.toNat / 4 + 2 := by
  rcases hh : s.metadata_holder with _ | m
  · rw [h.unheld hh]
    exact Nat.zero_le _
  · obtain ⟨x, _, hle, hpaced⟩ := h.leased m hh
    rcases hpaced with hp | ⟨_, hp⟩ <;> omega

/-- So the next epoch is always a word, which no node accepted yet. -/
theorem next_epoch_exists (h : Sound s) :
    ∃ e, u64_checked_add s.epoch 1 = some e ∧ ∀ n, ¬ e ≤ (s.node n).accepted_epoch := by
  have hle := epoch_le h
  have hnow := s.now_tick.toNat_lt
  have hlt : s.epoch.toNat + 1 < UInt64.size := by
    have hsize : UInt64.size = 18446744073709551616 := rfl
    omega
  refine ⟨UInt64.ofNat (s.epoch.toNat + 1), ?_, ?_⟩
  · rw [u64_checked_add_eq_some, UInt64.toNat_ofNat_of_lt' hlt]
    rfl
  · intro n
    have hacc := h.accepted n
    rw [UInt64.le_iff_toNat_le, UInt64.toNat_ofNat_of_lt' hlt]
    omega

/-- There is no epoch without a holder. -/
theorem not_orphaned (h : Sound s) : ¬ (s.metadata_holder = none ∧ s.epoch ≠ 0) := by
  rintro ⟨hnone, hne⟩
  exact hne (h.unheld hnone)

theorem holder_excluded_of_free (hfree : s.metadata_holder = none ∨
    (∃ h, s.metadata_holder = some h ∧ (s.node h).fenced = true) ∨
    ∃ x, s.metadata_lease_expires_at_tick = some x ∧ x.toNat + 1 ≤ s.now_tick.toNat) :
    holder_excluded s = true := by
  unfold holder_excluded
  rcases hfree with hh | ⟨m, hh, hf⟩ | ⟨x, hx, hle⟩
  · simp [hh]
  · simp [hh, hf]
  · rcases hh : s.metadata_holder with _ | m
    · rfl
    · simp [hx, hle]

theorem mayPromote_of_promotable {e : UInt64} {x : UInt8} (hp : Promotable s c e x) :
    MayPromote s c := by
  refine ⟨hp.powered, hp.connected, hp.caught_up, hp.witness_up, ?_, hp.not_holder, ?_⟩
  · have hlease := hp.lease
    have hx := x.toNat_lt
    omega
  · rcases hh : s.metadata_holder with _ | m
    · exact Or.inl rfl
    · rcases hp.excluded m hh with hf | hx
      · exact Or.inr (Or.inl ⟨m, rfl, hf⟩)
      · exact Or.inr (Or.inr hx)

/-- No refusal of the table meets a candidate that may be promoted. -/
theorem promoted_of_mayPromote (h : Sound s) (hheld : AllHeld s) (hm : MayPromote s c) :
    ∃ e x, promote s c = .Applied (promoted s c e x) := by
  obtain ⟨e, he, hnew⟩ := next_epoch_exists h
  obtain ⟨x, hx⟩ : ∃ x, u8_checked_add s.now_tick 3 = some x := by
    have hlt : s.now_tick.toNat + 3 < UInt8.size := by
      have hin := hm.in_time
      have hsize : UInt8.size = 256 := rfl
      omega
    exact ⟨_, if_pos hlt⟩
  have hf : (s.node c).fenced = false := by
    rcases hf : (s.node c).fenced with _ | _
    · rfl
    · have hoff := h.off c hf
      rw [hm.powered] at hoff
      cases hoff
  have heff : (s.node c).gate_is_effective s.now_tick = false := by
    rcases heff : (s.node c).gate_is_effective s.now_tick with _ | _
    · rfl
    · obtain ⟨_, hw⟩ := writes_of_effective hheld heff
      exact absurd hw.holder hm.not_holder
  refine ⟨e, x, ?_⟩
  rw [promote_eq_decision]
  simp [decision, hm.powered, hf, hm.connected, hm.witness_up, heff, he, hx, hm.not_holder,
    not_orphaned h, holder_excluded_of_free hm.free, hm.caught_up, hnew c]

/-- The two refusals of the table behind which the core stands are of states
with an epoch but no holder, and of candidates that accepted a newer epoch. -/
theorem never_core_refused (h : Sound s) : promote s c ≠ .Rejected .CoreRefused := by
  obtain ⟨e, he, hnew⟩ := next_epoch_exists h
  rw [promote_eq_decision]
  unfold decision
  rw [he]
  rcases u8_checked_add s.now_tick 3 with _ | x <;>
    simp only [not_orphaned h, hnew c, if_false] <;> split_ifs <;> simp

/-! ## The law -/

/-- In every reachable state the rule says exactly which promotions are applied,
the core never refuses one for a reason of its own, and the epoch is bounded by
the time, so the next one never overflows. -/
theorem promotion_rule {actions : List Action} (hrun : ModelRun actions s) :
    (∀ c, (∃ s', promote s c = .Applied s') ↔ MayPromote s c) ∧
    (∀ c, promote s c ≠ .Rejected .CoreRefused) ∧
    s.epoch.toNat ≤ s.now_tick.toNat / 4 + 2 ∧ u64_checked_add s.epoch 1 ≠ none := by
  have hsound := sound_run hrun
  refine ⟨?_, fun _ => never_core_refused hsound, epoch_le hsound, ?_⟩
  · intro c
    constructor
    · rintro ⟨s', happly⟩
      obtain ⟨e, x, hp, _⟩ := promote.spec happly
      exact mayPromote_of_promotable hp
    · intro hm
      obtain ⟨e, x, happly⟩ := promoted_of_mayPromote hsound (allHeld_run hrun) hm
      exact ⟨_, happly⟩
  · obtain ⟨e, he, _⟩ := next_epoch_exists hsound
    simp [he]

/-- After node A was promoted and fenced, node B may be promoted at once. -/
theorem promotion_rule_after_a_fence :
    ∃ s, ModelRun [.PromoteA, .FenceA] s ∧ MayPromote s .B ∧
      ∃ s', promote s .B = .Applied s' := by
  have hfirst : ModelRun [.PromoteA] (promoted .default .A 1 3) := Run.snoc .nil (by decide)
  have hrun : ModelRun [.PromoteA, .FenceA] (fence (promoted .default .A 1 3) .A).2 :=
    hfirst.snoc (by decide)
  have hm : MayPromote (fence (promoted .default .A 1 3) .A).2 .B := by
    refine ⟨rfl, rfl, rfl, rfl, by decide, by decide, Or.inr (Or.inl ⟨.A, rfl, rfl⟩)⟩
  exact ⟨_, hrun, hm, ((promotion_rule hrun).1 .B).mpr hm⟩

end quorumarc_sim

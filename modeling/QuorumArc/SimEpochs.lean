-- How fast the epochs of the compact model go. A lease and its guard take four ticks, and
-- one fence can spare a wait. So at every tick exactly some epochs can be reached, and
-- the bound that the promotion rule gives is one of them.
import QuorumArc.SimLiveness
import QuorumArc.SimSymmetry

open quorumarc_core words runs

namespace quorumarc_sim

/-- The node can be promoted at any time. -/
structure NodeState.Ready (m : NodeState) : Prop where
  powered : m.powered = true
  connected : m.connected_to_witness = true
  caught_up : m.caught_up = true
  not_fenced : m.fenced = false

variable {s t : ModelState} {actions : List Action} {c : Node} {e k : ℕ}

/-! ## One promotion after the other -/

/-- The node was promoted under the next epoch, at the same time. -/
structure PromotedTo (s : ModelState) (c : Node) (t : ModelState) : Prop where
  epoch : t.epoch.toNat = s.epoch.toNat + 1
  now_tick : t.now_tick = s.now_tick
  witness_up : t.witness_up = true
  holder : t.metadata_holder = some c
  lease : ∃ x, t.metadata_lease_expires_at_tick = some x ∧ x.toNat = s.now_tick.toNat + 3
  ready : ∀ n, (s.node n).Ready → (t.node n).Ready

theorem promotes (hrun : ModelRun actions s) (hc : (s.node c).Ready) (hw : s.witness_up = true)
    (hin : s.now_tick.toNat ≤ 252) (hne : s.metadata_holder ≠ some c) (hfree : Free s) :
    ∃ t, ModelRun (actions ++ [.promote c]) t ∧ PromotedTo s c t := by
  have hmay : MayPromote s c :=
    ⟨hc.powered, hc.connected, hc.caught_up, hw, hin, hne, hfree⟩
  obtain ⟨_, _, happly⟩ := promoted_of_mayPromote (sound_run hrun) (allHeld_run hrun) hmay
  obtain ⟨e, x, hp, heq⟩ := promote.spec happly
  rw [heq] at happly
  have hstep : apply s (.promote c) = .Applied (promoted s c e x) := by
    rw [← happly]
    cases c <;> rfl
  refine ⟨_, hrun.snoc hstep, ?_, by simp, ?_, by simp, ⟨x, by simp, hp.lease.symm⟩, ?_⟩
  · rw [promoted_epoch]
    exact hp.next_epoch.symm
  · rw [← hw]
    cases c <;> rfl
  · intro n hn
    by_cases hnc : n = c
    · subst hnc
      rw [promoted_self]
      exact ⟨hn.powered, hn.connected, hn.caught_up, hn.not_fenced⟩
    · rw [promoted_of_ne hnc]
      exact hn

theorem passes_to {x : UInt8} (hrun : ModelRun actions s) (hle : s.now_tick.toNat ≤ x.toNat) :
    ∃ actions', ModelRun actions' { s with now_tick := x } := by
  obtain ⟨future, _, _, hpath, rfl⟩ := passes_soon (s := s)
    (Nat.add_sub_cancel' hle : s.now_tick.toNat + (x.toNat - s.now_tick.toNat) = x.toNat)
  exact ⟨_, hrun.append hpath⟩

theorem Node.swap_ne (n : Node) : n.swap ≠ n := by
  cases n <;> decide

/-! ## Every epoch in its time -/

/-- With a promotion at every fourth tick, the nodes take turns. -/
structure TakingTurns (s : ModelState) (k : ℕ) : Prop where
  epoch : s.epoch.toNat = k + 1
  now_tick : s.now_tick.toNat = 4 * k
  witness_up : s.witness_up = true
  ready : ∀ n, (s.node n).Ready
  leased : ∃ h x, s.metadata_holder = some h ∧ s.metadata_lease_expires_at_tick = some x ∧
    x.toNat = 4 * k + 3

theorem takes_turns (hk : k ≤ 63) : ∃ actions s, ModelRun actions s ∧ TakingTurns s k := by
  induction k with
  | zero =>
    have hready : ∀ n, (ModelState.default.node n).Ready := by
      intro n
      cases n <;> exact ⟨rfl, rfl, rfl, rfl⟩
    obtain ⟨t, hrun, hp⟩ := promotes (c := .A) .nil (hready .A) rfl (by decide)
      (by decide) (Or.inl rfl)
    refine ⟨_, t, hrun, hp.epoch, ?_, hp.witness_up, fun n => hp.ready n (hready n), ?_⟩
    · rw [hp.now_tick]
      rfl
    · obtain ⟨x, hx, hlease⟩ := hp.lease
      exact ⟨.A, x, hp.holder, hx, hlease⟩
  | succ k ih =>
    obtain ⟨actions, s, hrun, hs⟩ := ih (by omega)
    obtain ⟨h, x, hh, hx, hlease⟩ := hs.leased
    have htick : 4 * (k + 1) < UInt8.size := by
      have hsize : UInt8.size = 256 := rfl
      omega
    have hnow : (UInt8.ofNat (4 * (k + 1))).toNat = 4 * (k + 1) := UInt8.toNat_ofNat_of_lt' htick
    have hticked := hs.now_tick
    obtain ⟨_, hrun'⟩ := passes_to (x := UInt8.ofNat (4 * (k + 1))) hrun (by omega)
    have hready : ∀ n, (ModelState.node { s with now_tick := .ofNat (4 * (k + 1)) } n).Ready := by
      intro n
      cases n with
      | A => exact hs.ready .A
      | B => exact hs.ready .B
    -- The lease of the holder and its guard are over.
    have hfree : Free { s with now_tick := .ofNat (4 * (k + 1)) } := by
      refine Or.inr (Or.inr ⟨x, hx, ?_⟩)
      rw [hnow, hlease]
      omega
    have hne : s.metadata_holder ≠ some h.swap := by
      rw [hh]
      exact fun heq => h.swap_ne (Option.some_inj.mp heq).symm
    obtain ⟨t, hrun'', hp⟩ := promotes hrun' (hready h.swap) hs.witness_up
      (by rw [hnow]; omega) hne hfree
    refine ⟨_, t, hrun'', ?_, ?_, hp.witness_up, fun n => hp.ready n (hready n), ?_⟩
    · rw [hp.epoch, hs.epoch]
    · rw [hp.now_tick, hnow]
    · obtain ⟨y, hy, hend⟩ := hp.lease
      exact ⟨h.swap, y, hp.holder, hy, by rw [hend, hnow]⟩

/-- A fence spares one wait: the other node takes over at once. -/
theorem fences_and_takes_over (hk : k ≤ 63) : ∃ actions s, ModelRun actions s ∧
    s.epoch.toNat = k + 2 ∧ s.now_tick.toNat = 4 * k := by
  obtain ⟨actions, s, hrun, hs⟩ := takes_turns hk
  obtain ⟨h, x, hh, hx, hlease⟩ := hs.leased
  have hfence := hrun.snoc (apply_fence (hs.ready h).not_fenced)
  have hne : h.swap ≠ h := h.swap_ne
  have hticked := hs.now_tick
  obtain ⟨t, hrun', hp⟩ := promotes (c := h.swap) hfence
    (by rw [ModelState.node_mut_of_ne _ _ hne]; exact hs.ready h.swap)
    (by cases h <;> exact hs.witness_up) (by rw [ModelState.node_mut_now_tick]; omega)
    (by rw [ModelState.node_mut_metadata_holder, hh]; exact fun heq => hne (by simpa using heq.symm))
    (Or.inr (Or.inl ⟨h, by simpa using hh, by rw [ModelState.node_mut_self]⟩))
  refine ⟨_, t, hrun', ?_, ?_⟩
  · rw [hp.epoch, ModelState.node_mut_epoch, hs.epoch]
  · rw [hp.now_tick, ModelState.node_mut_now_tick, hs.now_tick]

/-- The epoch can be reached by a tick that leaves time for it. -/
theorem epoch_reached {n : ℕ} (h : e ≤ n / 4 + 2) (hn : n < 256) : ∃ actions s,
    ModelRun actions s ∧ s.epoch.toNat = e ∧ s.now_tick.toNat ≤ n := by
  rcases e with _ | k
  · exact ⟨[], .default, .nil, rfl, Nat.zero_le n⟩
  by_cases hwait : 4 * k ≤ n
  · obtain ⟨actions, s, hrun, hs⟩ := takes_turns (k := k) (by omega)
    refine ⟨actions, s, hrun, hs.epoch, ?_⟩
    rw [hs.now_tick]
    exact hwait
  · obtain ⟨actions, s, hrun, hepoch, hnow⟩ := fences_and_takes_over (k := k - 1) (by omega)
    exact ⟨actions, s, hrun, by omega, by omega⟩

/-! ## The law -/

/-- The epochs that the model can reach at a tick are exactly those up to a quarter of the
tick and two more. -/
theorem epochs_that_can_be_reached (now_tick : UInt8) (epoch : UInt64) :
    (∃ actions s, ModelRun actions s ∧ s.now_tick = now_tick ∧ s.epoch = epoch) ↔
      epoch.toNat ≤ now_tick.toNat / 4 + 2 := by
  constructor
  · rintro ⟨actions, s, hrun, rfl, rfl⟩
    exact epoch_le (sound_run hrun)
  · intro h
    obtain ⟨actions, s, hrun, hepoch, hnow⟩ := epoch_reached h now_tick.toNat_lt
    obtain ⟨actions', hrun'⟩ := passes_to hrun hnow
    exact ⟨actions', _, hrun', rfl, UInt64.toNat_inj.mp hepoch⟩

end quorumarc_sim

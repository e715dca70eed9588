-- Single writer in the compact model, at every depth. The bound on the writers
-- follows from what each gate has to do with the metadata of the model.
import QuorumArc.Runs
import QuorumArc.SimChanges

open runs

namespace quorumarc_sim

/-! ## The invariant of the gates -/

/-- The gate lease of a node in its state: the node runs as the incarnation that
was promoted, and the lease is the one of the metadata, or is over. -/
structure Held (s : ModelState) (n : Node) (lease : GateLease) : Prop where
  powered : (s.node n).powered = true
  not_fenced : (s.node n).fenced = false
  incarnation : lease.incarnation = (s.node n).incarnation
  accepted : lease.epoch = (s.node n).accepted_epoch
  current : s.metadata_holder = some n →
    lease.epoch = s.epoch ∧ s.metadata_lease_expires_at_tick = some lease.expires_at_tick
  lapsed : s.metadata_holder ≠ some n → lease.expires_at_tick.toNat ≤ s.now_tick.toNat

def AllHeld (s : ModelState) : Prop := ∀ n lease, (s.node n).gate = some lease → Held s n lease

variable {s s' : ModelState}

theorem allHeld_default : AllHeld .default := by
  intro n lease hg
  cases n <;> cases hg

/-- The node is in the same life: nothing that its gate depends on has changed. -/
structure SameLife (m m' : NodeState) : Prop where
  gate : m'.gate = m.gate
  powered : m'.powered = m.powered
  fenced : m'.fenced = m.fenced
  incarnation : m'.incarnation = m.incarnation
  accepted_epoch : m'.accepted_epoch = m.accepted_epoch

theorem SameLife.refl (m : NodeState) : SameLife m m := ⟨rfl, rfl, rfl, rfl, rfl⟩

/-- A change that keeps the life of one node keeps that of both. -/
theorem SameLife.node_mut {n : Node} {f : NodeState → NodeState}
    (h : SameLife (s.node n) (f (s.node n))) :
    ∀ m, SameLife (s.node m) ((s.node_mut n f).node m) :=
  ModelState.node_mut_forall (P := fun m x => SameLife (s.node m) x) s n f h fun _ _ => .refl _

theorem SameLife.node_mut_of_ne {n m : Node} {f : NodeState → NodeState} (h : m ≠ n) :
    SameLife (s.node m) ((s.node_mut n f).node m) := by
  rw [ModelState.node_mut_of_ne s f h]
  exact .refl _

/-- A change that leaves the metadata alone, and the life of every node that
still has a gate. -/
theorem allHeld_of_sameLife (h : AllHeld s)
    (hlife : ∀ n lease, (s'.node n).gate = some lease → SameLife (s.node n) (s'.node n))
    (hholder : s'.metadata_holder = s.metadata_holder) (hepoch : s'.epoch = s.epoch)
    (hexp : s'.metadata_lease_expires_at_tick = s.metadata_lease_expires_at_tick)
    (hnow : s.now_tick.toNat ≤ s'.now_tick.toNat) : AllHeld s' := by
  intro n lease hg
  have hl := hlife n lease hg
  have hheld := h n lease (hl.gate.symm.trans hg)
  refine ⟨hl.powered.trans hheld.powered, hl.fenced.trans hheld.not_fenced,
    hheld.incarnation.trans hl.incarnation.symm, hheld.accepted.trans hl.accepted_epoch.symm, ?_, ?_⟩
  · intro hcur
    rw [hholder] at hcur
    rw [hepoch, hexp]
    exact hheld.current hcur
  · intro hne
    rw [hholder] at hne
    exact le_trans (hheld.lapsed hne) hnow

/-- A change of one node that closes its gate, or keeps its life. -/
theorem allHeld_node_mut {n : Node} {f : NodeState → NodeState} (h : AllHeld s)
    (hf : (f (s.node n)).gate = none ∨ SameLife (s.node n) (f (s.node n))) :
    AllHeld (s.node_mut n f) := by
  apply allHeld_of_sameLife h <;> try simp
  intro m lease hg
  rcases hf with hnone | hsame
  · by_cases hm : m = n
    · subst hm
      rw [ModelState.node_mut_self, hnone] at hg
      cases hg
    · exact .node_mut_of_ne hm
  · exact hsame.node_mut m

/-- The gate of a node other than the promoted one is over by then: its node is
not the old holder, or its lease is the one that has run out. -/
theorem lapsed_of_promotable {c m : Node} {e : UInt64} {x : UInt8} {lease : GateLease}
    (h : AllHeld s) (hp : Promotable s c e x) (hg : (s.node m).gate = some lease) :
    lease.expires_at_tick.toNat ≤ s.now_tick.toNat := by
  have hheld := h m lease hg
  by_cases hm : s.metadata_holder = some m
  · rcases hp.excluded m hm with hf | ⟨y, hy, hle⟩
    · rw [hheld.not_fenced] at hf
      cases hf
    · obtain ⟨_, hexp⟩ := hheld.current hm
      rw [hy] at hexp
      cases hexp
      omega
  · exact hheld.lapsed hm

theorem held_promoted_self {c : Node} {e : UInt64} {x : UInt8} (hp : Promotable s c e x) :
    Held (promoted s c e x) c ⟨e, (s.node c).incarnation, x⟩ := by
  refine ⟨?_, ?_, ?_, ?_, ?_, ?_⟩
  · rw [promoted_self]
    exact hp.powered
  · rw [promoted_self]
    exact hp.not_fenced
  · rw [promoted_self]
  · rw [promoted_self]
  · simp
  · simp

/-- The other node, if it has a gate, holds a lease that is over. -/
theorem held_promoted_of_ne {c m : Node} {e : UInt64} {x : UInt8} {lease : GateLease}
    (h : AllHeld s) (hp : Promotable s c e x) (hm : m ≠ c) (hg : (s.node m).gate = some lease) :
    Held (promoted s c e x) m lease := by
  have hheld := h m lease hg
  have hlapsed := lapsed_of_promotable h hp hg
  refine ⟨?_, ?_, ?_, ?_, ?_, ?_⟩
  · rw [promoted_of_ne hm]
    exact hheld.powered
  · rw [promoted_of_ne hm]
    exact hheld.not_fenced
  · rw [promoted_of_ne hm]
    exact hheld.incarnation
  · rw [promoted_of_ne hm]
    exact hheld.accepted
  · simp [hm.symm]
  · simpa using fun _ => hlapsed

theorem allHeld_promoted {c : Node} {e : UInt64} {x : UInt8} (h : AllHeld s)
    (hp : Promotable s c e x) : AllHeld (promoted s c e x) := by
  intro m lease hg
  by_cases hm : m = c
  · subst hm
    rw [promoted_self] at hg
    cases hg
    exact held_promoted_self hp
  · rw [promoted_of_ne hm] at hg
    exact held_promoted_of_ne h hp hm hg

theorem allHeld_step {a : Action} (h : AllHeld s) (hc : Change s a s') : AllHeld s' := by
  cases hc with
  | linked n up | copied n caught_up =>
    exact allHeld_node_mut h (Or.inr ⟨rfl, rfl, rfl, rfl, rfl⟩)
  | crashed n | restarted n | fenced n => exact allHeld_node_mut h (Or.inl rfl)
  | witnessed up =>
    refine allHeld_of_sameLife h ?_ rfl rfl rfl (le_refl _)
    intro n lease _
    cases n <;> exact .refl _
  | passed t ht =>
    have hnow : s.now_tick.toNat ≤ t.toNat := by omega
    refine allHeld_of_sameLife h ?_ rfl rfl rfl hnow
    intro n lease _
    cases n <;> exact .refl _
  | promoted c e x hp => exact allHeld_promoted h hp

/-! ## The runs of the model -/

/-- The runs of applied actions from the default state. -/
abbrev ModelRun := Run (fun s a s' => apply s a = .Applied s') .default

theorem allHeld_run {actions : List Action} (hrun : ModelRun actions s) : AllHeld s := by
  refine hrun.invariant AllHeld allHeld_default ?_
  intro s a s' h happly
  exact allHeld_step h (apply.spec happly)

theorem gate_is_effective_iff {n : NodeState} {t : UInt8} :
    n.gate_is_effective t = true ↔ n.powered = true ∧ n.fenced = false ∧
      ∃ lease, n.gate = some lease ∧ 0 < lease.epoch ∧ lease.incarnation = n.incarnation ∧
        t < lease.expires_at_tick := by
  unfold NodeState.gate_is_effective
  rcases n.gate with _ | lease
  · simp
  · simp [and_assoc]

/-- The gate is effective for the node and the metadata agree with it. -/
structure Writes (s : ModelState) (n : Node) (lease : GateLease) : Prop where
  gate : (s.node n).gate = some lease
  holder : s.metadata_holder = some n
  epoch : lease.epoch = s.epoch
  accepted : lease.epoch = (s.node n).accepted_epoch
  expires : s.metadata_lease_expires_at_tick = some lease.expires_at_tick

theorem writes_of_effective {n : Node} (h : AllHeld s)
    (he : (s.node n).gate_is_effective s.now_tick = true) : ∃ lease, Writes s n lease := by
  obtain ⟨_, _, lease, hg, _, _, hlt⟩ := gate_is_effective_iff.mp he
  have hheld := h n lease hg
  rw [UInt8.lt_iff_toNat_lt] at hlt
  have hholder : s.metadata_holder = some n := by
    refine Classical.byContradiction fun hne => ?_
    have := hheld.lapsed hne
    omega
  obtain ⟨hepoch, hexp⟩ := hheld.current hholder
  exact ⟨lease, hg, hholder, hepoch, hheld.accepted, hexp⟩

/-- Two nodes are never effective together, since one of them is not the holder. -/
theorem active_writers_le_one (h : AllHeld s) : s.active_writers ≤ 1 := by
  unfold ModelState.active_writers
  by_cases ha : s.a.gate_is_effective s.now_tick = true
  · by_cases hb : s.b.gate_is_effective s.now_tick = true
    · obtain ⟨_, hwa⟩ := writes_of_effective (n := .A) h ha
      obtain ⟨_, hwb⟩ := writes_of_effective (n := .B) h hb
      have hboth := hwa.holder.symm.trans hwb.holder
      cases hboth
    · simp only [Bool.not_eq_true] at hb
      rw [hb]
      simp [Bool.toNat_le]
  · simp only [Bool.not_eq_true] at ha
    rw [ha]
    simp [Bool.toNat_le]

/-! ## The law -/

/-- In every state that any applied actions lead to, at most one node can write,
and a node that can is the holder of the metadata, under the epoch of the model
and until the expiry that the metadata say. -/
theorem at_most_one_writer {actions : List Action} (hrun : ModelRun actions s) :
    s.active_writers ≤ 1 ∧
    ∀ n, (s.node n).gate_is_effective s.now_tick = true → ∃ lease, Writes s n lease := by
  have h := allHeld_run hrun
  refine ⟨active_writers_le_one h, ?_⟩
  intro n he
  exact writes_of_effective h he

theorem at_most_one_writer_after_promotion :
    (promoted .default .A 1 3).active_writers ≤ 1 ∧
    ∃ lease, Writes (promoted .default .A 1 3) .A lease := by
  have hrun : ModelRun [.PromoteA] (promoted .default .A 1 3) := by
    refine Run.snoc .nil ?_
    decide
  obtain ⟨hle, hwrites⟩ := at_most_one_writer hrun
  exact ⟨hle, hwrites .A (by decide)⟩

end quorumarc_sim

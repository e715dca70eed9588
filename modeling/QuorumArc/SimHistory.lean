-- Lost leases stay lost. Over the runs of the compact model a gate that is not
-- effective becomes effective only by a promotion of its node, under a newer
-- epoch, and a fenced node is out for good.
import QuorumArc.SimRule

open quorumarc_core words runs

namespace quorumarc_sim

/-- A run of applied actions from one state to another. -/
abbrev ModelPath (s : ModelState) := Run (fun s a s' => apply s a = .Applied s') s

def Effective (s : ModelState) (n : Node) : Prop :=
  (s.node n).gate_is_effective s.now_tick = true

/-- The gate is effective, under this epoch. -/
def EffectiveUnder (s : ModelState) (n : Node) (e : UInt64) : Prop :=
  Effective s n ∧ ∃ lease, (s.node n).gate = some lease ∧ lease.epoch = e

variable {s s' s₁ s₂ s₃ : ModelState} {a : Action} {n : Node}
  {before during after actions : List Action}

theorem Action.promote_injective : Function.Injective Action.promote := by
  intro m n h
  cases m <;> cases n <;> first | rfl | cases h

/-! ## The steps -/

theorem now_le_step (hc : Change s a s') : s.now_tick ≤ s'.now_tick := by
  cases hc with
  | linked | copied | crashed | restarted | fenced => simp
  | witnessed => exact UInt8.le_refl _
  | passed t ht =>
    rw [UInt8.le_iff_toNat_le]
    show s.now_tick.toNat ≤ t.toNat
    omega
  | promoted => simp

/-- A node that is not promoted loses its gate or stays in its life. -/
theorem life_step (hc : Change s a s') (hne : a ≠ .promote n) :
    (s'.node n).gate = none ∨ SameLife (s.node n) (s'.node n) := by
  cases hc with
  | linked m up | copied m caught_up =>
    exact Or.inr (SameLife.node_mut ⟨rfl, rfl, rfl, rfl, rfl⟩ n)
  | crashed m | restarted m | fenced m =>
    by_cases hn : n = m
    · subst hn
      rw [ModelState.node_mut_self]
      exact Or.inl rfl
    · exact Or.inr (.node_mut_of_ne hn)
  | witnessed | passed => exact Or.inr (by cases n <;> exact .refl _)
  | promoted c e x =>
    have hnc : n ≠ c := by
      rintro rfl
      exact hne rfl
    rw [promoted_of_ne hnc]
    exact Or.inr (.refl _)

/-- Within one life the gate is effective no longer than before. -/
theorem effective_of_sameLife {m m' : NodeState} {t t' : UInt8} (hl : SameLife m m')
    (ht : t ≤ t') (he : m'.gate_is_effective t' = true) : m.gate_is_effective t = true := by
  rw [gate_is_effective_iff] at he ⊢
  obtain ⟨hp, hf, lease, hg, h0, hi, hlt⟩ := he
  refine ⟨hl.powered.symm.trans hp, hl.fenced.symm.trans hf, lease, hl.gate.symm.trans hg, h0,
    hi.trans hl.incarnation, ?_⟩
  rw [UInt8.lt_iff_toNat_lt] at hlt ⊢
  rw [UInt8.le_iff_toNat_le] at ht
  omega

/-- Only a promotion of the node makes its gate effective. -/
theorem effective_step (hc : Change s a s') (hno : ¬ Effective s n) (he : Effective s' n) :
    a = .promote n := by
  refine Classical.byContradiction fun hne => ?_
  rcases life_step hc hne with hnone | hl
  · obtain ⟨_, _, lease, hg, _⟩ := gate_is_effective_iff.mp he
    rw [hnone] at hg
    cases hg
  · exact hno (effective_of_sameLife hl (now_le_step hc) he)

theorem of_promote (hc : Change s (.promote n) s') :
    ∃ e x, Promotable s n e x ∧ s' = promoted s n e x := by
  generalize ha : Action.promote n = a at hc
  cases hc with
  | promoted c e x hp =>
    obtain rfl := Action.promote_injective ha
    exact ⟨e, x, hp, rfl⟩
  | linked m up | copied m up => cases n <;> cases m <;> cases up <;> cases ha
  | witnessed up => cases n <;> cases up <;> cases ha
  | crashed m | restarted m | fenced m => cases n <;> cases m <;> cases ha
  | passed => cases n <;> cases ha

theorem epoch_step (hc : Change s a s') : s.epoch.toNat ≤ s'.epoch.toNat := by
  cases hc with
  | linked | copied | crashed | restarted | fenced => simp
  | witnessed | passed => exact le_refl _
  | promoted c e x hp =>
    have hepoch := hp.next_epoch
    rw [promoted_epoch]
    omega

/-- A fenced node stays fenced. -/
theorem fenced_step (hc : Change s a s') (hf : (s.node n).fenced = true) :
    (s'.node n).fenced = true := by
  have hkeep : ∀ {m : Node} {f : NodeState → NodeState},
      ((s.node m).fenced = true → (f (s.node m)).fenced = true) →
      ((s.node_mut m f).node n).fenced = true := by
    intro m f hm
    exact ModelState.node_mut_forall (P := fun k x => (s.node k).fenced = true → x.fenced = true) s m
      f hm (fun _ _ => id) n hf
  cases hc with
  | linked | copied | crashed => exact hkeep id
  | restarted m i _ hm =>
    refine hkeep ?_
    intro hm'
    rw [hm] at hm'
    cases hm'
  | fenced => exact hkeep fun _ => rfl
  | witnessed | passed => cases n <;> exact hf
  | promoted c e x hp =>
    have hnc : n ≠ c := by
      rintro rfl
      rw [hp.not_fenced] at hf
      cases hf
    rw [promoted_of_ne hnc]
    exact hf

/-! ## The runs -/

theorem epoch_le_path (h : ModelPath s₁ actions s₂) : s₁.epoch.toNat ≤ s₂.epoch.toNat := by
  refine h.invariant (fun s => s₁.epoch.toNat ≤ s.epoch.toNat) (le_refl _) ?_
  intro s a s' hle happly
  exact le_trans hle (epoch_step (apply.spec happly))

theorem fenced_path (h : ModelPath s₁ actions s₂) (hf : (s₁.node n).fenced = true) :
    (s₂.node n).fenced = true := by
  refine h.invariant (fun s => (s.node n).fenced = true) hf ?_
  intro s a s' hf happly
  exact fenced_step (apply.spec happly) hf

/-- A gate that became effective on the way was promoted on the way. -/
theorem promoted_on_path (h : ModelPath s₁ actions s₂) (hno : ¬ Effective s₁ n)
    (he : Effective s₂ n) : .promote n ∈ actions := by
  induction h with
  | nil => exact absurd he hno
  | snoc hrun happly ih =>
    rename_i es a s s'
    by_cases heff : Effective s n
    · exact List.mem_append_left _ (ih heff)
    · rw [effective_step (apply.spec happly) heff he]
      exact List.mem_append_right _ (List.mem_singleton_self _)

theorem epoch_lt_path (h : ModelPath s₁ actions s₂) (hmem : .promote n ∈ actions) :
    s₁.epoch.toNat < s₂.epoch.toNat := by
  obtain ⟨before, after, rfl⟩ := List.append_of_mem hmem
  obtain ⟨s, s', hbefore, happly, hafter⟩ := h.at_event
  obtain ⟨e, x, hp, rfl⟩ := of_promote (apply.spec happly)
  have h₁ := epoch_le_path hbefore
  have h₂ := epoch_le_path hafter
  have hepoch := hp.next_epoch
  rw [promoted_epoch] at h₂
  omega

/-- A fenced node is not promoted on the way. -/
theorem not_promoted_on_path (h : ModelPath s₁ actions s₂) (hf : (s₁.node n).fenced = true) :
    .promote n ∉ actions := by
  intro hmem
  obtain ⟨before, after, rfl⟩ := List.append_of_mem hmem
  obtain ⟨s, s', hbefore, happly, _⟩ := h.at_event
  obtain ⟨e, x, hp, _⟩ := of_promote (apply.spec happly)
  have hf' := fenced_path hbefore hf
  rw [hp.not_fenced] at hf'
  cases hf'

/-- An effective gate in a reachable state is effective under the epoch of the model. -/
theorem epoch_of_effective {e : UInt64} (h : AllHeld s) (he : EffectiveUnder s n e) :
    e = s.epoch := by
  obtain ⟨heff, lease, hg, rfl⟩ := he
  obtain ⟨lease', hw⟩ := writes_of_effective h heff
  rw [hw.gate] at hg
  cases hg
  exact hw.epoch

/-! ## The law -/

/-- Take any state of any run, any later one and any still later one. A gate that
is effective in the first, not in the second, and again in the third was
promoted between the two under a newer epoch; no other action makes a gate
effective; every gate is of the current incarnation and accepted epoch of its
node; and a fenced node is off, not effective and never promoted since. -/
theorem lost_leases_stay_lost (h₁ : ModelRun before s₁) (h₂ : ModelPath s₁ during s₂)
    (h₃ : ModelPath s₂ after s₃) (n : Node) :
    (∀ e e', EffectiveUnder s₁ n e → ¬ Effective s₂ n → EffectiveUnder s₃ n e' →
      .promote n ∈ after ∧ e.toNat < e'.toNat) ∧
    (∀ a s', apply s₁ a = .Applied s' → ¬ Effective s₁ n → Effective s' n → a = .promote n) ∧
    (∀ lease, (s₁.node n).gate = some lease →
      lease.incarnation = (s₁.node n).incarnation ∧ lease.epoch = (s₁.node n).accepted_epoch) ∧
    ((s₁.node n).fenced = true → (s₂.node n).fenced = true ∧ (s₂.node n).powered = false ∧
      ¬ Effective s₂ n ∧ .promote n ∉ during) := by
  have hrun₂ := h₁.append h₂
  have hrun₃ := hrun₂.append h₃
  refine ⟨?_, ?_, ?_, ?_⟩
  · intro e e' he hno he'
    have hmem := promoted_on_path h₃ hno he'.1
    refine ⟨hmem, ?_⟩
    rw [epoch_of_effective (allHeld_run h₁) he, epoch_of_effective (allHeld_run hrun₃) he']
    exact lt_of_le_of_lt (epoch_le_path h₂) (epoch_lt_path h₃ hmem)
  · intro a s' happly hno he
    exact effective_step (apply.spec happly) hno he
  · intro lease hg
    have hheld := allHeld_run h₁ n lease hg
    exact ⟨hheld.incarnation, hheld.accepted⟩
  · intro hf
    have hf₂ := fenced_path h₂ hf
    refine ⟨hf₂, (sound_run hrun₂).off n hf₂, ?_, not_promoted_on_path h₂ hf⟩
    intro he
    rw [(gate_is_effective_iff.mp he).2.1] at hf₂
    cases hf₂

theorem modelPath_of_replay
    (h : replay (fun s a => (apply s a).result.toOption) s actions = some s') :
    ModelPath s actions s' := by
  refine (run_congr ?_).mp (run_iff_replay.mpr h)
  intro s a s'
  rw [checks.toOption_eq_some, Outcome.result_eq_ok]

/-- Node A is promoted, its lease runs out, and after a term of node B it is promoted again. -/
theorem lost_leases_stay_lost_after_a_term_of_the_other :
    ∃ s₁ s₂ s₃ after, ModelRun [.PromoteA] s₁ ∧ ModelPath s₂ after s₃ ∧
      EffectiveUnder s₁ .A 1 ∧ ¬ Effective s₂ .A ∧ EffectiveUnder s₃ .A 3 ∧
      Action.promote .A ∈ after ∧ (1 : UInt64).toNat < (3 : UInt64).toNat := by
  let first : ModelState := promoted .default .A 1 3
  let lost : ModelState := { first with now_tick := 3 }
  let other : ModelState := promoted { first with now_tick := 4 } .B 2 7
  let again : ModelState := promoted { other with now_tick := 8 } .A 3 11
  have h₁ : ModelRun [.PromoteA] first := modelPath_of_replay (by decide)
  have h₂ : ModelPath first [.AdvanceTime, .AdvanceTime, .AdvanceTime] lost :=
    modelPath_of_replay (by decide)
  have h₃ : ModelPath lost [.AdvanceTime, .PromoteB, .AdvanceTime, .AdvanceTime, .AdvanceTime,
    .AdvanceTime, .PromoteA] again := modelPath_of_replay (by decide)
  have he₁ : EffectiveUnder first .A 1 := ⟨rfl, _, rfl, rfl⟩
  have hno : ¬ Effective lost .A := by
    unfold Effective
    decide
  have he₃ : EffectiveUnder again .A 3 := ⟨rfl, _, rfl, rfl⟩
  obtain ⟨hmem, hlt⟩ := (lost_leases_stay_lost h₁ h₂ h₃ .A).1 1 3 he₁ hno he₃
  exact ⟨first, lost, again, _, h₁, h₃, he₁, hno, he₃, hmem, hlt⟩

end quorumarc_sim

-- How deep the compact model is. A node that crashes and starts again is in a new life,
-- and there are so many lives that no depth is enough to see all states.
import QuorumArc.SimLiveness
import QuorumArc.SimStall

open levels words runs

namespace levels

variable {σ ε : Type*} [LinearOrder σ] {next : σ → ε → Option σ} {events : List ε} {start s : σ}
  {k : ℕ}

theorem size_level_mono :
    (level next events start k).1.size ≤ (level next events start (k + 1)).1.size := by
  have hsub : {s | Within next events start k s} ⊆ {s | Within next events start (k + 1) s} := by
    intro s hs
    exact within_mono hs (Nat.le_succ k)
  have hle := Set.encard_le_encard hsub
  rw [← size_level, ← size_level] at hle
  exact_mod_cast hle

/-- A level with a new state has more states. -/
theorem size_lt_of_new (hs : Within next events start (k + 1) s)
    (hnew : ¬ Within next events start k s) :
    (level next events start k).1.size < (level next events start (k + 1)).1.size := by
  apply Nat.lt_of_le_of_ne size_level_mono
  intro heq
  exact hnew (within_of_same_size heq.symm hs)

end levels

namespace quorumarc_sim

/-- Twice the lives of the node, and one more if it is off. -/
def NodeState.turns (m : NodeState) : ℕ := 2 * m.incarnation.toNat + if m.powered then 0 else 1

variable {s s' : ModelState} {a : Action} {n : Node} {actions : List Action} {depth k : ℕ}

/-- It takes an action to go off, and another one to start again. -/
theorem turns_step (hc : Change s a s') : (s'.node n).turns ≤ (s.node n).turns + 1 := by
  have hturn : ∀ (m : Node) (f : NodeState → NodeState),
      (f (s.node m)).turns ≤ (s.node m).turns + 1 →
      ((s.node_mut m f).node n).turns ≤ (s.node n).turns + 1 := by
    intro m f hm
    exact ModelState.node_mut_forall (P := fun k x => x.turns ≤ (s.node k).turns + 1) s m f hm
      (fun _ _ => Nat.le_succ _) n
  cases hc with
  | linked m | copied m => exact hturn m _ (Nat.le_succ _)
  | crashed m hup =>
    apply hturn
    simp [NodeState.turns, hup]
  | restarted m i hoff _ hi =>
    apply hturn
    simp only [NodeState.turns, hoff]
    simp
    omega
  | fenced m =>
    apply hturn
    simp only [NodeState.turns]
    simp
  | witnessed | passed => cases n <;> exact Nat.le_succ _
  | promoted c e x =>
    by_cases hn : n = c
    · subst hn
      rw [promoted_self]
      exact Nat.le_succ _
    · rw [promoted_of_ne hn]
      exact Nat.le_succ _

theorem turns_run (hrun : ModelRun actions s) : (s.node n).turns ≤ 2 + actions.length := by
  have hle := hrun.quantity_le (fun s => (s.node n).turns)
    fun _ _ _ happly => turns_step (apply.spec happly)
  cases n <;> exact hle

theorem apply_crash (h : (s.node n).powered = true) : apply s (.crash n) =
    .Applied (s.node_mut n fun m => { m with powered := false, gate := none }) := by
  cases n <;> simp [apply, Action.crash, Action.candidate, crash, h]

/-- Crashes and restarts go on until the node has no life left. -/
theorem turns_reached (hk : k + 3 ≤ 2 * UInt64.size) : ∃ actions s, actions.length = k ∧
    ModelRun actions s ∧ (s.node n).turns = 2 + k ∧ (s.node n).fenced = false := by
  induction k with
  | zero => exact ⟨[], .default, rfl, .nil, by cases n <;> rfl, by cases n <;> rfl⟩
  | succ k ih =>
    obtain ⟨actions, s, hlen, hrun, hturns, hnf⟩ := ih (by omega)
    by_cases hup : (s.node n).powered = true
    · refine ⟨_, _, ?_, hrun.snoc (apply_crash hup), ?_, ?_⟩
      · simp [hlen]
      · rw [ModelState.node_mut_self]
        simp only [NodeState.turns, hup] at hturns ⊢
        simp at hturns ⊢
        omega
      · rw [ModelState.node_mut_self]
        exact hnf
    · have hoff : (s.node n).powered = false := by simpa using hup
      have hlife : (s.node n).incarnation.toNat + 1 < UInt64.size := by
        simp only [NodeState.turns, hoff] at hturns
        simp at hturns
        omega
      have hnext : (UInt64.ofNat ((s.node n).incarnation.toNat + 1)).toNat =
          (s.node n).incarnation.toNat + 1 := UInt64.toNat_ofNat_of_lt' hlife
      have hone : u64_checked_add (s.node n).incarnation 1 =
          some (UInt64.ofNat ((s.node n).incarnation.toNat + 1)) := by
        rw [u64_checked_add_eq_some, hnext]
        rfl
      refine ⟨_, _, ?_, hrun.snoc (apply_restart hoff hnf hone), ?_, ?_⟩
      · simp [hlen]
      · rw [ModelState.node_mut_self]
        simp only [NodeState.turns, hoff, hnext] at hturns ⊢
        simp at hturns ⊢
        omega
      · rw [ModelState.node_mut_self]
        exact hnf

/-! ## The law -/

/-- No exploration is final. At every depth that a machine word can hold, one more turn of
the explorer finds new states: some state is reached by that many actions and by no fewer. -/
theorem no_exploration_is_final (h : depth < 2 ^ 64) :
    (explore depth).states_explored < (explore (depth + 1)).states_explored ∧
      ∃ actions s, actions.length = depth + 1 ∧ ModelRun actions s ∧
        ∀ shorter, ModelRun shorter s → actions.length ≤ shorter.length := by
  have hsize : UInt64.size = 2 ^ 64 := rfl
  obtain ⟨actions, s, hlen, hrun, hturns, _⟩ := turns_reached (n := .A) (k := depth + 1) (by omega)
  have hleast : ∀ shorter, ModelRun shorter s → actions.length ≤ shorter.length := by
    intro shorter hshort
    have hle := turns_run (n := .A) hshort
    omega
  refine ⟨?_, actions, s, hlen, hrun, hleast⟩
  unfold explore Exploration.report
  rw [exploration_seen, exploration_seen]
  apply size_lt_of_new
  · exact within_iff.mpr ⟨actions, le_of_eq hlen, hrun⟩
  · intro hbefore
    obtain ⟨shorter, hshort, hrun'⟩ := within_iff.mp hbefore
    have hle := hleast shorter hrun'
    omega

/-- At the depth that the command explores by default. -/
theorem no_exploration_is_final_at_depth_eight :
    (explore 8).states_explored < (explore 9).states_explored :=
  (no_exploration_is_final (by decide)).1

end quorumarc_sim

-- The symmetry of the compact model in its two data nodes. `apply` writes the
-- actions of A and of B out one by one, and a promotion goes through the validator
-- with the names of the nodes; exchanging the nodes commutes with all of it.
import QuorumArc.SimPromotion

open words runs

namespace quorumarc_sim

/-! ## Exchanging the nodes -/

def Node.swap : Node → Node
  | .A => .B
  | .B => .A

/-- The state with the records of A and B exchanged, and with the other holder. -/
def ModelState.swap (s : ModelState) : ModelState :=
  { s with a := s.b, b := s.a, metadata_holder := s.metadata_holder.map Node.swap }

def Action.swap : Action → Action
  | .PartitionA => .PartitionB
  | .HealA => .HealB
  | .PartitionB => .PartitionA
  | .HealB => .HealA
  | .StopWitness => .StopWitness
  | .StartWitness => .StartWitness
  | .CrashA => .CrashB
  | .RestartA => .RestartB
  | .CrashB => .CrashA
  | .RestartB => .RestartA
  | .FenceA => .FenceB
  | .FenceB => .FenceA
  | .LagA => .LagB
  | .CatchUpA => .CatchUpB
  | .LagB => .LagA
  | .CatchUpB => .CatchUpA
  | .PromoteA => .PromoteB
  | .PromoteB => .PromoteA
  | .AdvanceTime => .AdvanceTime

/-- The refusals name no node. -/
def Outcome.swap : Outcome → Outcome
  | .Applied next => .Applied next.swap
  | .Rejected reason => .Rejected reason

@[simp] theorem Outcome.swap_applied (next : ModelState) :
    (Outcome.Applied next).swap = .Applied next.swap := rfl

@[simp] theorem Outcome.swap_rejected (reason : Rejection) :
    (Outcome.Rejected reason).swap = .Rejected reason := rfl

theorem Node.swap_injective : Function.Injective Node.swap := by
  intro m n h
  cases m <;> cases n <;> first | rfl | cases h

/-! ## Reading an exchanged state -/

namespace ModelState

variable (s : ModelState) (n : Node)

@[simp] theorem swap_now_tick : s.swap.now_tick = s.now_tick := rfl

@[simp] theorem swap_epoch : s.swap.epoch = s.epoch := rfl

@[simp] theorem swap_witness_up : s.swap.witness_up = s.witness_up := rfl

@[simp] theorem swap_metadata_lease_expires_at_tick :
    s.swap.metadata_lease_expires_at_tick = s.metadata_lease_expires_at_tick := rfl

@[simp] theorem swap_node : s.swap.node n.swap = s.node n := by
  cases n <;> rfl

@[simp] theorem swap_node_mut (f : NodeState → NodeState) :
    s.swap.node_mut n.swap f = (s.node_mut n f).swap := by
  cases n <;> rfl

@[simp] theorem swap_metadata_holder_none :
    s.swap.metadata_holder = none ↔ s.metadata_holder = none := by
  unfold swap
  simp

@[simp] theorem swap_metadata_holder_some :
    s.swap.metadata_holder = some n.swap ↔ s.metadata_holder = some n := by
  unfold swap
  simp [Node.swap_injective.eq_iff]

end ModelState

/-! ## Exchanged promotions -/

variable (s : ModelState) (n c : Node)

theorem holder_excluded_swap : holder_excluded s.swap = holder_excluded s := by
  unfold holder_excluded
  rcases hh : s.metadata_holder with _ | h
  · rw [s.swap_metadata_holder_none.mpr hh]
  · rw [(s.swap_metadata_holder_some h).mpr hh, s.swap_metadata_lease_expires_at_tick,
      s.swap_now_tick]
    simp only [ModelState.swap_node]

theorem promoted_swap (e : UInt64) (x : UInt8) :
    promoted s.swap c.swap e x = (promoted s c e x).swap := by
  cases c <;> rfl

/-- No entry of the table tells the nodes apart. -/
theorem decision_swap : decision s.swap c.swap = (decision s c).swap := by
  unfold decision
  simp only [ModelState.swap_node, ModelState.swap_now_tick, ModelState.swap_epoch,
    ModelState.swap_witness_up, ModelState.swap_metadata_holder_none,
    ModelState.swap_metadata_holder_some, holder_excluded_swap, promoted_swap]
  rcases u64_checked_add s.epoch 1 with _ | e
  · simp only [apply_ite Outcome.swap, Outcome.swap_rejected]
  rcases u8_checked_add s.now_tick 3 with _ | x
  · simp only [apply_ite Outcome.swap, Outcome.swap_rejected]
  · simp only [apply_ite Outcome.swap, Outcome.swap_rejected, Outcome.swap_applied]

theorem promote_swap : promote s.swap c.swap = (promote s c).swap := by
  rw [promote_eq_decision, promote_eq_decision]
  exact decision_swap s c

/-! ## Exchanged faults and repairs -/

theorem set_connection_swap (up : Bool) :
    set_connection s.swap n.swap up = Prod.map id ModelState.swap (set_connection s n up) := by
  simp [set_connection]

theorem set_caught_up_swap (caught_up : Bool) :
    set_caught_up s.swap n.swap caught_up =
      Prod.map id ModelState.swap (set_caught_up s n caught_up) := by
  simp [set_caught_up]

theorem set_witness_swap (up : Bool) :
    set_witness s.swap up = Prod.map id ModelState.swap (set_witness s up) := rfl

theorem crash_swap : crash s.swap n.swap = Prod.map id ModelState.swap (crash s n) := by
  unfold crash
  simp only [ModelState.swap_node, ModelState.swap_node_mut]
  split <;> rfl

theorem restart_swap : restart s.swap n.swap = Prod.map id ModelState.swap (restart s n) := by
  unfold restart
  simp only [ModelState.swap_node, ModelState.swap_node_mut]
  split
  · rfl
  · split <;> rfl

theorem fence_swap : fence s.swap n.swap = Prod.map id ModelState.swap (fence s n) := by
  simp [fence]

/-- What makes an exchanged change makes the exchanged outcome. -/
theorem changed_swap {r r' : Bool × ModelState} (h : r' = Prod.map id ModelState.swap r) :
    (if r'.1 then Outcome.Applied r'.2 else .Rejected .NoStateChange) =
      (if r.1 then Outcome.Applied r.2 else .Rejected .NoStateChange).swap := by
  obtain ⟨changed, next⟩ := r
  subst h
  cases changed <;> rfl

theorem apply_swap (a : Action) : apply s.swap a.swap = (apply s a).swap := by
  cases a with
  | PromoteA => exact promote_swap s .A
  | PromoteB => exact promote_swap s .B
  | PartitionA => exact changed_swap (set_connection_swap s .A false)
  | HealA => exact changed_swap (set_connection_swap s .A true)
  | PartitionB => exact changed_swap (set_connection_swap s .B false)
  | HealB => exact changed_swap (set_connection_swap s .B true)
  | StopWitness => exact changed_swap (set_witness_swap s false)
  | StartWitness => exact changed_swap (set_witness_swap s true)
  | CrashA => exact changed_swap (crash_swap s .A)
  | RestartA => exact changed_swap (restart_swap s .A)
  | CrashB => exact changed_swap (crash_swap s .B)
  | RestartB => exact changed_swap (restart_swap s .B)
  | FenceA => exact changed_swap (fence_swap s .A)
  | FenceB => exact changed_swap (fence_swap s .B)
  | LagA => exact changed_swap (set_caught_up_swap s .A false)
  | CatchUpA => exact changed_swap (set_caught_up_swap s .A true)
  | LagB => exact changed_swap (set_caught_up_swap s .B false)
  | CatchUpB => exact changed_swap (set_caught_up_swap s .B true)
  | AdvanceTime =>
    rcases ht : u8_checked_add s.now_tick 1 with _ | t
    · simp [apply, Action.swap, Action.candidate, ht]
    · simp [apply, Action.swap, Action.candidate, ModelState.swap, ht]

variable {s : ModelState} {actions : List Action}

/-- The exchanged actions lead to the exchanged state. -/
theorem modelRun_swap (hrun : ModelRun actions s) :
    ModelRun (actions.map Action.swap) s.swap := by
  refine hrun.map ModelState.swap Action.swap ?_
  intro s a s' happly
  rw [apply_swap, happly]
  rfl

/-! ## The law -/

/-- The data nodes are interchangeable, in every state: an action that leads to
a state leads to the exchanged one when the nodes are exchanged, and one that is
refused is refused for the same reason. So the reachable states are closed
under the exchange. -/
theorem nodes_are_interchangeable :
    (∀ s a next, apply s a = .Applied next → apply s.swap a.swap = .Applied next.swap) ∧
    (∀ s a reason, apply s a = .Rejected reason → apply s.swap a.swap = .Rejected reason) ∧
    ∀ actions s, ModelRun actions s → ModelRun (actions.map Action.swap) s.swap := by
  refine ⟨?_, ?_, ?_⟩
  · intro s a next h
    rw [apply_swap, h]
    rfl
  · intro s a reason h
    rw [apply_swap, h]
    rfl
  · intro actions s hrun
    exact modelRun_swap hrun

theorem nodes_are_interchangeable_after_promotion :
    apply .default .PromoteB = .Applied (promoted .default .B 1 3) ∧
    ModelRun [.PromoteB] (promoted .default .B 1 3) := by
  obtain ⟨happlied, _, hreachable⟩ := nodes_are_interchangeable
  have happly : apply .default .PromoteA = .Applied (promoted .default .A 1 3) := by decide
  exact ⟨happlied _ _ _ happly, hreachable [.PromoteA] _ (Run.nil.snoc happly)⟩

end quorumarc_sim

-- The compact model of `quorumarc-sim`: two data nodes and a witness. A
-- promotion runs the validator and the gate of the core; every other action is a
-- fault, a repair or the passage of time.
import QuorumArc.Gate

open quorumarc_core words

namespace quorumarc_sim

/-! ## The state of the model -/

/-- Model node identity. -/
inductive Node where
  | A
  | B
deriving DecidableEq, Repr

structure GateLease where
  epoch : UInt64
  incarnation : UInt64
  expires_at_tick : UInt8
deriving DecidableEq

structure NodeState where
  powered : Bool
  connected_to_witness : Bool
  fenced : Bool
  caught_up : Bool
  accepted_epoch : UInt64
  incarnation : UInt64
  gate : Option GateLease
deriving DecidableEq

def NodeState.initial : NodeState where
  powered := true
  connected_to_witness := true
  fenced := false
  caught_up := true
  accepted_epoch := 0
  incarnation := 1
  gate := none

def NodeState.gate_is_effective (n : NodeState) (now_tick : UInt8) : Bool :=
  n.powered && !n.fenced &&
    match n.gate with
    | some lease =>
      lease.epoch > 0 && lease.incarnation == n.incarnation && now_tick < lease.expires_at_tick
    | none => false

/-- Complete compact model state. -/
structure ModelState where
  now_tick : UInt8
  epoch : UInt64
  metadata_holder : Option Node
  metadata_lease_expires_at_tick : Option UInt8
  witness_up : Bool
  a : NodeState
  b : NodeState
deriving DecidableEq

namespace ModelState

def default : ModelState where
  now_tick := 0
  epoch := 0
  metadata_holder := none
  metadata_lease_expires_at_tick := none
  witness_up := true
  a := .initial
  b := .initial

def node (state : ModelState) : Node → NodeState
  | .A => state.a
  | .B => state.b

/-- The state after `update` was applied to the node that `node_mut` gives. -/
def node_mut (state : ModelState) (node : Node) (update : NodeState → NodeState) : ModelState :=
  match node with
  | .A => { state with a := update state.a }
  | .B => { state with b := update state.b }

/-- Number of nodes that can currently create external effects. -/
def active_writers (state : ModelState) : Nat :=
  (state.a.gate_is_effective state.now_tick).toNat +
    (state.b.gate_is_effective state.now_tick).toNat

end ModelState

/-- Fault or control action explored at every state. -/
inductive Action where
  | PartitionA
  | HealA
  | PartitionB
  | HealB
  | StopWitness
  | StartWitness
  | CrashA
  | RestartA
  | CrashB
  | RestartB
  | FenceA
  | FenceB
  | LagA
  | CatchUpA
  | LagB
  | CatchUpB
  | PromoteA
  | PromoteB
  | AdvanceTime
deriving DecidableEq, Repr

def Action.candidate : Action → Option Node
  | .PromoteA => some .A
  | .PromoteB => some .B
  | _ => none

inductive Rejection where
  | NoQuorum
  | CandidateUnavailable
  | CandidateBehind
  | OldGateEffective
  | AlreadyEffective
  | CoreRefused
  | NoStateChange
deriving DecidableEq, Repr

inductive Outcome where
  | Applied (next : ModelState)
  | Rejected (reason : Rejection)
deriving DecidableEq

/-! ## Faults and repairs

Each gives back whether it changed the state, with the state after it. -/

def set_bool (target value : Bool) : Bool × Bool := (target != value, value)

def set_connection (state : ModelState) (node : Node) (connected : Bool) : Bool × ModelState :=
  let (changed, value) := set_bool (state.node node).connected_to_witness connected
  (changed, state.node_mut node fun n => { n with connected_to_witness := value })

def set_caught_up (state : ModelState) (node : Node) (caught_up : Bool) : Bool × ModelState :=
  let (changed, value) := set_bool (state.node node).caught_up caught_up
  (changed, state.node_mut node fun n => { n with caught_up := value })

def set_witness (state : ModelState) (up : Bool) : Bool × ModelState :=
  let (changed, value) := set_bool state.witness_up up
  (changed, { state with witness_up := value })

def crash (state : ModelState) (node : Node) : Bool × ModelState :=
  if !(state.node node).powered then (false, state)
  else (true, state.node_mut node fun n => { n with powered := false, gate := none })

def restart (state : ModelState) (node : Node) : Bool × ModelState :=
  if (state.node node).powered || (state.node node).fenced then (false, state)
  else
    match u64_checked_add (state.node node).incarnation 1 with
    | none => (false, state)
    | some incarnation =>
      (true, state.node_mut node fun n =>
        { n with powered := true, connected_to_witness := true, incarnation, gate := none })

def fence (state : ModelState) (node : Node) : Bool × ModelState :=
  let n := state.node node
  (!n.fenced || n.powered || n.gate.isSome,
    state.node_mut node fun n => { n with fenced := true, powered := false, gate := none })

/-! ## The evidence of a promotion -/

theorem valid_node_a : validate_identifier "node-a" = .ok "node-a" := by decide

theorem valid_node_b : validate_identifier "node-b" = .ok "node-b" := by decide

theorem valid_witness : validate_identifier "witness" = .ok "witness" := by decide

theorem valid_workload : validate_identifier "model-workload" = .ok "model-workload" := by decide

def model_node_id : Node → NodeId
  | .A => ⟨"node-a", valid_node_a⟩
  | .B => ⟨"node-b", valid_node_b⟩

def model_witness_id : NodeId := ⟨"witness", valid_witness⟩

def model_workload : WorkloadId := ⟨"model-workload", valid_workload⟩

def model_policy_hash : PolicyHash := ⟨Vector.replicate 32 5⟩

def model_state_root : StateRoot := ⟨Vector.replicate 32 1⟩

/-- A tick is 100 milliseconds. -/
def tick_ms (tick : UInt8) : UInt64 := tick.toUInt64 * 100

def current_authority (state : ModelState) : AuthorityState where
  epoch := ⟨state.epoch⟩
  holder := state.metadata_holder.map model_node_id
  lease_expires_at_ms := state.metadata_lease_expires_at_tick.map tick_ms

/-- The target and the mechanism of the fence receipt. -/
def fence_evidence (state : ModelState) : Option NodeId × FenceMechanism :=
  match state.metadata_holder with
  | none => (none, .Bootstrap)
  | some holder =>
    let mechanism :=
      if (state.node holder).fenced then FenceMechanism.HardwarePower
      else FenceMechanism.EffectGateExpired
    (some (model_node_id holder), mechanism)

def promotion_proof (state : ModelState) (candidate : Node) (new_epoch : UInt64)
    (expires_at_tick : UInt8) : PromotionProof :=
  let candidate_state := state.node candidate
  let now_ms := tick_ms state.now_tick
  let expires_at_ms := tick_ms expires_at_tick
  let candidate_id := model_node_id candidate
  let witness_id := model_witness_id
  let required_commit : CommitIndex := ⟨10⟩
  let incarnation : Incarnation := ⟨candidate_state.incarnation⟩
  { workload := model_workload
    candidate := candidate_id
    candidate_incarnation := incarnation
    epoch := ⟨new_epoch⟩
    policy_hash := model_policy_hash
    quorum :=
      { epoch := ⟨new_epoch⟩
        workload := model_workload
        candidate := candidate_id
        candidate_incarnation := incarnation
        policy_hash := model_policy_hash
        required_commit
        state_root := model_state_root
        lease_not_before_ms := now_ms
        lease_expires_at_ms := expires_at_ms
        voters := [candidate_id, witness_id] }
    fence :=
      { epoch := ⟨new_epoch⟩
        target := (fence_evidence state).1
        verifier := witness_id
        mechanism := (fence_evidence state).2
        observed_at_ms := now_ms }
    state :=
      { required_commit
        durable_commit := if candidate_state.caught_up then required_commit else ⟨9⟩
        state_root := model_state_root
        observed_at_ms := now_ms }
    health :=
      { workload := model_workload
        node := candidate_id
        incarnation
        epoch := ⟨new_epoch⟩
        healthy := candidate_state.powered
        passed_checks := 3
        observed_at_ms := now_ms }
    lease :=
      { workload := model_workload
        holder := candidate_id
        incarnation
        epoch := ⟨new_epoch⟩
        not_before_ms := now_ms
        expires_at_ms } }

def policy_result : Except PolicyError SafetyPolicy :=
  SafetyPolicy.new model_workload model_policy_hash [model_node_id .A, model_node_id .B]
    [model_node_id .A, model_node_id .B, model_witness_id] 2 (some model_witness_id) 3 500 300 100
    true

/-! ## Promotion -/

/-- The fresh gate of the candidate: stage, confirm, activate, and check one
effect, all at `now_ms`. -/
def gate_admits (gate : EffectGate) (now_ms : UInt64) (authorization : ValidatedPromotion)
    (candidate_id : NodeId) (epoch : Epoch) : Bool :=
  match gate.stage now_ms authorization with
  | (.error _, _) => false
  | (.ok record, gate) =>
    match gate.confirm_persisted record with
    | (.error _, _) => false
    | (.ok _, gate) =>
      match gate.activate now_ms with
      | (.error _, _) => false
      | (.ok _, gate) =>
        match gate.check_effect now_ms candidate_id epoch with
        | (.error _, _) => false
        | (.ok _, _) => true

/-- The state after an admitted promotion. -/
def promoted (state : ModelState) (candidate : Node) (new_epoch : UInt64)
    (expires_at_tick : UInt8) : ModelState :=
  let next := { state with
    epoch := new_epoch
    metadata_holder := some candidate
    metadata_lease_expires_at_tick := some expires_at_tick }
  next.node_mut candidate fun node =>
    { node with
      accepted_epoch := new_epoch
      gate := some
        { epoch := new_epoch, incarnation := (state.node candidate).incarnation, expires_at_tick } }

def promote (state : ModelState) (candidate : Node) : Outcome :=
  let candidate_state := state.node candidate
  if !candidate_state.powered || candidate_state.fenced then .Rejected .CandidateUnavailable
  else if !candidate_state.connected_to_witness || !state.witness_up then .Rejected .NoQuorum
  else if candidate_state.gate_is_effective state.now_tick then .Rejected .AlreadyEffective
  else
    match u64_checked_add state.epoch 1, u8_checked_add state.now_tick 3 with
    | none, _ | some _, none => .Rejected .NoStateChange
    | some new_epoch, some expires_at_tick =>
      let now_ms := tick_ms state.now_tick
      let proof := promotion_proof state candidate new_epoch expires_at_tick
      match policy_result with
      | .error _ => .Rejected .CoreRefused
      | .ok policy =>
        match validate_promotion proof (current_authority state) policy now_ms with
        | .error .CandidateStateBehind => .Rejected .CandidateBehind
        | .error .FenceGuardNotElapsed => .Rejected .OldGateEffective
        | .error .CandidateAlreadyHoldsAuthority => .Rejected .AlreadyEffective
        | .error _ => .Rejected .CoreRefused
        | .ok authorization =>
          let recovery : GateRecoveryState :=
            { accepted_epoch := ⟨candidate_state.accepted_epoch⟩
              incarnation := ⟨candidate_state.incarnation⟩
              last_observed_ms := now_ms }
          let gate := EffectGate.recover (model_node_id candidate) model_workload model_policy_hash
            recovery
          if gate_admits gate now_ms authorization (model_node_id candidate) ⟨new_epoch⟩ then
            .Applied (promoted state candidate new_epoch expires_at_tick)
          else .Rejected .CoreRefused

def apply (state : ModelState) (action : Action) : Outcome :=
  match action.candidate with
  | some candidate => promote state candidate
  | none =>
    let (changed, next) :=
      match action with
      | .PartitionA => set_connection state .A false
      | .HealA => set_connection state .A true
      | .PartitionB => set_connection state .B false
      | .HealB => set_connection state .B true
      | .StopWitness => set_witness state false
      | .StartWitness => set_witness state true
      | .CrashA => crash state .A
      | .RestartA => restart state .A
      | .CrashB => crash state .B
      | .RestartB => restart state .B
      | .FenceA => fence state .A
      | .FenceB => fence state .B
      | .LagA => set_caught_up state .A false
      | .CatchUpA => set_caught_up state .A true
      | .LagB => set_caught_up state .B false
      | .CatchUpB => set_caught_up state .B true
      | .AdvanceTime =>
        match u8_checked_add state.now_tick 1 with
        | none => (false, state)
        | some value => (true, { state with now_tick := value })
      | .PromoteA | .PromoteB => (false, state)
    if changed then .Applied next else .Rejected .NoStateChange

end quorumarc_sim

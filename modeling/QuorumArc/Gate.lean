-- The node-local effect gate of `gate.rs`. The trusted clock is a parameter:
-- an operation that reads the clock takes its reading `now_ms`, and gives back
-- its answer with the gate after it.
import QuorumArc.Proof

namespace quorumarc_core

/-! ## The state of a gate -/

/-- Local reason for closing a once-prepared gate. -/
inductive SelfFenceReason where
  | LeaseExpired
  | ExplicitClose
  | SafetyFault
deriving DecidableEq, Repr

/-- Observable state of one node-local effect gate. -/
inductive GateState where
  | Closed (last_epoch : Epoch)
  | Staged (authorization : ValidatedPromotion)
  | Prepared (authorization : ValidatedPromotion)
  | Open (holder : NodeId) (epoch : Epoch) (expires_at_ms : UInt64)
  | SelfFenced (last_epoch : Epoch) (reason : SelfFenceReason)
deriving DecidableEq

/-- Highest epoch that the state remembers. -/
def GateState.last_epoch : GateState → Epoch
  | .Closed last_epoch | .SelfFenced last_epoch _ => last_epoch
  | .Staged authorization | .Prepared authorization => authorization.epoch
  | .Open _ epoch _ => epoch

/-- Audit material emitted when a prepared gate becomes active. -/
structure ContinuityReceipt where
  workload : WorkloadId
  holder : NodeId
  incarnation : Incarnation
  epoch : Epoch
  activated_at_ms : UInt64
  expires_at_ms : UInt64
  durable_commit : CommitIndex
  state_root : StateRoot
  fence_class : FenceClass
  policy_hash : PolicyHash
deriving DecidableEq

/-- The receipt of an authorization that is activated at `now_ms`. -/
def receiptOf (authorization : ValidatedPromotion) (now_ms : UInt64) : ContinuityReceipt where
  workload := authorization.workload
  holder := authorization.candidate
  incarnation := authorization.candidate_incarnation
  epoch := authorization.epoch
  activated_at_ms := now_ms
  expires_at_ms := authorization.expires_at_ms
  durable_commit := authorization.durable_commit
  state_root := authorization.state_root
  fence_class := authorization.fence_class
  policy_hash := authorization.policy_hash

/-- Trusted durable state supplied when a gate process starts. -/
structure GateRecoveryState where
  accepted_epoch : Epoch
  incarnation : Incarnation
  last_observed_ms : UInt64
deriving DecidableEq

/-- Record that must be durably committed before `confirm_persisted` is called. -/
structure GatePersistenceRecord where
  node : NodeId
  workload : WorkloadId
  policy_hash : PolicyHash
  accepted_epoch : Epoch
  incarnation : Incarnation
  last_observed_ms : UInt64
deriving DecidableEq

/-- Typed local gate refusal. -/
inductive GateError where
  | GateBindingMismatch
  | WrongCandidate
  | IncarnationMismatch
  | StaleAuthorization
  | AlreadyOpen
  | NotStaged
  | PersistenceMismatch
  | NotPrepared
  | LeaseNotStarted
  | LeaseExpired
  | GateClosed
  | ClockRollback
deriving DecidableEq, Repr

/-- Node-local, fail-closed external-effect gate. -/
structure EffectGate where
  node : NodeId
  workload : WorkloadId
  policy_hash : PolicyHash
  incarnation : Incarnation
  last_observed_ms : UInt64
  state : GateState
deriving DecidableEq

namespace EffectGate

/-- Recovers a closed gate from trusted durable anti-replay state. -/
def recover (node : NodeId) (workload : WorkloadId) (policy_hash : PolicyHash)
    (recovery : GateRecoveryState) : EffectGate where
  node := node
  workload := workload
  policy_hash := policy_hash
  incarnation := recovery.incarnation
  last_observed_ms := recovery.last_observed_ms
  state := .Closed recovery.accepted_epoch

def persistence_record (g : EffectGate) (authorization : ValidatedPromotion) :
    GatePersistenceRecord where
  node := g.node
  workload := g.workload
  policy_hash := g.policy_hash
  accepted_epoch := authorization.epoch
  incarnation := g.incarnation
  last_observed_ms := g.last_observed_ms

/-! ## The operations -/

/-- The gate after it closed itself: it keeps the epoch of its state. -/
def fenced (g : EffectGate) (reason : SelfFenceReason) : EffectGate :=
  { g with state := .SelfFenced g.state.last_epoch reason }

/-- The gate after it read the time `now_ms`. -/
def observed (g : EffectGate) (now_ms : UInt64) : EffectGate :=
  { g with last_observed_ms := now_ms }

def observe_time (g : EffectGate) (now_ms : UInt64) : Except GateError UInt64 × EffectGate :=
  if now_ms < g.last_observed_ms then (.error .ClockRollback, g.fenced .SafetyFault)
  else (.ok now_ms, g.observed now_ms)

/-- The end of `stage`, for an authorization that is not already pending. -/
def stage_newer (g : EffectGate) (authorization : ValidatedPromotion) :
    Except GateError GatePersistenceRecord × EffectGate :=
  if authorization.epoch ≤ g.state.last_epoch then (.error .StaleAuthorization, g)
  else (.ok (g.persistence_record authorization), { g with state := .Staged authorization })

/-- Stages a proof and returns the anti-replay record that must be persisted. -/
def stage (g : EffectGate) (now_ms : UInt64) (authorization : ValidatedPromotion) :
    Except GateError GatePersistenceRecord × EffectGate :=
  match g.observe_time now_ms with
  | (.error e, g) => (.error e, g)
  | (.ok _, g) =>
    if authorization.workload ≠ g.workload ∨ authorization.policy_hash ≠ g.policy_hash then
      (.error .GateBindingMismatch, g)
    else if authorization.candidate ≠ g.node then (.error .WrongCandidate, g)
    else if authorization.candidate_incarnation ≠ g.incarnation then
      (.error .IncarnationMismatch, g)
    else
      match g.state with
      | .Staged existing | .Prepared existing =>
        if existing = authorization then (.ok (g.persistence_record existing), g)
        else g.stage_newer authorization
      | .Open .. => (.error .AlreadyOpen, g)
      | _ => g.stage_newer authorization

/-- Confirms that the exact staged anti-replay record is durably committed. -/
def confirm_persisted (g : EffectGate) (record : GatePersistenceRecord) :
    Except GateError Unit × EffectGate :=
  let staged := g.state
  let g := { g with state := .Closed g.state.last_epoch }
  match staged with
  | .Staged authorization =>
    if g.persistence_record authorization ≠ record then
      (.error .PersistenceMismatch, { g with state := .Staged authorization })
    else (.ok (), { g with state := .Prepared authorization })
  | other => (.error .NotStaged, { g with state := other })

/-- Opens effects for a prepared, currently active lease and emits a receipt. -/
def activate (g : EffectGate) (now_ms : UInt64) : Except GateError ContinuityReceipt × EffectGate :=
  match g.observe_time now_ms with
  | (.error e, g) => (.error e, g)
  | (.ok now_ms, g) =>
    match g.state with
    | .Prepared authorization =>
      if now_ms < authorization.not_before_ms then (.error .LeaseNotStarted, g)
      else if now_ms ≥ authorization.expires_at_ms then
        (.error .LeaseExpired, { g with state := .SelfFenced authorization.epoch .LeaseExpired })
      else
        let receipt := receiptOf authorization now_ms
        (.ok receipt,
          { g with state := .Open receipt.holder receipt.epoch receipt.expires_at_ms })
    | _ => (.error .NotPrepared, g)

/-- Authorizes one effect only for the exact live holder and epoch. -/
def check_effect (g : EffectGate) (now_ms : UInt64) (holder : NodeId) (epoch : Epoch) :
    Except GateError Unit × EffectGate :=
  match g.observe_time now_ms with
  | (.error e, g) => (.error e, g)
  | (.ok now_ms, g) =>
    match g.state with
    | .Open active_holder active_epoch expires_at_ms =>
      if now_ms ≥ expires_at_ms then
        (.error .LeaseExpired, { g with state := .SelfFenced active_epoch .LeaseExpired })
      else if active_holder ≠ holder then (.error .WrongCandidate, g)
      else if active_epoch ≠ epoch then (.error .StaleAuthorization, g)
      else (.ok (), g)
    | _ => (.error .GateClosed, g)

/-- Applies time passage and self-fences an expired open gate. -/
def tick (g : EffectGate) (now_ms : UInt64) : Except GateError Bool × EffectGate :=
  match g.observe_time now_ms with
  | (.error e, g) => (.error e, g)
  | (.ok now_ms, g) =>
    let expired_epoch :=
      match g.state with
      | .Open _ epoch expires_at_ms => if now_ms ≥ expires_at_ms then some epoch else none
      | _ => none
    match expired_epoch with
    | some last_epoch => (.ok true, { g with state := .SelfFenced last_epoch .LeaseExpired })
    | none => (.ok false, g)

/-- Explicitly closes a gate while retaining anti-replay epoch memory. -/
def close (g : EffectGate) : EffectGate := g.fenced .ExplicitClose

/-- Closes a gate after a trusted local adapter reports a safety fault. -/
def safety_fault (g : EffectGate) : EffectGate := g.fenced .SafetyFault

end EffectGate

end quorumarc_core

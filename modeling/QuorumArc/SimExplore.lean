-- The explorer of the compact model: `explore` tries every action in every state
-- it has not seen before, layer after layer. Its loops are over any start, any
-- step function and any count of writers.
import Mathlib.Data.Prod.Lex
import Mathlib.Order.WithBot
import QuorumArc.Levels
import QuorumArc.SimChanges

open levels

namespace quorumarc_sim

/-! ## The order of the states

The order that Rust derives: field by field, and `None` before `Some`. -/

def ordered {α : Type} : Option α → WithBot α
  | none => ⊥
  | some a => a

theorem ordered_injective {α : Type} : Function.Injective (ordered (α := α)) := by
  intro x y h
  cases x <;> cases y <;> simp_all [ordered]

def Node.key : Node → Bool
  | .A => false
  | .B => true

def GateLease.key (l : GateLease) : ℕ ×ₗ ℕ ×ₗ ℕ :=
  toLex (l.epoch.toNat, toLex (l.incarnation.toNat, l.expires_at_tick.toNat))

theorem Node.key_injective : Function.Injective Node.key := by
  intro m n h
  cases m <;> cases n <;> first | rfl | cases h

theorem GateLease.key_injective : Function.Injective GateLease.key := by
  rintro ⟨e, i, x⟩ ⟨e', i', x'⟩ h
  simpa [GateLease.key, UInt64.toNat_inj, UInt8.toNat_inj] using h

def NodeState.key (n : NodeState) :
    Bool ×ₗ Bool ×ₗ Bool ×ₗ Bool ×ₗ ℕ ×ₗ ℕ ×ₗ WithBot (ℕ ×ₗ ℕ ×ₗ ℕ) :=
  toLex (n.powered, toLex (n.connected_to_witness, toLex (n.fenced, toLex (n.caught_up,
    toLex (n.accepted_epoch.toNat, toLex (n.incarnation.toNat,
      ordered (n.gate.map GateLease.key)))))))

theorem NodeState.key_injective : Function.Injective NodeState.key := by
  rintro ⟨p, w, f, c, e, i, g⟩ ⟨p', w', f', c', e', i', g'⟩ h
  simpa [NodeState.key, UInt64.toNat_inj, ordered_injective.eq_iff,
    (Option.map_injective GateLease.key_injective).eq_iff] using h

instance NodeState.linearOrder : LinearOrder NodeState :=
  LinearOrder.lift' _ NodeState.key_injective

def ModelState.key (s : ModelState) :
    ℕ ×ₗ ℕ ×ₗ WithBot Bool ×ₗ WithBot ℕ ×ₗ Bool ×ₗ NodeState ×ₗ NodeState :=
  toLex (s.now_tick.toNat, toLex (s.epoch.toNat, toLex (ordered (s.metadata_holder.map Node.key),
    toLex (ordered (s.metadata_lease_expires_at_tick.map UInt8.toNat), toLex (s.witness_up,
      toLex (s.a, s.b))))))

theorem ModelState.key_injective : Function.Injective ModelState.key := by
  rintro ⟨t, e, h, x, w, a, b⟩ ⟨t', e', h', x', w', a', b'⟩ heq
  have hu8 : Function.Injective UInt8.toNat := fun _ _ => UInt8.toNat_inj.mp
  simpa [ModelState.key, UInt64.toNat_inj, UInt8.toNat_inj, ordered_injective.eq_iff,
    (Option.map_injective Node.key_injective).eq_iff, (Option.map_injective hu8).eq_iff] using heq

instance ModelState.linearOrder : LinearOrder ModelState :=
  LinearOrder.lift' _ ModelState.key_injective

/-! ## The explorer -/

/-- The actions in the order in which they are tried. -/
def Action.ALL : List Action :=
  [.PartitionA, .HealA, .PartitionB, .HealB, .StopWitness, .StartWitness, .CrashA, .RestartA,
    .CrashB, .RestartB, .FenceA, .FenceB, .LagA, .CatchUpA, .LagB, .CatchUpB, .PromoteA, .PromoteB,
    .AdvanceTime]

/-- A reachable state that violated the single-writer invariant. -/
structure Violation where
  trace : List Action
  active_writers : ℕ
deriving DecidableEq, Repr

/-- Deterministic state-space exploration summary. -/
structure SimulationReport where
  depth : ℕ
  states_explored : ℕ
  transitions_explored : ℕ
  rejected_promotions : ℕ
  violations : List Violation
deriving DecidableEq, Repr

/-- Whether no invariant violation was found in the explored state space. -/
def SimulationReport.is_safe (report : SimulationReport) : Bool := report.violations.isEmpty

/-- The variables of the loops of `explore`. The last one is not in the source:
the states whose actions were tried, in order. -/
structure Exploration (S : Type*) [LinearOrder S] where
  seen : Traces S Action
  next_frontier : Traces S Action
  transitions_explored : ℕ
  rejected_promotions : ℕ
  violations : List Violation
  expanded : List S

section explorer

variable {S : Type*} [LinearOrder S] (step : S → Action → Except Rejection S) (writers : S → ℕ)

/-- The body of the innermost loop: one action in one state of the frontier. -/
def explore_action (state : S) (trace : List Action) (ex : Exploration S) (action : Action) :
    Exploration S :=
  match step state action with
  | .ok next =>
    let next_trace := trace ++ [action]
    let active_writers := writers next
    let ex := { ex with
      transitions_explored := ex.transitions_explored + 1
      violations :=
        if active_writers > 1 then ex.violations ++ [{ trace := next_trace, active_writers }]
        else ex.violations }
    if next ∈ ex.seen then ex
    else { ex with
      seen := ex.seen.insert next next_trace
      next_frontier := ex.next_frontier.insert next next_trace }
  | .error reason =>
    if action.candidate.isSome && reason != .NoStateChange then
      { ex with rejected_promotions := ex.rejected_promotions + 1 }
    else ex

/-- One state of the frontier. -/
def explore_state (ex : Exploration S) (entry : S × List Action) : Exploration S :=
  Action.ALL.foldl (explore_action step writers entry.1 entry.2)
    { ex with expanded := ex.expanded ++ [entry.1] }

/-- One turn of the outer loop. -/
def explore_layer (frontier : Traces S Action) (ex : Exploration S) : Exploration S :=
  frontier.toList.foldl (explore_state step writers) { ex with next_frontier := ∅ }

/-- The outer loop: it stops early when a turn found no new state. -/
def explore_loop : ℕ → Traces S Action → Exploration S → Exploration S
  | 0, _, ex => ex
  | turns + 1, frontier, ex =>
    let ex := explore_layer step writers frontier ex
    if ex.next_frontier.isEmpty then ex else explore_loop turns ex.next_frontier ex

/-- The exploration from `start`, before the report is made. -/
def explore_from (start : S) (depth : ℕ) : Exploration S :=
  let initial : Traces S Action := (∅ : Traces S Action).insert start []
  explore_loop step writers depth initial
    { seen := initial
      next_frontier := ∅
      transitions_explored := 0
      rejected_promotions := 0
      violations := []
      expanded := [] }

end explorer

def Exploration.report {S : Type*} [LinearOrder S] (ex : Exploration S) (depth : ℕ) :
    SimulationReport where
  depth
  states_explored := ex.seen.size
  transitions_explored := ex.transitions_explored
  rejected_promotions := ex.rejected_promotions
  violations := ex.violations

/-- The loops of `explore`, over the actions and the writers of the model. -/
def exploration (depth : ℕ) : Exploration ModelState :=
  explore_from (fun s a => (apply s a).result) ModelState.active_writers .default depth

/-- Exhaustively explores all compact-model action interleavings up to `depth`. -/
def explore (depth : ℕ) : SimulationReport := (exploration depth).report depth

end quorumarc_sim

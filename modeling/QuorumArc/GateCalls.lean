-- The calls of a gate. `step` runs one call, and `Outcome` says once what a
-- call can do to a gate, so the laws of a gate are case analyses on it.
import QuorumArc.Acceptance
import QuorumArc.Gate
import QuorumArc.Runs

open runs

namespace quorumarc_core

/-! ## Calls and answers -/

/-- A call of a gate, with the clock reading of a call that reads the clock. -/
inductive Call where
  | stage (now_ms : UInt64) (authorization : ValidatedPromotion)
  | confirm_persisted (record : GatePersistenceRecord)
  | activate (now_ms : UInt64)
  | check_effect (now_ms : UInt64) (holder : NodeId) (epoch : Epoch)
  | tick (now_ms : UInt64)
  | close
  | safety_fault
deriving DecidableEq

/-- The time that the call reads, if it reads the clock. -/
def Call.reading? : Call → Option UInt64
  | .stage now_ms _ | .activate now_ms | .check_effect now_ms _ _ | .tick now_ms => some now_ms
  | .confirm_persisted _ | .close | .safety_fault => none

/-- What a call that succeeds gives back. -/
inductive Reply where
  | Record (record : GatePersistenceRecord)
  | Confirmed
  | Receipt (receipt : ContinuityReceipt)
  | Allowed
  | Expired (closed : Bool)
  | Done
deriving DecidableEq

abbrev Answer := Except GateError Reply

namespace EffectGate

def step (g : EffectGate) : Call → Answer × EffectGate
  | .stage now_ms v => ((g.stage now_ms v).1.map .Record, (g.stage now_ms v).2)
  | .confirm_persisted r =>
    ((g.confirm_persisted r).1.map fun _ => .Confirmed, (g.confirm_persisted r).2)
  | .activate now_ms => ((g.activate now_ms).1.map .Receipt, (g.activate now_ms).2)
  | .check_effect now_ms h e =>
    ((g.check_effect now_ms h e).1.map fun _ => .Allowed, (g.check_effect now_ms h e).2)
  | .tick now_ms => ((g.tick now_ms).1.map .Expired, (g.tick now_ms).2)
  | .close => (.ok .Done, g.close)
  | .safety_fault => (.ok .Done, g.safety_fault)

/-! ## What a call can do -/

@[simp] theorem observed_state (g : EffectGate) (t : UInt64) : (g.observed t).state = g.state := rfl

@[simp] theorem observed_last_observed_ms (g : EffectGate) (t : UInt64) :
    (g.observed t).last_observed_ms = t := rfl

@[simp] theorem fenced_state (g : EffectGate) (r : SelfFenceReason) :
    (g.fenced r).state = .SelfFenced g.state.last_epoch r := rfl

@[simp] theorem fenced_last_observed_ms (g : EffectGate) (r : SelfFenceReason) :
    (g.fenced r).last_observed_ms = g.last_observed_ms := rfl

/-- The capability is for this workload, policy, node and boot of the node. -/
structure Bound (g : EffectGate) (v : ValidatedPromotion) : Prop where
  workload : v.workload = g.workload
  policy_hash : v.policy_hash = g.policy_hash
  candidate : v.candidate = g.node
  incarnation : v.candidate_incarnation = g.incarnation

/-- The capability that waits for its commit or for its activation. -/
def Pending (g : EffectGate) (v : ValidatedPromotion) : Prop :=
  g.state = .Staged v ∨ g.state = .Prepared v

def IsOpen (g : EffectGate) : Prop := ∃ h e x, g.state = .Open h e x

/-- Why a call that read the time `now_ms` is refused with the state as it was. -/
inductive Refusal (g : EffectGate) (now_ms : UInt64) : Call → GateError → Prop
  | binding {v} : ¬ (v.workload = g.workload ∧ v.policy_hash = g.policy_hash) →
      Refusal g now_ms (.stage now_ms v) .GateBindingMismatch
  | candidate {v} : v.candidate ≠ g.node → Refusal g now_ms (.stage now_ms v) .WrongCandidate
  | incarnation {v} : v.candidate_incarnation ≠ g.incarnation →
      Refusal g now_ms (.stage now_ms v) .IncarnationMismatch
  | already_open {v} : g.Bound v → g.IsOpen → Refusal g now_ms (.stage now_ms v) .AlreadyOpen
  | stale {v} : g.Bound v → ¬ g.IsOpen → ¬ g.Pending v → v.epoch ≤ g.state.last_epoch →
      Refusal g now_ms (.stage now_ms v) .StaleAuthorization
  | not_prepared : (∀ v, g.state ≠ .Prepared v) → Refusal g now_ms (.activate now_ms) .NotPrepared
  | not_started {v} : g.state = .Prepared v → now_ms < v.not_before_ms →
      Refusal g now_ms (.activate now_ms) .LeaseNotStarted
  | shut {h e} : ¬ g.IsOpen → Refusal g now_ms (.check_effect now_ms h e) .GateClosed
  | wrong_holder {h e h' e' x} : g.state = .Open h' e' x → now_ms < x → h' ≠ h →
      Refusal g now_ms (.check_effect now_ms h e) .WrongCandidate
  | wrong_epoch {h e h' e' x} : g.state = .Open h' e' x → now_ms < x → e' ≠ e →
      Refusal g now_ms (.check_effect now_ms h e) .StaleAuthorization

/-- Everything that a call can do to a gate, with its answer. -/
inductive Outcome (g : EffectGate) : Call → Answer → EffectGate → Prop
  | rolled_back {c now_ms} : c.reading? = some now_ms → now_ms < g.last_observed_ms →
      Outcome g c (.error .ClockRollback) (g.fenced .SafetyFault)
  | refused {c now_ms e} : c.reading? = some now_ms → g.last_observed_ms ≤ now_ms →
      Refusal g now_ms c e → Outcome g c (.error e) (g.observed now_ms)
  | staged {now_ms v} : g.last_observed_ms ≤ now_ms → g.Bound v → ¬ g.IsOpen →
      g.state.last_epoch < v.epoch →
      Outcome g (.stage now_ms v) (.ok (.Record ((g.observed now_ms).persistence_record v)))
        { g.observed now_ms with state := .Staged v }
  | restaged {now_ms v} : g.last_observed_ms ≤ now_ms → g.Bound v → g.Pending v →
      Outcome g (.stage now_ms v) (.ok (.Record ((g.observed now_ms).persistence_record v)))
        (g.observed now_ms)
  | confirmed {v} : g.state = .Staged v →
      Outcome g (.confirm_persisted (g.persistence_record v)) (.ok .Confirmed)
        { g with state := .Prepared v }
  | not_staged {r} : (∀ v, g.state ≠ .Staged v) →
      Outcome g (.confirm_persisted r) (.error .NotStaged) g
  | mismatched {r v} : g.state = .Staged v → g.persistence_record v ≠ r →
      Outcome g (.confirm_persisted r) (.error .PersistenceMismatch) g
  | activated {now_ms v} : g.last_observed_ms ≤ now_ms → g.state = .Prepared v →
      v.not_before_ms ≤ now_ms → now_ms < v.expires_at_ms →
      Outcome g (.activate now_ms) (.ok (.Receipt (receiptOf v now_ms)))
        { g.observed now_ms with state := .Open v.candidate v.epoch v.expires_at_ms }
  | missed {now_ms v} : g.last_observed_ms ≤ now_ms → g.state = .Prepared v →
      v.not_before_ms ≤ now_ms → v.expires_at_ms ≤ now_ms →
      Outcome g (.activate now_ms) (.error .LeaseExpired) ((g.observed now_ms).fenced .LeaseExpired)
  | allowed {now_ms h e x} : g.last_observed_ms ≤ now_ms → g.state = .Open h e x → now_ms < x →
      Outcome g (.check_effect now_ms h e) (.ok .Allowed) (g.observed now_ms)
  | lapsed {now_ms h e h' e' x} : g.last_observed_ms ≤ now_ms → g.state = .Open h' e' x →
      x ≤ now_ms → Outcome g (.check_effect now_ms h e) (.error .LeaseExpired)
        ((g.observed now_ms).fenced .LeaseExpired)
  | ticked_out {now_ms h e x} : g.last_observed_ms ≤ now_ms → g.state = .Open h e x → x ≤ now_ms →
      Outcome g (.tick now_ms) (.ok (.Expired true)) ((g.observed now_ms).fenced .LeaseExpired)
  | ticked {now_ms} : g.last_observed_ms ≤ now_ms →
      (∀ h e x, g.state = .Open h e x → now_ms < x) →
      Outcome g (.tick now_ms) (.ok (.Expired false)) (g.observed now_ms)
  | closed : Outcome g .close (.ok .Done) (g.fenced .ExplicitClose)
  | faulted : Outcome g .safety_fault (.ok .Done) (g.fenced .SafetyFault)

variable {g : EffectGate} {now_ms : UInt64}

theorem observe_time_early (h : now_ms < g.last_observed_ms) :
    g.observe_time now_ms = (.error .ClockRollback, g.fenced .SafetyFault) := if_pos h

theorem observe_time_late (h : ¬ now_ms < g.last_observed_ms) :
    g.observe_time now_ms = (.ok now_ms, g.observed now_ms) := if_neg h

theorem stage_newer_outcome {v : ValidatedPromotion} (hle : g.last_observed_ms ≤ now_ms)
    (hb : g.Bound v) (ho : ¬ g.IsOpen) (hp : ¬ g.Pending v) :
    Outcome g (.stage now_ms v) (((g.observed now_ms).stage_newer v).1.map .Record)
      ((g.observed now_ms).stage_newer v).2 := by
  unfold stage_newer
  split
  next hlt => exact .refused rfl hle (.stale hb ho hp hlt)
  next hlt => exact .staged hle hb ho (lt_of_not_ge hlt)

theorem stage.spec (g : EffectGate) (now_ms : UInt64) (v : ValidatedPromotion) :
    Outcome g (.stage now_ms v) ((g.stage now_ms v).1.map .Record) (g.stage now_ms v).2 := by
  unfold stage
  by_cases hr : now_ms < g.last_observed_ms
  · rw [observe_time_early hr]
    exact .rolled_back rfl hr
  rw [observe_time_late hr]
  have hle := UInt64.not_lt.mp hr
  dsimp only
  split
  next hw => exact .refused rfl hle (.binding (by simpa [observed, imp_iff_not_or] using hw))
  next hw =>
  split
  next hc => exact .refused rfl hle (.candidate hc)
  next hc =>
  split
  next hi => exact .refused rfl hle (.incarnation hi)
  next hi =>
  have hb : g.Bound v := by
    simp only [not_or, not_not] at hw hc hi
    exact ⟨hw.1, hw.2, hc, hi⟩
  simp only [observed_state]
  rcases hs : g.state with e | w | w | ⟨h, e, x⟩ | ⟨e, r⟩ <;> simp only
  case Closed => exact stage_newer_outcome hle hb (by simp [IsOpen, hs]) (by simp [Pending, hs])
  case Staged =>
    split
    next heq => subst heq; exact .restaged hle hb (Or.inl hs)
    next hne =>
      exact stage_newer_outcome hle hb (by simp [IsOpen, hs]) (by simpa [Pending, hs] using hne)
  case Prepared =>
    split
    next heq => subst heq; exact .restaged hle hb (Or.inr hs)
    next hne =>
      exact stage_newer_outcome hle hb (by simp [IsOpen, hs]) (by simpa [Pending, hs] using hne)
  case Open => exact .refused rfl hle (.already_open hb ⟨h, e, x, hs⟩)
  case SelfFenced => exact stage_newer_outcome hle hb (by simp [IsOpen, hs]) (by simp [Pending, hs])

theorem confirm_persisted.spec (g : EffectGate) (r : GatePersistenceRecord) :
    Outcome g (.confirm_persisted r) ((g.confirm_persisted r).1.map fun _ => .Confirmed)
      (g.confirm_persisted r).2 := by
  have hself : { g with state := g.state } = g := rfl
  unfold confirm_persisted
  rcases hs : g.state with e | w | w | ⟨h, e, x⟩ | ⟨e, c⟩ <;> simp only
  case Staged =>
    split
    next hne => rw [← hs]; exact .mismatched hs hne
    next heq =>
      obtain rfl : g.persistence_record w = r := not_not.mp heq
      exact .confirmed hs
  all_goals
    rw [← hs]
    exact .not_staged (by simp [hs])

theorem activate.spec (g : EffectGate) (now_ms : UInt64) :
    Outcome g (.activate now_ms) ((g.activate now_ms).1.map .Receipt) (g.activate now_ms).2 := by
  unfold activate
  by_cases hr : now_ms < g.last_observed_ms
  · rw [observe_time_early hr]
    exact .rolled_back rfl hr
  rw [observe_time_late hr]
  have hle := UInt64.not_lt.mp hr
  simp only [observed_state]
  rcases hs : g.state with e | v | v | ⟨h, e, x⟩ | ⟨e, c⟩ <;> simp only
  case Prepared =>
    split
    next hn => exact .refused rfl hle (.not_started hs hn)
    next hn =>
      split
      next hx =>
        have hout := Outcome.missed hle hs (UInt64.not_lt.mp hn) hx
        simpa [fenced, observed, hs, GateState.last_epoch, Except.map] using hout
      next hx => exact .activated hle hs (UInt64.not_lt.mp hn) (UInt64.not_le.mp hx)
  all_goals exact .refused rfl hle (.not_prepared (by simp [hs]))

theorem check_effect.spec (g : EffectGate) (now_ms : UInt64) (h : NodeId) (e : Epoch) :
    Outcome g (.check_effect now_ms h e) ((g.check_effect now_ms h e).1.map fun _ => .Allowed)
      (g.check_effect now_ms h e).2 := by
  unfold check_effect
  by_cases hr : now_ms < g.last_observed_ms
  · rw [observe_time_early hr]
    exact .rolled_back rfl hr
  rw [observe_time_late hr]
  have hle := UInt64.not_lt.mp hr
  simp only [observed_state]
  rcases hs : g.state with e' | v | v | ⟨h', e', x⟩ | ⟨e', c⟩ <;> simp only
  case Open =>
    split
    next hx =>
      have hout := Outcome.lapsed (h := h) (e := e) hle hs hx
      simpa [fenced, observed, hs, GateState.last_epoch, Except.map] using hout
    next hx =>
      have hlt := UInt64.not_le.mp hx
      split
      next hh => exact .refused rfl hle (.wrong_holder hs hlt hh)
      next hh =>
        split
        next he => exact .refused rfl hle (.wrong_epoch hs hlt he)
        next he =>
          obtain rfl := not_not.mp hh
          obtain rfl := not_not.mp he
          exact .allowed hle hs hlt
  all_goals exact .refused rfl hle (.shut (by simp [IsOpen, hs]))

theorem tick.spec (g : EffectGate) (now_ms : UInt64) :
    Outcome g (.tick now_ms) ((g.tick now_ms).1.map .Expired) (g.tick now_ms).2 := by
  unfold tick
  by_cases hr : now_ms < g.last_observed_ms
  · rw [observe_time_early hr]
    exact .rolled_back rfl hr
  rw [observe_time_late hr]
  have hle := UInt64.not_lt.mp hr
  simp only [observed_state]
  rcases hs : g.state with e | v | v | ⟨h, e, x⟩ | ⟨e, c⟩ <;> simp only
  case Open =>
    by_cases hx : now_ms ≥ x
    · rw [if_pos hx]
      have hout := Outcome.ticked_out hle hs hx
      simpa [fenced, observed, hs, GateState.last_epoch, Except.map] using hout
    · rw [if_neg hx]
      refine .ticked hle ?_
      intro h' e' x' hs'
      rw [hs] at hs'
      cases hs'
      exact UInt64.not_le.mp hx
  all_goals exact .ticked hle (by simp [hs])

theorem step.spec (g : EffectGate) (c : Call) : Outcome g c (g.step c).1 (g.step c).2 := by
  cases c with
  | stage now_ms v => exact stage.spec g now_ms v
  | confirm_persisted r => exact confirm_persisted.spec g r
  | activate now_ms => exact activate.spec g now_ms
  | check_effect now_ms h e => exact check_effect.spec g now_ms h e
  | tick now_ms => exact tick.spec g now_ms
  | close => exact .closed
  | safety_fault => exact .faulted

/-! ## How a gate moves -/

variable {g' : EffectGate} {c : Call} {a : Answer} {v : ValidatedPromotion} {h : NodeId}
  {e : Epoch} {x : UInt64}

/-- No call changes what the gate is bound to. -/
theorem Outcome.same_binding (ho : g.Outcome c a g') :
    g'.node = g.node ∧ g'.workload = g.workload ∧ g'.policy_hash = g.policy_hash ∧
      g'.incarnation = g.incarnation := by
  cases ho <;> exact ⟨rfl, rfl, rfl, rfl⟩

/-- The observed time never goes back. -/
theorem Outcome.last_observed_le (ho : g.Outcome c a g') :
    g.last_observed_ms ≤ g'.last_observed_ms := by
  cases ho <;> first | exact UInt64.le_refl _ | assumption

/-- A gate is staged only by a call that stages the capability. -/
theorem Outcome.to_staged (ho : g.Outcome c a g') (hs : g'.state = .Staged v) :
    g.state = .Staged v ∨ ∃ t, g.last_observed_ms ≤ t ∧ g.Bound v ∧ ¬ g.IsOpen ∧
      g.state.last_epoch < v.epoch ∧ c = .stage t v ∧
      a = .ok (.Record ((g.observed t).persistence_record v)) ∧ g'.last_observed_ms = t := by
  cases ho with
  | staged hle hb hno hlt =>
    cases hs
    exact Or.inr ⟨_, hle, hb, hno, hlt, rfl, rfl, rfl⟩
  | rolled_back | confirmed | activated | missed | lapsed | ticked_out | closed | faulted => cases hs
  | refused | restaged | not_staged | mismatched | allowed | ticked => exact Or.inl hs

/-- A gate is prepared only by the confirmation of the capability it staged. -/
theorem Outcome.to_prepared (ho : g.Outcome c a g') (hs : g'.state = .Prepared v) :
    g.state = .Prepared v ∨ g.state = .Staged v ∧
      c = .confirm_persisted (g.persistence_record v) ∧ a = .ok .Confirmed := by
  cases ho with
  | confirmed hst =>
    cases hs
    exact Or.inr ⟨hst, rfl, rfl⟩
  | rolled_back | staged | activated | missed | lapsed | ticked_out | closed | faulted => cases hs
  | refused | restaged | not_staged | mismatched | allowed | ticked => exact Or.inl hs

/-- A capability becomes pending only by a stage above the epoch of the gate. -/
theorem Outcome.to_pending (ho : g.Outcome c a g') (hv : g'.Pending v) :
    g.Pending v ∨ ∃ t, g.Bound v ∧ g.state.last_epoch < v.epoch ∧ c = .stage t v := by
  rcases hv with hs | hp
  · rcases ho.to_staged hs with hold | ⟨t, _, hb, _, hlt, hc, _⟩
    · exact Or.inl (Or.inl hold)
    · exact Or.inr ⟨t, hb, hlt, hc⟩
  · rcases ho.to_prepared hp with hold | ⟨hst, _⟩
    · exact Or.inl (Or.inr hold)
    · exact Or.inl (Or.inl hst)

theorem Pending.unique {w : ValidatedPromotion} (hv : g.Pending v) (hw : g.Pending w) : v = w := by
  rcases hv with hv | hv <;> rcases hw with hw | hw <;> rw [hv] at hw <;> cases hw <;> rfl

theorem Pending.last_epoch (hv : g.Pending v) : g.state.last_epoch = v.epoch := by
  rcases hv with hv | hv <;> rw [hv] <;> rfl

/-- A gate is opened only by the activation of the capability it prepared. -/
theorem Outcome.to_open (ho : g.Outcome c a g') (hs : g'.state = .Open h e x) :
    g.state = .Open h e x ∨ ∃ v t, g.last_observed_ms ≤ t ∧ g.state = .Prepared v ∧
      v.not_before_ms ≤ t ∧ t < v.expires_at_ms ∧ c = .activate t ∧
      a = .ok (.Receipt (receiptOf v t)) ∧ g'.last_observed_ms = t ∧
      h = v.candidate ∧ e = v.epoch ∧ x = v.expires_at_ms := by
  cases ho with
  | activated hle hp hn hx =>
    cases hs
    exact Or.inr ⟨_, _, hle, hp, hn, hx, rfl, rfl, rfl, rfl, rfl, rfl⟩
  | rolled_back | staged | confirmed | missed | lapsed | ticked_out | closed | faulted => cases hs
  | refused | restaged | not_staged | mismatched | allowed | ticked => exact Or.inl hs

/-- An effect is allowed only by an open gate, for its holder and epoch, before its expiry. -/
theorem Outcome.of_allowed {t : UInt64}
    (ho : g.Outcome (.check_effect t h e) (.ok .Allowed) g') :
    ∃ x, g.last_observed_ms ≤ t ∧ g.state = .Open h e x ∧ t < x ∧ g' = g.observed t := by
  cases ho with
  | allowed hle hs hlt => exact ⟨_, hle, hs, hlt, rfl⟩

end EffectGate

/-! ## Runs of a gate -/

/-- A call of a run with the answer it got. -/
structure GateEvent where
  call : Call
  answer : Answer
deriving DecidableEq

def GateStep (g : EffectGate) (ev : GateEvent) (g' : EffectGate) : Prop :=
  g.step ev.call = (ev.answer, g')

/-- The runs of one gate: any calls with any arguments and clock readings. -/
abbrev GateRun := Run GateStep

theorem GateStep.outcome {g g' : EffectGate} {ev : GateEvent} (h : GateStep g ev g') :
    g.Outcome ev.call ev.answer g' := by
  have hspec := EffectGate.step.spec g ev.call
  rw [h] at hspec
  exact hspec

def EffectGate.trace (g : EffectGate) : List Call → List GateEvent
  | [] => []
  | c :: cs => ⟨c, (g.step c).1⟩ :: (g.step c).2.trace cs

def EffectGate.after (g : EffectGate) : List Call → EffectGate
  | [] => g
  | c :: cs => (g.step c).2.after cs

theorem EffectGate.after_append (g : EffectGate) (cs cs' : List Call) :
    g.after (cs ++ cs') = (g.after cs).after cs' := by
  induction cs generalizing g with
  | nil => rfl
  | cons c cs ih => exact ih _

theorem EffectGate.after_snoc (g : EffectGate) (cs : List Call) (c : Call) :
    g.after (cs ++ [c]) = ((g.after cs).step c).2 :=
  g.after_append cs [c]

/-- Every sequence of calls is a run. -/
theorem gateRun_trace {g₀ g : EffectGate} {es : List GateEvent} (h : GateRun g₀ es g)
    (cs : List Call) : GateRun g₀ (es ++ g.trace cs) (g.after cs) := by
  induction cs generalizing g es with
  | nil => simpa [EffectGate.trace, EffectGate.after] using h
  | cons c cs ih =>
    have hstep : GateStep g ⟨c, (g.step c).1⟩ (g.step c).2 := rfl
    have hrun := ih (h.snoc hstep)
    rwa [List.append_assoc] at hrun

theorem gateRun_of_calls (g : EffectGate) (cs : List Call) : GateRun g (g.trace cs) (g.after cs) :=
  gateRun_trace .nil cs

/-! ## The gate of the unit tests -/

namespace tests

def capability : ValidatedPromotion := capabilityOf (proof node_a ⟨1⟩) .Bootstrap

def recovery : GateRecoveryState :=
  { accepted_epoch := ⟨0⟩, incarnation := ⟨1⟩, last_observed_ms := 9990 }

def gate : EffectGate := .recover node_a workload hash recovery

/-- The record that `stage` emits for `capability` at 10000. -/
def record : GatePersistenceRecord :=
  { node := node_a, workload, policy_hash := hash, accepted_epoch := ⟨1⟩, incarnation := ⟨1⟩
    last_observed_ms := 10000 }

/-- Stage, confirm and activate `capability` at 10000. -/
def handshake : List Call := [.stage 10000 capability, .confirm_persisted record, .activate 10000]

end tests

end quorumarc_core

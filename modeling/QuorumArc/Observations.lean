-- What the answers of a gate show. A view of a gate leaves out why it shut, and the
-- holder and the end of a lease that is over. Nothing else can be left out: two gates
-- answer all calls alike exactly if their views are the same. `state` is no call here:
-- it shows what the view leaves out.
import QuorumArc.Machines
import QuorumArc.Retry
import QuorumArc.Satisfiable

open machines

namespace quorumarc_core

/-! ## The view of a gate -/

/-- What of the state of a gate can still show in an answer. -/
inductive StateView where
  | Shut (last_epoch : Epoch)
  | Staged (authorization : ValidatedPromotion)
  | Prepared (authorization : ValidatedPromotion)
  | Open (holder : NodeId) (epoch : Epoch) (expires_at_ms : UInt64)
  | Lapsed (epoch : Epoch)

/-- Why a gate shut is not seen, and of a lease that ended by `now_ms` only its epoch. -/
def GateState.view (now_ms : UInt64) : GateState → StateView
  | .Closed last_epoch | .SelfFenced last_epoch _ => .Shut last_epoch
  | .Staged authorization => .Staged authorization
  | .Prepared authorization => .Prepared authorization
  | .Open holder epoch expires_at_ms =>
    if expires_at_ms ≤ now_ms then .Lapsed epoch else .Open holder epoch expires_at_ms

structure GateView where
  node : NodeId
  workload : WorkloadId
  policy_hash : PolicyHash
  incarnation : Incarnation
  last_observed_ms : UInt64
  state : StateView

namespace EffectGate

def view (g : EffectGate) : GateView where
  node := g.node
  workload := g.workload
  policy_hash := g.policy_hash
  incarnation := g.incarnation
  last_observed_ms := g.last_observed_ms
  state := g.state.view g.last_observed_ms

variable {g g' : EffectGate} {s s' : GateState} {t : UInt64} {v w : ValidatedPromotion} {c : Call}
  {h : NodeId} {e : Epoch} {x : UInt64} {n : ℕ}

theorem view_open : (GateState.Open h e x).view t = if x ≤ t then .Lapsed e else .Open h e x := rfl

theorem view_lapsed (hx : x ≤ t) : (GateState.Open h e x).view t = .Lapsed e := if_pos hx

theorem view_eq_shut : s.view t = .Shut e ↔ s = .Closed e ∨ ∃ r, s = .SelfFenced e r := by
  cases s with
  | Open h e x =>
    rw [view_open]
    split <;> simp
  | Closed | Staged | Prepared | SelfFenced => simp [GateState.view]

theorem view_eq_staged : s.view t = .Staged v ↔ s = .Staged v := by
  cases s with
  | Open h e x =>
    rw [view_open]
    split <;> simp
  | Closed | Staged | Prepared | SelfFenced => simp [GateState.view]

theorem view_eq_prepared : s.view t = .Prepared v ↔ s = .Prepared v := by
  cases s with
  | Open h e x =>
    rw [view_open]
    split <;> simp
  | Closed | Staged | Prepared | SelfFenced => simp [GateState.view]

theorem view_eq_open : s.view t = .Open h e x ↔ s = .Open h e x ∧ t < x := by
  cases s with
  | Open h' e' x' =>
    rw [view_open]
    by_cases hx : x' ≤ t
    · rw [if_pos hx]
      simp only [reduceCtorEq, GateState.Open.injEq, false_iff]
      rintro ⟨⟨_, _, rfl⟩, hlt⟩
      exact absurd hx (UInt64.not_le.mpr hlt)
    · rw [if_neg hx]
      simp only [StateView.Open.injEq, GateState.Open.injEq, iff_self_and]
      rintro ⟨_, _, rfl⟩
      exact UInt64.not_le.mp hx
  | Closed | Staged | Prepared | SelfFenced => simp [GateState.view]

theorem view_eq_lapsed : s.view t = .Lapsed e ↔ ∃ h x, s = .Open h e x ∧ x ≤ t := by
  cases s with
  | Open h' e' x' =>
    rw [view_open]
    by_cases hx : x' ≤ t
    · rw [if_pos hx]
      simp [hx]
    · rw [if_neg hx]
      simp [hx]
  | Closed | Staged | Prepared | SelfFenced => simp [GateState.view]

/-! ## The same view, the same answers -/

/-- The gates answer the call alike, and have the same view after it. -/
def SameStep (g g' : EffectGate) (c : Call) : Prop :=
  (g.step c).1 = (g'.step c).1 ∧ (g.step c).2.view = (g'.step c).2.view

theorem step_of_rollback (hr : c.reading? = some t) (ht : t < g.last_observed_ms) :
    g.step c = (.error .ClockRollback, g.fenced .SafetyFault) := by
  cases c with
  | stage =>
    cases hr
    simp [step, stage, observe_time_early ht, Except.map]
  | activate =>
    cases hr
    simp [step, activate, observe_time_early ht, Except.map]
  | check_effect =>
    cases hr
    simp [step, check_effect, observe_time_early ht, Except.map]
  | tick =>
    cases hr
    simp [step, tick, observe_time_early ht, Except.map]
  | confirm_persisted | close | safety_fault => cases hr

theorem sameStep_of_rollback (hr : c.reading? = some t) (ht : t < g.last_observed_ms)
    (hlast : s.last_epoch = s'.last_epoch) :
    SameStep { g with state := s } { g with state := s' } c := by
  have hback : ∀ s, ({ g with state := s } : EffectGate).step c =
      (.error .ClockRollback, fenced { g with state := s } .SafetyFault) :=
    fun s => step_of_rollback hr ht
  unfold SameStep
  rw [hback s, hback s']
  simp [view, fenced, GateState.view, hlast]

/-- A gate that is shut does the same as one that was closed when it recovered. -/
theorem sameStep_of_shut (hs : s = .Closed e ∨ ∃ r, s = .SelfFenced e r) (c : Call) :
    SameStep { g with state := s } { g with state := .Closed e } c := by
  rcases hs with rfl | ⟨r, rfl⟩
  · exact ⟨rfl, rfl⟩
  by_cases hback : ∃ t, c.reading? = some t ∧ t < g.last_observed_ms
  · obtain ⟨t, hr, ht⟩ := hback
    exact sameStep_of_rollback hr ht rfl
  have hlate : ∀ t, c.reading? = some t → ¬ t < g.last_observed_ms :=
    fun t hr ht => hback ⟨t, hr, ht⟩
  unfold SameStep step
  cases c with
  | stage t v =>
    simp only [stage, observe_time, stage_newer, observed, if_neg (hlate t rfl),
      GateState.last_epoch]
    by_cases hstale : v.epoch ≤ e
    · split_ifs <;> simp [hstale, view, GateState.view]
    · split_ifs <;> simp [hstale, persistence_record, view, GateState.view]
  | activate t | check_effect t h e | tick t =>
    simp only [activate, check_effect, tick, observe_time, if_neg (hlate t rfl)]
    exact ⟨rfl, rfl⟩
  | confirm_persisted | close | safety_fault => exact ⟨rfl, rfl⟩

/-- Nothing of a lease that is over is seen but its epoch. -/
theorem sameStep_of_lapsed {h' : NodeId} {x' : UInt64} (hx : x ≤ g.last_observed_ms)
    (hx' : x' ≤ g.last_observed_ms) (c : Call) :
    SameStep { g with state := .Open h e x } { g with state := .Open h' e x' } c := by
  by_cases hback : ∃ t, c.reading? = some t ∧ t < g.last_observed_ms
  · obtain ⟨t, hr, ht⟩ := hback
    exact sameStep_of_rollback hr ht rfl
  have hlate : ∀ t, c.reading? = some t → ¬ t < g.last_observed_ms ∧ x ≤ t ∧ x' ≤ t := by
    intro t hr
    have ht : ¬ t < g.last_observed_ms := fun ht => hback ⟨t, hr, ht⟩
    have hle := UInt64.not_lt.mp ht
    exact ⟨ht, UInt64.le_trans hx hle, UInt64.le_trans hx' hle⟩
  unfold SameStep step
  cases c with
  | stage t v =>
    obtain ⟨ht, h1, h2⟩ := hlate t rfl
    simp only [stage, observe_time, observed, if_neg ht]
    split_ifs <;> simp [view, view_lapsed, h1, h2]
  | activate t =>
    obtain ⟨ht, h1, h2⟩ := hlate t rfl
    simp [activate, observe_time, ht, view, observed, view_lapsed, h1, h2]
  | check_effect t | tick t =>
    obtain ⟨ht, h1, h2⟩ := hlate t rfl
    simp [check_effect, tick, observe_time, ht, view, observed, h1, h2]
  | confirm_persisted r => simp [confirm_persisted, view, view_lapsed, hx, hx']
  | close | safety_fault => exact ⟨rfl, rfl⟩

theorem sameStep_of_same_view (h : g.view = g'.view) (c : Call) : SameStep g g' c := by
  obtain ⟨n, w, p, i, l, s⟩ := g
  obtain ⟨n', w', p', i', l', s'⟩ := g'
  simp only [view, GateView.mk.injEq] at h
  obtain ⟨rfl, rfl, rfl, rfl, rfl, hs⟩ := h
  rcases hv : s.view l with e | v | v | ⟨h, e, x⟩ | e <;> rw [hv] at hs
  case Shut =>
    have h1 : SameStep ⟨n, w, p, i, l, s⟩ ⟨n, w, p, i, l, .Closed e⟩ c :=
      sameStep_of_shut (g := ⟨n, w, p, i, l, s⟩) (view_eq_shut.mp hv) c
    have h2 : SameStep ⟨n, w, p, i, l, s'⟩ ⟨n, w, p, i, l, .Closed e⟩ c :=
      sameStep_of_shut (g := ⟨n, w, p, i, l, s'⟩) (view_eq_shut.mp hs.symm) c
    exact ⟨h1.1.trans h2.1.symm, h1.2.trans h2.2.symm⟩
  case Lapsed =>
    obtain ⟨h, x, rfl, hx⟩ := view_eq_lapsed.mp hv
    obtain ⟨h', x', rfl, hx'⟩ := view_eq_lapsed.mp hs.symm
    exact sameStep_of_lapsed (g := ⟨n, w, p, i, l, .Open h e x⟩) hx hx' c
  -- In the other states the view is the state.
  case Staged =>
    rw [view_eq_staged.mp hv, view_eq_staged.mp hs.symm]
    exact ⟨rfl, rfl⟩
  case Prepared =>
    rw [view_eq_prepared.mp hv, view_eq_prepared.mp hs.symm]
    exact ⟨rfl, rfl⟩
  case Open =>
    rw [(view_eq_open.mp hv).1, (view_eq_open.mp hs.symm).1]
    exact ⟨rfl, rfl⟩

theorem alike_of_same_view (h : g.view = g'.view) : Alike step n g g' :=
  alike_of_bisimulation (fun g g' => g.view = g'.view)
    (fun _ _ c h => (sameStep_of_same_view h c).1) (fun _ _ c h => (sameStep_of_same_view h c).2) h

theorem trace_eq_iff {cs : List Call} :
    g.trace cs = g'.trace cs ↔ answers step g cs = answers step g' cs := by
  induction cs generalizing g g' with
  | nil => simp [trace, answers]
  | cons c cs ih => simp [trace, answers, ih]

/-- Gates of the same view answer all calls alike, also calls that nobody can make. -/
theorem same_trace (h : g.view = g'.view) (cs : List Call) : g.trace cs = g'.trace cs :=
  trace_eq_iff.mpr (alike_of_same_view h cs (Nat.le_refl _))

end EffectGate

/-! ## The calls that can be made

The fields of a capability and of a record are private: a capability comes from the
validator, and a record from a gate. -/

/-- The validator gives out the capability for some proof. -/
def Issued (v : ValidatedPromotion) : Prop :=
  ∃ proof current policy now_ms, validate_promotion proof current policy now_ms = .ok v

/-- A gate that has just recovered gives out the record for some capability. -/
def Emitted (r : GatePersistenceRecord) : Prop :=
  ∃ node workload policy_hash recovery now_ms v, Issued v ∧
    ((EffectGate.recover node workload policy_hash recovery).stage now_ms v).1 = .ok r

/-- The caller can have what it passes to the gate. -/
def Call.Possible : Call → Prop
  | .stage _ v => Issued v
  | .confirm_persisted r => Emitted r
  | .activate .. | .check_effect .. | .tick .. | .close | .safety_fault => True

abbrev PossibleCall := {c : Call // c.Possible}

theorem zero_epoch_le (e : Epoch) : ⟨0⟩ ≤ e := Epoch.le_iff.mpr (Nat.zero_le _)

theorem Issued.newer {v : ValidatedPromotion} (hv : Issued v) : (⟨0⟩ : Epoch) < v.epoch := by
  obtain ⟨proof, current, policy, now_ms, hv⟩ := hv
  obtain ⟨_, hacc, rfl⟩ := validate_promotion.spec.mp hv
  exact lt_of_le_of_lt (zero_epoch_le _) hacc.newer

namespace EffectGate

variable {g g' : EffectGate} {s s' : GateState} {t : UInt64} {v w : ValidatedPromotion} {c : Call}
  {h : NodeId} {e : Epoch} {x : UInt64} {n : ℕ}

/-- A gate that has just recovered from nothing stages whatever its node is granted. -/
theorem emitted_of_issued (hv : Issued v) (t : UInt64) :
    Emitted ⟨v.candidate, v.workload, v.policy_hash, v.epoch, v.candidate_incarnation, t⟩ := by
  let g := recover v.candidate v.workload v.policy_hash ⟨⟨0⟩, v.candidate_incarnation, 0⟩
  refine ⟨v.candidate, v.workload, v.policy_hash, ⟨⟨0⟩, v.candidate_incarnation, 0⟩, t, v, hv, ?_⟩
  have hno : ¬ g.IsOpen := by simp [IsOpen, g, recover]
  have hstage := stage_of_newer (t := t) UInt64.zero_le ⟨rfl, rfl, rfl, rfl⟩ hno hv.newer
  exact congrArg Prod.fst hstage

/-- What a gate emits in any state, a gate that has just recovered emits too. -/
theorem emitted_of_stage {r : GatePersistenceRecord} (hv : Issued v)
    (hr : (g.step (.stage t v)).1 = .ok (.Record r)) : Emitted r := by
  have ho := step.spec g (.stage t v)
  rw [hr] at ho
  have hemitted := emitted_of_issued hv t
  generalize (g.step (.stage t v)).2 = g₁ at ho
  cases ho with
  | staged _ hb | restaged _ hb =>
    rw [hb.candidate, hb.workload, hb.policy_hash, hb.incarnation] at hemitted
    exact hemitted

/-- The machine of the possible calls. -/
def reply (g : EffectGate) (c : PossibleCall) : Answer × EffectGate := g.step c.val

theorem rolled_back_iff (hr : c.reading? = some t) :
    (g.step c).1 = .error .ClockRollback ↔ t < g.last_observed_ms := by
  constructor
  · intro ha
    have ho := step.spec g c
    rw [ha] at ho
    generalize (g.step c).2 = g₁ at ho
    cases ho with
    | rolled_back hr' hlt =>
      rw [hr] at hr'
      cases hr'
      exact hlt
    | refused _ _ hrefused => cases hrefused
  · intro hlt
    rw [step_of_rollback hr hlt]

end EffectGate

/-! ## The laws -/

open EffectGate

/-- A gate that closes, one that reports a fault, and one that crashes and recovers as the
same incarnation from a store with all it knew answer all further calls alike. -/
theorem closing_is_recovering (g : EffectGate) (cs : List Call) :
    g.close.trace cs = g.safety_fault.trace cs ∧
    g.close.trace cs = (recover g.node g.workload g.policy_hash
      ⟨g.state.last_epoch, g.incarnation, g.last_observed_ms⟩).trace cs := by
  have hfault : g.close.view = g.safety_fault.view := rfl
  have hrecover : g.close.view = (recover g.node g.workload g.policy_hash
    ⟨g.state.last_epoch, g.incarnation, g.last_observed_ms⟩).view := rfl
  exact ⟨same_trace hfault cs, same_trace hrecover cs⟩

end quorumarc_core

-- What a call of the gate leaves behind when it fails. Two errors close the
-- gate, each in its own way; every other one leaves the state as it was.
import QuorumArc.AntiReplay

namespace quorumarc_core

namespace EffectGate

variable {g g' : EffectGate} {c : Call} {a : Answer}

/-- The gate has a lease for `epoch` that ends at `expires_at_ms`: it is
prepared for it, or open under it. -/
inductive HasLease (g : EffectGate) : Epoch → UInt64 → Prop
  | prepared {v} : g.state = .Prepared v → HasLease g v.epoch v.expires_at_ms
  | opened {h e x} : g.state = .Open h e x → HasLease g e x

/-! ## The errors, one by one -/

/-- No refusal that keeps the state is for the clock or for a lease that is over. -/
theorem refusal_ne {t : UInt64} {e : GateError} (h : g.Refusal t c e) :
    e ≠ .ClockRollback ∧ e ≠ .LeaseExpired := by
  cases h <;> simp

theorem Outcome.rolled_back_iff (ho : g.Outcome c a g') :
    a = .error .ClockRollback ↔ ∃ t, c.reading? = some t ∧ t < g.last_observed_ms := by
  -- A reading that was not refused for the clock is no earlier than the observed time.
  have hlate : ∀ t, c.reading? = some t → g.last_observed_ms ≤ t →
      ¬ ∃ t', c.reading? = some t' ∧ t' < g.last_observed_ms := by
    rintro t hr hle ⟨t', hr', hlt⟩
    rw [hr] at hr'
    cases hr'
    exact UInt64.not_le.mpr hlt hle
  cases ho with
  | rolled_back hr hlt => exact ⟨fun _ => ⟨_, hr, hlt⟩, fun _ => rfl⟩
  | refused hr hle href =>
    refine iff_of_false ?_ (hlate _ hr hle)
    intro h
    exact (refusal_ne href).1 (Except.error.inj h)
  | staged hle | restaged hle | activated hle | missed hle | allowed hle | lapsed hle
  | ticked_out hle | ticked hle => exact iff_of_false (by simp) (hlate _ rfl hle)
  | confirmed | not_staged | mismatched | closed | faulted =>
    exact iff_of_false (by simp) (by simp [Call.reading?])

theorem Outcome.of_rolled_back (ho : g.Outcome c (.error .ClockRollback) g') :
    g' = g.fenced .SafetyFault := by
  cases ho with
  | rolled_back => rfl
  | refused _ _ href => exact absurd rfl (refusal_ne href).1

theorem Outcome.of_expired (ho : g.Outcome c (.error .LeaseExpired) g') :
    ∃ t e x, c.reading? = some t ∧ g.last_observed_ms ≤ t ∧ g.HasLease e x ∧ x ≤ t ∧
      g' = { g.observed t with state := .SelfFenced e .LeaseExpired } := by
  cases ho with
  | refused _ _ href => exact absurd rfl (refusal_ne href).2
  | missed hle hs _ hx =>
    refine ⟨_, _, _, rfl, hle, .prepared hs, hx, ?_⟩
    simp [fenced, hs, GateState.last_epoch]
  | lapsed hle hs hx =>
    refine ⟨_, _, _, rfl, hle, .opened hs, hx, ?_⟩
    simp [fenced, hs, GateState.last_epoch]

theorem Outcome.of_error {e : GateError} (ho : g.Outcome c (.error e) g')
    (hc : e ≠ .ClockRollback) (hx : e ≠ .LeaseExpired) :
    g' = g ∨ ∃ t, c.reading? = some t ∧ g.last_observed_ms ≤ t ∧ g' = g.observed t := by
  cases ho with
  | rolled_back => exact absurd rfl hc
  | missed | lapsed => exact absurd rfl hx
  | refused hr hle => exact Or.inr ⟨_, hr, hle, rfl⟩
  | not_staged | mismatched => exact Or.inl rfl

theorem Outcome.of_unconfirmed {r : GatePersistenceRecord} {e : GateError}
    (ho : g.Outcome (.confirm_persisted r) (.error e) g') : g' = g := by
  cases ho with
  | rolled_back hr | refused hr => cases hr
  | not_staged | mismatched => rfl

end EffectGate

/-! ## The law -/

open EffectGate

/-- What the call `c` with the answer `a` may have done to the gate `g`, which is `g'` now. -/
structure ErrorAtomic (g : EffectGate) (c : Call) (a : Answer) (g' : EffectGate) : Prop where
  rolled_back_iff : a = .error .ClockRollback ↔
    ∃ t, c.reading? = some t ∧ t < g.last_observed_ms
  rolled_back : a = .error .ClockRollback →
    g' = { g with state := .SelfFenced g.state.last_epoch .SafetyFault }
  expired : a = .error .LeaseExpired → ∃ t e x, c.reading? = some t ∧ g.last_observed_ms ≤ t ∧
    g.HasLease e x ∧ x ≤ t ∧
    g' = { g with last_observed_ms := t, state := .SelfFenced e .LeaseExpired }
  refused : ∀ e, a = .error e → e ≠ .ClockRollback → e ≠ .LeaseExpired →
    g' = g ∨ ∃ t, c.reading? = some t ∧ g.last_observed_ms ≤ t ∧
      g' = { g with last_observed_ms := t }
  unconfirmed : ∀ r e, c = .confirm_persisted r → a = .error e → g' = g
  remembers : g.state.last_epoch ≤ g'.state.last_epoch
  same_binding : g'.node = g.node ∧ g'.workload = g.workload ∧ g'.policy_hash = g.policy_hash ∧
    g'.incarnation = g.incarnation

/-- Every call of every gate, with any arguments and at any clock reading, that
fails changes only what its error says; and no call lowers the epoch of a gate
or changes what it is bound to. -/
theorem failed_calls_change_only_what_they_say (g : EffectGate) (c : Call) :
    ErrorAtomic g c (g.step c).1 (g.step c).2 := by
  have ho := step.spec g c
  generalize (g.step c).1 = a, (g.step c).2 = g' at ho
  refine ⟨ho.rolled_back_iff, ?_, ?_, ?_, ?_, ho.last_epoch_le, ho.same_binding⟩
  · rintro rfl
    exact ho.of_rolled_back
  · rintro rfl
    exact ho.of_expired
  · rintro e rfl hc hx
    exact ho.of_error hc hx
  · rintro r e rfl rfl
    exact ho.of_unconfirmed

end quorumarc_core

-- Anti-replay across the lives of a gate. A crash may come between any two
-- calls, and each new life recovers from what was durably written, so the
-- epochs that a node opens only go up.
import QuorumArc.GateCalls

open runs words

namespace quorumarc_core

/-! ## The durable store and the lives of a gate -/

/-- The durable store of a node: the records written to it, and the greatest
epoch and time, which no record exceeds. -/
structure GateStore where
  accepted_epoch : Epoch
  last_observed_ms : UInt64
  written : List GatePersistenceRecord
  covers : ∀ r ∈ written,
    r.accepted_epoch ≤ accepted_epoch ∧ r.last_observed_ms ≤ last_observed_ms

namespace GateStore

def write (s : GateStore) (r : GatePersistenceRecord) : GateStore where
  accepted_epoch := max s.accepted_epoch r.accepted_epoch
  last_observed_ms := max s.last_observed_ms r.last_observed_ms
  written := r :: s.written
  covers := by
    intro w hw
    rcases List.mem_cons.mp hw with rfl | hw
    · exact ⟨le_max_right _ _, u64_le_max_right _ _⟩
    · obtain ⟨he, ht⟩ := s.covers w hw
      exact ⟨le_trans he (le_max_left _ _), UInt64.le_trans ht (u64_le_max_left _ _)⟩

/-- What a gate that starts as this incarnation reads from the store. -/
def recovery (s : GateStore) (incarnation : Incarnation) : GateRecoveryState where
  accepted_epoch := s.accepted_epoch
  incarnation := incarnation
  last_observed_ms := s.last_observed_ms

end GateStore

/-- A node: its durable store and the gate of its current life. -/
structure GateLife where
  store : GateStore
  gate : EffectGate

def GateLife.begin (store : GateStore) (node : NodeId) (workload : WorkloadId)
    (policy_hash : PolicyHash) (incarnation : Incarnation) : GateLife where
  store := store
  gate := .recover node workload policy_hash (store.recovery incarnation)

inductive LifeEvent where
  | called (ev : GateEvent)
  | wrote (record : GatePersistenceRecord)
  | restarted (workload : WorkloadId) (policy_hash : PolicyHash) (incarnation : Incarnation)

/-- One event of a node. A record is confirmed only after it was written; a
crash loses the gate and keeps the store. -/
inductive LifeStep : GateLife → LifeEvent → GateLife → Prop
  | called {l : GateLife} {g' : EffectGate} (ev : GateEvent) : GateStep l.gate ev g' →
      (∀ r, ev.call = .confirm_persisted r → r ∈ l.store.written) →
      LifeStep l (.called ev) { l with gate := g' }
  | wrote {l : GateLife} (r : GatePersistenceRecord) :
      LifeStep l (.wrote r) { l with store := l.store.write r }
  | restarted {l : GateLife} (workload : WorkloadId) (policy_hash : PolicyHash)
      (incarnation : Incarnation) :
      LifeStep l (.restarted workload policy_hash incarnation)
        (.begin l.store l.gate.node workload policy_hash incarnation)

abbrev LifeRun := Run LifeStep

theorem lifeStep_called {l : GateLife} (ev : GateEvent) (ha : (l.gate.step ev.call).1 = ev.answer)
    (hw : ∀ r, ev.call = .confirm_persisted r → r ∈ l.store.written) :
    LifeStep l (.called ev) { l with gate := (l.gate.step ev.call).2 } :=
  .called ev (Prod.ext ha rfl) hw

/-! ## The epochs that a node opened -/

/-- The epoch that the event opened. -/
def GateEvent.opened? : GateEvent → Option Epoch
  | ⟨.activate _, .ok (.Receipt r)⟩ => some r.epoch
  | _ => none

def LifeEvent.opened? : LifeEvent → Option Epoch
  | .called ev => ev.opened?
  | .wrote _ | .restarted .. => none

/-- The epochs of the successful `activate` calls, in order. -/
def openedEpochs (es : List LifeEvent) : List Epoch := es.filterMap LifeEvent.opened?

@[simp] theorem opened?_error (c : Call) (e : GateError) :
    GateEvent.opened? ⟨c, .error e⟩ = none := by
  cases c <;> rfl

@[simp] theorem openedEpochs_nil : openedEpochs [] = [] := rfl

theorem openedEpochs_none {es : List LifeEvent} {ev : LifeEvent} (h : ev.opened? = none) :
    openedEpochs (es ++ [ev]) = openedEpochs es := by
  simp [openedEpochs, h]

theorem openedEpochs_some {es : List LifeEvent} {ev : LifeEvent} {e : Epoch}
    (h : ev.opened? = some e) : openedEpochs (es ++ [ev]) = openedEpochs es ++ [e] := by
  simp [openedEpochs, h]

namespace EffectGate

variable {g g' : EffectGate} {ev : GateEvent}

/-- No call makes a gate forget an epoch. -/
theorem Outcome.last_epoch_le {c : Call} {a : Answer} (ho : g.Outcome c a g') :
    g.state.last_epoch ≤ g'.state.last_epoch := by
  cases ho with
  | staged _ _ _ hlt => exact le_of_lt hlt
  | confirmed hs => rw [hs]; exact le_refl _
  | activated _ hs => rw [hs]; exact le_refl _
  | rolled_back | refused | restaged | not_staged | mismatched | missed | allowed | lapsed
  | ticked_out | ticked | closed | faulted => exact le_refl _

/-- An epoch is opened only by the activation of a prepared capability, and
then the gate is open under it. -/
theorem Outcome.opened {e : Epoch} (ho : g.Outcome ev.call ev.answer g')
    (h : ev.opened? = some e) :
    ∃ v, g.state = .Prepared v ∧ v.epoch = e ∧ g'.state = .Open v.candidate e v.expires_at_ms := by
  obtain ⟨c, a⟩ := ev
  cases ho with
  | activated _ hs =>
    cases h
    exact ⟨_, hs, rfl, rfl⟩
  | rolled_back | refused | not_staged | mismatched | missed | lapsed => simp at h
  | staged | restaged | confirmed | allowed | ticked_out | ticked | closed | faulted => cases h

/-- A call that opens no epoch leaves the gate open only if it was open. -/
theorem Outcome.open_of_none {h : NodeId} {e : Epoch} {x : UInt64}
    (ho : g.Outcome ev.call ev.answer g') (hn : ev.opened? = none)
    (hs : g'.state = .Open h e x) : g.state = .Open h e x := by
  rcases ho.to_open hs with hold | ⟨v, t, _, _, _, _, hc, ha, _⟩
  · exact hold
  · obtain ⟨c, a⟩ := ev
    cases hc
    cases ha
    cases hn

end EffectGate

/-! ## What a node remembers -/

/-- The epoch first stored and the epochs opened since are all known to the
store and to the gate, in every state that the gate can be in. -/
structure Remembers (e₀ : Epoch) (opened : List Epoch) (l : GateLife) : Prop where
  increasing : (e₀ :: opened).Pairwise (· < ·)
  stored : ∀ e ∈ e₀ :: opened, e ≤ l.store.accepted_epoch
  known : ∀ e ∈ e₀ :: opened, e ≤ l.gate.state.last_epoch
  pending : ∀ v, l.gate.Pending v → ∀ e ∈ e₀ :: opened, e < v.epoch
  durable : ∀ v, l.gate.state = .Prepared v → v.epoch ≤ l.store.accepted_epoch
  latest : ∀ h e x, l.gate.state = .Open h e x → opened.getLast? = some e

variable {e₀ : Epoch} {opened : List Epoch} {l l' : GateLife} {ev : LifeEvent}

/-- A gate that starts again remembers what the store does. -/
theorem remembers_begin {node : NodeId} {workload : WorkloadId} {policy_hash : PolicyHash}
    {incarnation : Incarnation} {store : GateStore} (hp : (e₀ :: opened).Pairwise (· < ·))
    (hs : ∀ e ∈ e₀ :: opened, e ≤ store.accepted_epoch) :
    Remembers e₀ opened (.begin store node workload policy_hash incarnation) := by
  refine ⟨hp, hs, hs, ?_, ?_, ?_⟩
  · intro v hv
    rcases hv with hv | hv <;> cases hv
  · intro v hv
    cases hv
  · intro h e x hv
    cases hv

theorem remembers_write (h : Remembers e₀ opened l) (r : GatePersistenceRecord) :
    Remembers e₀ opened { l with store := l.store.write r } := by
  have hle : l.store.accepted_epoch ≤ (l.store.write r).accepted_epoch := le_max_left _ _
  refine ⟨h.increasing, ?_, h.known, h.pending, ?_, h.latest⟩
  · intro e he
    exact le_trans (h.stored e he) hle
  · intro v hv
    exact le_trans (h.durable v hv) hle

theorem remembers_call {ev : GateEvent} {g' : EffectGate} (h : Remembers e₀ opened l)
    (ho : l.gate.Outcome ev.call ev.answer g') (hn : ev.opened? = none)
    (hw : ∀ r, ev.call = .confirm_persisted r → r ∈ l.store.written) :
    Remembers e₀ opened { l with gate := g' } := by
  refine ⟨h.increasing, h.stored, ?_, ?_, ?_, ?_⟩
  · intro e he
    exact le_trans (h.known e he) ho.last_epoch_le
  · intro v hv e he
    rcases ho.to_pending hv with hold | ⟨_, _, hlt, _⟩
    · exact h.pending v hold e he
    · exact lt_of_le_of_lt (h.known e he) hlt
  · -- A capability becomes prepared only by the confirmation of a record that was written.
    intro v hp
    rcases ho.to_prepared hp with hold | ⟨_, hc, _⟩
    · exact h.durable v hold
    · exact (l.store.covers _ (hw _ hc)).1
  · intro hn' e x hs
    exact h.latest hn' e x (ho.open_of_none hn hs)

/-- The activation of a prepared capability opens an epoch above all others,
which the store already holds. -/
theorem remembers_activate {ev : GateEvent} {g' : EffectGate} {e : Epoch}
    (h : Remembers e₀ opened l) (ho : l.gate.Outcome ev.call ev.answer g')
    (he : ev.opened? = some e) : Remembers e₀ (opened ++ [e]) { l with gate := g' } := by
  obtain ⟨v, hp, rfl, hopen⟩ := ho.opened he
  have habove := h.pending v (Or.inr hp)
  have hall : ∀ b, v.epoch ≤ b → ∀ o ∈ e₀ :: (opened ++ [v.epoch]), o ≤ b := by
    intro b hle o ho
    rw [← List.cons_append] at ho
    rcases List.mem_append.mp ho with ho | ho
    · exact le_trans (le_of_lt (habove o ho)) hle
    · rw [List.mem_singleton.mp ho]
      exact hle
  refine ⟨?_, hall _ (h.durable v hp), ?_, ?_, ?_, ?_⟩
  · rw [← List.cons_append, List.pairwise_append]
    refine ⟨h.increasing, List.pairwise_singleton _ _, ?_⟩
    intro o ho w hw
    rw [List.mem_singleton.mp hw]
    exact habove o ho
  · refine hall _ ?_
    simp only [hopen]
    exact le_refl _
  · intro w hw
    rcases hw with hw | hw <;> rw [hopen] at hw <;> cases hw
  · intro w hw
    rw [hopen] at hw
    cases hw
  · intro hn o x hs
    rw [hopen] at hs
    cases hs
    simp

theorem remembers_step {es : List LifeEvent} (h : Remembers e₀ (openedEpochs es) l)
    (hstep : LifeStep l ev l') : Remembers e₀ (openedEpochs (es ++ [ev])) l' := by
  cases hstep with
  | called ev hcall hw =>
    rcases he : ev.opened? with _ | e
    · have hsame : openedEpochs (es ++ [.called ev]) = openedEpochs es := openedEpochs_none he
      rw [hsame]
      exact remembers_call h hcall.outcome he hw
    · have hnew : openedEpochs (es ++ [.called ev]) = openedEpochs es ++ [e] :=
        openedEpochs_some he
      rw [hnew]
      exact remembers_activate h hcall.outcome he
  | wrote r =>
    rw [openedEpochs_none rfl]
    exact remembers_write h r
  | restarted =>
    rw [openedEpochs_none rfl]
    exact remembers_begin h.increasing h.stored

theorem remembers_run {store : GateStore} {node : NodeId} {workload : WorkloadId}
    {policy_hash : PolicyHash} {incarnation : Incarnation} {es : List LifeEvent}
    (hrun : LifeRun (.begin store node workload policy_hash incarnation) es l) :
    Remembers store.accepted_epoch (openedEpochs es) l := by
  refine hrun.history (fun es l => Remembers store.accepted_epoch (openedEpochs es) l) ?_ ?_
  · exact remembers_begin (by simp) (by simp)
  · intro es l ev l' _ ih hstep
    exact remembers_step ih hstep

/-! ## The law -/

/-- Over all lives of a node, whatever it is offered: the epochs it opens go up
from the epoch first stored, each is opened once, and an open gate is open under
the last of them. -/
theorem opened_epochs_never_repeat {store : GateStore} {node : NodeId} {workload : WorkloadId}
    {policy_hash : PolicyHash} {incarnation : Incarnation} {es : List LifeEvent} {l : GateLife}
    (hrun : LifeRun (.begin store node workload policy_hash incarnation) es l) :
    (openedEpochs es).Pairwise (· < ·) ∧
    (∀ e ∈ openedEpochs es, store.accepted_epoch < e) ∧
    (∀ before ev after e, es = before ++ ev :: after → ev.opened? = some e →
      e ∉ openedEpochs before ∧ e ∉ openedEpochs after) ∧
    (∀ h e x, l.gate.state = .Open h e x → (openedEpochs es).getLast? = some e) := by
  have hrem := remembers_run hrun
  obtain ⟨habove, hinc⟩ := List.pairwise_cons.mp hrem.increasing
  refine ⟨hinc, habove, ?_, hrem.latest⟩
  · intro before ev after e hes hev
    have hsplit : openedEpochs es = openedEpochs before ++ e :: openedEpochs after := by
      simp [hes, openedEpochs, hev]
    rw [hsplit] at hinc
    obtain ⟨_, hafter, hcross⟩ := List.pairwise_append.mp hinc
    refine ⟨?_, ?_⟩
    · intro hmem
      exact lt_irrefl e (hcross e hmem e List.mem_cons_self)
    · intro hmem
      exact lt_irrefl e ((List.pairwise_cons.mp hafter).1 e hmem)

namespace tests

def store : GateStore :=
  { accepted_epoch := ⟨0⟩, last_observed_ms := 9990, written := [], covers := by simp }

/-- A node opens epoch 1, crashes, and is offered the same capability again. -/
def lives : List LifeEvent :=
  [.called ⟨.stage 10000 capability, .ok (.Record record)⟩, .wrote record,
    .called ⟨.confirm_persisted record, .ok .Confirmed⟩,
    .called ⟨.activate 10000, .ok (.Receipt (receiptOf capability 10000))⟩,
    .restarted workload hash ⟨1⟩, .called ⟨.stage 10100 capability, .error .StaleAuthorization⟩]

end tests

theorem opened_epochs_never_repeat_after_crash :
    (openedEpochs tests.lives).Pairwise (· < ·) ∧
    (∀ e ∈ openedEpochs tests.lives, (⟨0⟩ : Epoch) < e) ∧
    (∀ before ev after e, tests.lives = before ++ ev :: after → ev.opened? = some e →
      e ∉ openedEpochs before ∧ e ∉ openedEpochs after) := by
  have h0 : LifeRun (.begin tests.store tests.node_a tests.workload tests.hash ⟨1⟩) []
    (.begin tests.store tests.node_a tests.workload tests.hash ⟨1⟩) := .nil
  have h1 := h0.snoc (lifeStep_called ⟨.stage 10000 tests.capability, .ok (.Record tests.record)⟩
    (by decide) (by simp))
  have h2 := h1.snoc (.wrote tests.record)
  have h3 := h2.snoc (lifeStep_called ⟨.confirm_persisted tests.record, .ok .Confirmed⟩
    (by decide) (by simp [GateStore.write]))
  have h4 := h3.snoc (lifeStep_called
    ⟨.activate 10000, .ok (.Receipt (receiptOf tests.capability 10000))⟩ (by decide) (by simp))
  have h5 := h4.snoc (.restarted tests.workload tests.hash ⟨1⟩)
  have h6 := h5.snoc (lifeStep_called ⟨.stage 10100 tests.capability, .error .StaleAuthorization⟩
    (by decide) (by simp))
  obtain ⟨hinc, habove, honce, _⟩ := opened_epochs_never_repeat h6
  exact ⟨hinc, habove, honce⟩

end quorumarc_core

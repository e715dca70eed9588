-- Single writer. One serial authority and one gate for each node, all on one
-- clock, with their calls interleaved in any order: effects follow the epochs.
import Mathlib.Logic.Function.Basic
import QuorumArc.Authority
import QuorumArc.GateCalls
import QuorumArc.Succession

open runs succession

namespace quorumarc_core

/-! ## The system -/

/-- The clock, the serial authority with the promotions that it accepted, oldest
first, and the gate of each node. -/
structure Cluster where
  now_ms : UInt64
  current : AuthorityState
  history : List Promotion
  gates : NodeId → EffectGate

/-- No node has held authority yet, and each gate has just recovered. -/
def Cluster.begin (now_ms : UInt64) (workload : NodeId → WorkloadId)
    (policy_hash : NodeId → PolicyHash) (recovery : NodeId → GateRecoveryState) : Cluster where
  now_ms := now_ms
  current := .initial
  history := []
  gates := fun node => .recover node (workload node) (policy_hash node) (recovery node)

inductive ClusterEvent where
  | advanced (now_ms : UInt64)
  | evaluated (proof : PromotionProof) (answer : Except ProofError ValidatedPromotion)
  | called (node : NodeId) (ev : GateEvent)

def Granted (history : List Promotion) (v : ValidatedPromotion) : Prop :=
  ∃ p ∈ history, p.capability = v

/-- One event of the system. The clock never goes back, every reading is of that
clock, and a gate is only offered a capability that was accepted. -/
inductive ClusterStep (policy : SafetyPolicy) : Cluster → ClusterEvent → Cluster → Prop
  | advanced {c : Cluster} (now_ms : UInt64) : c.now_ms ≤ now_ms →
      ClusterStep policy c (.advanced now_ms) { c with now_ms := now_ms }
  | promoted {c : Cluster} {v : ValidatedPromotion} (proof : PromotionProof) :
      validate_promotion proof c.current policy c.now_ms = .ok v →
      ClusterStep policy c (.evaluated proof (.ok v))
        { c with current := v.authority, history := c.history ++ [⟨proof, c.now_ms, v⟩] }
  | refused {c : Cluster} {e : ProofError} (proof : PromotionProof) :
      validate_promotion proof c.current policy c.now_ms = .error e →
      ClusterStep policy c (.evaluated proof (.error e)) c
  | called {c : Cluster} {g' : EffectGate} (node : NodeId) (ev : GateEvent) :
      GateStep (c.gates node) ev g' → (∀ t, ev.call.reading? = some t → t = c.now_ms) →
      (∀ t v, ev.call = .stage t v → Granted c.history v) →
      ClusterStep policy c (.called node ev) { c with gates := Function.update c.gates node g' }

abbrev ClusterRun (policy : SafetyPolicy) := Run (ClusterStep policy)

/-- A call of a gate is a step when it gives its answer, at the time of the
clock, and offers nothing but what was granted. -/
theorem clusterStep_called {policy : SafetyPolicy} {c : Cluster} (node : NodeId) (ev : GateEvent)
    (ha : ((c.gates node).step ev.call).1 = ev.answer)
    (hclock : ev.call.reading?.getD c.now_ms = c.now_ms)
    (hoffer : match ev.call with
      | .stage _ v => v ∈ c.history.map (·.capability)
      | _ => True) :
    ClusterStep policy c (.called node ev)
      { c with gates := Function.update c.gates node ((c.gates node).step ev.call).2 } := by
  refine .called node ev (Prod.ext ha rfl) ?_ ?_
  · intro t ht
    rw [ht, Option.getD_some] at hclock
    exact hclock
  · intro t v hc
    rw [hc] at hoffer
    exact List.mem_map.mp hoffer

/-- The event of an effect that the gate of `node` allows under `epoch` at `t`. -/
def allows (node : NodeId) (t : UInt64) (holder : NodeId) (epoch : Epoch) : ClusterEvent :=
  .called node ⟨.check_effect t holder epoch, .ok .Allowed⟩

/-- What is assumed of the fence adapter: the target of an accepted receipt of a
hard fence has no effect under the replaced epoch at or after the time at which
the fence was observed. -/
def FencesHold (policy : SafetyPolicy) (start : Cluster) (es : List ClusterEvent) : Prop :=
  ∀ before proof v after c target t holder, es = before ++ .evaluated proof (.ok v) :: after →
    ClusterRun policy start before c → proof.fence.Hard → proof.fence.target = some target →
    proof.fence.observed_at_ms ≤ t → allows target t holder c.current.epoch ∉ es

/-! ## One gate -/

/-- What a gate of `node` holds was granted to the node. -/
structure HoldsGranted (history : List Promotion) (node : NodeId) (g : EffectGate) : Prop where
  own : g.node = node
  pending : ∀ v, g.Pending v → Granted history v ∧ v.candidate = node
  opened : ∀ h e x, g.state = .Open h e x →
    ∃ v, Granted history v ∧ v.candidate = node ∧ h = node ∧ e = v.epoch ∧ x = v.expires_at_ms

variable {history : List Promotion} {node : NodeId} {g g' : EffectGate} {ev : GateEvent}

theorem Granted.append {v : ValidatedPromotion} (h : Granted history v) (ps : List Promotion) :
    Granted (history ++ ps) v := by
  obtain ⟨p, hp, hv⟩ := h
  exact ⟨p, List.mem_append_left ps hp, hv⟩

theorem HoldsGranted.append (h : HoldsGranted history node g) (ps : List Promotion) :
    HoldsGranted (history ++ ps) node g := by
  refine ⟨h.own, ?_, ?_⟩
  · intro v hv
    exact ⟨(h.pending v hv).1.append ps, (h.pending v hv).2⟩
  · intro hn e x hs
    obtain ⟨v, hg, hrest⟩ := h.opened hn e x hs
    exact ⟨v, hg.append ps, hrest⟩

theorem holdsGranted_step (h : HoldsGranted history node g) (ho : g.Outcome ev.call ev.answer g')
    (hoffer : ∀ t v, ev.call = .stage t v → Granted history v) : HoldsGranted history node g' := by
  refine ⟨ho.same_binding.1.trans h.own, ?_, ?_⟩
  · intro v hv
    rcases ho.to_pending hv with hold | ⟨t, hb, _, hc⟩
    · exact h.pending v hold
    · exact ⟨hoffer t v hc, hb.candidate.trans h.own⟩
  · intro hn e x hs
    rcases ho.to_open hs with hold | ⟨v, t, _, hp, _, _, _, _, _, rfl, he, hx⟩
    · exact h.opened hn e x hold
    · obtain ⟨hg, hcand⟩ := h.pending v (Or.inr hp)
      exact ⟨v, hg, hcand, hcand, he, hx⟩

/-! ## The history of the system -/

variable {policy : SafetyPolicy} {start c c' : Cluster} {es : List ClusterEvent}

/-- `b` was evaluated in the run against the authority that `a` left. -/
def Handover (policy : SafetyPolicy) (start : Cluster) (es : List ClusterEvent)
    (a b : Promotion) : Prop :=
  ∃ before after c, es = before ++ .evaluated b.proof (.ok b.capability) :: after ∧
    ClusterRun policy start before c ∧ c.current = a.capability.authority

theorem Handover.append {a b : Promotion} (h : Handover policy start es a b)
    (ev : ClusterEvent) : Handover policy start (es ++ [ev]) a b := by
  obtain ⟨before, after, c, rfl, hrest⟩ := h
  exact ⟨before, after ++ [ev], c, by simp, hrest⟩

/-- The effect of `node` at `t` was under a grant to the node that had begun and
had not expired. -/
def Covered (history : List Promotion) (node : NodeId) (t : UInt64) (epoch : Epoch) : Prop :=
  ∃ p ∈ history, p.capability.candidate = node ∧ p.capability.epoch = epoch ∧ p.now_ms ≤ t ∧
    t < p.capability.expires_at_ms

theorem Covered.append {t : UInt64} {epoch : Epoch} (h : Covered history node t epoch)
    (ps : List Promotion) : Covered (history ++ ps) node t epoch := by
  obtain ⟨p, hp, hrest⟩ := h
  exact ⟨p, List.mem_append_left ps hp, hrest⟩

/-- What holds of every run of the system. -/
structure Orderly (policy : SafetyPolicy) (start : Cluster) (es : List ClusterEvent) (c : Cluster) :
    Prop where
  serial : ∃ l, AuthorityRun policy c.history l ∧ l.current = c.current ∧ l.now_ms ≤ c.now_ms
  past : ∀ p ∈ c.history, p.now_ms ≤ c.now_ms
  handovers : c.history.IsChain (Handover policy start es)
  gates : ∀ node, HoldsGranted c.history node (c.gates node)
  effects : ∀ node t h e, allows node t h e ∈ es → Covered c.history node t e

theorem orderly_begin (now_ms : UInt64) (workload : NodeId → WorkloadId)
    (policy_hash : NodeId → PolicyHash) (recovery : NodeId → GateRecoveryState) :
    Orderly policy (.begin now_ms workload policy_hash recovery) []
      (.begin now_ms workload policy_hash recovery) := by
  refine ⟨⟨.initial, .nil, rfl, UInt64.zero_le⟩, ?_, ?_, ?_, ?_⟩
  · intro p hp
    cases hp
  · exact List.isChain_nil
  · intro node
    refine ⟨rfl, ?_, ?_⟩
    · intro v hv
      rcases hv with hv | hv <;> cases hv
    · intro h e x hs
      cases hs
  · intro node t h e hmem
    cases hmem

theorem effects_of_append {ev : ClusterEvent} (h : ∀ node t hn e, allows node t hn e ∈ es →
    Covered history node t e) (hev : ∀ node t hn e, ev ≠ allows node t hn e) :
    ∀ node t hn e, allows node t hn e ∈ es ++ [ev] → Covered history node t e := by
  intro node t hn e hmem
  rcases List.mem_append.mp hmem with hmem | hmem
  · exact h node t hn e hmem
  · exact absurd (List.mem_singleton.mp hmem).symm (hev node t hn e)

theorem orderly_promoted {proof : PromotionProof} {v : ValidatedPromotion}
    (h : Orderly policy start es c) (hrun : ClusterRun policy start es c)
    (hval : validate_promotion proof c.current policy c.now_ms = .ok v) :
    Orderly policy start (es ++ [.evaluated proof (.ok v)])
      { c with current := v.authority, history := c.history ++ [⟨proof, c.now_ms, v⟩] } := by
  obtain ⟨l, hserial, hcur, hle⟩ := h.serial
  refine ⟨?_, ?_, ?_, ?_, ?_⟩
  · refine ⟨⟨v.authority, c.now_ms⟩, hserial.snoc ⟨?_, hle, rfl⟩, rfl, UInt64.le_refl _⟩
    rw [hcur]
    exact hval
  · intro p hp
    rcases List.mem_append.mp hp with hp | hp
    · exact h.past p hp
    · rw [List.mem_singleton.mp hp]
  · have hold := h.handovers.imp fun a b hab => hab.append (.evaluated proof (.ok v))
    refine hold.append (List.isChain_singleton _) ?_
    intro a ha b hb
    cases hb
    refine ⟨es, [], c, rfl, hrun, ?_⟩
    obtain ⟨_, hlast, _⟩ := authority_run hserial
    rw [← hcur, hlast a ha]
  · intro node
    exact (h.gates node).append _
  · refine effects_of_append ?_ (by simp [allows])
    intro node t hn e hmem
    exact (h.effects node t hn e hmem).append _

theorem orderly_called {ev : GateEvent} {g' : EffectGate} (h : Orderly policy start es c)
    (hcall : GateStep (c.gates node) ev g') (hclock : ∀ t, ev.call.reading? = some t → t = c.now_ms)
    (hoffer : ∀ t v, ev.call = .stage t v → Granted c.history v) :
    Orderly policy start (es ++ [.called node ev])
      { c with gates := Function.update c.gates node g' } := by
  refine ⟨h.serial, h.past, ?_, ?_, ?_⟩
  · exact h.handovers.imp fun a b hab => hab.append (.called node ev)
  · intro n
    by_cases hn : n = node
    · subst hn
      show HoldsGranted c.history n (Function.update c.gates n g' n)
      rw [Function.update_self]
      exact holdsGranted_step (h.gates n) hcall.outcome hoffer
    · show HoldsGranted c.history n (Function.update c.gates node g' n)
      rw [Function.update_of_ne hn]
      exact h.gates n
  · intro n t hn e hmem
    rcases List.mem_append.mp hmem with hmem | hmem
    · exact h.effects n t hn e hmem
    · -- The gate was open for the grant, and the clock had passed its evaluation.
      cases List.mem_singleton.mp hmem
      obtain ⟨x, _, hopen, hlt, _⟩ := hcall.outcome.of_allowed
      obtain ⟨v, ⟨p, hp, rfl⟩, hcand, _, rfl, rfl⟩ := (h.gates node).opened hn e x hopen
      have ht : t = c.now_ms := hclock t rfl
      refine ⟨p, hp, hcand, rfl, ?_, hlt⟩
      rw [ht]
      exact h.past p hp

theorem orderly_step {ev : ClusterEvent} (h : Orderly policy start es c)
    (hrun : ClusterRun policy start es c) (hstep : ClusterStep policy c ev c') :
    Orderly policy start (es ++ [ev]) c' := by
  cases hstep with
  | advanced now_ms hle =>
    obtain ⟨l, hserial, hcur, hl⟩ := h.serial
    refine ⟨⟨l, hserial, hcur, UInt64.le_trans hl hle⟩, ?_, ?_, h.gates, ?_⟩
    · intro p hp
      exact UInt64.le_trans (h.past p hp) hle
    · exact h.handovers.imp fun a b hab => hab.append (.advanced now_ms)
    · exact effects_of_append h.effects (by simp [allows])
  | promoted proof hval => exact orderly_promoted h hrun hval
  | refused proof hval =>
    refine ⟨h.serial, h.past, ?_, h.gates, ?_⟩
    · exact h.handovers.imp fun a b hab => hab.append (.evaluated proof _)
    · exact effects_of_append h.effects (by simp [allows])
  | called node ev hcall hclock hoffer => exact orderly_called h hcall hclock hoffer

theorem orderly_run {now_ms : UInt64} {workload : NodeId → WorkloadId}
    {policy_hash : NodeId → PolicyHash} {recovery : NodeId → GateRecoveryState}
    (hrun : ClusterRun policy (.begin now_ms workload policy_hash recovery) es c) :
    Orderly policy (.begin now_ms workload policy_hash recovery) es c := by
  refine hrun.history (Orderly policy (.begin now_ms workload policy_hash recovery)) ?_ ?_
  · exact orderly_begin now_ms workload policy_hash recovery
  · intro es c ev c' hrun ih hstep
    exact orderly_step ih hrun hstep

/-! ## The promotions as a succession -/

/-- The node of the promotion had an effect under its epoch at the time `t` of its lease. -/
def ActsIn (es : List ClusterEvent) (p : Promotion) (t : UInt64) : Prop :=
  ∃ holder, allows p.capability.candidate t holder p.capability.epoch ∈ es ∧ p.now_ms ≤ t ∧
    t < p.capability.expires_at_ms

/-- A receipt that excludes a holder names it. -/
theorem fence_target {a b : Promotion} (h : Follows policy a b) :
    b.proof.fence.target = some a.capability.candidate := by
  obtain ⟨_, hex, _⟩ := (accepted h.1).1.excludes
  exact (hex.of_holder rfl).1

theorem newer_epoch {a b : Promotion} (h : Follows policy a b) :
    a.capability.epoch < b.capability.epoch := by
  obtain ⟨hacc, hv⟩ := accepted h.1
  rw [hv]
  exact hacc.newer

/-- The replaced node has no effect any more when its successor is accepted:
its lease has run out, or its power or storage was cut off. -/
theorem stopped_at_handover {a b : Promotion} (hfence : FencesHold policy start es)
    (hfollows : Follows policy a b) (hhandover : Handover policy start es a b) {t : UInt64}
    (hacts : ActsIn es a t) : t < b.now_ms := by
  obtain ⟨holder, hmem, _, hlease⟩ := hacts
  have hstart := (lease_running hfollows.1).1
  rcases lease_after_fence hfollows with ⟨hhard, hle⟩ | ⟨_, hle⟩
  · obtain ⟨before, after, c, hes, hbefore, hcur⟩ := hhandover
    have hnot := hfence before b.proof b.capability after c a.capability.candidate t holder hes
      hbefore hhard (fence_target hfollows)
    rw [hcur] at hnot
    have hlt : t < b.proof.fence.observed_at_ms := UInt64.not_le.mp fun hobs => hnot hobs hmem
    exact UInt64.lt_of_lt_of_le hlt (UInt64.le_trans hle hstart)
  · exact UInt64.lt_of_lt_of_le hlease (UInt64.le_trans hle hstart)

theorem succession_of_run (horderly : Orderly policy start es c)
    (hfence : FencesHold policy start es) :
    Succession (fun p : Promotion => p.capability.epoch) Promotion.now_ms (ActsIn es)
      c.history := by
  obtain ⟨l, hserial, _, _⟩ := horderly.serial
  obtain ⟨hchain, _, _⟩ := authority_run hserial
  refine ⟨?_, ?_, ?_, ?_⟩
  · exact hchain.imp fun a b h => newer_epoch h
  · exact hchain.imp fun a b h => h.2
  · rw [List.isChain_iff_forall_rel_of_append_cons_cons] at hchain ⊢
    have hhand := List.isChain_iff_forall_rel_of_append_cons_cons.mp horderly.handovers
    intro a b l₁ l₂ hl t hacts
    exact stopped_at_handover hfence (hchain hl) (hhand hl) hacts
  · rintro p _ t ⟨_, _, hle, _⟩
    exact hle

/-! ## The law -/

/-- Effects follow the epochs: of two effects in a run, on any gates, the one
under the later epoch is at a later time; effects under one epoch are of one
node; and effects at one time are of one node under one epoch. -/
theorem effects_follow_epochs {now_ms : UInt64} {workload : NodeId → WorkloadId}
    {policy_hash : NodeId → PolicyHash} {recovery : NodeId → GateRecoveryState}
    (hrun : ClusterRun policy (.begin now_ms workload policy_hash recovery) es c)
    (hfence : FencesHold policy (.begin now_ms workload policy_hash recovery) es)
    {n₁ n₂ h₁ h₂ : NodeId} {t₁ t₂ : UInt64} {e₁ e₂ : Epoch}
    (hmem₁ : allows n₁ t₁ h₁ e₁ ∈ es) (hmem₂ : allows n₂ t₂ h₂ e₂ ∈ es) :
    (e₁ < e₂ → t₁ < t₂) ∧ (e₁ = e₂ → n₁ = n₂) ∧ (t₁ = t₂ → n₁ = n₂ ∧ e₁ = e₂) := by
  have horderly := orderly_run hrun
  have hsucc := succession_of_run horderly hfence
  obtain ⟨p, hp, rfl, rfl, hp1, hp2⟩ := horderly.effects n₁ t₁ h₁ e₁ hmem₁
  obtain ⟨q, hq, rfl, rfl, hq1, hq2⟩ := horderly.effects n₂ t₂ h₂ e₂ hmem₂
  have hactp : ActsIn es p t₁ := ⟨h₁, hmem₁, hp1, hp2⟩
  have hactq : ActsIn es q t₂ := ⟨h₂, hmem₂, hq1, hq2⟩
  refine ⟨?_, ?_, ?_⟩
  · intro hlt
    exact hsucc.ordered hp hq hactp hactq hlt
  · intro heq
    rw [hsucc.epoch_inj hp hq heq]
  · rintro rfl
    rw [hsucc.exclusive hp hq hactp hactq]
    exact ⟨rfl, rfl⟩

namespace tests

def cluster : Cluster := .begin 10000 (fun _ => workload) (fun _ => hash) (fun _ => recovery)

/-- The proof and the capability of node-b, after a power cut of node-a at 10100. -/
def proof_b : PromotionProof := takeover node_a node_b ⟨2⟩ 10100

def capability_b : ValidatedPromotion := capabilityOf proof_b .HardwarePower

def record_b : GatePersistenceRecord :=
  { record with node := node_b, accepted_epoch := ⟨2⟩, last_observed_ms := 10100 }

/-- node-a has an effect under epoch 1, and node-b takes over and has one under epoch 2. -/
def failover : List ClusterEvent :=
  [.evaluated (proof node_a ⟨1⟩) (.ok capability),
    .called node_a ⟨.stage 10000 capability, .ok (.Record record)⟩,
    .called node_a ⟨.confirm_persisted record, .ok .Confirmed⟩,
    .called node_a ⟨.activate 10000, .ok (.Receipt (receiptOf capability 10000))⟩,
    allows node_a 10000 node_a ⟨1⟩, .advanced 10100, .evaluated proof_b (.ok capability_b),
    .called node_b ⟨.stage 10100 capability_b, .ok (.Record record_b)⟩,
    .called node_b ⟨.confirm_persisted record_b, .ok .Confirmed⟩,
    .called node_b ⟨.activate 10100, .ok (.Receipt (receiptOf capability_b 10100))⟩,
    allows node_b 10100 node_b ⟨2⟩]

theorem failover_run : ∃ c, ClusterRun tests.policy cluster failover c := by
  have h0 : ClusterRun tests.policy cluster [] cluster := .nil
  have h1 := h0.snoc (.promoted (proof node_a ⟨1⟩) proof_accepted)
  have h2 := h1.snoc (clusterStep_called node_a ⟨.stage 10000 capability, .ok (.Record record)⟩
    (by decide) (by decide) (by decide))
  have h3 := h2.snoc (clusterStep_called node_a ⟨.confirm_persisted record, .ok .Confirmed⟩
    (by decide) (by decide) trivial)
  have h4 := h3.snoc (clusterStep_called node_a
    ⟨.activate 10000, .ok (.Receipt (receiptOf capability 10000))⟩ (by decide) (by decide) trivial)
  have h5 := h4.snoc (clusterStep_called node_a ⟨.check_effect 10000 node_a ⟨1⟩, .ok .Allowed⟩
    (by decide) (by decide) trivial)
  have h6 := h5.snoc (.advanced 10100 (by decide))
  have hval : validate_promotion proof_b capability.authority tests.policy 10100 = .ok capability_b := by
    decide
  have h7 := h6.snoc (.promoted proof_b hval)
  have h8 := h7.snoc (clusterStep_called node_b ⟨.stage 10100 capability_b, .ok (.Record record_b)⟩
    (by decide) (by decide) (by decide))
  have h9 := h8.snoc (clusterStep_called node_b ⟨.confirm_persisted record_b, .ok .Confirmed⟩
    (by decide) (by decide) trivial)
  have h10 := h9.snoc (clusterStep_called node_b
    ⟨.activate 10100, .ok (.Receipt (receiptOf capability_b 10100))⟩ (by decide) (by decide)
    trivial)
  have h11 := h10.snoc (clusterStep_called node_b ⟨.check_effect 10100 node_b ⟨2⟩, .ok .Allowed⟩
    (by decide) (by decide) trivial)
  exact ⟨_, h11⟩

/-- The power cut of node-a was observed after its last effect. -/
theorem failover_fences_hold : FencesHold tests.policy cluster failover := by
  intro before proof v after c target t holder hes _ hhard htarget hle hmem
  have heval : ClusterEvent.evaluated proof (.ok v) ∈ failover := by simp [hes]
  simp only [failover, allows, List.mem_cons, List.not_mem_nil, reduceCtorEq, or_false, false_or,
    ClusterEvent.evaluated.injEq, Except.ok.injEq, ClusterEvent.called.injEq, GateEvent.mk.injEq,
    Call.check_effect.injEq, and_true, and_false] at heval hmem
  rcases heval with ⟨rfl, rfl⟩ | ⟨rfl, rfl⟩
  · rcases hhard with hm | hm <;> cases hm
  · rcases hmem with ⟨rfl, rfl, _⟩ | ⟨rfl, rfl, _⟩
    · exact absurd hle (by decide)
    · exact absurd htarget (by decide)

end tests

theorem effects_follow_epochs_in_failover :
    ((⟨1⟩ : Epoch) < ⟨2⟩ → (10000 : UInt64) < 10100) ∧
    ((⟨1⟩ : Epoch) = ⟨2⟩ → tests.node_a = tests.node_b) ∧
    ((10000 : UInt64) = 10100 → tests.node_a = tests.node_b ∧ (⟨1⟩ : Epoch) = ⟨2⟩) := by
  obtain ⟨c, hrun⟩ := tests.failover_run
  have hmem₁ : allows tests.node_a 10000 tests.node_a ⟨1⟩ ∈ tests.failover := by
    simp [tests.failover]
  have hmem₂ : allows tests.node_b 10100 tests.node_b ⟨2⟩ ∈ tests.failover := by
    simp [tests.failover]
  exact effects_follow_epochs hrun tests.failover_fences_hold hmem₁ hmem₂

end quorumarc_core

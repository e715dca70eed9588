-- A deployment. One serial authority, and on every node a durable store and a
-- gate that crashes and recovers, each gate with a clock that may lag the clock
-- of the authority. The deployment is an office with one holder at a time.
import QuorumArc.AntiReplay
import QuorumArc.AuthorityChain
import QuorumArc.SingleWriter
import QuorumArc.Terms

open runs

namespace quorumarc_core

/-! ## The system -/

/-- A node: its durable store, and the gate of its process while that runs. -/
structure Site where
  store : GateStore
  gate : Option EffectGate

/-- The clock of the serial authority, the authority with the promotions that it
accepted, oldest first, and the nodes. -/
structure Deployment where
  now_ms : UInt64
  current : AuthorityState
  history : List Promotion
  sites : NodeId → Site

namespace Deployment

/-- No node has held authority yet, and no process runs. -/
def begin (now_ms : UInt64) (store : NodeId → GateStore) : Deployment where
  now_ms := now_ms
  current := .initial
  history := []
  sites := fun node => ⟨store node, none⟩

/-- The deployment with the node as `site`. -/
def put (d : Deployment) (node : NodeId) (site : Site) : Deployment :=
  { d with sites := Function.update d.sites node site }

variable {d : Deployment} {node n : NodeId} {site : Site}

@[simp] theorem put_self : (d.put node site).sites node = site := Function.update_self ..

@[simp] theorem put_of_ne (h : n ≠ node) : (d.put node site).sites n = d.sites n :=
  Function.update_of_ne h ..

@[simp] theorem put_put (site' : Site) : (d.put node site).put node site' = d.put node site' := by
  simp [put]

@[simp] theorem put_sites : d.put node (d.sites node) = d := by
  simp [put]

@[simp] theorem put_now_ms : (d.put node site).now_ms = d.now_ms := rfl

@[simp] theorem put_current : (d.put node site).current = d.current := rfl

@[simp] theorem put_history : (d.put node site).history = d.history := rfl

end Deployment

inductive DeploymentEvent where
  | advanced (now_ms : UInt64)
  | evaluated (proof : PromotionProof) (answer : Except ProofError ValidatedPromotion)
  | called (node : NodeId) (ev : GateEvent)
  | wrote (node : NodeId) (record : GatePersistenceRecord)
  | crashed (node : NodeId)
  | restarted (node : NodeId) (workload : WorkloadId) (policy_hash : PolicyHash)
      (incarnation : Incarnation)

/-- If the call reads a clock, that clock lags `now_ms` by at most `lag`. It may be
ahead by any time, and it may go back. -/
def Call.ReadsWithin (c : Call) (lag now_ms : UInt64) : Prop :=
  ∀ t, c.reading? = some t → ms now_ms ≤ ms t + ms lag

/-- One event of the deployment. A gate is only offered what was granted, a record
is only confirmed once it was written, a crash loses the gate and keeps the store,
and a process recovers its gate from the store as any incarnation. -/
inductive DeploymentStep (policy : SafetyPolicy) (lag : UInt64) :
    Deployment → DeploymentEvent → Deployment → Prop
  | advanced {d : Deployment} (now_ms : UInt64) : d.now_ms ≤ now_ms →
      DeploymentStep policy lag d (.advanced now_ms) { d with now_ms := now_ms }
  | promoted {d : Deployment} {v : ValidatedPromotion} (proof : PromotionProof) :
      validate_promotion proof d.current policy d.now_ms = .ok v →
      DeploymentStep policy lag d (.evaluated proof (.ok v))
        { d with current := v.authority, history := d.history ++ [⟨proof, d.now_ms, v⟩] }
  | refused {d : Deployment} {e : ProofError} (proof : PromotionProof) :
      validate_promotion proof d.current policy d.now_ms = .error e →
      DeploymentStep policy lag d (.evaluated proof (.error e)) d
  | called {d : Deployment} {g g' : EffectGate} (node : NodeId) (ev : GateEvent) :
      (d.sites node).gate = some g → GateStep g ev g' → ev.call.ReadsWithin lag d.now_ms →
      (∀ t v, ev.call = .stage t v → Granted d.history v) →
      (∀ r, ev.call = .confirm_persisted r → r ∈ (d.sites node).store.written) →
      DeploymentStep policy lag d (.called node ev)
        (d.put node { d.sites node with gate := some g' })
  | wrote {d : Deployment} (node : NodeId) (r : GatePersistenceRecord) :
      DeploymentStep policy lag d (.wrote node r)
        (d.put node { d.sites node with store := (d.sites node).store.write r })
  | crashed {d : Deployment} (node : NodeId) :
      DeploymentStep policy lag d (.crashed node) (d.put node { d.sites node with gate := none })
  | restarted {d : Deployment} (node : NodeId) (workload : WorkloadId) (policy_hash : PolicyHash)
      (incarnation : Incarnation) :
      DeploymentStep policy lag d (.restarted node workload policy_hash incarnation)
        (d.put node { d.sites node with
          gate := some (.recover node workload policy_hash
            ((d.sites node).store.recovery incarnation)) })

abbrev DeploymentRun (policy : SafetyPolicy) (lag : UInt64) := Run (DeploymentStep policy lag)

/-- The event of an effect that the gate of `node` allows under `epoch`, at the
time `t` of its clock. -/
def effect (node : NodeId) (t : UInt64) (holder : NodeId) (epoch : Epoch) : DeploymentEvent :=
  .called node ⟨.check_effect t holder epoch, .ok .Allowed⟩

/-- What is assumed of the fence adapter: once a receipt of a hard fence is
accepted, its target has no effect under an older epoch any more. -/
def FencesStop (es : List DeploymentEvent) : Prop :=
  ∀ before proof v after target t holder epoch, es = before ++ .evaluated proof (.ok v) :: after →
    proof.fence.Hard → proof.fence.target = some target → epoch < v.epoch →
    effect target t holder epoch ∉ after

theorem FencesStop.of_append {es es' : List DeploymentEvent} (h : FencesStop (es ++ es')) :
    FencesStop es := by
  intro before proof v after target t holder epoch hes hhard htarget hlt hmem
  refine h before proof v (after ++ es') target t holder epoch ?_ hhard htarget hlt ?_
  · rw [hes, List.append_assoc, List.cons_append]
  · exact List.mem_append_left es' hmem

/-- Fences stop their targets in a run and then in a run from there, where none of the
later effects is of a target of an earlier fence under an older epoch. -/
theorem FencesStop.append {es es' : List DeploymentEvent} (h : FencesStop es) (h' : FencesStop es')
    (hcross : ∀ proof v target t holder epoch, .evaluated proof (.ok v) ∈ es → proof.fence.Hard →
      proof.fence.target = some target → epoch < v.epoch → effect target t holder epoch ∉ es') :
    FencesStop (es ++ es') := by
  intro before proof v after target t holder epoch hes hhard htarget hlt hmem
  rcases List.append_eq_append_iff.mp hes with ⟨before', rfl, hes'⟩ | ⟨after', rfl, hes'⟩
  · exact h' before' proof v after target t holder epoch hes' hhard htarget hlt hmem
  · rcases after' with _ | ⟨ev, after'⟩
    · exact h' [] proof v after target t holder epoch (by simpa using hes'.symm) hhard htarget hlt
        hmem
    · obtain ⟨rfl, rfl⟩ := List.cons.inj hes'
      rcases List.mem_append.mp hmem with hmem | hmem
      · exact h before proof v after' target t holder epoch rfl hhard htarget hlt hmem
      · exact hcross proof v target t holder epoch (by simp) hhard htarget hlt hmem

/-- Without an effect there is nothing that a fence would have to stop. -/
theorem fencesStop_of_no_effect {es : List DeploymentEvent}
    (h : ∀ node t holder epoch, effect node t holder epoch ∉ es) : FencesStop es := by
  intro before proof v after target t holder epoch hes _ _ _ hmem
  exact h target t holder epoch (by simp [hes, hmem])

/-! ## The office -/

/-- What the event is for the office: a grant of a term, an act of its holder, or nothing. -/
def DeploymentEvent.view? : DeploymentEvent → Option (terms.Event NodeId Epoch)
  | .evaluated _ (.ok v) => some (.granted ⟨v.candidate, v.epoch⟩)
  | .called node ⟨.check_effect _ _ epoch, .ok .Allowed⟩ => some (.acted ⟨node, epoch⟩)
  | _ => none

def Promotion.term (p : Promotion) : terms.Term NodeId Epoch :=
  ⟨p.capability.candidate, p.capability.epoch⟩

/-- The term of the last promotion. -/
def Deployment.office (d : Deployment) : Option (terms.Term NodeId Epoch) :=
  d.history.getLast?.map Promotion.term

/-- The effects of a run as acts of the office, in order: the node of each effect with its epoch. -/
def effects (es : List DeploymentEvent) : List (terms.Term NodeId Epoch) :=
  terms.acts (es.filterMap DeploymentEvent.view?)

theorem effects_append {es es' : List DeploymentEvent} :
    effects (es ++ es') = effects es ++ effects es' := by
  unfold effects terms.acts
  rw [List.filterMap_append, List.filterMap_append]

/-! ## What holds of every run -/

variable {policy : SafetyPolicy} {lag now_ms : UInt64} {d d' : Deployment}
  {es : List DeploymentEvent} {ev : DeploymentEvent} {store : NodeId → GateStore}
  {a b : Promotion} {node : NodeId}

structure Regular (policy : SafetyPolicy) (es : List DeploymentEvent) (d : Deployment) : Prop where
  serial : ∃ l, AuthorityRun policy d.history l ∧ l.current = d.current ∧ l.now_ms ≤ d.now_ms
  past : ∀ p ∈ d.history, p.now_ms ≤ d.now_ms
  evaluated : ∀ p ∈ d.history, .evaluated p.proof (.ok p.capability) ∈ es ∧
    ∃ current, validate_promotion p.proof current policy p.now_ms = .ok p.capability
  gates : ∀ node g, (d.sites node).gate = some g → HoldsGranted d.history node g

theorem holdsGranted_recover {history : List Promotion} (workload : WorkloadId)
    (policy_hash : PolicyHash) (recovery : GateRecoveryState) :
    HoldsGranted history node (.recover node workload policy_hash recovery) := by
  refine ⟨rfl, ?_, ?_⟩
  · intro v hv
    rcases hv with hv | hv <;> cases hv
  · intro h e x hs
    cases hs

theorem gates_put {history : List Promotion} {site : Site}
    (h : ∀ n g, (d.sites n).gate = some g → HoldsGranted history n g)
    (hgate : ∀ g, site.gate = some g → HoldsGranted history node g) :
    ∀ n g, ((d.put node site).sites n).gate = some g → HoldsGranted history n g := by
  intro n g hg
  by_cases hn : n = node
  · subst hn
    rw [Deployment.put_self] at hg
    exact hgate g hg
  · rw [Deployment.put_of_ne hn] at hg
    exact h n g hg

/-- Gates go on to hold what was granted to their node. -/
theorem gates_step (h : ∀ n g, (d.sites n).gate = some g → HoldsGranted d.history n g)
    (hstep : DeploymentStep policy lag d ev d') :
    ∀ n g, (d'.sites n).gate = some g → HoldsGranted d'.history n g := by
  cases hstep with
  | advanced | refused => exact h
  | promoted proof hval =>
    intro n g hg
    exact (h n g hg).append _
  | called node ev hg hcall _ hoffer _ =>
    refine gates_put h ?_
    intro g' hg'
    cases hg'
    exact holdsGranted_step (h node _ hg) hcall.outcome hoffer
  | wrote node r => exact gates_put h (h node)
  | crashed node =>
    refine gates_put h ?_
    intro g hg
    cases hg
  | restarted node workload policy_hash incarnation =>
    refine gates_put h ?_
    intro g hg
    cases hg
    exact holdsGranted_recover workload policy_hash _

/-- What an event does to the authority: it is an accepted promotion, or the authority
and its history stay while its clock may go on. -/
theorem authority_cases (hstep : DeploymentStep policy lag d ev d') :
    (∃ proof v, ev = .evaluated proof (.ok v) ∧
      validate_promotion proof d.current policy d.now_ms = .ok v ∧ d'.current = v.authority ∧
      d'.history = d.history ++ [⟨proof, d.now_ms, v⟩] ∧ d'.now_ms = d.now_ms) ∨
    d'.current = d.current ∧ d'.history = d.history ∧ d.now_ms ≤ d'.now_ms := by
  cases hstep with
  | promoted proof hval => exact Or.inl ⟨proof, _, rfl, hval, rfl, rfl, rfl⟩
  | advanced now_ms hle => exact Or.inr ⟨rfl, rfl, hle⟩
  | refused | called | wrote | crashed | restarted => exact Or.inr ⟨rfl, rfl, UInt64.le_refl _⟩

theorem past_step (h : ∀ p ∈ d.history, p.now_ms ≤ d.now_ms)
    (hstep : DeploymentStep policy lag d ev d') : ∀ p ∈ d'.history, p.now_ms ≤ d'.now_ms := by
  intro p hp
  rcases authority_cases hstep with ⟨proof, v, rfl, _, _, hhistory, hnow⟩ | ⟨_, hhistory, hnow⟩
  · rw [hnow]
    rw [hhistory] at hp
    rcases List.mem_append.mp hp with hp | hp
    · exact h p hp
    · rw [List.mem_singleton.mp hp]
  · rw [hhistory] at hp
    exact UInt64.le_trans (h p hp) hnow

/-- What is granted was evaluated, and what holds of every accepted proof holds of it. -/
theorem evaluated_step {accepts : Promotion → Prop}
    (h : ∀ p ∈ d.history, .evaluated p.proof (.ok p.capability) ∈ es ∧ accepts p)
    (haccepts : ∀ proof v, validate_promotion proof d.current policy d.now_ms = .ok v →
      accepts ⟨proof, d.now_ms, v⟩) (hstep : DeploymentStep policy lag d ev d') :
    ∀ p ∈ d'.history, .evaluated p.proof (.ok p.capability) ∈ es ++ [ev] ∧ accepts p := by
  have hold : ∀ p ∈ d.history, .evaluated p.proof (.ok p.capability) ∈ es ++ [ev] ∧ accepts p := by
    intro p hp
    obtain ⟨hmem, hacc⟩ := h p hp
    exact ⟨List.mem_append_left _ hmem, hacc⟩
  intro p hp
  rcases authority_cases hstep with ⟨proof, v, rfl, hval, _, hhistory, _⟩ | ⟨_, hhistory, _⟩
  · rw [hhistory] at hp
    rcases List.mem_append.mp hp with hp | hp
    · exact hold p hp
    · rw [List.mem_singleton.mp hp]
      exact ⟨by simp, haccepts proof v hval⟩
  · rw [hhistory] at hp
    exact hold p hp

theorem regular_begin : Regular policy [] (.begin now_ms store) := by
  refine ⟨⟨.initial, .nil, rfl, UInt64.zero_le⟩, ?_, ?_, ?_⟩
  · intro p hp
    cases hp
  · intro p hp
    cases hp
  · intro node g hg
    cases hg

theorem regular_step (h : Regular policy es d) (hstep : DeploymentStep policy lag d ev d') :
    Regular policy (es ++ [ev]) d' := by
  refine ⟨?_, past_step h.past hstep, ?_, gates_step h.gates hstep⟩
  · obtain ⟨l, hserial, hcur, hle⟩ := h.serial
    rcases authority_cases hstep with ⟨proof, v, rfl, hval, hcur', hhistory, hnow⟩ |
      ⟨hcur', hhistory, hnow⟩
    · rw [hhistory, hcur', hnow]
      refine ⟨⟨v.authority, d.now_ms⟩, hserial.snoc ⟨?_, hle, rfl⟩, rfl, UInt64.le_refl _⟩
      rw [hcur]
      exact hval
    · rw [hhistory, hcur']
      exact ⟨l, hserial, hcur, UInt64.le_trans hle hnow⟩
  · refine evaluated_step h.evaluated ?_ hstep
    intro proof v hval
    exact ⟨d.current, hval⟩

theorem regular_run (hrun : DeploymentRun policy lag (.begin now_ms store) es d) :
    Regular policy es d := by
  refine hrun.history (Regular policy) regular_begin ?_
  intro es d ev d' _ ih hstep
  exact regular_step ih hstep

/-! ## The end of a term -/

/-- A takeover after the expiry of a gate is possible under the policy. -/
def ExpiryTakeover (policy : SafetyPolicy) : Prop :=
  policy.allow_gate_expiry_fence = true ∧
    (∃ a ∈ policy.candidates, ∃ b ∈ policy.candidates, a ≠ b) ∧
    ms policy.lease_guard_ms + 2 ≤ ms words.u64_max

/-- A promotion that follows another one shows a hard fence, or waited for the
guard after the end of the lease. -/
theorem hard_or_expired (h : Follows policy a b) : b.proof.fence.Hard ∨
    policy.allow_gate_expiry_fence = true ∧
      ms a.capability.expires_at_ms + ms policy.lease_guard_ms ≤ ms b.capability.not_before_ms := by
  obtain ⟨hacc, hv⟩ := accepted h.1
  obtain ⟨safe, hex, hle⟩ := hacc.excludes
  rw [hv]
  generalize b.capability.fence_class = cls at hex
  cases hex with
  | bootstrap hh => cases hh
  | power _ _ hm => exact Or.inl (Or.inl hm)
  | storage _ _ hm => exact Or.inl (Or.inr hm)
  | expiry _ _ _ hallow hx =>
    cases hx
    exact Or.inr ⟨hallow, hle⟩

theorem configured_of_accepted {proof : PromotionProof} {current : AuthorityState}
    {now_ms : UInt64} {v : ValidatedPromotion}
    (h : validate_promotion proof current policy now_ms = .ok v) :
    v.candidate ∈ policy.candidates := by
  obtain ⟨hacc, hv⟩ := accepted h
  rw [hv]
  exact hacc.configured

/-- A promotion that waited for the guard is of another candidate, and left time for a lease. -/
theorem room_of_follows (h : Follows policy a b)
    (hwait : ms a.capability.expires_at_ms + ms policy.lease_guard_ms ≤
      ms b.capability.not_before_ms) (hlease : a.now_ms < a.capability.expires_at_ms) :
    (∃ c ∈ policy.candidates, a.capability.candidate ≠ c) ∧
      ms policy.lease_guard_ms + 2 ≤ ms words.u64_max := by
  have hacc := (accepted h.1).1
  have hrun := lease_running h.1
  refine ⟨⟨_, hacc.configured, ?_⟩, ?_⟩
  · intro heq
    exact hacc.not_holder (congrArg some heq)
  · have h1 := ms_lt.mpr hlease
    have h2 := ms_le.mpr hrun.1
    have h3 := ms_lt.mpr hrun.2
    have h4 : ms b.capability.expires_at_ms ≤ ms words.u64_max :=
      ms_le.mpr (UInt64.le_iff_toNat_le.mpr (Nat.le_of_lt_succ (UInt64.toNat_lt _)))
    have h5 := ms_nonneg a.now_ms
    omega

/-- The promotion that an effect is of: it was granted to the node, and its lease has
not ended by the clock of the gate. -/
theorem promotion_of_effect {t : UInt64} {holder : NodeId} {epoch : Epoch}
    (h : ∀ n g, (d.sites n).gate = some g → HoldsGranted d.history n g)
    (hstep : DeploymentStep policy lag d (effect node t holder epoch) d') :
    ∃ p ∈ d.history, p.term = ⟨node, epoch⟩ ∧ t < p.capability.expires_at_ms ∧
      ms d.now_ms ≤ ms t + ms lag := by
  cases hstep with
  | called node ev hg hcall hread _ _ =>
    obtain ⟨x, _, hopen, hx, _⟩ := hcall.outcome.of_allowed
    obtain ⟨v, ⟨p, hp, rfl⟩, rfl, _, rfl, rfl⟩ := (h node _ hg).opened _ _ _ hopen
    exact ⟨p, hp, rfl, hx, hread t rfl⟩

/-- Once a promotion was followed by another one, nothing is allowed under it any
more, when no clock lags by more than the guard that the expiry of a gate waits for. -/
theorem superseded {t now : UInt64} {holder : NodeId}
    (hfence : FencesStop (es ++ [effect a.capability.candidate t holder a.capability.epoch]))
    (hfollows : Follows policy a b) (hmem : .evaluated b.proof (.ok b.capability) ∈ es)
    (hguard : policy.allow_gate_expiry_fence = true →
      ms a.capability.expires_at_ms + ms policy.lease_guard_ms ≤ ms b.capability.not_before_ms →
      lag ≤ policy.lease_guard_ms)
    (hpast : b.now_ms ≤ now) (hx : t < a.capability.expires_at_ms)
    (hlag : ms now ≤ ms t + ms lag) : False := by
  rcases hard_or_expired hfollows with hhard | ⟨hallow, hwait⟩
  · -- The fence stopped the holder before it was replaced.
    obtain ⟨past, rest, hes⟩ := List.append_of_mem hmem
    have hsince : es ++ [effect a.capability.candidate t holder a.capability.epoch] =
        past ++ .evaluated b.proof (.ok b.capability) ::
          (rest ++ [effect a.capability.candidate t holder a.capability.epoch]) := by
      rw [hes, List.append_assoc, List.cons_append]
    exact hfence _ _ _ _ _ t holder _ hsince hhard (fence_target hfollows)
      (newer_epoch hfollows) (by simp)
  · have h1 := ms_le.mpr (hguard hallow hwait)
    have h2 := ms_lt.mpr hx
    have h3 := ms_le.mpr (lease_running hfollows.1).1
    have h4 := ms_le.mpr hpast
    omega

/-- The gate of a node allows an effect only under the current term, when its
clock lags by no more than the guard of a policy that lets gates expire. -/
theorem current_of_allowed {t : UInt64} {holder : NodeId} {epoch : Epoch}
    (h : Regular policy es d) (hguard : ExpiryTakeover policy → lag ≤ policy.lease_guard_ms)
    (hfence : FencesStop (es ++ [effect node t holder epoch]))
    (hstep : DeploymentStep policy lag d (effect node t holder epoch) d') :
    d.office = some ⟨node, epoch⟩ := by
  obtain ⟨p, hp, hterm, hx, hlag⟩ := promotion_of_effect h.gates hstep
  cases hterm
  obtain ⟨l, hserial, _, _⟩ := h.serial
  obtain ⟨hchain, _, hleases⟩ := authority_run hserial
  obtain ⟨before, after, hsplit⟩ := List.append_of_mem hp
  rcases after with _ | ⟨q, after⟩
  · simp [Deployment.office, hsplit, Promotion.term]
  · exfalso
    have hfollows := List.isChain_iff_forall_rel_of_append_cons_cons.mp hchain hsplit
    have hq : q ∈ d.history := by simp [hsplit]
    refine superseded hfence hfollows (h.evaluated q hq).1 ?_ (h.past q hq) hx hlag
    intro hallow hwait
    obtain ⟨_, hacc⟩ := (h.evaluated p hp).2
    obtain ⟨hother, hroom⟩ := room_of_follows hfollows hwait (hleases p hp).2
    exact hguard ⟨hallow, ⟨_, configured_of_accepted hacc, hother⟩, hroom⟩

/-! ## The deployment as an office -/

theorem view?_called (node : NodeId) (ev : GateEvent) :
    DeploymentEvent.view? (.called node ev) = none ∨
      ∃ t holder epoch, ev = ⟨.check_effect t holder epoch, .ok .Allowed⟩ := by
  obtain ⟨c, e | r⟩ := ev
  · cases c <;> exact Or.inl rfl
  · cases c <;> cases r <;> first | exact Or.inl rfl | exact Or.inr ⟨_, _, _, rfl⟩

/-- The office before a promotion is of an older epoch than the new term. -/
theorem office_older {proof : PromotionProof} {v : ValidatedPromotion}
    (hlast : ∀ a, d.history.getLast? = some a → d.current = a.capability.authority)
    (hval : validate_promotion proof d.current policy d.now_ms = .ok v) :
    ∀ t, d.office = some t → t.epoch < v.epoch := by
  intro t ht
  obtain ⟨a, ha, rfl⟩ := Option.map_eq_some_iff.mp ht
  rw [hlast a ha] at hval
  obtain ⟨hacc, hv⟩ := accepted hval
  rw [hv]
  exact hacc.newer

/-- Every event of the deployment is an event of the office, or changes nothing there,
while the authority is of the last promotion and effects are of the current term. -/
theorem office_event (hstep : DeploymentStep policy lag d ev d')
    (hlast : ∀ a, d.history.getLast? = some a → d.current = a.capability.authority)
    (hcurrent : ∀ node t holder epoch, ev = effect node t holder epoch →
      d.office = some ⟨node, epoch⟩) : Run terms.Step d.office ev.view?.toList d'.office := by
  cases hstep with
  | promoted proof hval =>
    rename_i v
    have hoffice : Deployment.office
        { d with current := v.authority, history := d.history ++ [⟨proof, d.now_ms, v⟩] } =
          some ⟨v.candidate, v.epoch⟩ := by
      simp [Deployment.office, Promotion.term]
    rw [hoffice]
    exact Run.nil.snoc (.granted _ (office_older hlast hval))
  | called node ev _ _ _ _ _ =>
    rcases view?_called node ev with hnone | ⟨t, holder, epoch, rfl⟩
    · rw [hnone]
      exact .nil
    · have hoffice := hcurrent node t holder epoch rfl
      show Run terms.Step d.office [.acted ⟨node, epoch⟩] d.office
      rw [hoffice]
      exact Run.nil.snoc (.acted _)
  | advanced | refused | wrote | crashed | restarted => exact .nil

theorem Regular.last (h : Regular policy es d) :
    ∀ a, d.history.getLast? = some a → d.current = a.capability.authority := by
  intro a ha
  obtain ⟨l, hserial, hcur, _⟩ := h.serial
  obtain ⟨_, hlast, _⟩ := authority_run hserial
  rw [← hcur, hlast a ha]

theorem office_step (h : Regular policy es d)
    (hguard : ExpiryTakeover policy → lag ≤ policy.lease_guard_ms)
    (hfence : FencesStop (es ++ [ev])) (hstep : DeploymentStep policy lag d ev d') :
    Run terms.Step d.office ev.view?.toList d'.office := by
  refine office_event hstep h.last ?_
  rintro node t holder epoch rfl
  exact current_of_allowed h hguard hfence hstep

theorem office_run (hrun : DeploymentRun policy lag (.begin now_ms store) es d)
    (hguard : ExpiryTakeover policy → lag ≤ policy.lease_guard_ms) (hfence : FencesStop es) :
    Run terms.Step none (es.filterMap DeploymentEvent.view?) d.office := by
  refine hrun.history (fun es d => FencesStop es →
    Run terms.Step none (es.filterMap DeploymentEvent.view?) d.office) ?_ ?_ hfence
  · intro _
    exact .nil
  · intro es d ev d' hrun ih hstep hfence
    have hnext := office_step (regular_run hrun) hguard hfence hstep
    rw [filterMap_snoc]
    exact (ih hfence.of_append).append hnext

end quorumarc_core

-- The lives of the nodes of a deployment. What happens on one node is a history
-- of gate lives, so a crash ends the term of its holder, and every promotion is
-- activated at most once in the whole deployment.
import QuorumArc.ClockLag
import QuorumArc.Mediation

open runs

namespace quorumarc_core

/-! ## One node of a deployment -/

/-- What the event is for the node `n`. -/
def DeploymentEvent.life? (n : NodeId) : DeploymentEvent → Option LifeEvent
  | .called node ev => if node = n then some (.called ev) else none
  | .wrote node r => if node = n then some (.wrote r) else none
  | .restarted node workload policy_hash incarnation =>
    if node = n then some (.restarted workload policy_hash incarnation) else none
  | .advanced _ | .evaluated .. | .crashed _ => none

/-- The events of a node, in order. -/
def lifeOf (n : NodeId) (es : List DeploymentEvent) : List LifeEvent :=
  es.filterMap (DeploymentEvent.life? n)

/-- The life `l` is what a node of the deployment goes through. After a crash it has the
gate that was lost, which is not called any more. -/
structure Tracks (d : Deployment) (n : NodeId) (l : GateLife) : Prop where
  store : l.store = (d.sites n).store
  node : l.gate.node = n
  gate : ∀ g, (d.sites n).gate = some g → l.gate = g

variable {policy : SafetyPolicy} {lag now_ms : UInt64} {d d₀ d' : Deployment} {n node : NodeId}
  {l l₀ : GateLife} {es : List DeploymentEvent} {ev : DeploymentEvent}
  {store : NodeId → GateStore}

/-- What happens to another node is nothing to this one. -/
theorem Tracks.put_of_ne {site : Site} (h : Tracks d n l) (hne : n ≠ node) :
    Tracks (d.put node site) n l := by
  refine ⟨?_, h.node, ?_⟩
  · rw [Deployment.put_of_ne hne]
    exact h.store
  · rw [Deployment.put_of_ne hne]
    exact h.gate

theorem tracks_put {site : Site} (hstore : l.store = site.store) (hnode : l.gate.node = n)
    (hgate : ∀ g, site.gate = some g → l.gate = g) : Tracks (d.put n site) n l := by
  refine ⟨?_, hnode, ?_⟩
  · rw [Deployment.put_self]
    exact hstore
  · rw [Deployment.put_self]
    exact hgate

theorem life_step (h : Tracks d n l) (hstep : DeploymentStep policy lag d ev d') :
    ∃ l', LifeRun l (ev.life? n).toList l' ∧ Tracks d' n l' := by
  cases hstep with
  | advanced | promoted | refused => exact ⟨l, .nil, h.store, h.node, h.gate⟩
  | @called _ g' node ev hg hcall _ _ hw =>
    by_cases hn : n = node
    · subst hn
      obtain rfl := h.gate _ hg
      rw [← h.store] at hw
      have hlife : LifeRun l [.called ev] { l with gate := g' } :=
        Run.nil.snoc (.called ev hcall hw)
      refine ⟨{ l with gate := g' }, by simpa [DeploymentEvent.life?] using hlife,
        tracks_put h.store ?_ ?_⟩
      · exact hcall.outcome.same_binding.1.trans h.node
      · intro g hg'
        cases hg'
        rfl
    · exact ⟨l, by simpa [DeploymentEvent.life?, Ne.symm hn] using Run.nil, h.put_of_ne hn⟩
  | wrote node r =>
    by_cases hn : n = node
    · subst hn
      have hlife : LifeRun l [.wrote r] { l with store := l.store.write r } :=
        Run.nil.snoc (.wrote r)
      refine ⟨{ l with store := l.store.write r }, by simpa [DeploymentEvent.life?] using hlife,
        tracks_put ?_ h.node h.gate⟩
      rw [← h.store]
    · exact ⟨l, by simpa [DeploymentEvent.life?, Ne.symm hn] using Run.nil, h.put_of_ne hn⟩
  | crashed node =>
    by_cases hn : n = node
    · subst hn
      refine ⟨l, .nil, tracks_put h.store h.node ?_⟩
      intro g hg
      cases hg
    · exact ⟨l, .nil, h.put_of_ne hn⟩
  | restarted node workload policy_hash incarnation =>
    by_cases hn : n = node
    · subst hn
      have hlife : LifeRun l [.restarted workload policy_hash incarnation]
          (.begin l.store l.gate.node workload policy_hash incarnation) :=
        Run.nil.snoc (.restarted workload policy_hash incarnation)
      refine ⟨.begin l.store l.gate.node workload policy_hash incarnation,
        by simpa [DeploymentEvent.life?] using hlife, tracks_put h.store h.node ?_⟩
      intro g hg
      cases hg
      rw [GateLife.begin, h.node, h.store]
    · exact ⟨l, by simpa [DeploymentEvent.life?, Ne.symm hn] using Run.nil, h.put_of_ne hn⟩

/-- A run of the deployment is a run of the lives of each node. -/
theorem life_run (hrun : DeploymentRun policy lag d₀ es d) (h : Tracks d₀ n l₀) :
    ∃ l, LifeRun l₀ (lifeOf n es) l ∧ Tracks d n l := by
  obtain ⟨_, l, hlife, rfl, htracks⟩ := hrun.simulated
    (fun es ls d l => ls = lifeOf n es ∧ Tracks d n l) (.nil : LifeRun l₀ [] l₀) ⟨rfl, h⟩ (by
      rintro es ls d ev d' l ⟨rfl, htracks⟩ hstep
      obtain ⟨l', hnext, htracks'⟩ := life_step htracks hstep
      exact ⟨_, l', hnext, (filterMap_snoc ..).symm, htracks'⟩)
  exact ⟨l, hlife, htracks⟩

/-- A node that is down is at the beginning of a life with what it has stored. -/
theorem tracks_down (workload : WorkloadId) (policy_hash : PolicyHash) (incarnation : Incarnation)
    (hdown : (d.sites n).gate = none) :
    Tracks d n (.begin (d.sites n).store n workload policy_hash incarnation) := by
  refine ⟨rfl, rfl, ?_⟩
  intro g hg
  rw [hdown] at hg
  cases hg

/-! ## What a node has opened -/

/-- While a node is down, what it opens later is above all that its store knows. -/
theorem opened_since (hrun : DeploymentRun policy lag d₀ es d)
    (hdown : (d₀.sites n).gate = none) :
    ∃ l, Remembers (d₀.sites n).store.accepted_epoch (openedEpochs (lifeOf n es)) l ∧
      Tracks d n l := by
  obtain ⟨l, hlife, htracks⟩ :=
    life_run hrun (tracks_down policy.workload policy.policy_hash ⟨0⟩ hdown)
  exact ⟨l, remembers_run hlife, htracks⟩

theorem mem_effects {term : terms.Term NodeId Epoch} (h : term ∈ effects es) :
    ∃ t holder, effect term.holder t holder term.epoch ∈ es := by
  unfold effects terms.acts at h
  rw [List.filterMap_filterMap] at h
  obtain ⟨ev, hev, hview⟩ := List.mem_filterMap.mp h
  obtain ⟨act, hact, hterm⟩ := Option.bind_eq_some_iff.mp hview
  rcases ev with now_ms | ⟨proof, e | v⟩ | ⟨node, ev⟩ | _ | _ | _
  · cases hact
  · cases hact
  · cases hact
    cases hterm
  · rcases view?_called node ev with hnone | ⟨t, holder, epoch, rfl⟩
    · rw [hnone] at hact
      cases hact
    · cases hact
      cases hterm
      exact ⟨t, holder, hev⟩
  · cases hact
  · cases hact
  · cases hact

/-- What a node has effects under it has opened since it was down. -/
theorem opened_of_effect {epoch : Epoch} (hrun : DeploymentRun policy lag d₀ es d)
    (hdown : (d₀.sites n).gate = none) (heffect : ⟨n, epoch⟩ ∈ effects es) :
    epoch ∈ openedEpochs (lifeOf n es) := by
  obtain ⟨t, holder, hmem⟩ := mem_effects heffect
  obtain ⟨before, after, rfl⟩ := List.append_of_mem hmem
  obtain ⟨d₁, d₂, hbefore, hstep, _⟩ := hrun.at_event
  obtain ⟨l, hrem, htracks⟩ := opened_since hbefore hdown
  cases hstep with
  | called node ev hg hcall _ _ _ =>
    obtain ⟨x, _, hopen, _⟩ := hcall.outcome.of_allowed
    rw [← htracks.gate _ hg] at hopen
    have hlast := List.mem_of_getLast? (hrem.latest _ _ _ hopen)
    unfold openedEpochs lifeOf at hlast ⊢
    rw [List.filterMap_append, List.filterMap_append]
    exact List.mem_append_left _ hlast

/-! ## The receipts of a deployment -/

def GateEvent.receipt? : GateEvent → Option ContinuityReceipt
  | ⟨.activate _, .ok (.Receipt r)⟩ => some r
  | _ => none

def DeploymentEvent.receipt? : DeploymentEvent → Option ContinuityReceipt
  | .called _ ev => ev.receipt?
  | _ => none

/-- The receipts of all activations on all nodes, in order. -/
def receipts (es : List DeploymentEvent) : List ContinuityReceipt :=
  es.filterMap DeploymentEvent.receipt?

/-- What is known of a receipt: it certifies a promotion of its node, which the
node has opened since it was down. -/
def Accounted (es : List DeploymentEvent) (history : List Promotion) (r : ContinuityReceipt) :
    Prop :=
  ∃ p ∈ history, Certifies r p.capability ∧ r.epoch ∈ openedEpochs (lifeOf r.holder es)

theorem Accounted.snoc {history : List Promotion} {r : ContinuityReceipt}
    (h : Accounted es history r) (ev : DeploymentEvent) (ps : List Promotion) :
    Accounted (es ++ [ev]) (history ++ ps) r := by
  obtain ⟨p, hp, hcert, hopened⟩ := h
  refine ⟨p, List.mem_append_left ps hp, hcert, ?_⟩
  unfold openedEpochs lifeOf at hopened ⊢
  rw [List.filterMap_append, List.filterMap_append]
  exact List.mem_append_left _ hopened

/-- No step takes a promotion back. -/
theorem history_step (hstep : DeploymentStep policy lag d ev d') :
    ∃ ps, d'.history = d.history ++ ps := by
  cases hstep with
  | promoted => exact ⟨_, rfl⟩
  | advanced | refused | called | wrote | crashed | restarted => exact ⟨[], by simp⟩

/-- The promotions of a run are terms in order. -/
theorem Regular.inOrder (h : Regular policy es d) :
    terms.InOrder (d.history.map Promotion.term) := by
  obtain ⟨l, hserial, _, _⟩ := h.serial
  obtain ⟨hchain, _, _⟩ := authority_run hserial
  let older (a b : Promotion) : Prop := a.capability.epoch < b.capability.epoch
  have : Trans older older older := ⟨lt_trans⟩
  have hpairs : d.history.Pairwise older :=
    List.isChain_iff_pairwise.mp (hchain.imp fun a b hab => newer_epoch hab)
  exact List.pairwise_map.mpr (hpairs.imp fun hab => Or.inr hab)

theorem receipt?_called {node : NodeId} {ev : GateEvent} {r : ContinuityReceipt}
    (h : DeploymentEvent.receipt? (.called node ev) = some r) :
    ∃ t, ev = ⟨.activate t, .ok (.Receipt r)⟩ := by
  obtain ⟨c, e | reply⟩ := ev
  · cases c <;> cases h
  · cases c <;> cases reply <;> cases h
    exact ⟨_, rfl⟩

/-- An activation is of a promotion of the node whose epoch it opens for the first time. -/
theorem of_receipt {r : ContinuityReceipt}
    (hrun : DeploymentRun policy lag (.begin now_ms store) es d)
    (hstep : DeploymentStep policy lag d ev d') (hr : ev.receipt? = some r) :
    Accounted (es ++ [ev]) d.history r ∧ ∀ e ∈ openedEpochs (lifeOf r.holder es), e < r.epoch := by
  cases hstep with
  | @called _ g' node ev hg hcall _ _ _ =>
    obtain ⟨t, rfl⟩ := receipt?_called hr
    have hopened : GateEvent.opened? ⟨.activate t, .ok (.Receipt r)⟩ = some r.epoch := rfl
    obtain ⟨v, hp, hv, hopen⟩ := hcall.outcome.opened hopened
    obtain ⟨⟨p, hmem, rfl⟩, rfl⟩ := ((regular_run hrun).gates node _ hg).pending v (Or.inr hp)
    obtain ⟨l, hrem, htracks⟩ := opened_since hrun (n := p.capability.candidate) rfl
    have hcert : Certifies r p.capability := by
      cases hcall.outcome with
      | activated _ hs =>
        rw [hp] at hs
        cases hs
        exact certifies_receiptOf _ t
    refine ⟨⟨p, hmem, hcert, ?_⟩, ?_⟩
    · rw [hcert.holder]
      simp [openedEpochs, lifeOf, DeploymentEvent.life?, LifeEvent.opened?, hopened]
    · rw [hcert.holder, hcert.epoch]
      rw [← htracks.gate _ hg] at hp
      intro e he
      exact hrem.pending _ (Or.inr hp) e (List.mem_cons_of_mem _ he)
  | advanced | promoted | refused | wrote | crashed | restarted => cases hr

theorem receipts_run (hrun : DeploymentRun policy lag (.begin now_ms store) es d) :
    (receipts es).Pairwise (fun r r' => r.epoch ≠ r'.epoch) ∧
      ∀ r ∈ receipts es, Accounted es d.history r := by
  refine hrun.history (fun es d => (receipts es).Pairwise (fun r r' => r.epoch ≠ r'.epoch) ∧
    ∀ r ∈ receipts es, Accounted es d.history r) ?_ ?_
  · exact ⟨List.Pairwise.nil, by simp [receipts]⟩
  · rintro es d ev d' hrun ⟨hdistinct, hall⟩ hstep
    obtain ⟨ps, hps⟩ := history_step hstep
    have hkept : ∀ r ∈ receipts es, Accounted (es ++ [ev]) d'.history r := by
      intro r hr
      rw [hps]
      exact (hall r hr).snoc ev ps
    have hsnoc : receipts (es ++ [ev]) = receipts es ++ ev.receipt?.toList := filterMap_snoc ..
    rw [hsnoc]
    rcases hr : ev.receipt? with _ | r
    · simpa using ⟨hdistinct, hkept⟩
    · obtain ⟨hacc, hnew⟩ := of_receipt hrun hstep hr
      refine ⟨?_, ?_⟩
      · refine List.pairwise_append.mpr ⟨hdistinct, by simp, ?_⟩
        -- An older receipt of the same epoch would be of the same promotion, and so of the
        -- same node, which opens no epoch twice.
        intro r' hr' s hs
        rw [List.mem_singleton.mp hs]
        intro heq
        obtain ⟨p', hp', hcert', hopened'⟩ := hall r' hr'
        obtain ⟨p, hp, hcert, _⟩ := hacc
        have hsame : p'.term = p.term := by
          refine (regular_run hrun).inOrder.same_holder (List.mem_map_of_mem hp')
            (List.mem_map_of_mem hp) ?_
          show p'.capability.epoch = p.capability.epoch
          rw [← hcert'.epoch, ← hcert.epoch, heq]
        have hholder : r'.holder = r.holder := by
          rw [hcert'.holder, hcert.holder]
          exact congrArg terms.Term.holder hsame
        rw [hholder] at hopened'
        exact absurd heq (ne_of_lt (hnew _ hopened'))
      · intro s hs
        rcases List.mem_append.mp hs with hs | hs
        · exact hkept s hs
        · rw [List.mem_singleton.mp hs, hps]
          obtain ⟨p, hp, hrest⟩ := hacc
          exact ⟨p, List.mem_append_left ps hp, hrest⟩

/-! ## The laws -/

/-- A crash ends the term of the holder. Whatever a node has effects under after a
crash, it opened after the crash, and that is newer than all that it had effects
under before. -/
theorem crash_ends_the_term {before after : List DeploymentEvent}
    (hrun : DeploymentRun policy lag (.begin now_ms store) (before ++ .crashed n :: after) d)
    {epoch : Epoch} (heffect : ⟨n, epoch⟩ ∈ effects after) :
    epoch ∈ openedEpochs (lifeOf n after) ∧
      ∀ old, ⟨n, old⟩ ∈ effects before → old < epoch := by
  obtain ⟨d₁, d₂, hbefore, hstep, hafter⟩ := hrun.at_event
  cases hstep with
  | crashed =>
    have hdown : ((d₁.put n { d₁.sites n with gate := none }).sites n).gate = none := by
      rw [Deployment.put_self]
    have hopened := opened_of_effect hafter hdown heffect
    obtain ⟨_, hrem₂, _⟩ := opened_since hafter hdown
    obtain ⟨l, hrem₁, htracks⟩ := opened_since hbefore (n := n) rfl
    refine ⟨hopened, ?_⟩
    intro old hold
    have hstored := hrem₁.stored old (List.mem_cons_of_mem _ (opened_of_effect hbefore rfl hold))
    rw [htracks.store] at hstored
    rw [Deployment.put_self] at hrem₂
    exact lt_of_le_of_lt hstored ((List.pairwise_cons.mp hrem₂.increasing).1 epoch hopened)

namespace tests

def grant_b : ValidatedPromotion := capabilityOf (takeover node_a node_b ⟨2⟩ 10000) .HardwarePower

def grant_a : ValidatedPromotion := capabilityOf (takeover node_b node_a ⟨3⟩ 10000) .HardwarePower

/-- After the crash of node-a, node-b takes over, and node-a takes over from it. -/
def after_crash : List DeploymentEvent :=
  termEvents (takeover node_a node_b ⟨2⟩ 10000) grant_b 10000 ++
    termEvents (takeover node_b node_a ⟨3⟩ 10000) grant_a 10000

theorem term_at_10000 {d : Deployment} {proof : PromotionProof} {v : ValidatedPromotion}
    {current : AuthorityState} {store : GateStore} (hcurrent : d.current = current)
    (hnow : d.now_ms = 10000) (hstore : (d.sites v.candidate).store = store)
    (hval : validate_promotion proof current tests.policy 10000 = .ok v)
    (hnew : store.accepted_epoch < v.epoch ∧ store.last_observed_ms ≤ 10000)
    (hlease : v.not_before_ms ≤ 10000 ∧ 10000 < v.expires_at_ms) :
    ∃ d', DeploymentRun tests.policy 0 d (termEvents proof v 10000) d' ∧ InTerm d v 10000 d' := by
  have hlag : ms d.now_ms ≤ ms 10000 + ms 0 := by
    rw [hnow]
    decide
  refine term_run ?_ ?_ ?_ hlease.1 hlease.2 hlag
  · rw [hcurrent, hnow]
    exact hval
  · rw [hstore]
    exact hnew.1
  · rw [hstore]
    exact hnew.2

theorem crash_run : ∃ d, DeploymentRun tests.policy 0 (.begin 10000 fun _ => .empty)
    (termEvents (proof node_a ⟨1⟩) capability 10000 ++ .crashed node_a :: after_crash) d := by
  have hdown : (Deployment.begin 10000 fun _ => GateStore.empty).current = .initial := rfl
  obtain ⟨d₁, hrun₁, hin₁⟩ := term_at_10000 (v := capability) hdown rfl rfl proof_accepted
    (by decide) (by decide)
  let d₂ := d₁.put node_a { d₁.sites node_a with gate := none }
  have hcrash : DeploymentStep tests.policy 0 d₁ (.crashed node_a) d₂ := .crashed node_a
  have hb : (d₂.sites node_b).store = .empty := by
    rw [Deployment.put_of_ne (by decide), hin₁.others node_b (by decide)]
    rfl
  have hval₃ : validate_promotion (takeover node_a node_b ⟨2⟩ 10000) capability.authority
      tests.policy 10000 = .ok grant_b := by decide
  obtain ⟨d₃, hrun₃, hin₃⟩ := term_at_10000 (d := d₂) hin₁.current hin₁.now_ms hb hval₃
    (by decide) (by decide)
  -- The store of node-a still has the record of its first term.
  have ha : (d₃.sites node_a).store = GateStore.empty.write (recordFor capability 10000) := by
    rw [hin₃.others node_a (by decide), Deployment.put_self]
    exact hin₁.store
  have hval₄ : validate_promotion (takeover node_b node_a ⟨3⟩ 10000) grant_b.authority
      tests.policy 10000 = .ok grant_a := by decide
  obtain ⟨d₄, hrun₄, _⟩ := term_at_10000 (d := d₃) hin₃.current
    (hin₃.now_ms.trans hin₁.now_ms) ha hval₄ (by decide) (by decide)
  refine ⟨d₄, ?_⟩
  rw [after_crash, List.append_cons]
  exact (hrun₁.snoc hcrash).append (hrun₃.append hrun₄)

end tests

theorem crash_ends_the_term_of_node_a :
    (⟨3⟩ : Epoch) ∈ openedEpochs (lifeOf tests.node_a tests.after_crash) ∧ (⟨1⟩ : Epoch) < ⟨3⟩ := by
  obtain ⟨d, hrun⟩ := tests.crash_run
  obtain ⟨hopened, holder⟩ := crash_ends_the_term hrun
    (show ⟨tests.node_a, ⟨3⟩⟩ ∈ effects tests.after_crash by decide)
  exact ⟨hopened, holder ⟨1⟩ (by decide)⟩

/-- Every promotion is activated at most once, on all nodes and over all their lives,
and nothing but promotions is activated: the receipts of a run are of pairwise
different epochs, and each certifies a promotion of the history. -/
theorem promotions_are_activated_once
    (hrun : DeploymentRun policy lag (.begin now_ms store) es d) :
    ((receipts es).map ContinuityReceipt.epoch).Nodup ∧
      ∀ r ∈ receipts es, ∃ p ∈ d.history, Certifies r p.capability := by
  obtain ⟨hdistinct, hall⟩ := receipts_run hrun
  refine ⟨List.pairwise_map.mpr hdistinct, ?_⟩
  intro r hr
  obtain ⟨p, hp, hcert, _⟩ := hall r hr
  exact ⟨p, hp, hcert⟩

theorem promotions_are_activated_once_after_crash :
    ((receipts (termEvents (tests.proof tests.node_a ⟨1⟩) tests.capability 10000 ++
      .crashed tests.node_a :: tests.after_crash)).map ContinuityReceipt.epoch).Nodup := by
  obtain ⟨d, hrun⟩ := tests.crash_run
  exact (promotions_are_activated_once hrun).1

end quorumarc_core

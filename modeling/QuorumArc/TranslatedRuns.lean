-- Translated runs. A gate answers translated calls with translated answers, and so a
-- deployment does with other names, and at another time, what it does with its own.
import QuorumArc.ClockLag
import QuorumArc.Translations

open checks runs

namespace quorumarc_core

namespace Translation

variable (T : Translation)

/-! ## Translated gates -/

inductive State : GateState → GateState → Prop
  | closed {e : Epoch} : State (.Closed e) (.Closed e)
  | staged {v v' : ValidatedPromotion} : T.Capability v v' → State (.Staged v) (.Staged v')
  | prepared {v v' : ValidatedPromotion} : T.Capability v v' → State (.Prepared v) (.Prepared v')
  | opened {h : NodeId} {e : Epoch} {x x' : UInt64} :
      T.Time x x' → State (.Open h e x) (.Open (T.name h) e x')
  | fenced {e : Epoch} {r : SelfFenceReason} : State (.SelfFenced e r) (.SelfFenced e r)

inductive Gate : EffectGate → EffectGate → Prop
  | mk {g : EffectGate} {observed : UInt64} {state : GateState} :
      T.Time g.last_observed_ms observed → T.State g.state state →
      Gate g { g with
        node := T.name g.node
        policy_hash := T.digest g.policy_hash
        last_observed_ms := observed
        state }

inductive Record : GatePersistenceRecord → GatePersistenceRecord → Prop
  | mk {r : GatePersistenceRecord} {observed : UInt64} : T.Time r.last_observed_ms observed →
      Record r { r with
        node := T.name r.node
        policy_hash := T.digest r.policy_hash
        last_observed_ms := observed }

inductive Receipt : ContinuityReceipt → ContinuityReceipt → Prop
  | mk {r : ContinuityReceipt} {activated expires : UInt64} :
      T.Time r.activated_at_ms activated → T.Time r.expires_at_ms expires →
      Receipt r { r with
        holder := T.name r.holder
        policy_hash := T.digest r.policy_hash
        activated_at_ms := activated
        expires_at_ms := expires }

inductive CallOf : Call → Call → Prop
  | stage {t t' : UInt64} {v v' : ValidatedPromotion} : T.Time t t' → T.Capability v v' →
      CallOf (.stage t v) (.stage t' v')
  | confirm_persisted {r r' : GatePersistenceRecord} : T.Record r r' →
      CallOf (.confirm_persisted r) (.confirm_persisted r')
  | activate {t t' : UInt64} : T.Time t t' → CallOf (.activate t) (.activate t')
  | check_effect {t t' : UInt64} {h : NodeId} {e : Epoch} : T.Time t t' →
      CallOf (.check_effect t h e) (.check_effect t' (T.name h) e)
  | tick {t t' : UInt64} : T.Time t t' → CallOf (.tick t) (.tick t')
  | close : CallOf .close .close
  | safety_fault : CallOf .safety_fault .safety_fault

inductive ReplyOf : Reply → Reply → Prop
  | record {r r' : GatePersistenceRecord} : T.Record r r' → ReplyOf (.Record r) (.Record r')
  | confirmed : ReplyOf .Confirmed .Confirmed
  | receipt {r r' : ContinuityReceipt} : T.Receipt r r' → ReplyOf (.Receipt r) (.Receipt r')
  | allowed : ReplyOf .Allowed .Allowed
  | expired {closed : Bool} : ReplyOf (.Expired closed) (.Expired closed)
  | done : ReplyOf .Done .Done

/-- The answers agree, and the gates after them are translated. -/
def Result {α β : Type} (R : α → β → Prop) (x : Except GateError α × EffectGate)
    (x' : Except GateError β × EffectGate) : Prop :=
  Agrees R x.1 x'.1 ∧ T.Gate x.2 x'.2

variable {T} {v v' w w' : ValidatedPromotion} {r r' q q' : GatePersistenceRecord} {t t' : UInt64}
  {s s' : GateState} {g g' : EffectGate} {c c' : Call}

/-! ## Nothing is lost -/

theorem Capability.eq_iff (hv : T.Capability v v') (hw : T.Capability w w') :
    v' = w' ↔ v = w := by
  obtain ⟨h1, h2⟩ := hv
  obtain ⟨k1, k2⟩ := hw
  cases v
  cases w
  simp [h1.eq_iff k1, h2.eq_iff k2]

theorem Record.eq_iff (hr : T.Record r r') (hq : T.Record q q') : r' = q' ↔ r = q := by
  obtain ⟨h⟩ := hr
  obtain ⟨k⟩ := hq
  cases r
  cases q
  simp [h.eq_iff k]

theorem Receipt.unique {r r₁ r₂ : ContinuityReceipt} (h₁ : T.Receipt r r₁) (h₂ : T.Receipt r r₂) :
    r₁ = r₂ := by
  obtain ⟨h1, h2⟩ := h₁
  obtain ⟨k1, k2⟩ := h₂
  simp [h1.eq_iff k1, h2.eq_iff k2]

theorem ReplyOf.unique {a a₁ a₂ : Reply} (h₁ : T.ReplyOf a a₁) (h₂ : T.ReplyOf a a₂) :
    a₁ = a₂ := by
  cases h₁ with
  | record hr =>
    cases h₂ with
    | record hq => rw [(hr.eq_iff hq).mpr rfl]
  | receipt hr =>
    cases h₂ with
    | receipt hq => rw [hr.unique hq]
  | confirmed | allowed | expired | done =>
    cases h₂
    rfl

theorem State.last_epoch (h : T.State s s') : s'.last_epoch = s.last_epoch := by
  cases h with
  | staged hv | prepared hv =>
    cases hv
    rfl
  | closed | opened | fenced => rfl

/-! ## The operations of a gate -/

theorem Gate.state (hg : T.Gate g g') : T.State g.state g'.state := by
  cases hg
  assumption

theorem Gate.with_state (hg : T.Gate g g') (hs : T.State s s') :
    T.Gate { g with state := s } { g' with state := s' } := by
  obtain ⟨hl, _⟩ := hg
  exact .mk (g := { g with state := s }) hl hs

theorem Gate.fenced {reason : SelfFenceReason} (hg : T.Gate g g') :
    T.Gate (g.fenced reason) (g'.fenced reason) := by
  unfold EffectGate.fenced
  rw [hg.state.last_epoch]
  exact hg.with_state .fenced

theorem Gate.record (hg : T.Gate g g') (hv : T.Capability v v') :
    T.Record (g.persistence_record v) (g'.persistence_record v') := by
  obtain ⟨hl, _⟩ := hg
  obtain ⟨_, _⟩ := hv
  exact .mk (r := g.persistence_record v) hl

/-- Both gates accept the reading of their clock, or neither does. -/
theorem Gate.observe (hg : T.Gate g g') (ht : T.Time t t') :
    (g.observe_time t = (.error .ClockRollback, g.fenced .SafetyFault) ∧
      g'.observe_time t' = (.error .ClockRollback, g'.fenced .SafetyFault)) ∨
    (g.observe_time t = (.ok t, g.observed t) ∧ g'.observe_time t' = (.ok t', g'.observed t') ∧
      T.Gate (g.observed t) (g'.observed t')) := by
  obtain ⟨hl, hs⟩ := hg
  by_cases hlt : t < g.last_observed_ms
  · exact Or.inl ⟨EffectGate.observe_time_early hlt,
      EffectGate.observe_time_early ((ht.lt_iff hl).mpr hlt)⟩
  · exact Or.inr ⟨EffectGate.observe_time_late hlt,
      EffectGate.observe_time_late (mt (ht.lt_iff hl).mp hlt), .mk (g := g.observed t) ht hs⟩

theorem Gate.stage_newer (hg : T.Gate g g') (hv : T.Capability v v') :
    T.Result T.Record (g.stage_newer v) (g'.stage_newer v') := by
  have hrecord := hg.record hv
  have hstaged := hg.with_state (.staged hv)
  have hlast := hg.state.last_epoch
  obtain ⟨_, _⟩ := hv
  unfold EffectGate.stage_newer
  rw [hlast]
  exact ite_related Iff.rfl (fun _ => ⟨.error, hg⟩) fun _ => ⟨.ok hrecord, hstaged⟩

theorem Gate.stage (hg : T.Gate g g') (ht : T.Time t t') (hv : T.Capability v v') :
    T.Result T.Record (g.stage t v) (g'.stage t' v') := by
  unfold EffectGate.stage
  rcases hg.observe ht with ⟨h, h'⟩ | ⟨h, h', hnext⟩ <;> rw [h, h']
  · exact ⟨.error, hg.fenced⟩
  generalize g.observed t = g₁, g'.observed t' = g₁' at hnext ⊢
  have hnewer := hnext.stage_newer hv
  have hbinding : (v'.workload ≠ g₁'.workload ∨ v'.policy_hash ≠ g₁'.policy_hash) ↔
      (v.workload ≠ g₁.workload ∨ v.policy_hash ≠ g₁.policy_hash) := by
    cases hnext
    cases hv
    simp
  have hcandidate : v'.candidate ≠ g₁'.node ↔ v.candidate ≠ g₁.node := by
    cases hnext
    cases hv
    simp
  have hincarnation : (v'.candidate_incarnation ≠ g₁'.incarnation) =
      (v.candidate_incarnation ≠ g₁.incarnation) := by
    cases hnext
    cases hv
    rfl
  dsimp only
  refine ite_related hbinding (fun _ => ⟨.error, hnext⟩) fun _ => ?_
  refine ite_related hcandidate (fun _ => ⟨.error, hnext⟩) fun _ => ?_
  refine ite_related (Iff.of_eq hincarnation) (fun _ => ⟨.error, hnext⟩) fun _ => ?_
  have hs := hnext.state
  generalize g₁.state = s, g₁'.state = s' at hs ⊢
  cases hs with
  | closed | fenced => exact hnewer
  | staged hw | prepared hw =>
    exact ite_related (hw.eq_iff hv) (fun _ => ⟨.ok (hnext.record hw), hnext⟩) fun _ => hnewer
  | opened => exact ⟨.error, hnext⟩

theorem Gate.confirm_persisted (hg : T.Gate g g') (hr : T.Record r r') :
    T.Result (· = ·) (g.confirm_persisted r) (g'.confirm_persisted r') := by
  have hs := hg.state
  have hclosed := hg.with_state (.closed (e := g.state.last_epoch))
  unfold EffectGate.confirm_persisted
  rw [hs.last_epoch]
  dsimp only
  generalize GateState.Closed g.state.last_epoch = closed at hclosed ⊢
  generalize g.state = s, g'.state = s' at hs ⊢
  cases hs with
  | staged hv =>
    refine ite_related (not_congr ((hclosed.record hv).eq_iff hr)) (fun _ => ?_) fun _ => ?_
    · exact ⟨.error, hg.with_state (.staged hv)⟩
    · exact ⟨.ok rfl, hg.with_state (.prepared hv)⟩
  | closed => exact ⟨.error, hg.with_state .closed⟩
  | prepared hv => exact ⟨.error, hg.with_state (.prepared hv)⟩
  | opened hx => exact ⟨.error, hg.with_state (.opened hx)⟩
  | fenced => exact ⟨.error, hg.with_state .fenced⟩

theorem Gate.activate (hg : T.Gate g g') (ht : T.Time t t') :
    T.Result T.Receipt (g.activate t) (g'.activate t') := by
  unfold EffectGate.activate
  rcases hg.observe ht with ⟨h, h'⟩ | ⟨h, h', hnext⟩ <;> rw [h, h']
  · exact ⟨.error, hg.fenced⟩
  generalize g.observed t = g₁, g'.observed t' = g₁' at hnext ⊢
  have hs := hnext.state
  dsimp only
  generalize g₁.state = s, g₁'.state = s' at hs ⊢
  cases hs with
  | closed | fenced | staged | opened => exact ⟨.error, hnext⟩
  | prepared hv =>
    obtain ⟨hnb, hex⟩ := hv
    refine ite_related (ht.lt_iff hnb) (fun _ => ⟨.error, hnext⟩) fun _ => ?_
    refine ite_related (hex.le_iff ht) (fun _ => ⟨.error, hnext.with_state .fenced⟩) fun _ => ?_
    exact ⟨.ok (.mk (r := receiptOf _ t) ht hex), hnext.with_state (.opened hex)⟩

theorem Gate.check_effect {h : NodeId} {e : Epoch} (hg : T.Gate g g') (ht : T.Time t t') :
    T.Result (· = ·) (g.check_effect t h e) (g'.check_effect t' (T.name h) e) := by
  unfold EffectGate.check_effect
  rcases hg.observe ht with ⟨h, h'⟩ | ⟨h, h', hnext⟩ <;> rw [h, h']
  · exact ⟨.error, hg.fenced⟩
  generalize g.observed t = g₁, g'.observed t' = g₁' at hnext ⊢
  have hs := hnext.state
  dsimp only
  generalize g₁.state = s, g₁'.state = s' at hs ⊢
  cases hs with
  | closed | fenced | staged | prepared => exact ⟨.error, hnext⟩
  | opened hex =>
    refine ite_related (hex.le_iff ht) (fun _ => ⟨.error, hnext.with_state .fenced⟩) fun _ => ?_
    refine ite_related ?_ (fun _ => ⟨.error, hnext⟩) fun _ => ?_
    · simp
    exact ite_related Iff.rfl (fun _ => ⟨.error, hnext⟩) fun _ => ⟨.ok rfl, hnext⟩

theorem Gate.tick (hg : T.Gate g g') (ht : T.Time t t') :
    T.Result (· = ·) (g.tick t) (g'.tick t') := by
  unfold EffectGate.tick
  rcases hg.observe ht with ⟨h, h'⟩ | ⟨h, h', hnext⟩ <;> rw [h, h']
  · exact ⟨.error, hg.fenced⟩
  generalize g.observed t = g₁, g'.observed t' = g₁' at hnext ⊢
  have hs := hnext.state
  dsimp only
  generalize g₁.state = s, g₁'.state = s' at hs ⊢
  cases hs with
  | closed | fenced | staged | prepared => exact ⟨.ok rfl, hnext⟩
  | @opened h e x x' hex =>
    dsimp only
    by_cases hx : x ≤ t
    · rw [if_pos hx, if_pos ((hex.le_iff ht).mpr hx)]
      exact ⟨.ok rfl, hnext.with_state .fenced⟩
    · rw [if_neg hx, if_neg (mt (hex.le_iff ht).mp hx)]
      exact ⟨.ok rfl, hnext⟩

/-- A gate answers a translated call with the translated answer. -/
theorem Gate.step (hg : T.Gate g g') (hc : T.CallOf c c') :
    T.Result T.ReplyOf (g.step c) (g'.step c') := by
  unfold EffectGate.step
  cases hc with
  | stage ht hv =>
    obtain ⟨ha, hnext⟩ := hg.stage ht hv
    exact ⟨ha.map fun _ _ => .record, hnext⟩
  | confirm_persisted hr =>
    obtain ⟨ha, hnext⟩ := hg.confirm_persisted hr
    exact ⟨ha.map fun _ _ _ => .confirmed, hnext⟩
  | activate ht =>
    obtain ⟨ha, hnext⟩ := hg.activate ht
    exact ⟨ha.map fun _ _ => .receipt, hnext⟩
  | check_effect ht =>
    obtain ⟨ha, hnext⟩ := hg.check_effect ht
    exact ⟨ha.map fun _ _ _ => .allowed, hnext⟩
  | tick ht =>
    obtain ⟨ha, hnext⟩ := hg.tick ht
    refine ⟨ha.map ?_, hnext⟩
    rintro closed _ rfl
    exact .expired
  | close | safety_fault => exact ⟨.ok .done, hg.fenced⟩

/-! ## Translated deployments -/

variable (T)

structure StoreOf (s s' : GateStore) : Prop where
  accepted_epoch : s'.accepted_epoch = s.accepted_epoch
  last_observed_ms : T.Time s.last_observed_ms s'.last_observed_ms
  written : List.Forall₂ T.Record s.written s'.written

structure SiteOf (x x' : Site) : Prop where
  store : T.StoreOf x.store x'.store
  gate : Option.Rel T.Gate x.gate x'.gate

structure PromotionOf (p p' : Promotion) : Prop where
  proof : T.Proof p.proof p'.proof
  now_ms : T.Time p.now_ms p'.now_ms
  capability : T.Capability p.capability p'.capability

/-- The same deployment with other names at another time. -/
structure DeploymentOf (d d' : Deployment) : Prop where
  now_ms : T.Time d.now_ms d'.now_ms
  current : T.Authority d.current d'.current
  history : List.Forall₂ T.PromotionOf d.history d'.history
  sites : ∀ n, T.SiteOf (d.sites n) (d'.sites (T.name n))

structure GateEventOf (ev ev' : GateEvent) : Prop where
  call : T.CallOf ev.call ev'.call
  answer : Agrees T.ReplyOf ev.answer ev'.answer

inductive EventOf : DeploymentEvent → DeploymentEvent → Prop
  | advanced {t t' : UInt64} : T.Time t t' → EventOf (.advanced t) (.advanced t')
  | evaluated {p p' : PromotionProof} {a a' : Except ProofError ValidatedPromotion} :
      T.Proof p p' → Agrees T.Capability a a' → EventOf (.evaluated p a) (.evaluated p' a')
  | called {n : NodeId} {ev ev' : GateEvent} : T.GateEventOf ev ev' →
      EventOf (.called n ev) (.called (T.name n) ev')
  | wrote {n : NodeId} {r r' : GatePersistenceRecord} : T.Record r r' →
      EventOf (.wrote n r) (.wrote (T.name n) r')
  | crashed {n : NodeId} : EventOf (.crashed n) (.crashed (T.name n))
  | restarted {n : NodeId} {w : WorkloadId} {h : PolicyHash} {i : Incarnation} :
      EventOf (.restarted n w h i) (.restarted (T.name n) w (T.digest h) i)

variable {T} {x x' : Site} {d d' d₁ d₀ d₀' : Deployment} {ev ev' : DeploymentEvent} {n : NodeId}
  {P : SafetyPolicy} {lag now now' : UInt64} {es es' : List DeploymentEvent}

theorem DeploymentOf.put (h : T.DeploymentOf d d') (hx : T.SiteOf x x') :
    T.DeploymentOf (d.put n x) (d'.put (T.name n) x') := by
  refine ⟨h.now_ms, h.current, h.history, ?_⟩
  intro m
  by_cases hm : m = n
  · subst hm
    simpa using hx
  · have hname : T.name m ≠ T.name n := by simpa using hm
    rw [Deployment.put_of_ne hm, Deployment.put_of_ne hname]
    exact h.sites m

theorem StoreOf.write {s s' : GateStore} (hs : T.StoreOf s s') (hr : T.Record r r') :
    T.StoreOf (s.write r) (s'.write r') := by
  have hrecord := hr
  obtain ⟨ht⟩ := hr
  refine ⟨?_, ?_, .cons hrecord hs.written⟩
  · simp [GateStore.write, hs.accepted_epoch]
  · exact ite_related (hs.last_observed_ms.le_iff ht) (fun _ => ht) fun _ => hs.last_observed_ms

theorem authority_translated (hv : T.Capability v v') : T.Authority v.authority v'.authority := by
  obtain ⟨_, hex⟩ := hv
  exact .mk (a := v.authority) (.some hex)

theorem granted_translated {h h' : List Promotion} (hh : List.Forall₂ T.PromotionOf h h')
    (hv : T.Capability v v') (hg : Granted h v) : Granted h' v' := by
  obtain ⟨p, hp, rfl⟩ := hg
  induction hh with
  | nil => cases hp
  | @cons a b l l' hab _ ih =>
    rcases List.mem_cons.mp hp with rfl | hp
    · exact ⟨b, List.mem_cons_self, (hab.capability.eq_iff hv).mpr rfl⟩
    · obtain ⟨q, hq, hcap⟩ := ih hp
      exact ⟨q, List.mem_cons_of_mem _ hq, hcap⟩

theorem written_translated {l l' : List GatePersistenceRecord} (hl : List.Forall₂ T.Record l l')
    (hr : T.Record r r') (hmem : r ∈ l) : r' ∈ l' := by
  induction hl with
  | nil => cases hmem
  | @cons a b l l' hab _ ih =>
    rcases List.mem_cons.mp hmem with rfl | hmem
    · rw [(hr.eq_iff hab).mpr rfl]
      exact List.mem_cons_self
    · exact List.mem_cons_of_mem _ (ih hmem)

theorem reads_translated {lag : UInt64} (hc : T.CallOf c c') (hnow : T.Time now now')
    (h : c.ReadsWithin lag now) : c'.ReadsWithin lag now' := by
  intro t' hr'
  have hread : ∀ t, c.reading? = some t → T.Time t t' → ms now' ≤ ms t' + ms lag := by
    intro t hr ht
    have hle := h t hr
    unfold Time at hnow ht
    omega
  cases hc with
  | stage ht | activate ht | check_effect ht | tick ht =>
    cases hr'
    exact hread _ rfl ht
  | confirm_persisted | close | safety_fault => cases hr'

theorem gateStep_translated {e e' : GateEvent} {g₁ : EffectGate} (hg : T.Gate g g')
    (he : T.GateEventOf e e') (hstep : GateStep g e g₁) :
    ∃ g₁', GateStep g' e' g₁' ∧ T.Gate g₁ g₁' := by
  obtain ⟨hanswer, hnext⟩ := hg.step he.call
  rw [hstep] at hanswer hnext
  refine ⟨(g'.step e'.call).2, ?_, hnext⟩
  have hsame : (g'.step e'.call).1 = e'.answer :=
    hanswer.unique (fun _ _ _ h h' => h.unique h') he.answer
  unfold GateStep
  rw [← hsame]

theorem step_translated (hstep : DeploymentStep P lag d ev d₁) (hd : T.DeploymentOf d d')
    (hev : T.EventOf ev ev') :
    ∃ d₁', DeploymentStep (T.policy P) lag d' ev' d₁' ∧ T.DeploymentOf d₁ d₁' := by
  cases hstep with
  | advanced t hle =>
    cases hev with
    | advanced ht =>
      exact ⟨_, .advanced _ ((hd.now_ms.le_iff ht).mpr hle),
        ht, hd.current, hd.history, hd.sites⟩
  | @promoted v proof hval =>
    cases hev with
    | evaluated hp ha =>
      have hagrees := T.validation_is_translated (P := P) hp hd.current hd.now_ms
      rw [hval] at hagrees
      cases ha with
      | @ok _ v' hv =>
        have hval' := hagrees.unique (fun _ _ _ h h' => (h.eq_iff h').mpr rfl) (.ok hv)
        refine ⟨_, .promoted _ hval', hd.now_ms, authority_translated hv, ?_, hd.sites⟩
        exact List.rel_append hd.history (.cons ⟨hp, hd.now_ms, hv⟩ .nil)
  | @refused e proof hval =>
    cases hev with
    | evaluated hp ha =>
      have hagrees := T.validation_is_translated (P := P) hp hd.current hd.now_ms
      rw [hval] at hagrees
      have hval' := hagrees.unique (fun _ _ _ h h' => (h.eq_iff h').mpr rfl) ha
      cases ha with
      | error => exact ⟨d', .refused _ hval', hd⟩
  | @called g g₁ node e hg hcall hread hoffer hwritten =>
    cases hev with
    | @called _ _ e' he =>
      have hsite := hd.sites node
      have hgate := hsite.gate
      rw [hg] at hgate
      cases hgate' : (d'.sites (T.name node)).gate with
      | none =>
        rw [hgate'] at hgate
        cases hgate
      | some g' =>
        rw [hgate'] at hgate
        cases hgate with
        | some hgate =>
          obtain ⟨g₁', hcall', hnext⟩ := gateStep_translated hgate he hcall
          refine ⟨_, .called _ e' hgate' hcall' (reads_translated he.call hd.now_ms hread) ?_ ?_,
            hd.put ⟨hsite.store, .some hnext⟩⟩
          · intro t' v' hc'
            have hc := he.call
            rw [hc'] at hc
            generalize hoffered : e.call = c at hc
            cases hc with
            | stage _ hv => exact granted_translated hd.history hv (hoffer _ _ hoffered)
          · intro r' hc'
            have hc := he.call
            rw [hc'] at hc
            generalize hconfirmed : e.call = c at hc
            cases hc with
            | confirm_persisted hr =>
              exact written_translated hsite.store.written hr (hwritten _ hconfirmed)
  | wrote node r =>
    cases hev with
    | wrote hr =>
      have hsite := hd.sites node
      exact ⟨_, .wrote _ _, hd.put ⟨hsite.store.write hr, hsite.gate⟩⟩
  | crashed node =>
    cases hev with
    | crashed => exact ⟨_, .crashed _, hd.put ⟨(hd.sites node).store, .none⟩⟩
  | restarted node workload policy_hash incarnation =>
    cases hev with
    | restarted =>
      have hstore := (hd.sites node).store
      refine ⟨_, .restarted _ _ _ _, hd.put ⟨hstore, .some ?_⟩⟩
      unfold GateStore.recovery EffectGate.recover
      rw [hstore.accepted_epoch]
      exact .mk (g := .recover node workload policy_hash _) hstore.last_observed_ms .closed

theorem run_translated (hrun : DeploymentRun P lag d₀ es d) (h0 : T.DeploymentOf d₀ d₀')
    (hes : List.Forall₂ T.EventOf es es') :
    ∃ d', DeploymentRun (T.policy P) lag d₀' es' d' ∧ T.DeploymentOf d d' :=
  hrun.related T.DeploymentOf T.EventOf h0 hes
    fun _ _ _ _ _ hstep hd hev => step_translated hstep hd hev

/-! ## Translations that move no time -/

section still

variable (h : T.shift = 0)

include h

theorem time_refl (t : UInt64) : T.Time t t := by
  unfold Time
  rw [h, add_zero]

theorem exists_capability (v : ValidatedPromotion) : ∃ v', T.Capability v v' :=
  ⟨_, .mk (time_refl h _) (time_refl h _)⟩

theorem exists_proof (p : PromotionProof) : ∃ p', T.Proof p p' :=
  ⟨_, .mk (.mk (time_refl h _) (time_refl h _)) (.mk (time_refl h _)) (.mk (time_refl h _))
    (.mk (time_refl h _)) (.mk (time_refl h _) (time_refl h _))⟩

theorem exists_record (r : GatePersistenceRecord) : ∃ r', T.Record r r' := ⟨_, .mk (time_refl h _)⟩

theorem exists_gate (g : EffectGate) : ∃ g', T.Gate g g' := by
  have hstate : ∃ s, T.State g.state s := by
    rcases g.state with e | v | v | ⟨holder, e, x⟩ | ⟨e, r⟩
    · exact ⟨_, .closed⟩
    · obtain ⟨v', hv⟩ := exists_capability h v
      exact ⟨_, .staged hv⟩
    · obtain ⟨v', hv⟩ := exists_capability h v
      exact ⟨_, .prepared hv⟩
    · exact ⟨_, .opened (time_refl h x)⟩
    · exact ⟨_, .fenced⟩
  obtain ⟨s, hs⟩ := hstate
  exact ⟨_, .mk (time_refl h _) hs⟩

theorem exists_gateEvent (ev : GateEvent) : ∃ ev', T.GateEventOf ev ev' := by
  obtain ⟨c, a⟩ := ev
  have hcall : ∃ c', T.CallOf c c' := by
    rcases c with ⟨t, v⟩ | r | t | ⟨t, holder, e⟩ | t | _ | _
    · obtain ⟨v', hv⟩ := exists_capability h v
      exact ⟨_, .stage (time_refl h t) hv⟩
    · obtain ⟨r', hr⟩ := exists_record h r
      exact ⟨_, .confirm_persisted hr⟩
    · exact ⟨_, .activate (time_refl h t)⟩
    · exact ⟨_, .check_effect (time_refl h t)⟩
    · exact ⟨_, .tick (time_refl h t)⟩
    · exact ⟨_, .close⟩
    · exact ⟨_, .safety_fault⟩
  have hanswer : ∃ a', Agrees T.ReplyOf a a' := by
    rcases a with e | r | _ | r | _ | closed | _
    · exact ⟨_, .error⟩
    · obtain ⟨r', hr⟩ := exists_record h r
      exact ⟨_, .ok (.record hr)⟩
    · exact ⟨_, .ok .confirmed⟩
    · exact ⟨_, .ok (.receipt (.mk (time_refl h _) (time_refl h _)))⟩
    · exact ⟨_, .ok .allowed⟩
    · exact ⟨_, .ok .expired⟩
    · exact ⟨_, .ok .done⟩
  obtain ⟨c', hc⟩ := hcall
  obtain ⟨a', ha⟩ := hanswer
  exact ⟨⟨c', a'⟩, hc, ha⟩

theorem exists_event (ev : DeploymentEvent) : ∃ ev', T.EventOf ev ev' := by
  rcases ev with t | ⟨p, a⟩ | ⟨n, ev⟩ | ⟨n, r⟩ | n | ⟨n, w, hash, i⟩
  · exact ⟨_, .advanced (time_refl h t)⟩
  · obtain ⟨p', hp⟩ := exists_proof h p
    rcases a with e | v
    · exact ⟨_, .evaluated hp .error⟩
    · obtain ⟨v', hv⟩ := exists_capability h v
      exact ⟨_, .evaluated hp (.ok hv)⟩
  · obtain ⟨ev', hev⟩ := exists_gateEvent h ev
    exact ⟨_, .called hev⟩
  · obtain ⟨r', hr⟩ := exists_record h r
    exact ⟨_, .wrote hr⟩
  · exact ⟨_, .crashed⟩
  · exact ⟨_, .restarted⟩

theorem exists_store (s : GateStore) : ∃ s', T.StoreOf s s' := by
  obtain ⟨written, hwritten⟩ := exists_forall₂ (exists_record h) s.written
  refine ⟨{ s with written, covers := ?_ }, rfl, time_refl h _, hwritten⟩
  intro r' hr'
  obtain ⟨r, hr, hrecord⟩ := mem_of_forall₂ hwritten hr'
  obtain ⟨he, ht⟩ := s.covers r hr
  obtain ⟨htime⟩ := hrecord
  exact ⟨he, (htime.le_iff (time_refl h _)).mpr ht⟩

theorem exists_site (x : Site) : ∃ x', T.SiteOf x x' := by
  obtain ⟨store, hstore⟩ := exists_store h x.store
  rcases hg : x.gate with _ | g
  · exact ⟨⟨store, none⟩, hstore, by rw [hg]; exact .none⟩
  · obtain ⟨g', hg'⟩ := exists_gate h g
    exact ⟨⟨store, some g'⟩, hstore, by rw [hg]; exact .some hg'⟩

theorem exists_promotion (p : Promotion) : ∃ p', T.PromotionOf p p' := by
  obtain ⟨proof, hproof⟩ := exists_proof h p.proof
  obtain ⟨v, hv⟩ := exists_capability h p.capability
  exact ⟨⟨proof, p.now_ms, v⟩, hproof, time_refl h _, hv⟩

theorem exists_authority (a : AuthorityState) : ∃ a', T.Authority a a' := by
  rcases hx : a.lease_expires_at_ms with _ | x
  · exact ⟨_, .mk (by rw [hx]; exact .none)⟩
  · exact ⟨_, .mk (by rw [hx]; exact .some (time_refl h x))⟩

/-- Every deployment has a counterpart with the other names and digests. -/
theorem exists_deployment (d : Deployment) : ∃ d', T.DeploymentOf d d' := by
  obtain ⟨current, hcurrent⟩ := exists_authority h d.current
  obtain ⟨history, hhistory⟩ := exists_forall₂ (exists_promotion h) d.history
  choose site hsite using exists_site (T := T) h
  refine ⟨⟨d.now_ms, current, history, fun n => site (d.sites (T.name.symm n))⟩,
    time_refl h _, hcurrent, hhistory, ?_⟩
  intro n
  show T.SiteOf (d.sites n) (site (d.sites (T.name.symm (T.name n))))
  rw [Equiv.symm_apply_apply]
  exact hsite _

end still

/-! ## The effects of a translated run -/

/-- The term of the holder's new name. -/
def term (T : Translation) (a : terms.Term NodeId Epoch) : terms.Term NodeId Epoch :=
  ⟨T.name a.holder, a.epoch⟩

theorem effect_translated (hev : T.EventOf ev ev') :
    effects [ev'] = (effects [ev]).map T.term := by
  cases hev with
  | evaluated _ ha => cases ha <;> rfl
  | @called n e e' he =>
    obtain ⟨c, a⟩ := e
    obtain ⟨c', a'⟩ := e'
    obtain ⟨hc, ha⟩ := he
    dsimp only at hc ha
    cases ha with
    | error => cases hc <;> rfl
    | ok hr => cases hc <;> cases hr <;> rfl
  | advanced | wrote | crashed | restarted => rfl

theorem effects_translated (hes : List.Forall₂ T.EventOf es es') :
    effects es' = (effects es).map T.term := by
  induction hes with
  | nil => rfl
  | @cons ev ev' es es' hev _ ih =>
    have hcons : ∀ ev es, effects (ev :: es) = effects [ev] ++ effects es := by
      intro ev es
      rw [← effects_append]
      rfl
    rw [hcons ev' es', hcons ev es, effect_translated hev, ih, List.map_append]

theorem effect_of_translated {target t : _} {holder : NodeId} {epoch : Epoch}
    (h : T.EventOf ev (effect target t holder epoch)) :
    ∃ target₀ t₀ holder₀, T.name target₀ = target ∧ ev = effect target₀ t₀ holder₀ epoch := by
  unfold effect at h
  cases h with
  | @called n e _ he =>
    obtain ⟨c, a⟩ := e
    obtain ⟨hc, ha⟩ := he
    dsimp only at hc ha
    cases hc
    cases ha with
    | ok hr =>
      cases hr
      exact ⟨n, _, _, rfl, rfl⟩

/-- Fences that stop their targets do so under other names as well. -/
theorem fencesStop_translated (hes : List.Forall₂ T.EventOf es es') (h : FencesStop es) :
    FencesStop es' := by
  rintro before' proof' v' after' target t holder epoch rfl hhard htarget hlt hmem
  obtain ⟨before, rest, rfl, _, hrest⟩ := forall₂_append_right hes
  obtain ⟨ev, after, hev, hafter, rfl⟩ := List.forall₂_cons_right_iff.mp hrest
  obtain ⟨ev', hmem', heffect⟩ := mem_of_forall₂ hafter hmem
  obtain ⟨target₀, t₀, holder₀, rfl, rfl⟩ := effect_of_translated heffect
  generalize heq : DeploymentEvent.evaluated proof' (.ok v') = out at hev
  cases hev with
  | evaluated hp ha =>
    cases heq
    cases ha with
    | ok hv =>
      obtain ⟨_, ⟨_⟩, _, _, _⟩ := hp
      obtain ⟨_, _⟩ := hv
      exact h before _ _ _ target₀ t₀ holder₀ epoch rfl hhard (T.name_eq_some.mp htarget) hlt hmem'
  | advanced | called | wrote | crashed | restarted => cases heq

/-! ## The law -/

/-- No name, no digest and no absolute time matters to a deployment. Whatever it does in a
run, it does at another time with other names as well: the translated events lead to the
translated deployment, under the policy about the renamed nodes and with clocks that lag no
more, and their effects are those of the renamed nodes under the same epochs. -/
theorem deployments_are_translated (hrun : DeploymentRun P lag d₀ es d)
    (h0 : T.DeploymentOf d₀ d₀') (hes : List.Forall₂ T.EventOf es es') :
    ∃ d', DeploymentRun (T.policy P) lag d₀' es' d' ∧ T.DeploymentOf d d' ∧
      effects es' = (effects es).map T.term := by
  obtain ⟨d', hrun', hd⟩ := run_translated hrun h0 hes
  exact ⟨d', hrun', hd, effects_translated hes⟩

theorem begin_translated {store store' : NodeId → GateStore} (hnow : T.Time now now')
    (hstore : ∀ n, T.StoreOf (store n) (store' (T.name n))) :
    T.DeploymentOf (.begin now store) (.begin now' store') :=
  ⟨hnow, .mk .none, .nil, fun n => ⟨hstore n, .none⟩⟩

theorem recordFor_translated (hv : T.Capability v v') (ht : T.Time t t') :
    T.Record (recordFor v t) (recordFor v' t') := by
  obtain ⟨_, _⟩ := hv
  exact .mk (r := recordFor v t) ht

theorem receiptOf_translated (hv : T.Capability v v') (ht : T.Time t t') :
    T.Receipt (receiptOf v t) (receiptOf v' t') := by
  obtain ⟨_, hex⟩ := hv
  exact .mk (r := receiptOf v t) ht hex

theorem termEvents_translated {p p' : PromotionProof} (hp : T.Proof p p')
    (hv : T.Capability v v') (ht : T.Time t t') :
    List.Forall₂ T.EventOf (termEvents p v t) (termEvents p' v' t') := by
  have hcapability := hv
  have hrecord := recordFor_translated hv ht
  have hreceipt := receiptOf_translated hv ht
  obtain ⟨_, _⟩ := hv
  exact .cons .restarted (.cons (.evaluated hp (.ok hcapability)) (.cons
    (.called ⟨.stage ht hcapability, .ok (.record hrecord)⟩) (.cons (.wrote hrecord) (.cons
      (.called ⟨.confirm_persisted hrecord, .ok .confirmed⟩) (.cons
        (.called ⟨.activate ht, .ok (.receipt hreceipt)⟩) (.cons
          (.called ⟨.check_effect ht, .ok .allowed⟩) .nil))))))

end Translation

namespace tests

def moved_capability : ValidatedPromotion := capabilityOf moved_proof .Bootstrap

/-- A store that knows nothing but that it was the fifth second. -/
def moved_store : GateStore :=
  { GateStore.empty with last_observed_ms := 5000, covers := by simp [GateStore.empty] }

end tests

/-- The first term of node-a at the tenth second is the one of node-b five seconds later. -/
theorem deployments_are_translated_for_node_b :
    ∃ d', DeploymentRun (tests.exchanged.policy tests.policy) 0
      (.begin 15000 fun _ => tests.moved_store)
      (termEvents tests.moved_proof tests.moved_capability 15000) d' ∧
    effects (termEvents tests.moved_proof tests.moved_capability 15000) = [⟨tests.node_b, ⟨1⟩⟩] := by
  have hnow : tests.exchanged.Time 10000 15000 := by decide
  have hbegin : tests.exchanged.DeploymentOf (.begin 10000 fun _ => GateStore.empty)
      (.begin 15000 fun _ => tests.moved_store) :=
    Translation.begin_translated hnow fun _ => ⟨rfl, by decide, .nil⟩
  have hcapability : tests.exchanged.Capability tests.capability tests.moved_capability :=
    .mk (by decide) (by decide)
  have hevents := Translation.termEvents_translated tests.proof_moved hcapability hnow
  obtain ⟨d, hrun, _⟩ : ∃ d, DeploymentRun tests.policy 0 (.begin 10000 fun _ => GateStore.empty)
      (termEvents (tests.proof tests.node_a ⟨1⟩) tests.capability 10000) d ∧ _ :=
    term_run tests.proof_accepted (by decide) (by decide) (by decide) (by decide) (by decide)
  obtain ⟨d', hrun', _, heffects⟩ := Translation.deployments_are_translated hrun hbegin hevents
  exact ⟨d', hrun', heffects⟩

end quorumarc_core

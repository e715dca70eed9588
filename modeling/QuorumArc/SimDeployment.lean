-- The compact model as a deployment. A run of the model in which effective nodes
-- have effects is a run of real gates, stores and an authority on one clock. Both show
-- the same: gates are lost and recovered where the model says so and nowhere else.
import QuorumArc.Lives
import QuorumArc.SimShadow

open quorumarc_core words runs

namespace quorumarc_sim

/-! ## The model with its effects -/

inductive WriterEvent where
  | applied (a : Action)
  | wrote (n : Node) (epoch : UInt64)

def WriterEvent.effect? : WriterEvent → Option (terms.Term NodeId Epoch)
  | .wrote n epoch => some ⟨model_node_id n, ⟨epoch⟩⟩
  | .applied _ => none

/-- The effects of a run of the model, in order. -/
def writes (es : List WriterEvent) : List (terms.Term NodeId Epoch) :=
  es.filterMap WriterEvent.effect?

/-! ## One clock -/

/-- The calls of the event read the time `now_ms`. -/
def ReadsAt (now_ms : UInt64) : DeploymentEvent → Prop
  | .called _ ev => ∀ t, ev.call.reading? = some t → t = now_ms
  | _ => True

/-- One event of a deployment in which every gate reads the clock of the authority. -/
def OneClockStep (policy : SafetyPolicy) (d : Deployment) (ev : DeploymentEvent)
    (d' : Deployment) : Prop :=
  DeploymentStep policy 0 d ev d' ∧ ReadsAt d.now_ms ev

abbrev OneClockRun (policy : SafetyPolicy) := Run (OneClockStep policy)

/-! ## What a run shows -/

/-- Time goes on, a holder is granted authority, an effect goes out, and the process of
a node stops or starts. -/
inductive Shown where
  | advanced
  | granted (holder : NodeId)
  | wrote (term : terms.Term NodeId Epoch)
  | stopped (node : NodeId)
  | started (node : NodeId)

/-- A gate is lost and recovered only with its process. -/
def shown? : DeploymentEvent → Option Shown
  | .advanced _ => some .advanced
  | .evaluated _ (.ok v) => some (.granted v.candidate)
  | .called node ⟨.check_effect _ _ epoch, .ok .Allowed⟩ => some (.wrote ⟨node, epoch⟩)
  | .crashed node => some (.stopped node)
  | .restarted node _ _ _ => some (.started node)
  | _ => none

/-- A fence stops its node as a crash does. -/
def Action.shown? : Action → Option Shown
  | .CrashA | .FenceA => some (.stopped (model_node_id .A))
  | .CrashB | .FenceB => some (.stopped (model_node_id .B))
  | .RestartA => some (.started (model_node_id .A))
  | .RestartB => some (.started (model_node_id .B))
  | .PromoteA => some (.granted (model_node_id .A))
  | .PromoteB => some (.granted (model_node_id .B))
  | .AdvanceTime => some .advanced
  | _ => none

def WriterEvent.shown? : WriterEvent → Option Shown
  | .wrote n epoch => some (.wrote ⟨model_node_id n, ⟨epoch⟩⟩)
  | .applied a => a.shown?

/-- Both nodes of the model have booted. -/
def bootShown : List Shown := [.started (model_node_id .A), .started (model_node_id .B)]

/-! ## The deployment of a state -/

/-- What a site has to do with its node: the store knows the accepted epoch and no
later time, and the gate shadows a node that is on. -/
structure SiteOf (s : ModelState) (n : Node) (site : Site) : Prop where
  accepted : site.store.accepted_epoch = ⟨(s.node n).accepted_epoch⟩
  in_time : site.store.last_observed_ms ≤ tick_ms s.now_tick
  on : (s.node n).powered = true → ∃ g, site.gate = some g ∧ ShadowOf s n g
  off : (s.node n).powered = false → site.gate = none

/-- The deployment has the clock, the authority and the nodes of the model. -/
structure DeploymentOf (s : ModelState) (d : Deployment) : Prop where
  now_ms : d.now_ms = tick_ms s.now_tick
  current : d.current = current_authority s
  sites : ∀ n, SiteOf s n (d.sites (model_node_id n))

/-- The targets of the hard fences so far are fenced nodes. -/
def TargetsFenced (s : ModelState) (ds : List DeploymentEvent) : Prop :=
  ∀ proof v target, .evaluated proof (.ok v) ∈ ds → proof.fence.Hard →
    proof.fence.target = some target → ∃ m, target = model_node_id m ∧ (s.node m).fenced = true

/-- The invariants that every reachable state of the model has. -/
structure Reached (s : ModelState) : Prop where
  held : AllHeld s
  counted : LeasesCount s
  sound : Sound s

structure Simulates (es : List WriterEvent) (ds : List DeploymentEvent) (s : ModelState)
    (d : Deployment) : Prop where
  reached : Reached s
  deployment : DeploymentOf s d
  shown : ds.filterMap shown? = bootShown ++ es.filterMap WriterEvent.shown?
  targets : TargetsFenced s ds
  fences : FencesStop ds

variable {s s' : ModelState} {a : Action} {n m c : Node} {g : EffectGate} {d d' : Deployment}
  {e : UInt64} {x : UInt8} {policy : SafetyPolicy} {site : Site} {ds out : List DeploymentEvent}
  {es : List WriterEvent}

theorem reached_step (h : Reached s) (hc : Change s a s') : Reached s' :=
  ⟨allHeld_step h.held hc, leasesCount_step h.counted hc, sound_step h.sound hc⟩

/-! ## Sites -/

theorem SiteOf.of_sameLife (h : SiteOf s n site) (hl : SameLife (s.node n) (s'.node n))
    (hnow : s'.now_tick = s.now_tick) : SiteOf s' n site := by
  refine ⟨?_, ?_, ?_, ?_⟩
  · rw [h.accepted, hl.accepted_epoch]
  · rw [hnow]
    exact h.in_time
  · rw [hl.powered]
    intro hup
    obtain ⟨g, hg, hs⟩ := h.on hup
    exact ⟨g, hg, hs.of_sameLife hl hnow⟩
  · rw [hl.powered]
    exact h.off

/-- A change of the site of one node, with the clock and the authority as they were. -/
theorem DeploymentOf.put (h : DeploymentOf s d) (hnow : s'.now_tick = s.now_tick)
    (hcurrent : current_authority s' = current_authority s) (hsite : SiteOf s' n site)
    (hother : ∀ m, m ≠ n → SameLife (s.node m) (s'.node m)) :
    DeploymentOf s' (d.put (model_node_id n) site) := by
  refine ⟨?_, ?_, ?_⟩
  · rw [Deployment.put_now_ms, h.now_ms, hnow]
  · rw [Deployment.put_current, h.current, hcurrent]
  · intro m
    by_cases hm : m = n
    · subst hm
      rw [Deployment.put_self]
      exact hsite
    · rw [Deployment.put_of_ne (model_node_id_injective.ne hm)]
      exact (h.sites m).of_sameLife (hother m hm) hnow

/-- A gate that was just recovered from the store of a node without a lease shadows it. -/
theorem shadowOf_recovered {store : GateStore}
    (haccepted : store.accepted_epoch = ⟨(s.node n).accepted_epoch⟩)
    (htime : store.last_observed_ms ≤ tick_ms s.now_tick) (hnone : (s.node n).gate = none) :
    ShadowOf s n (.recover (model_node_id n) model_workload model_policy_hash
      (store.recovery ⟨(s.node n).incarnation⟩)) := by
  refine ⟨rfl, rfl, rfl, rfl, htime, haccepted, ?_⟩
  intro h e x
  constructor
  · intro hs
    cases hs
  · rintro ⟨lease, hg, _⟩
    rw [hnone] at hg
    cases hg

/-- A gate that reads the time shadows its node as before. -/
theorem ShadowOf.observed (h : ShadowOf s n g) :
    ShadowOf s n (g.observed (tick_ms s.now_tick)) :=
  ⟨h.node, h.workload, h.policy_hash, h.incarnation, UInt64.le_refl _, h.last_epoch, h.open_iff⟩

/-! ## What is shown -/

@[simp] theorem shown_link {up : Bool} : (Action.link n up).shown? = none := by
  cases n <;> cases up <;> rfl

@[simp] theorem shown_copy {caught_up : Bool} : (Action.copy n caught_up).shown? = none := by
  cases n <;> cases caught_up <;> rfl

@[simp] theorem shown_witness {up : Bool} : (Action.witness up).shown? = none := by
  cases up <;> rfl

@[simp] theorem shown_crash : (Action.crash n).shown? = some (.stopped (model_node_id n)) := by
  cases n <;> rfl

@[simp] theorem shown_fence : (Action.fence n).shown? = some (.stopped (model_node_id n)) := by
  cases n <;> rfl

@[simp] theorem shown_restart : (Action.restart n).shown? = some (.started (model_node_id n)) := by
  cases n <;> rfl

theorem shown_ne_wrote {term : terms.Term NodeId Epoch} : a.shown? ≠ some (.wrote term) := by
  cases a <;> simp [Action.shown?]

def Shown.term? : Shown → Option (terms.Term NodeId Epoch)
  | .wrote term => some term
  | _ => none

theorem effects_eq_shown :
    quorumarc_core.effects ds = (ds.filterMap shown?).filterMap Shown.term? := by
  have hterm : ∀ ev : DeploymentEvent,
      ev.view?.bind terms.Event.act? = (shown? ev).bind Shown.term? := by
    rintro (_ | ⟨_, _ | _⟩ | ⟨node, c, e | r⟩ | _ | _ | _)
    case called.error => cases c <;> rfl
    case called.ok => cases c <;> cases r <;> rfl
    all_goals rfl
  unfold quorumarc_core.effects terms.acts
  rw [List.filterMap_filterMap, List.filterMap_filterMap]
  exact congrArg (List.filterMap · ds) (funext hterm)

theorem writes_eq_shown : writes es = (es.filterMap WriterEvent.shown?).filterMap Shown.term? := by
  have hterm : ∀ ev : WriterEvent, ev.effect? = ev.shown?.bind Shown.term? := by
    rintro (a | _)
    · cases a <;> rfl
    · rfl
  unfold writes
  rw [List.filterMap_filterMap]
  exact congrArg (List.filterMap · es) (funext hterm)

theorem Simulates.effects (h : Simulates es ds s d) : effects ds = writes es := by
  rw [effects_eq_shown, writes_eq_shown, h.shown, List.filterMap_append]
  rfl

theorem no_effect_of_shown (hshown : out.filterMap shown? = a.shown?.toList) {node holder : NodeId}
    {t : UInt64} {epoch : Epoch} : effect node t holder epoch ∉ out := by
  intro hmem
  have hwrote : Shown.wrote ⟨node, epoch⟩ ∈ out.filterMap shown? :=
    List.mem_filterMap.mpr ⟨_, hmem, rfl⟩
  rw [hshown] at hwrote
  exact shown_ne_wrote (Option.mem_toList.mp hwrote)

theorem TargetsFenced.step (h : TargetsFenced s ds) (hc : Change s a s') : TargetsFenced s' ds := by
  intro proof v target hmem hhard htarget
  obtain ⟨m, rfl, hf⟩ := h proof v target hmem hhard htarget
  exact ⟨m, rfl, fenced_step hc hf⟩

theorem TargetsFenced.append (h : TargetsFenced s ds) (h' : TargetsFenced s out) :
    TargetsFenced s (ds ++ out) := by
  intro proof v target hmem
  rcases List.mem_append.mp hmem with hmem | hmem
  · exact h proof v target hmem
  · exact h' proof v target hmem

/-- An applied action, in which no node has an effect. -/
theorem Simulates.applied (h : Simulates es ds s d) (hc : Change s a s')
    (hshown : out.filterMap shown? = a.shown?.toList) (htargets : TargetsFenced s' out)
    (hd : DeploymentOf s' d') : Simulates (es ++ [.applied a]) (ds ++ out) s' d' := by
  refine ⟨reached_step h.reached hc, hd, ?_, (h.targets.step hc).append htargets, ?_⟩
  · rw [List.filterMap_append, h.shown, filterMap_snoc WriterEvent.shown?, hshown,
      List.append_assoc]
    rfl
  · refine h.fences.append (fencesStop_of_no_effect fun _ _ _ _ => no_effect_of_shown hshown) ?_
    intro proof v target t holder epoch _ _ _ _
    exact no_effect_of_shown hshown

/-- While time stands still, calls that read it are calls on one clock. -/
theorem oneClock_of_run (h : DeploymentRun policy 0 d out d')
    (hat : ∀ ev ∈ out, ReadsAt d.now_ms ev ∧ ∀ t, ev ≠ .advanced t) :
    OneClockRun policy d out d' ∧ d'.now_ms = d.now_ms := by
  induction h with
  | nil => exact ⟨.nil, rfl⟩
  | @snoc out ev d₁ d' _ hstep ih =>
    obtain ⟨hrun, hnow⟩ := ih fun ev hev => hat ev (List.mem_append_left _ hev)
    obtain ⟨hreads, hno⟩ := hat ev (List.mem_append_right _ (List.mem_singleton_self _))
    rw [← hnow] at hreads
    refine ⟨hrun.snoc ⟨hstep, hreads⟩, ?_⟩
    rw [← hnow]
    cases hstep with
    | advanced t => exact absurd rfl (hno t)
    | promoted | refused | called | wrote | crashed | restarted => rfl

/-! ## The steps -/

theorem current_authority_node_mut {f : NodeState → NodeState} :
    current_authority (s.node_mut n f) = current_authority s := by
  simp [current_authority]

theorem DeploymentOf.of_sameLife (h : DeploymentOf s d)
    (hl : ∀ n, SameLife (s.node n) (s'.node n)) (hnow : s'.now_tick = s.now_tick)
    (hcurrent : current_authority s' = current_authority s) : DeploymentOf s' d := by
  refine ⟨?_, ?_, ?_⟩
  · rw [h.now_ms, hnow]
  · rw [h.current, hcurrent]
  · intro n
    exact (h.sites n).of_sameLife (hl n) hnow

/-- A node that loses its power has crashed. -/
theorem DeploymentOf.crashed {f : NodeState → NodeState} (h : DeploymentOf s d)
    (hoff : (f (s.node n)).powered = false)
    (hacc : (f (s.node n)).accepted_epoch = (s.node n).accepted_epoch) :
    DeploymentOf (s.node_mut n f)
      (d.put (model_node_id n) { d.sites (model_node_id n) with gate := none }) := by
  refine h.put (by simp) current_authority_node_mut ⟨?_, ?_, ?_, ?_⟩ ?_
  · rw [ModelState.node_mut_self, hacc]
    exact (h.sites n).accepted
  · rw [ModelState.node_mut_now_tick]
    exact (h.sites n).in_time
  · rw [ModelState.node_mut_self, hoff]
    exact fun hup => absurd hup Bool.false_ne_true
  · intro _
    rfl
  · intro m hm
    exact .node_mut_of_ne hm

theorem DeploymentOf.restarted {i : UInt64} (h : DeploymentOf s d) :
    DeploymentOf (s.node_mut n fun m =>
        { m with powered := true, connected_to_witness := true, incarnation := i, gate := none })
      (d.put (model_node_id n) { d.sites (model_node_id n) with
        gate := some (.recover (model_node_id n) model_workload model_policy_hash
          ((d.sites (model_node_id n)).store.recovery ⟨i⟩)) }) := by
  have hsite := h.sites n
  refine h.put (by simp) current_authority_node_mut ⟨?_, ?_, ?_, ?_⟩ ?_
  · rw [ModelState.node_mut_self]
    exact hsite.accepted
  · rw [ModelState.node_mut_now_tick]
    exact hsite.in_time
  · intro _
    refine ⟨_, rfl, ?_⟩
    have hrecovered := shadowOf_recovered (n := n) (s := s.node_mut n fun m =>
      { m with powered := true, connected_to_witness := true, incarnation := i, gate := none })
      (by simpa using hsite.accepted) (by simpa using hsite.in_time) (by simp)
    simpa using hrecovered
  · rw [ModelState.node_mut_self]
    intro hoff
    cases hoff
  · intro m hm
    exact .node_mut_of_ne hm

/-- The gate of a node that is on is ticked at the new time. -/
theorem ticked_site {t : UInt8} (policy : SafetyPolicy) (hnow : d.now_ms = tick_ms t)
    (hle : s.now_tick ≤ t) (h : SiteOf s n (d.sites (model_node_id n))) :
    ∃ out site, OneClockRun policy d out (d.put (model_node_id n) site) ∧
      out.filterMap shown? = [] ∧ SiteOf { s with now_tick := t } n site := by
  have hnode : ({ s with now_tick := t } : ModelState).node n = s.node n := by
    cases n <;> rfl
  have htime : (d.sites (model_node_id n)).store.last_observed_ms ≤ tick_ms t :=
    UInt64.le_trans h.in_time (tick_ms_le.mpr hle)
  by_cases hup : (s.node n).powered = true
  · obtain ⟨g, hg, hs⟩ := h.on hup
    have htick : DeploymentStep policy 0 d
        (.called (model_node_id n) ⟨.tick (tick_ms t), (g.step (.tick (tick_ms t))).1⟩)
        (d.put (model_node_id n)
          { d.sites (model_node_id n) with gate := some (g.tick (tick_ms t)).2 }) := by
      refine .called _ _ hg rfl ?_ ?_ ?_
      · intro t' ht'
        cases ht'
        rw [hnow]
        exact le_add_of_nonneg_right (ms_nonneg 0)
      · intro t' v hc
        cases hc
      · intro r hc
        cases hc
    refine ⟨_, _, Run.nil.snoc ⟨htick, ?_⟩, rfl, ?_, htime, ?_, ?_⟩
    · intro t' ht'
      cases ht'
      exact hnow.symm
    · rw [hnode]
      exact h.accepted
    · intro _
      exact ⟨_, rfl, hs.ticked hle⟩
    · rw [hnode, hup]
      intro hoff
      cases hoff
  · refine ⟨[], d.sites (model_node_id n), ?_, rfl, ?_, htime, ?_, ?_⟩
    · rw [Deployment.put_sites]
      exact .nil
    · rw [hnode]
      exact h.accepted
    · rw [hnode]
      intro hon
      exact absurd hon hup
    · rw [hnode]
      exact h.off

theorem DeploymentOf.passed {t : UInt8} (policy : SafetyPolicy) (h : DeploymentOf s d)
    (hle : s.now_tick ≤ t) : ∃ out d', OneClockRun policy d out d' ∧
      out.filterMap shown? = [.advanced] ∧ DeploymentOf { s with now_tick := t } d' := by
  let d₁ : Deployment := { d with now_ms := tick_ms t }
  have hadvance : DeploymentStep policy 0 d (.advanced (tick_ms t)) d₁ := by
    refine .advanced _ ?_
    rw [h.now_ms]
    exact tick_ms_le.mpr hle
  obtain ⟨outA, siteA, hrunA, hshownA, hA⟩ := ticked_site (d := d₁) (n := .A) policy rfl hle
    (h.sites .A)
  have hsiteB : (d₁.put (model_node_id .A) siteA).sites (model_node_id .B) =
      d.sites (model_node_id .B) := Deployment.put_of_ne (model_node_id_injective.ne (by decide))
  obtain ⟨outB, siteB, hrunB, hshownB, hB⟩ := ticked_site (s := s) (n := .B)
    (d := d₁.put (model_node_id .A) siteA) policy rfl hle (by rw [hsiteB]; exact h.sites .B)
  have hfirst : OneClockRun policy d [.advanced (tick_ms t)] d₁ := Run.nil.snoc ⟨hadvance, trivial⟩
  refine ⟨_, _, (hfirst.append hrunA).append hrunB, ?_, rfl, h.current, ?_⟩
  · rw [List.filterMap_append, List.filterMap_append, hshownA, hshownB]
    rfl
  intro n
  cases n with
  | A =>
    rw [Deployment.put_of_ne (model_node_id_injective.ne (by decide)), Deployment.put_self]
    exact hA
  | B =>
    rw [Deployment.put_self]
    exact hB

theorem promoted_authority : (model_capability s c e x).authority =
    current_authority (promoted s c e x) := by
  simp [current_authority, ValidatedPromotion.authority, model_capability, capabilityOf,
    promotion_proof]

theorem validate_promotable (hof : OfModel policy) (hsound : Sound s) (hp : Promotable s c e x) :
    validate_promotion (promotion_proof s c e x) (current_authority s) policy (tick_ms s.now_tick) =
      .ok (model_capability s c e x) := by
  have hex := holder_excluded_of_free (mayPromote_of_promotable hp).free
  rw [validate_excluded hof hp.powered hp.next_epoch hp.lease hp.not_holder hex hsound.unheld,
    hp.caught_up]
  rfl

theorem store_written {store : GateStore} {r : GatePersistenceRecord}
    (haccepted : store.accepted_epoch ≤ r.accepted_epoch)
    (htime : store.last_observed_ms ≤ r.last_observed_ms) :
    (store.write r).accepted_epoch = r.accepted_epoch ∧
      (store.write r).last_observed_ms ≤ r.last_observed_ms := by
  refine ⟨max_eq_right haccepted, ?_⟩
  show (if store.last_observed_ms ≤ r.last_observed_ms then r.last_observed_ms
    else store.last_observed_ms) ≤ r.last_observed_ms
  rw [if_pos htime]

/-- All calls of a handshake read one time. -/
theorem opening_reads {node : NodeId} {t : UInt64} {v : ValidatedPromotion}
    {r : GatePersistenceRecord} {receipt : ContinuityReceipt} :
    ∀ ev ∈ opening node t v r receipt, ReadsAt t ev ∧ ∀ u, ev ≠ .advanced u := by
  unfold opening
  simp [ReadsAt, Call.reading?]

/-- An applied promotion is accepted by the authority, and the gate of the candidate opens
for it. -/
theorem DeploymentOf.promoted (h : DeploymentOf s d) (hr : Reached s) (hof : OfModel policy)
    (hp : Promotable s c e x) : ∃ r receipt d', OneClockRun policy d
      (.evaluated (promotion_proof s c e x) (.ok (model_capability s c e x)) ::
        opening (model_node_id c) (tick_ms s.now_tick) (model_capability s c e x) r receipt) d' ∧
      DeploymentOf (promoted s c e x) d' := by
  have hsite := h.sites c
  obtain ⟨g, hg, hs⟩ := hsite.on hp.powered
  obtain ⟨r, g₁, g₂, receipt, hstage, hconfirm, hactivate⟩ :=
    hs.completes hr.held hr.counted hr.sound hp
  -- The record is of the new epoch and of this moment.
  have hstaged := EffectGate.stage.spec g (tick_ms s.now_tick) (model_capability s c e x)
  rw [hstage] at hstaged
  obtain ⟨_, htime, hrecord⟩ := hstaged.of_stage
  have hrepoch : r.accepted_epoch = ⟨e⟩ := by rw [← hrecord]; rfl
  have hrtime : r.last_observed_ms = tick_ms s.now_tick := by rw [← hrecord]; exact htime
  have hnewer : (d.sites (model_node_id c)).store.accepted_epoch ≤ r.accepted_epoch := by
    have hle := hr.sound.accepted c
    have hepoch := hp.next_epoch
    rw [hrepoch, hsite.accepted, Epoch.le_iff]
    show (s.node c).accepted_epoch.toNat ≤ e.toNat
    omega
  have hlater : (d.sites (model_node_id c)).store.last_observed_ms ≤ r.last_observed_ms := by
    rw [hrtime]
    exact hsite.in_time
  obtain ⟨hstore, hstoretime⟩ := store_written hnewer hlater
  let d₁ : Deployment := { d with
    current := (model_capability s c e x).authority
    history := d.history ++ [⟨promotion_proof s c e x, d.now_ms, model_capability s c e x⟩] }
  have hgrant : DeploymentStep policy 0 d
      (.evaluated (promotion_proof s c e x) (.ok (model_capability s c e x))) d₁ := by
    refine .promoted _ ?_
    rw [h.current, h.now_ms]
    exact validate_promotable hof hr.sound hp
  have hlag : ms d₁.now_ms ≤ ms (tick_ms s.now_tick) + ms 0 := by
    show ms d.now_ms ≤ _
    rw [h.now_ms]
    exact le_add_of_nonneg_right (ms_nonneg 0)
  have hopening := opening_run policy (d := d₁) hg
    ⟨_, List.mem_append_right _ (List.mem_singleton_self _), rfl⟩ hlag hstage hconfirm hactivate
  have hnow : d₁.now_ms = tick_ms s.now_tick := h.now_ms
  obtain ⟨hclock, _⟩ := oneClock_of_run hopening (by rw [hnow]; exact opening_reads)
  have hfirst : OneClockRun policy d _ d₁ := Run.nil.snoc ⟨hgrant, trivial⟩
  refine ⟨r, receipt, _, hfirst.append hclock, ?_, promoted_authority, ?_⟩
  · rw [promoted_now_tick]
    exact h.now_ms
  · intro m
    by_cases hm : m = c
    · subst hm
      rw [Deployment.put_self]
      refine ⟨?_, ?_, ?_, ?_⟩
      · rw [hstore, hrepoch, promoted_self]
      · rw [promoted_now_tick, ← hrtime]
        exact hstoretime
      · intro _
        exact ⟨_, rfl, hs.promoted hp⟩
      · rw [promoted_self, hp.powered]
        intro hoff
        cases hoff
    · rw [Deployment.put_of_ne (model_node_id_injective.ne hm)]
      refine (h.sites m).of_sameLife ?_ promoted_now_tick
      rw [promoted_of_ne hm]
      exact .refl _

/-- An effective node is let to have its effect. -/
theorem DeploymentOf.wrote {lease : GateLease} (policy : SafetyPolicy) (h : DeploymentOf s d)
    (hr : Reached s) (he : Effective s n) (hg : (s.node n).gate = some lease) :
    ∃ d', OneClockStep policy d
      (effect (model_node_id n) (tick_ms s.now_tick) (model_node_id n) ⟨lease.epoch⟩) d' ∧
      DeploymentOf s d' := by
  obtain ⟨hup, _, _⟩ := gate_is_effective_iff.mp he
  obtain ⟨lease', hg', hlt⟩ := (effective_iff_lease hr.held hr.counted).mp he
  obtain rfl : lease = lease' := Option.some_inj.mp (hg.symm.trans hg')
  obtain ⟨g, hgate, hs⟩ := (h.sites n).on hup
  have hopen := (hs.open_iff _ _ _).mpr ⟨lease, hg, hlt, rfl, rfl, rfl⟩
  have hlag : ms d.now_ms ≤ ms (tick_ms s.now_tick) + ms 0 := by
    rw [h.now_ms]
    exact le_add_of_nonneg_right (ms_nonneg 0)
  have hreads : ReadsAt d.now_ms
      (effect (model_node_id n) (tick_ms s.now_tick) (model_node_id n) ⟨lease.epoch⟩) := by
    intro t ht
    cases ht
    exact h.now_ms.symm
  refine ⟨_, ⟨effect_step hgate hopen hs.in_time (tick_ms_lt.mpr hlt) hlag, hreads⟩, ?_⟩
  refine h.put rfl rfl ⟨(h.sites n).accepted, (h.sites n).in_time, ?_, ?_⟩ ?_
  · intro _
    exact ⟨_, rfl, hs.observed⟩
  · rw [hup]
    intro hoff
    cases hoff
  · intro m _
    exact .refl _

/-- The deployment lets exactly the effective nodes have an effect. -/
theorem DeploymentOf.effective_iff (policy : SafetyPolicy) (h : DeploymentOf s d)
    (hr : Reached s) : Effective s n ↔ ∃ e d', OneClockStep policy d
      (effect (model_node_id n) (tick_ms s.now_tick) (model_node_id n) e) d' := by
  constructor
  · intro he
    obtain ⟨lease, hg, _⟩ := (effective_iff_lease hr.held hr.counted).mp he
    obtain ⟨d', hstep, _⟩ := h.wrote policy hr he hg
    exact ⟨_, d', hstep⟩
  · rintro ⟨e, d', hstep, _⟩
    cases hstep with
    | called _ _ hg hcall _ _ _ =>
      obtain ⟨x, _, hopen, _⟩ := hcall.outcome.of_allowed
      by_cases hup : (s.node n).powered = true
      · obtain ⟨g, hg', hs⟩ := (h.sites n).on hup
        rw [hg] at hg'
        cases hg'
        exact (hs.effective_iff hr.held hr.counted).mpr ⟨_, _, _, hopen⟩
      · rw [(h.sites n).off (by simpa using hup)] at hg
        cases hg

end quorumarc_sim

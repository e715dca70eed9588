-- The compact model against a long-lived gate. `promote` builds a fresh gate and
-- throws it away, and the model keeps a lease of its own; here every node has
-- a gate that lives from boot or restart until crash or fence, and the two agree.
import QuorumArc.SimHistory

open quorumarc_core checks words runs

namespace quorumarc_sim

/-! ## The gates that shadow the nodes -/

/-- The capability of the promotion of the candidate: what the validator makes of
the evidence that `promote` presents. -/
def promotion_capability (s : ModelState) (c : Node) : Option ValidatedPromotion :=
  match u64_checked_add s.epoch 1, u8_checked_add s.now_tick 3, policy_result with
  | some new_epoch, some expires_at_tick, .ok policy =>
    (validate_promotion (promotion_proof s c new_epoch expires_at_tick) (current_authority s) policy
      (tick_ms s.now_tick)).toOption
  | _, _, _ => none

/-- The handshake of the capability at one reading of the clock. -/
def handshake (g : EffectGate) (now_ms : UInt64) (v : ValidatedPromotion) :
    Except GateError ContinuityReceipt × EffectGate :=
  match g.stage now_ms v with
  | (.error e, g) => (.error e, g)
  | (.ok record, g) =>
    match g.confirm_persisted record with
    | (.error e, g) => (.error e, g)
    | (.ok _, g) => g.activate now_ms

/-- What an applied action does to the gate of a node. -/
def follow (s : ModelState) (a : Action) (s' : ModelState) (n : Node) (shadow : Option EffectGate) :
    Option EffectGate :=
  if a = .crash n ∨ a = .fence n then none
  else if a = .restart n then some (fresh_gate s' n)
  else if a = .promote n then
    match shadow, promotion_capability s n with
    | some g, some v => some (handshake g (tick_ms s.now_tick) v).2
    | _, _ => shadow
  else if a = .AdvanceTime then shadow.map fun g => (g.tick (tick_ms s'.now_tick)).2
  else shadow

abbrev Shadows := Node → Option EffectGate

/-- The gates of the default state, where both nodes have booted. -/
def booted : Shadows := fun n => some (fresh_gate .default n)

/-- The runs of the model with the gates of its nodes. -/
abbrev ShadowRun := Run (Accompanied (fun s a s' => apply s a = .Applied s')
  fun s a s' shadows n => follow s a s' n (shadows n)) (.default, booted)

/-! ## What a gate has to do with its node -/

/-- The gate is bound to the node in its life, is not ahead of the time, knows the
accepted epoch, and is open exactly for a lease of the node that still runs. -/
structure ShadowOf (s : ModelState) (n : Node) (g : EffectGate) : Prop where
  node : g.node = model_node_id n
  workload : g.workload = model_workload
  policy_hash : g.policy_hash = model_policy_hash
  incarnation : g.incarnation = ⟨(s.node n).incarnation⟩
  in_time : g.last_observed_ms ≤ tick_ms s.now_tick
  last_epoch : g.state.last_epoch = ⟨(s.node n).accepted_epoch⟩
  open_iff : ∀ h e x, g.state = .Open h e x ↔ ∃ lease, (s.node n).gate = some lease ∧
    s.now_tick < lease.expires_at_tick ∧ h = model_node_id n ∧ e = ⟨lease.epoch⟩ ∧
    x = tick_ms lease.expires_at_tick

/-- Every node that is on has its gate. -/
def Shadowed (s : ModelState) (shadows : Shadows) : Prop :=
  ∀ n, (s.node n).powered = true → ∃ g, shadows n = some g ∧ ShadowOf s n g

variable {s s' : ModelState} {a : Action} {n m c : Node} {g : EffectGate} {e : UInt64} {x : UInt8}

theorem tick_ms_lt {t u : UInt8} : tick_ms t < tick_ms u ↔ t < u := by
  rw [← ms_lt, ms_tick, ms_tick, UInt8.lt_iff_toNat_lt]
  omega

theorem tick_ms_le {t u : UInt8} : tick_ms t ≤ tick_ms u ↔ t ≤ u := by
  rw [← UInt64.not_lt, tick_ms_lt, UInt8.not_lt]

/-- A gate that was just recovered shadows a node without a lease. -/
theorem shadowOf_fresh (hnone : (s.node n).gate = none) : ShadowOf s n (fresh_gate s n) := by
  refine ⟨rfl, rfl, rfl, rfl, UInt64.le_refl _, rfl, ?_⟩
  intro h e x
  constructor
  · intro hs
    cases hs
  · rintro ⟨lease, hg, _⟩
    rw [hnone] at hg
    cases hg

theorem shadowed_booted : Shadowed .default booted := by
  intro n _
  refine ⟨fresh_gate .default n, rfl, shadowOf_fresh ?_⟩
  cases n <;> rfl

/-- A gate follows its node through everything that leaves the life of the node
and the time alone. -/
theorem ShadowOf.of_sameLife (h : ShadowOf s n g) (hl : SameLife (s.node n) (s'.node n))
    (hnow : s'.now_tick = s.now_tick) : ShadowOf s' n g := by
  refine ⟨h.node, h.workload, h.policy_hash, ?_, ?_, ?_, ?_⟩
  · rw [h.incarnation, hl.incarnation]
  · rw [hnow]
    exact h.in_time
  · rw [h.last_epoch, hl.accepted_epoch]
  · rw [hl.gate, hnow]
    exact h.open_iff

/-! ## The lease of a node and the lease of its gate -/

/-- No lease is under the epoch of the default state. -/
def LeasesCount (s : ModelState) : Prop :=
  ∀ n lease, (s.node n).gate = some lease → 0 < lease.epoch

theorem leasesCount_step (h : LeasesCount s) (hc : Change s a s') : LeasesCount s' := by
  intro n lease hg
  by_cases ha : a = .promote n
  · subst ha
    obtain ⟨e, x, hp, rfl⟩ := of_promote hc
    rw [promoted_self] at hg
    cases hg
    have hepoch := hp.next_epoch
    rw [UInt64.lt_iff_toNat_lt]
    show 0 < e.toNat
    omega
  · rcases life_step hc ha with hnone | hl
    · rw [hnone] at hg
      cases hg
    · exact h n lease (hl.gate.symm.trans hg)

theorem leasesCount_run {actions : List Action} (hrun : ModelRun actions s) : LeasesCount s := by
  refine hrun.invariant LeasesCount ?_ ?_
  · intro n lease hg
    cases n <;> cases hg
  · intro s a s' h happly
    exact leasesCount_step h (apply.spec happly)

/-- In a reachable state the copy of the incarnation and the power of the node
decide nothing: only the expiry of the lease does. -/
theorem effective_iff_lease (hheld : AllHeld s) (hcount : LeasesCount s) : Effective s n ↔
    ∃ lease, (s.node n).gate = some lease ∧ s.now_tick < lease.expires_at_tick := by
  unfold Effective
  rw [gate_is_effective_iff]
  constructor
  · rintro ⟨_, _, lease, hg, _, _, hlt⟩
    exact ⟨lease, hg, hlt⟩
  · rintro ⟨lease, hg, hlt⟩
    have hl := hheld n lease hg
    exact ⟨hl.powered, hl.not_fenced, lease, hg, hcount n lease hg, hl.incarnation, hlt⟩

theorem ShadowOf.effective_iff (h : ShadowOf s n g) (hheld : AllHeld s) (hcount : LeasesCount s) :
    Effective s n ↔ g.IsOpen := by
  rw [effective_iff_lease hheld hcount]
  constructor
  · rintro ⟨lease, hg, hlt⟩
    exact ⟨_, _, _, (h.open_iff _ _ _).mpr ⟨lease, hg, hlt, rfl, rfl, rfl⟩⟩
  · rintro ⟨h', e, x, hs⟩
    obtain ⟨lease, hg, hlt, _⟩ := (h.open_iff _ _ _).mp hs
    exact ⟨lease, hg, hlt⟩

/-- The gate allows effects of its node exactly while it is open. -/
theorem ShadowOf.allows_iff (h : ShadowOf s n g) :
    (∃ e, (g.check_effect (tick_ms s.now_tick) (model_node_id n) e).1 = .ok ()) ↔ g.IsOpen := by
  constructor
  · rintro ⟨e, hok⟩
    have hspec := EffectGate.check_effect.spec g (tick_ms s.now_tick) (model_node_id n) e
    rw [hok] at hspec
    obtain ⟨x, _, hs, _⟩ := hspec.of_allowed
    exact ⟨_, e, x, hs⟩
  · rintro ⟨h', e, x, hs⟩
    obtain ⟨lease, _, hlt, rfl, rfl, rfl⟩ := (h.open_iff _ _ _).mp hs
    refine ⟨⟨lease.epoch⟩, ?_⟩
    rw [EffectGate.check_of_open hs h.in_time (tick_ms_lt.mpr hlt)]

/-! ## The steps of a gate -/

/-- The node stays in its life to a later time, and its gate in a state that
is open for the same lease, if that still runs. -/
theorem ShadowOf.elapsed {t : UInt8} {state : GateState} (h : ShadowOf s n g)
    (hepoch : state.last_epoch = g.state.last_epoch)
    (hopen : ∀ h e x, state = .Open h e x ↔ ∃ lease, (s.node n).gate = some lease ∧
      t < lease.expires_at_tick ∧ h = model_node_id n ∧ e = ⟨lease.epoch⟩ ∧
      x = tick_ms lease.expires_at_tick) :
    ShadowOf { s with now_tick := t } n { g.observed (tick_ms t) with state } := by
  have hnode : ({ s with now_tick := t } : ModelState).node n = s.node n := by
    cases n <;> rfl
  refine ⟨h.node, h.workload, h.policy_hash, ?_, UInt64.le_refl _, ?_, ?_⟩
  · rw [hnode]
    exact h.incarnation
  · rw [hnode]
    exact hepoch.trans h.last_epoch
  · rw [hnode]
    exact hopen

/-- The clock of the model goes on, and the gate is ticked. -/
theorem ShadowOf.ticked {t : UInt8} (h : ShadowOf s n g) (ht : s.now_tick ≤ t) :
    ShadowOf { s with now_tick := t } n (g.tick (tick_ms t)).2 := by
  have hlate : g.last_observed_ms ≤ tick_ms t := UInt64.le_trans h.in_time (tick_ms_le.mpr ht)
  have hspec := EffectGate.tick.spec g (tick_ms t)
  generalize (g.tick (tick_ms t)).2 = g' at hspec ⊢
  generalize (g.tick (tick_ms t)).1.map Reply.Expired = answer at hspec
  cases hspec with
  | rolled_back hr hlt =>
    cases hr
    exact absurd hlate (UInt64.not_le.mpr hlt)
  | refused _ _ hr => cases hr
  | ticked_out _ hs hx =>
    refine h.elapsed rfl ?_
    intro h' e x
    constructor
    · intro hs'
      cases hs'
    · rintro ⟨lease, hg, hlt, _⟩
      -- A lease that still ran would have been the one that the gate was open for.
      have hs' := (h.open_iff _ _ _).mpr
        ⟨lease, hg, UInt8.lt_of_le_of_lt ht hlt, rfl, rfl, rfl⟩
      rw [hs] at hs'
      cases hs'
      exact absurd (tick_ms_le.mp hx) (UInt8.not_le.mpr hlt)
  | ticked _ hrun =>
    refine h.elapsed rfl ?_
    intro h' e x
    constructor
    · intro hs
      obtain ⟨lease, hg, _, rfl, rfl, rfl⟩ := (h.open_iff _ _ _).mp hs
      exact ⟨lease, hg, tick_ms_lt.mp (hrun _ _ _ hs), rfl, rfl, rfl⟩
    · rintro ⟨lease, hg, hlt, rfl, rfl, rfl⟩
      exact (h.open_iff _ _ _).mpr ⟨lease, hg, UInt8.lt_of_le_of_lt ht hlt, rfl, rfl, rfl⟩

/-- The validator makes the capability of the model out of an applied promotion. -/
theorem capability_of_promotable (h : Sound s) (hp : Promotable s c e x) :
    promotion_capability s c = some (model_capability s c e x) := by
  obtain ⟨policy, hpolicy, hof⟩ := policy_result.spec
  have he : u64_checked_add s.epoch 1 = some e := u64_checked_add_eq_some.mpr hp.next_epoch
  have hx : u8_checked_add s.now_tick 3 = some x := u8_checked_add_eq_some.mpr hp.lease
  have hex := holder_excluded_of_free (mayPromote_of_promotable hp).free
  have hval := validate_excluded hof hp.powered hp.next_epoch hp.lease hp.not_holder hex h.unheld
  rw [hp.caught_up] at hval
  unfold promotion_capability
  rw [he, hx, hpolicy]
  simp only [hval]
  rfl

/-- All three calls of the handshake succeed, and the gate is `g'` after them. -/
def Completes (g : EffectGate) (now_ms : UInt64) (v : ValidatedPromotion)
    (g' : EffectGate) : Prop :=
  ∃ record g₁ g₂ receipt, g.stage now_ms v = (.ok record, g₁) ∧
    g₁.confirm_persisted record = (.ok (), g₂) ∧ g₂.activate now_ms = (.ok receipt, g')

theorem Completes.handshake_eq {now_ms : UInt64} {v : ValidatedPromotion} {g' : EffectGate}
    (h : Completes g now_ms v g') : (handshake g now_ms v).2 = g' := by
  obtain ⟨record, g₁, g₂, receipt, hstage, hconfirm, hactivate⟩ := h
  unfold handshake
  simp only [hstage, hconfirm, hactivate]

/-- The gate of the candidate accepts a promotion that the model applies. -/
theorem ShadowOf.completes (h : ShadowOf s c g) (hheld : AllHeld s) (hcount : LeasesCount s)
    (hsound : Sound s) (hp : Promotable s c e x) :
    Completes g (tick_ms s.now_tick) (model_capability s c e x)
      (g.openedFor (model_capability s c e x) (tick_ms s.now_tick)) := by
  have hno : ¬ g.IsOpen := by
    rw [← h.effective_iff hheld hcount]
    unfold Effective
    rw [hp.not_effective]
    exact Bool.false_ne_true
  have hnewer : g.state.last_epoch < (model_capability s c e x).epoch := by
    have hle := hsound.accepted c
    have hepoch := hp.next_epoch
    rw [h.last_epoch, Epoch.lt_iff]
    show (s.node c).accepted_epoch.toNat < e.toNat
    omega
  have hbound : g.Bound (model_capability s c e x) :=
    ⟨h.workload.symm, h.policy_hash.symm, h.node.symm, h.incarnation.symm⟩
  obtain ⟨record, g₁, g₂, hstage, hconfirm, hactivate⟩ := EffectGate.handshake_opens h.in_time
    hbound hno hnewer (UInt64.le_refl _) (lease_of_model hp.lease)
  exact ⟨record, g₁, g₂, _, hstage, hconfirm, hactivate⟩

theorem ShadowOf.promoted (h : ShadowOf s c g) (hp : Promotable s c e x) :
    ShadowOf (promoted s c e x) c
      (g.openedFor (model_capability s c e x) (tick_ms s.now_tick)) := by
  refine ⟨h.node, h.workload, h.policy_hash, ?_, ?_, ?_, ?_⟩
  · rw [promoted_self]
    exact h.incarnation
  · rw [promoted_now_tick]
    exact UInt64.le_refl _
  · rw [promoted_self]
    rfl
  · intro h' e' x'
    have hlt : s.now_tick < x := tick_ms_lt.mp (lease_of_model hp.lease)
    rw [promoted_self, promoted_now_tick]
    constructor
    · intro hs
      cases hs
      exact ⟨_, rfl, hlt, rfl, rfl, rfl⟩
    · rintro ⟨lease, hg, _, rfl, rfl, rfl⟩
      cases hg
      rfl

/-! ## The steps of the model -/

theorem follow_promote {v : ValidatedPromotion} (hv : promotion_capability s n = some v) :
    follow s (.promote n) s' n (some g) = some (handshake g (tick_ms s.now_tick) v).2 := by
  unfold follow
  rw [hv]
  cases n <;> rfl

theorem follow_restart {shadow : Option EffectGate} :
    follow s (.restart n) s' n shadow = some (fresh_gate s' n) := by
  cases n <;> rfl

theorem follow_time {shadow : Option EffectGate} : follow s .AdvanceTime s' n shadow =
    shadow.map fun g => (g.tick (tick_ms s'.now_tick)).2 := by
  cases n <;> rfl

/-- What happens to one node does not touch the gate of the other. -/
theorem follow_of_ne {shadow : Option EffectGate} (hne : n ≠ m)
    (ha : a = .crash m ∨ a = .fence m ∨ a = .restart m ∨ a = .promote m) :
    follow s a s' n shadow = shadow := by
  rcases ha with rfl | rfl | rfl | rfl <;> cases n <;> cases m <;>
    first | rfl | exact absurd rfl hne

variable {shadows : Shadows}

/-- A node that stays in its life, without a call of its gate. -/
theorem Shadowed.keep (h : Shadowed s shadows) (hup : (s'.node n).powered = true)
    (hl : SameLife (s.node n) (s'.node n)) (hnow : s'.now_tick = s.now_tick)
    (hf : follow s a s' n (shadows n) = shadows n) :
    ∃ g, follow s a s' n (shadows n) = some g ∧ ShadowOf s' n g := by
  obtain ⟨g, hg, hs⟩ := h n (hl.powered ▸ hup)
  exact ⟨g, hf.trans hg, hs.of_sameLife hl hnow⟩

theorem shadowed_step (h : Shadowed s shadows) (hheld : AllHeld s) (hcount : LeasesCount s)
    (hsound : Sound s) (hc : Change s a s') :
    Shadowed s' fun n => follow s a s' n (shadows n) := by
  intro n hup
  show ∃ g, follow s a s' n (shadows n) = some g ∧ ShadowOf s' n g
  cases hc with
  | linked m up =>
    refine h.keep hup (SameLife.node_mut ⟨rfl, rfl, rfl, rfl, rfl⟩ n) (by simp) ?_
    cases m <;> cases up <;> cases n <;> rfl
  | copied m caught_up =>
    refine h.keep hup (SameLife.node_mut ⟨rfl, rfl, rfl, rfl, rfl⟩ n) (by simp) ?_
    cases m <;> cases caught_up <;> cases n <;> rfl
  | witnessed up =>
    refine h.keep hup (by cases n <;> exact .refl _) rfl ?_
    cases up <;> cases n <;> rfl
  | crashed m | fenced m =>
    by_cases hn : n = m
    · subst hn
      rw [ModelState.node_mut_self] at hup
      cases hup
    · exact h.keep hup (.node_mut_of_ne hn) (by simp) (follow_of_ne hn (by simp))
  | restarted m i =>
    by_cases hn : n = m
    · subst hn
      refine ⟨_, follow_restart, shadowOf_fresh ?_⟩
      rw [ModelState.node_mut_self]
    · exact h.keep hup (.node_mut_of_ne hn) (by simp) (follow_of_ne hn (by simp))
  | passed t ht =>
    have hle : s.now_tick ≤ t := by
      rw [UInt8.le_iff_toNat_le]
      omega
    obtain ⟨g, hg, hs⟩ := h n (by cases n <;> exact hup)
    refine ⟨_, ?_, hs.ticked hle⟩
    rw [follow_time, hg]
    rfl
  | promoted c e x hp =>
    by_cases hn : n = c
    · subst hn
      obtain ⟨g, hg, hs⟩ := h n hp.powered
      refine ⟨_, ?_, hs.promoted hp⟩
      rw [hg, follow_promote (capability_of_promotable hsound hp),
        (hs.completes hheld hcount hsound hp).handshake_eq]
    · refine h.keep hup ?_ promoted_now_tick (follow_of_ne hn (by simp))
      rw [promoted_of_ne hn]
      exact .refl _

theorem shadowed_run {actions : List Action} {p : ModelState × Shadows}
    (hrun : ShadowRun actions p) : Shadowed p.1 p.2 := by
  refine hrun.history (fun _ p => Shadowed p.1 p.2) shadowed_booted ?_
  rintro actions ⟨s, shadows⟩ a ⟨s', shadows'⟩ hpast h ⟨happly, hfollow⟩
  obtain rfl : shadows' = fun n => follow s a s' n (shadows n) := hfollow
  have hmodel : ModelRun actions s := hpast.alone
  exact shadowed_step h (allHeld_run hmodel) (leasesCount_run hmodel) (sound_run hmodel)
    (apply.spec happly)

/-- A node that is on is effective exactly if its gate allows it an effect. -/
theorem Shadowed.effective_iff (h : Shadowed s shadows) (hheld : AllHeld s)
    (hcount : LeasesCount s) :
    Effective s n ↔ (s.node n).powered = true ∧ (s.node n).fenced = false ∧
      ∃ g, shadows n = some g ∧
        ∃ e, (g.check_effect (tick_ms s.now_tick) (model_node_id n) e).1 = .ok () := by
  constructor
  · intro he
    obtain ⟨hup, hf, _⟩ := gate_is_effective_iff.mp he
    obtain ⟨g, hg, hs⟩ := h n hup
    exact ⟨hup, hf, g, hg, hs.allows_iff.mpr ((hs.effective_iff hheld hcount).mp he)⟩
  · rintro ⟨hup, _, g, hg, hallows⟩
    obtain ⟨g', hg', hs⟩ := h n hup
    obtain rfl : g' = g := Option.some_inj.mp (hg'.symm.trans hg)
    exact (hs.effective_iff hheld hcount).mpr (hs.allows_iff.mp hallows)

/-- The actions of a run tell where it leads. -/
theorem modelRun_unique {actions : List Action} (h : ModelRun actions s)
    (h' : ModelRun actions s') : s = s' := by
  refine h.unique ?_ h'
  intro s a s₁ s₂ h₁ h₂
  exact Outcome.Applied.inj (h₁.symm.trans h₂)

/-! ## The law -/

/-- Every run of the model goes through with a long-lived gate for each node that
is on. The gate of the candidate accepts every promotion that is applied, in all
three calls, and a node is effective exactly if it is on, not fenced, and its gate
allows it an effect under some epoch. -/
theorem model_is_faithful_to_long_lived_gates {actions : List Action}
    (hrun : ModelRun actions s) :
    (∃ shadows, ShadowRun actions (s, shadows)) ∧
    ∀ p, ShadowRun actions p → p.1 = s ∧
      (∀ c s', apply s (.promote c) = .Applied s' → ∃ g v g', p.2 c = some g ∧
        promotion_capability s c = some v ∧ Completes g (tick_ms s.now_tick) v g') ∧
      ∀ n, Effective s n ↔ (s.node n).powered = true ∧ (s.node n).fenced = false ∧
        ∃ g, p.2 n = some g ∧
          ∃ e, (g.check_effect (tick_ms s.now_tick) (model_node_id n) e).1 = .ok () := by
  have hheld := allHeld_run hrun
  have hcount := leasesCount_run hrun
  have hsound := sound_run hrun
  refine ⟨hrun.accompanied _ booted, ?_⟩
  rintro ⟨s₁, shadows⟩ hshadow
  obtain rfl : s₁ = s := modelRun_unique hshadow.alone hrun
  have hshadowed := shadowed_run hshadow
  refine ⟨rfl, ?_, ?_⟩
  · intro c s' happly
    obtain ⟨e, x, hp, _⟩ := of_promote (apply.spec happly)
    obtain ⟨g, hg, hs⟩ := hshadowed c hp.powered
    exact ⟨g, _, _, hg, capability_of_promotable hsound hp, hs.completes hheld hcount hsound hp⟩
  · intro n
    exact hshadowed.effective_iff hheld hcount

/-- After its first promotion node A is effective, and its gate allows it an effect. -/
theorem model_is_faithful_to_long_lived_gates_after_promotion :
    ∃ shadows, ShadowRun [.PromoteA] (promoted .default .A 1 3, shadows) ∧
      ∃ g, shadows .A = some g ∧ ∃ e, (g.check_effect 0 (model_node_id .A) e).1 = .ok () := by
  have hrun : ModelRun [.PromoteA] (promoted .default .A 1 3) := Run.snoc .nil (by decide)
  obtain ⟨⟨shadows, hshadow⟩, hall⟩ := model_is_faithful_to_long_lived_gates hrun
  obtain ⟨_, _, heffective⟩ := hall _ hshadow
  obtain ⟨_, _, hallows⟩ := (heffective .A).mp rfl
  exact ⟨shadows, hshadow, hallows⟩

end quorumarc_sim

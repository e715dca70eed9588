-- What the compact model can still bring about. From every reachable state, and for
-- each node, the time, the fences, the lives that are left and the last lease decide
-- whether the node can ever write again, and if it can, it can soon.
import QuorumArc.SimHistory

open quorumarc_core words runs

namespace quorumarc_sim

/-! ## What can still happen -/

/-- The node is not fenced, and it is on or has a life left. -/
structure NodeState.Startable (m : NodeState) : Prop where
  not_fenced : m.fenced = false
  on_or_life_left : m.powered = true ∨ ∃ i, u64_checked_add m.incarnation 1 = some i

/-- The node writes, or it can run and a lease still fits into the time. The last
holder has to give way to another node first, which waits for the end of its lease. -/
def CanWrite (s : ModelState) (n : Node) : Prop :=
  Effective s n ∨ s.now_tick.toNat ≤ 252 ∧ (s.node n).Startable ∧
    (s.metadata_holder = some n → (∃ m, m ≠ n ∧ (s.node m).Startable) ∧
      ∃ x, s.metadata_lease_expires_at_tick = some x ∧ x.toNat + 1 ≤ 252)

/-- At most `k` applied actions lead to a state with `P`. -/
abbrev ModelSoon (k : Nat) (s : ModelState) (P : ModelState → Prop) : Prop :=
  Soon (fun s a s' => apply s a = .Applied s') k s P

variable {s s' t : ModelState} {a : Action} {n m c : Node} {actions : List Action}

/-! ## What is lost stays lost -/

/-- What can run after a step could run before it. -/
theorem startable_of_step (hc : Change s a s') (h : (s'.node n).Startable) :
    (s.node n).Startable := by
  have hkeep : ∀ {m : Node} {f : NodeState → NodeState},
      ((f (s.node m)).Startable → (s.node m).Startable) →
      ((s.node_mut m f).node n).Startable → (s.node n).Startable := by
    intro m f hm
    exact ModelState.node_mut_forall (P := fun k x => x.Startable → (s.node k).Startable) s m f hm
      (fun _ _ h => h) n
  cases hc with
  | linked | copied => exact hkeep (fun h => ⟨h.not_fenced, h.on_or_life_left⟩) h
  | crashed m hup => exact hkeep (fun h => ⟨h.not_fenced, Or.inl hup⟩) h
  | restarted m i _ hnf hi =>
    exact hkeep (fun _ => ⟨hnf, Or.inr ⟨i, u64_checked_add_eq_some.mpr hi⟩⟩) h
  | fenced m =>
    refine hkeep ?_ h
    rintro ⟨hnf, _⟩
    cases hnf
  | witnessed | passed => cases n <;> exact h
  | promoted c e x hp =>
    by_cases hn : n = c
    · subst hn
      exact ⟨hp.not_fenced, Or.inl hp.powered⟩
    · rw [promoted_of_ne hn] at h
      exact h

/-- A step that is no promotion leaves the metadata alone. -/
theorem metadata_step (hc : Change s a s') (hno : ∀ c, a ≠ .promote c) :
    s'.metadata_holder = s.metadata_holder ∧
      s'.metadata_lease_expires_at_tick = s.metadata_lease_expires_at_tick := by
  cases hc with
  | linked | copied | crashed | restarted | fenced => simp
  | witnessed | passed => exact ⟨rfl, rfl⟩
  | promoted c => exact absurd rfl (hno c)

/-- What the promotion of any node says of a node that can still write after it. -/
theorem canWrite_of_promoted {e : UInt64} {x : UInt8} (hp : Promotable s c e x)
    (hno : ¬ Effective s n) (h : CanWrite (promoted s c e x) n) : CanWrite s n := by
  have hchange : Change s (.promote c) (promoted s c e x) := .promoted c e x hp
  have hin := (mayPromote_of_promotable hp).in_time
  have hc : (s.node c).Startable := ⟨hp.not_fenced, Or.inl hp.powered⟩
  by_cases hn : n = c
  · subst hn
    exact Or.inr ⟨hin, hc, fun hh => absurd hh hp.not_holder⟩
  · -- The candidate takes over, and from the last holder `n`, if it is not fenced, in time.
    have hlater : ¬ Effective (promoted s c e x) n := by
      intro heff
      exact hn (Action.promote_injective (effective_step hchange hno heff)).symm
    obtain ⟨_, hstart, _⟩ := h.resolve_left hlater
    have hstart := startable_of_step hchange hstart
    refine Or.inr ⟨hin, hstart, ?_⟩
    intro hh
    refine ⟨⟨c, fun hcn => hn hcn.symm, hc⟩, ?_⟩
    rcases hp.excluded n hh with hf | ⟨y, hy, hle⟩
    · rw [hstart.not_fenced] at hf
      cases hf
    · exact ⟨y, hy, le_trans hle hin⟩

/-- A node that can write after a step could write before it. -/
theorem canWrite_of_step (hc : Change s a s') (h : CanWrite s' n) : CanWrite s n := by
  by_cases heff : Effective s n
  · exact Or.inl heff
  by_cases hpro : ∃ c, a = .promote c
  · obtain ⟨c, rfl⟩ := hpro
    obtain ⟨e, x, hp, rfl⟩ := of_promote hc
    exact canWrite_of_promoted hp heff h
  · have hno : ∀ c, a ≠ .promote c := fun c hac => hpro ⟨c, hac⟩
    have hlater : ¬ Effective s' n := fun heff' => hno n (effective_step hc heff heff')
    obtain ⟨hin, hstart, hholder⟩ := h.resolve_left hlater
    obtain ⟨hmh, hml⟩ := metadata_step hc hno
    have hnow := now_le_step hc
    rw [UInt8.le_iff_toNat_le] at hnow
    refine Or.inr ⟨le_trans hnow hin, startable_of_step hc hstart, ?_⟩
    intro hh
    rw [hmh, hml] at hholder
    obtain ⟨⟨m, hm, hsm⟩, hx⟩ := hholder hh
    exact ⟨⟨m, hm, startable_of_step hc hsm⟩, hx⟩

theorem canWrite_of_path (h : ModelPath s actions t) (ht : CanWrite t n) : CanWrite s n := by
  have hback := h.invariant (fun t => CanWrite t n → CanWrite s n) id
    fun t a t' ih happly h' => ih (canWrite_of_step (apply.spec happly) h')
  exact hback ht

/-! ## Bringing a candidate up -/

/-- Of the two states only the candidate is different. -/
structure Aside (c : Node) (s t : ModelState) : Prop where
  now_tick : t.now_tick = s.now_tick
  holder : t.metadata_holder = s.metadata_holder
  lease : t.metadata_lease_expires_at_tick = s.metadata_lease_expires_at_tick
  witness_up : t.witness_up = s.witness_up
  others : ∀ m, m ≠ c → t.node m = s.node m

theorem Aside.refl : Aside c s s := ⟨rfl, rfl, rfl, rfl, fun _ _ => rfl⟩

theorem Aside.trans {u : ModelState} (h : Aside c s t) (h' : Aside c t u) : Aside c s u :=
  ⟨h'.now_tick.trans h.now_tick, h'.holder.trans h.holder, h'.lease.trans h.lease,
    h'.witness_up.trans h.witness_up, fun m hm => (h'.others m hm).trans (h.others m hm)⟩

theorem Aside.node_mut {f : NodeState → NodeState} : Aside c s (s.node_mut c f) := by
  refine ⟨by simp, by simp, by simp, ?_, ?_⟩
  · cases c <;> rfl
  · intro m hm
    exact ModelState.node_mut_of_ne s f hm

structure NodeState.Linked (m : NodeState) : Prop where
  powered : m.powered = true
  connected : m.connected_to_witness = true

theorem apply_heal (h : (s.node c).connected_to_witness = false) : apply s (.link c true) =
    .Applied (s.node_mut c fun m => { m with connected_to_witness := true }) := by
  cases c <;> simp [apply, Action.link, Action.candidate, set_connection, set_bool, h]

theorem apply_catchUp (h : (s.node c).caught_up = false) : apply s (.copy c true) =
    .Applied (s.node_mut c fun m => { m with caught_up := true }) := by
  cases c <;> simp [apply, Action.copy, Action.candidate, set_caught_up, set_bool, h]

theorem apply_startWitness (h : s.witness_up = false) :
    apply s (.witness true) = .Applied { s with witness_up := true } := by
  simp [apply, Action.witness, Action.candidate, set_witness, set_bool, h]

theorem apply_fence (h : (s.node c).fenced = false) : apply s (.fence c) =
    .Applied (s.node_mut c fun m => { m with fenced := true, powered := false, gate := none }) := by
  cases c <;> simp [apply, Action.fence, Action.candidate, fence, h]

theorem apply_restart {i : UInt64} (hoff : (s.node c).powered = false)
    (hnf : (s.node c).fenced = false) (hi : u64_checked_add (s.node c).incarnation 1 = some i) :
    apply s (.restart c) = .Applied (s.node_mut c fun m =>
      { m with powered := true, connected_to_witness := true, incarnation := i, gate := none }) := by
  cases c <;> simp [apply, Action.restart, Action.candidate, restart, hoff, hnf, hi]

theorem apply_advance {t : UInt8} (h : s.now_tick.toNat + 1 = t.toNat) :
    apply s .AdvanceTime = .Applied { s with now_tick := t } := by
  have ht : u8_checked_add s.now_tick 1 = some t := u8_checked_add_eq_some.mpr h
  simp [apply, Action.candidate, ht]

theorem linked_soon (h : (s.node c).Startable) :
    ModelSoon 1 s fun t => Aside c s t ∧ (t.node c).Linked := by
  obtain ⟨hnf, hon⟩ := h
  by_cases hup : (s.node c).powered = true
  · by_cases hlink : (s.node c).connected_to_witness = true
    · exact (Soon.now ⟨.refl, hup, hlink⟩).mono (Nat.zero_le 1)
    · refine .once (apply_heal (by simpa using hlink)) ⟨.node_mut, ?_⟩
      rw [ModelState.node_mut_self]
      exact ⟨hup, rfl⟩
  · obtain ⟨i, hi⟩ := hon.resolve_left hup
    refine .once (apply_restart (by simpa using hup) hnf hi) ⟨.node_mut, ?_⟩
    rw [ModelState.node_mut_self]
    exact ⟨rfl, rfl⟩

theorem candidate_soon (h : (s.node c).Startable) : ModelSoon 2 s fun t =>
    Aside c s t ∧ (t.node c).Linked ∧ (t.node c).caught_up = true := by
  refine (linked_soon h).bind ?_
  rintro _ t _ ⟨haside, hlinked⟩
  by_cases hcopy : (t.node c).caught_up = true
  · exact (Soon.now ⟨haside, hlinked, hcopy⟩).mono (Nat.zero_le 1)
  · refine .once (apply_catchUp (by simpa using hcopy)) ⟨haside.trans .node_mut, ?_, ?_⟩
    · rw [ModelState.node_mut_self]
      exact ⟨hlinked.powered, hlinked.connected⟩
    · rw [ModelState.node_mut_self]

theorem witness_soon : ModelSoon 1 s ({ s with witness_up := true } = ·) := by
  by_cases hup : s.witness_up = true
  · refine (Soon.now ?_).mono (Nat.zero_le 1)
    rw [← hup]
  · exact .once (apply_startWitness (by simpa using hup)) rfl

/-! ## Bringing a candidate to write -/

theorem effective_promoted {e : UInt64} {x : UInt8} (hp : Promotable s c e x) :
    Effective (promoted s c e x) c := by
  refine gate_is_effective_iff.mpr ?_
  rw [promoted_self, promoted_now_tick]
  have hepoch := hp.next_epoch
  have hlease := hp.lease
  refine ⟨hp.powered, hp.not_fenced, _, rfl, ?_, rfl, ?_⟩
  · rw [UInt64.lt_iff_toNat_lt]
    show 0 < e.toNat
    omega
  · rw [UInt8.lt_iff_toNat_lt]
    show s.now_tick.toNat < x.toNat
    omega

theorem sound_path (h : ModelPath s actions t) (hs : Sound s) : Sound t :=
  h.invariant Sound hs fun _ _ _ hs happly => sound_step hs (apply.spec happly)

theorem allHeld_path (h : ModelPath s actions t) (hheld : AllHeld s) : AllHeld t :=
  h.invariant AllHeld hheld fun _ _ _ hheld happly => allHeld_step hheld (apply.spec happly)

/-- The metadata are free: there is no holder, or it is fenced, or its lease and the
guard are over. -/
def Free (s : ModelState) : Prop :=
  s.metadata_holder = none ∨ (∃ h, s.metadata_holder = some h ∧ (s.node h).fenced = true) ∨
    ∃ x, s.metadata_lease_expires_at_tick = some x ∧ x.toNat + 1 ≤ s.now_tick.toNat

theorem Free.aside (h : Free s) (hne : s.metadata_holder ≠ some c) (ha : Aside c s t) :
    Free t := by
  unfold Free
  rw [ha.holder, ha.lease, ha.now_tick]
  rcases h with hnone | ⟨h, hh, hf⟩ | hx
  · exact Or.inl hnone
  · have hhc : h ≠ c := by
      rintro rfl
      exact hne hh
    refine Or.inr (Or.inl ⟨h, hh, ?_⟩)
    rw [ha.others h hhc]
    exact hf
  · exact Or.inr (Or.inr hx)

/-- The candidate writes, at the same time, and the other node is as it was. -/
structure TookOver (c : Node) (s t : ModelState) : Prop where
  effective : Effective t c
  holder : t.metadata_holder = some c
  now_tick : t.now_tick = s.now_tick
  witness_up : t.witness_up = true
  others : ∀ m, m ≠ c → t.node m = s.node m

theorem takes_over_soon (hs : Sound s) (hheld : AllHeld s) (hw : s.witness_up = true)
    (hin : s.now_tick.toNat ≤ 252) (hc : (s.node c).Startable)
    (hne : s.metadata_holder ≠ some c) (hfree : Free s) : ModelSoon 3 s (TookOver c s) := by
  refine (candidate_soon hc).bind ?_
  rintro es t hpath ⟨haside, hlinked, hcopy⟩
  have hin' : t.now_tick.toNat ≤ 252 := by
    rw [haside.now_tick]
    exact hin
  have hne' : t.metadata_holder ≠ some c := by
    rw [haside.holder]
    exact hne
  have hmay : MayPromote t c := ⟨hlinked.powered, hlinked.connected, hcopy,
    haside.witness_up.trans hw, hin', hne', hfree.aside hne haside⟩
  obtain ⟨e, x, happly⟩ := promoted_of_mayPromote (sound_path hpath hs) (allHeld_path hpath hheld)
    hmay
  obtain ⟨e', x', hp, heq⟩ := promote.spec happly
  have happly' : apply t (.promote c) = .Applied (promoted t c e' x') := by
    rw [← heq, ← happly]
    cases c <;> rfl
  refine .once happly' ⟨effective_promoted hp, by simp, ?_, ?_, ?_⟩
  · rw [promoted_now_tick, haside.now_tick]
  · have hkept : (promoted t c e' x').witness_up = t.witness_up := by cases c <;> rfl
    rw [hkept]
    exact hp.witness_up
  · intro m hm
    rw [promoted_of_ne hm]
    exact haside.others m hm

/-- A holder in the way is fenced first. -/
theorem free_soon (hne : s.metadata_holder ≠ some c) :
    ModelSoon 1 s fun t => Free t ∧ t.metadata_holder = s.metadata_holder ∧
      t.now_tick = s.now_tick ∧ t.witness_up = s.witness_up ∧ t.node c = s.node c := by
  rcases hh : s.metadata_holder with _ | h
  · exact (Soon.now ⟨Or.inl hh, hh, rfl, rfl, rfl⟩).mono (Nat.zero_le 1)
  · have hch : c ≠ h := by
      rintro rfl
      exact hne hh
    by_cases hf : (s.node h).fenced = true
    · exact (Soon.now ⟨Or.inr (Or.inl ⟨h, hh, hf⟩), hh, rfl, rfl, rfl⟩).mono (Nat.zero_le 1)
    · refine .once (apply_fence (by simpa using hf)) ⟨?_, by simpa using hh, by simp, ?_, ?_⟩
      · refine Or.inr (Or.inl ⟨h, by simpa using hh, ?_⟩)
        rw [ModelState.node_mut_self]
      · cases h <;> rfl
      · exact ModelState.node_mut_of_ne _ _ hch

/-- A node that is not the holder can write within four actions, by a fence if need be. -/
theorem writes_soon (hs : Sound s) (hheld : AllHeld s) (hw : s.witness_up = true)
    (hin : s.now_tick.toNat ≤ 252) (hc : (s.node c).Startable)
    (hne : s.metadata_holder ≠ some c) : ModelSoon 4 s (Effective · c) := by
  refine (free_soon hne).bind ?_
  rintro es t hpath ⟨hfree, hholder, hnow, hwitness, hnode⟩
  have hsoon := takes_over_soon (c := c) (sound_path hpath hs) (allHeld_path hpath hheld)
    (hwitness.trans hw) (by rw [hnow]; exact hin) (by rw [hnode]; exact hc)
    (by rw [hholder]; exact hne) hfree
  obtain ⟨es', u, hlen, hpath', htook⟩ := hsoon
  exact ⟨es', u, hlen, hpath', htook.effective⟩

/-- The time passes, up to any tick that is ahead. -/
theorem passes_soon {k : Nat} {x : UInt8} (hk : s.now_tick.toNat + k = x.toNat) :
    ModelSoon k s ({ s with now_tick := x } = ·) := by
  induction k generalizing x with
  | zero =>
    have hx : s.now_tick = x := UInt8.toNat_inj.mp hk
    refine .now ?_
    rw [← hx]
  | succ k ih =>
    have hx := x.toNat_lt
    have hlt : s.now_tick.toNat + k < UInt8.size := by
      have hsize : UInt8.size = 256 := rfl
      omega
    have hbefore : (UInt8.ofNat (s.now_tick.toNat + k)).toNat = s.now_tick.toNat + k :=
      UInt8.toNat_ofNat_of_lt' hlt
    rw [Nat.add_comm]
    refine (ih hbefore.symm).bind ?_
    rintro _ _ _ rfl
    refine .once (apply_advance (t := x) ?_) rfl
    show (UInt8.ofNat (s.now_tick.toNat + k)).toNat + 1 = x.toNat
    omega

/-- The last holder waits for the end of its lease, lets the other node take over, and
takes over from it. -/
theorem holder_writes_soon {x : UInt8} (hs : Sound s) (hheld : AllHeld s)
    (hin : s.now_tick.toNat ≤ 252) (hn : (s.node n).Startable) (hm : (s.node m).Startable)
    (hmn : m ≠ n) (hh : s.metadata_holder = some n)
    (hx : s.metadata_lease_expires_at_tick = some x) (hle : x.toNat + 1 ≤ 252) :
    ModelSoon 12 s (Effective · n) := by
  obtain ⟨y, hy, hlease, _⟩ := hs.leased n hh
  obtain rfl : x = y := Option.some_inj.mp (hx.symm.trans hy)
  -- Four ticks are enough.
  obtain ⟨k, z, hk, hz, hxz, hz252⟩ : ∃ (k : Nat) (z : UInt8), k ≤ 4 ∧
      s.now_tick.toNat + k = z.toNat ∧ x.toNat + 1 ≤ z.toNat ∧ z.toNat ≤ 252 := by
    have hlt : s.now_tick.toNat + (x.toNat + 1 - s.now_tick.toNat) < UInt8.size := by
      have hsize : UInt8.size = 256 := rfl
      omega
    have hz := UInt8.toNat_ofNat_of_lt' hlt
    exact ⟨_, _, by omega, hz.symm, by omega, by omega⟩
  refine Soon.bind (l := 8) ((passes_soon hz).mono hk) ?_
  rintro _ _ hpath rfl
  refine Soon.bind (l := 7) witness_soon ?_
  rintro _ _ hpath' rfl
  have hpath := hpath.append hpath'
  have hnodes : ∀ k, ModelState.node { s with now_tick := z, witness_up := true } k = s.node k := by
    intro k
    cases k <;> rfl
  have hne : s.metadata_holder ≠ some m := by
    rw [hh]
    exact fun heq => hmn (Option.some_inj.mp heq).symm
  refine Soon.bind (l := 4) (takes_over_soon (c := m) (sound_path hpath hs)
    (allHeld_path hpath hheld) rfl hz252 (by rw [hnodes]; exact hm) hne
    (Or.inr (Or.inr ⟨x, hx, hxz⟩))) ?_
  intro _ t hpath' htook
  have hpath := hpath.append hpath'
  refine writes_soon (sound_path hpath hs) (allHeld_path hpath hheld) htook.witness_up ?_ ?_ ?_
  · rw [htook.now_tick]
    exact hz252
  · rw [htook.others n hmn.symm, hnodes]
    exact hn
  · rw [htook.holder]
    exact fun heq => hmn (Option.some_inj.mp heq)

theorem soon_of_canWrite (hs : Sound s) (hheld : AllHeld s) (h : CanWrite s n) :
    ModelSoon 12 s (Effective · n) := by
  rcases h with heff | ⟨hin, hn, hholder⟩
  · exact (Soon.now (P := (Effective · n)) heff).mono (Nat.zero_le 12)
  · by_cases hh : s.metadata_holder = some n
    · obtain ⟨⟨m, hmn, hm⟩, x, hx, hle⟩ := hholder hh
      exact holder_writes_soon hs hheld hin hn hm hmn hh hx hle
    · refine Soon.mono (k := 5) ?_ (by decide)
      refine witness_soon.bind ?_
      rintro _ _ hpath rfl
      refine writes_soon (sound_path hpath hs) (allHeld_path hpath hheld) rfl hin ?_ hh
      cases n <;> exact hn

/-! ## The law -/

/-- From a reachable state a node can come to write again exactly if it writes, or can
run while a lease fits into the time and, if it was the last holder, the other node
can run too and the last lease ends in time. What can happen at all can happen
within twelve actions. -/
theorem writing_is_possible_exactly_when (hrun : ModelRun actions s) (n : Node) :
    ((∃ future t, ModelPath s future t ∧ Effective t n) ↔ CanWrite s n) ∧
      (CanWrite s n → ModelSoon 12 s (Effective · n)) := by
  have hsoon := soon_of_canWrite (n := n) (sound_run hrun) (allHeld_run hrun)
  refine ⟨⟨?_, ?_⟩, hsoon⟩
  · rintro ⟨future, t, hpath, heff⟩
    exact canWrite_of_path hpath (Or.inl heff)
  · intro hcan
    obtain ⟨future, t, _, hpath, heff⟩ := hsoon hcan
    exact ⟨future, t, hpath, heff⟩

/-- Node A is promoted and crashes. It can write again, unless node B is fenced. -/
theorem writing_is_possible_after_a_crash :
    ∃ s t, ModelRun [.PromoteA, .CrashA] s ∧ ModelSoon 12 s (Effective · .A) ∧
      ModelPath s [.FenceB] t ∧ ¬ ∃ future u, ModelPath t future u ∧ Effective u .A := by
  let granted : ModelState := promoted .default .A 1 3
  let crashed : ModelState := (crash granted .A).2
  let fenced : ModelState := (fence crashed .B).2
  have hgranted : ModelRun [.PromoteA] granted := Run.nil.snoc (by decide)
  have hrun : ModelRun [.PromoteA, .CrashA] crashed := hgranted.snoc (by decide)
  have hpath : ModelPath crashed [.FenceB] fenced := Run.nil.snoc (by decide)
  refine ⟨crashed, fenced, hrun, ?_, hpath, ?_⟩
  · refine (writing_is_possible_exactly_when hrun .A).2 (Or.inr ⟨by decide, ⟨rfl, ?_⟩, ?_⟩)
    · exact Or.inr ⟨2, rfl⟩
    · intro _
      exact ⟨⟨.B, by decide, rfl, Or.inl rfl⟩, 3, rfl, by decide⟩
  · rw [(writing_is_possible_exactly_when (hrun.append hpath) .A).1]
    rintro (heff | ⟨_, _, hholder⟩)
    · cases heff
    · obtain ⟨⟨m, hm, hnf, _⟩, _⟩ := hholder rfl
      cases m with
      | A => exact hm rfl
      | B => cases hnf

end quorumarc_sim

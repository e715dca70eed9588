-- What an applied action of the compact model changes. The actions are families
-- over the two nodes; `Change` says once what each can do, and what an applied
-- promotion says about the state it was applied to.
import QuorumArc.Acceptance
import QuorumArc.Sim

open quorumarc_core words

namespace quorumarc_sim

/-! ## The families of actions -/

namespace Action

def link : Node → Bool → Action
  | .A, false => .PartitionA
  | .A, true => .HealA
  | .B, false => .PartitionB
  | .B, true => .HealB

def copy : Node → Bool → Action
  | .A, false => .LagA
  | .A, true => .CatchUpA
  | .B, false => .LagB
  | .B, true => .CatchUpB

def witness : Bool → Action
  | false => .StopWitness
  | true => .StartWitness

def crash : Node → Action
  | .A => .CrashA
  | .B => .CrashB

def restart : Node → Action
  | .A => .RestartA
  | .B => .RestartB

def fence : Node → Action
  | .A => .FenceA
  | .B => .FenceB

def promote : Node → Action
  | .A => .PromoteA
  | .B => .PromoteB

end Action

/-! ## Reading a changed state -/

namespace ModelState

variable (s : ModelState) (n m : Node) (f : NodeState → NodeState)

@[simp] theorem node_mut_now_tick : (s.node_mut n f).now_tick = s.now_tick := by
  cases n <;> rfl

@[simp] theorem node_mut_epoch : (s.node_mut n f).epoch = s.epoch := by
  cases n <;> rfl

@[simp] theorem node_mut_metadata_holder :
    (s.node_mut n f).metadata_holder = s.metadata_holder := by
  cases n <;> rfl

@[simp] theorem node_mut_metadata_lease_expires_at_tick :
    (s.node_mut n f).metadata_lease_expires_at_tick = s.metadata_lease_expires_at_tick := by
  cases n <;> rfl

@[simp] theorem node_mut_self : (s.node_mut n f).node n = f (s.node n) := by
  cases n <;> rfl

theorem node_mut_of_ne {n m : Node} (h : m ≠ n) : (s.node_mut n f).node m = s.node m := by
  cases n <;> cases m <;> first | rfl | exact absurd rfl h

/-- What holds of the changed node, and of the other one as it was, holds of both. -/
theorem node_mut_forall {P : Node → NodeState → Prop} (hself : P n (f (s.node n)))
    (hother : ∀ m, m ≠ n → P m (s.node m)) : ∀ m, P m ((s.node_mut n f).node m) := by
  intro m
  by_cases hm : m = n
  · subst hm
    rw [node_mut_self]
    exact hself
  · rw [node_mut_of_ne s f hm]
    exact hother m hm

end ModelState

section promoted

variable {s : ModelState} {c m : Node} {e : UInt64} {x : UInt8}

@[simp] theorem promoted_now_tick : (promoted s c e x).now_tick = s.now_tick := by
  simp [promoted]

@[simp] theorem promoted_epoch : (promoted s c e x).epoch = e := by
  simp [promoted]

@[simp] theorem promoted_metadata_holder : (promoted s c e x).metadata_holder = some c := by
  simp [promoted]

@[simp] theorem promoted_metadata_lease_expires_at_tick :
    (promoted s c e x).metadata_lease_expires_at_tick = some x := by
  simp [promoted]

theorem promoted_self : (promoted s c e x).node c =
    { s.node c with accepted_epoch := e, gate := some ⟨e, (s.node c).incarnation, x⟩ } := by
  unfold promoted
  rw [ModelState.node_mut_self]
  cases c <;> rfl

/-- A promotion leaves the other node as it was. -/
theorem promoted_of_ne (h : m ≠ c) : (promoted s c e x).node m = s.node m := by
  unfold promoted
  rw [ModelState.node_mut_of_ne _ _ h]
  cases m <;> rfl

end promoted

/-! ## The changes -/

/-- The old holder is fenced, or its lease and the guard of one tick have run out. -/
def HolderExcluded (s : ModelState) : Prop :=
  ∀ h, s.metadata_holder = some h → (s.node h).fenced = true ∨
    ∃ x, s.metadata_lease_expires_at_tick = some x ∧ x.toNat + 1 ≤ s.now_tick.toNat

/-- What holds of the state and the candidate of an applied promotion. -/
structure Promotable (s : ModelState) (c : Node) (new_epoch : UInt64) (expires_at_tick : UInt8) :
    Prop where
  powered : (s.node c).powered = true
  not_fenced : (s.node c).fenced = false
  connected : (s.node c).connected_to_witness = true
  witness_up : s.witness_up = true
  caught_up : (s.node c).caught_up = true
  not_effective : (s.node c).gate_is_effective s.now_tick = false
  next_epoch : s.epoch.toNat + 1 = new_epoch.toNat
  lease : s.now_tick.toNat + 3 = expires_at_tick.toNat
  not_holder : s.metadata_holder ≠ some c
  excluded : HolderExcluded s

/-- Everything that an applied action can do to a state. -/
inductive Change (s : ModelState) : Action → ModelState → Prop
  | linked (n : Node) (up : Bool) : Change s (.link n up)
      (s.node_mut n fun m => { m with connected_to_witness := up })
  | copied (n : Node) (caught_up : Bool) : Change s (.copy n caught_up)
      (s.node_mut n fun m => { m with caught_up := caught_up })
  | witnessed (up : Bool) : Change s (.witness up) { s with witness_up := up }
  | crashed (n : Node) : (s.node n).powered = true → Change s (.crash n)
      (s.node_mut n fun m => { m with powered := false, gate := none })
  | restarted (n : Node) (incarnation : UInt64) : (s.node n).powered = false →
      (s.node n).fenced = false → (s.node n).incarnation.toNat + 1 = incarnation.toNat →
      Change s (.restart n) (s.node_mut n fun m =>
        { m with powered := true, connected_to_witness := true, incarnation, gate := none })
  | fenced (n : Node) : Change s (.fence n)
      (s.node_mut n fun m => { m with fenced := true, powered := false, gate := none })
  | passed (t : UInt8) : s.now_tick.toNat + 1 = t.toNat →
      Change s .AdvanceTime { s with now_tick := t }
  | promoted (c : Node) (new_epoch : UInt64) (expires_at_tick : UInt8) :
      Promotable s c new_epoch expires_at_tick →
      Change s (.promote c) (promoted s c new_epoch expires_at_tick)

/-! ## The specs of the Rust functions -/

theorem ms_tick (t : UInt8) : ms (tick_ms t) = t.toNat * 100 := by
  have ht := t.toNat_lt
  have h100 : (100 : UInt64).toNat = 100 := rfl
  unfold ms tick_ms
  rw [UInt64.toNat_mul, UInt8.toNat_toUInt64, h100, Nat.mod_eq_of_lt (by omega)]
  omega

theorem policy_result_guard {policy : SafetyPolicy} (h : policy_result = .ok policy) :
    policy.lease_guard_ms = 100 := by
  cases h
  rfl

/-- An accepted proof of the model excludes the old holder. -/
theorem excluded_of_accepted {s : ModelState} {c : Node} {e : UInt64} {x : UInt8}
    {policy : SafetyPolicy} {now_ms : UInt64} {v : ValidatedPromotion}
    (hpolicy : policy_result = .ok policy) (hnow : now_ms = tick_ms s.now_tick)
    (hval : validate_promotion (promotion_proof s c e x) (current_authority s) policy now_ms =
      .ok v) : s.metadata_holder ≠ some c ∧ (s.node c).caught_up = true ∧ HolderExcluded s := by
  obtain ⟨hacc, _⟩ := accepted hval
  refine ⟨?_, ?_, ?_⟩
  · intro hh
    exact hacc.not_holder (by simp [current_authority, hh, promotion_proof])
  · have hle : (⟨10⟩ : CommitIndex) ≤ if (s.node c).caught_up then ⟨10⟩ else ⟨9⟩ := hacc.caught_up
    by_cases hc : (s.node c).caught_up = true
    · exact hc
    · rw [if_neg hc] at hle
      exact absurd hle (by decide)
  · intro h hh
    by_cases hf : (s.node h).fenced = true
    · exact Or.inl hf
    · -- The mechanism is the expiry of the gate, so the guard is over.
      have hmech : (promotion_proof s c e x).fence.mechanism = .EffectGateExpired := by
        simp [promotion_proof, fence_evidence, hh, hf]
      obtain ⟨_, hex, _⟩ := hacc.excludes
      obtain ⟨_, hexp, rfl, hguard⟩ := hex.of_expired hmech
      obtain ⟨y, hy, rfl⟩ := Option.map_eq_some_iff.mp hexp
      rw [policy_result_guard hpolicy, hnow, ms_tick, ms_tick] at hguard
      have h100 : ms 100 = 100 := rfl
      refine Or.inr ⟨y, hy, ?_⟩
      omega

theorem promote.spec {s s' : ModelState} {c : Node} (h : promote s c = .Applied s') :
    ∃ e x, Promotable s c e x ∧ s' = promoted s c e x := by
  unfold promote at h
  simp only at h
  split at h
  · cases h
  next havail =>
  split at h
  · cases h
  next hquorum =>
  split at h
  · cases h
  next heff =>
  split at h
  · cases h
  · cases h
  next e x he hx =>
  split at h
  · cases h
  next policy hpolicy =>
  split at h
  · cases h
  · cases h
  · cases h
  · cases h
  next v hval =>
  split at h
  next hgate =>
    obtain ⟨hholder, hcaught, hexcluded⟩ := excluded_of_accepted hpolicy rfl hval
    simp only [Bool.or_eq_true, Bool.not_eq_true', not_or, Bool.not_eq_false, Bool.not_eq_true]
      at havail hquorum heff
    have hepoch := u64_checked_add_eq_some.mp he
    have hlease := u8_checked_add_eq_some.mp hx
    cases h
    exact ⟨e, x, ⟨havail.1, havail.2, hquorum.1, hquorum.2, hcaught, heff, hepoch, hlease, hholder,
      hexcluded⟩, rfl⟩
  · cases h

theorem crash.spec {s : ModelState} {n : Node} (h : (crash s n).1 = true) :
    Change s (.crash n) (crash s n).2 := by
  unfold crash at h ⊢
  by_cases hp : (s.node n).powered = true
  · rw [if_neg (by simp [hp])]
    exact .crashed n hp
  · simp [hp] at h

theorem restart.spec {s : ModelState} {n : Node} (h : (restart s n).1 = true) :
    Change s (.restart n) (restart s n).2 := by
  unfold restart at h ⊢
  by_cases hup : ((s.node n).powered || (s.node n).fenced) = true
  · simp [hup] at h
  · rw [if_neg hup] at h ⊢
    rcases hi : u64_checked_add (s.node n).incarnation 1 with _ | i
    · simp [hi] at h
    · simp only [Bool.or_eq_true, not_or, Bool.not_eq_true] at hup
      exact .restarted n i hup.1 hup.2 (u64_checked_add_eq_some.mp hi)

/-- What an action leads to, or why it is refused. -/
def Outcome.result : Outcome → Except Rejection ModelState
  | .Applied next => .ok next
  | .Rejected reason => .error reason

theorem Outcome.result_eq_ok {o : Outcome} {s : ModelState} :
    o.result = .ok s ↔ o = .Applied s := by
  cases o <;> simp [Outcome.result]

/-- Only a change is applied. -/
theorem applied_if {changed : Bool} {next s' : ModelState}
    (h : (if changed then Outcome.Applied next else .Rejected .NoStateChange) = .Applied s') :
    changed = true ∧ next = s' := by
  split at h
  next hc => exact ⟨hc, Outcome.Applied.inj h⟩
  next => cases h

theorem apply.spec {s s' : ModelState} {a : Action} (h : apply s a = .Applied s') :
    Change s a s' := by
  have hpromote : ∀ c, promote s c = .Applied s' → Change s (.promote c) s' := by
    intro c hc
    obtain ⟨e, x, hp, rfl⟩ := promote.spec hc
    exact .promoted c e x hp
  cases a with
  | PromoteA => exact hpromote .A h
  | PromoteB => exact hpromote .B h
  | PartitionA => obtain ⟨_, rfl⟩ := applied_if h; exact .linked .A false
  | HealA => obtain ⟨_, rfl⟩ := applied_if h; exact .linked .A true
  | PartitionB => obtain ⟨_, rfl⟩ := applied_if h; exact .linked .B false
  | HealB => obtain ⟨_, rfl⟩ := applied_if h; exact .linked .B true
  | StopWitness => obtain ⟨_, rfl⟩ := applied_if h; exact .witnessed false
  | StartWitness => obtain ⟨_, rfl⟩ := applied_if h; exact .witnessed true
  | CrashA => obtain ⟨hc, rfl⟩ := applied_if h; exact crash.spec hc
  | RestartA => obtain ⟨hc, rfl⟩ := applied_if h; exact restart.spec hc
  | CrashB => obtain ⟨hc, rfl⟩ := applied_if h; exact crash.spec hc
  | RestartB => obtain ⟨hc, rfl⟩ := applied_if h; exact restart.spec hc
  | FenceA => obtain ⟨_, rfl⟩ := applied_if h; exact .fenced .A
  | FenceB => obtain ⟨_, rfl⟩ := applied_if h; exact .fenced .B
  | LagA => obtain ⟨_, rfl⟩ := applied_if h; exact .copied .A false
  | CatchUpA => obtain ⟨_, rfl⟩ := applied_if h; exact .copied .A true
  | LagB => obtain ⟨_, rfl⟩ := applied_if h; exact .copied .B false
  | CatchUpB => obtain ⟨_, rfl⟩ := applied_if h; exact .copied .B true
  | AdvanceTime =>
    rcases ht : u8_checked_add s.now_tick 1 with _ | t
    · simp [apply, Action.candidate, ht] at h
    · simp only [apply, Action.candidate, ht, if_true, Outcome.Applied.injEq] at h
      subst h
      exact .passed t (u8_checked_add_eq_some.mp ht)

end quorumarc_sim

-- The chain of authority. In a serial history, with its refusals and at any
-- evaluation times, every accepted promotion hands authority over from the one
-- before it, and the first one bootstraps it.
import QuorumArc.Authority

open runs

namespace quorumarc_core

/-! ## Histories with refusals -/

/-- One evaluation of a proof, with its answer. -/
structure Evaluation where
  proof : PromotionProof
  now_ms : UInt64
  answer : Except ProofError ValidatedPromotion

/-- An accepted proof replaces the authority, and a refused one changes nothing. -/
def Evaluates (policy : SafetyPolicy) (current : AuthorityState) (ev : Evaluation)
    (current' : AuthorityState) : Prop :=
  validate_promotion ev.proof current policy ev.now_ms = ev.answer ∧
    current' = match ev.answer with
      | .ok v => v.authority
      | .error _ => current

/-- The serial histories under one policy. -/
abbrev SerialRun (policy : SafetyPolicy) := Run (Evaluates policy) .initial

def Evaluation.promotion? (ev : Evaluation) : Option Promotion :=
  match ev.answer with
  | .ok capability => some ⟨ev.proof, ev.now_ms, capability⟩
  | .error _ => none

/-- The accepted promotions of a history, in order. -/
def promotions (es : List Evaluation) : List Promotion := es.filterMap Evaluation.promotion?

/-- `b` was accepted against the authority that `a` left. -/
def Succeeds (policy : SafetyPolicy) (a b : Promotion) : Prop :=
  validate_promotion b.proof a.capability.authority policy b.now_ms = .ok b.capability

/-- The authority after the accepted promotions. -/
def authorityAfter (ps : List Promotion) : AuthorityState :=
  (ps.getLast?.map fun a => a.capability.authority).getD .initial

variable {policy : SafetyPolicy} {es : List Evaluation} {current : AuthorityState}
  {a b : Promotion}

theorem promotions_refused {proof : PromotionProof} {now_ms : UInt64} {e : ProofError} :
    promotions (es ++ [⟨proof, now_ms, .error e⟩]) = promotions es := by
  simp [promotions, Evaluation.promotion?]

theorem promotions_accepted {proof : PromotionProof} {now_ms : UInt64} {v : ValidatedPromotion} :
    promotions (es ++ [⟨proof, now_ms, .ok v⟩]) = promotions es ++ [⟨proof, now_ms, v⟩] := by
  simp [promotions, Evaluation.promotion?]

/-- A history is a chain of promotions, the first of which was accepted against
the initial authority. -/
theorem serial_run (hrun : SerialRun policy es current) :
    current = authorityAfter (promotions es) ∧ (promotions es).IsChain (Succeeds policy) ∧
    ∀ p, (promotions es).head? = some p →
      validate_promotion p.proof .initial policy p.now_ms = .ok p.capability := by
  refine hrun.history (fun es current => current = authorityAfter (promotions es) ∧
    (promotions es).IsChain (Succeeds policy) ∧ ∀ p, (promotions es).head? = some p →
      validate_promotion p.proof .initial policy p.now_ms = .ok p.capability) ?_ ?_
  · exact ⟨rfl, List.IsChain.nil, by simp [promotions]⟩
  · rintro es current ⟨proof, now_ms, answer⟩ current' _ ⟨rfl, hchain, hfirst⟩ ⟨hval, rfl⟩
    rcases answer with e | v
    · rw [promotions_refused]
      exact ⟨rfl, hchain, hfirst⟩
    · rw [promotions_accepted]
      refine ⟨by simp [authorityAfter], ?_, ?_⟩
      · refine hchain.append (List.isChain_singleton _) ?_
        intro a ha b hb
        cases hb
        unfold Succeeds
        simpa [authorityAfter, Option.mem_def.mp ha] using hval
      · intro p hp
        rcases hps : promotions es with _ | ⟨q, qs⟩
        · rw [hps] at hp hval
          cases hp
          exact hval
        · rw [hps] at hp
          exact hfirst p (by rw [hps]; exact hp)

/-! ## What an acceptance says -/

/-- The time is in the lease of the capability. -/
def ValidatedPromotion.Covers (v : ValidatedPromotion) (t : UInt64) : Prop :=
  v.not_before_ms ≤ t ∧ t < v.expires_at_ms

/-- What the acceptance of `b` says of the promotion `a` whose authority it replaces. -/
structure TakesOver (policy : SafetyPolicy) (a b : Promotion) : Prop where
  newer : a.capability.epoch < b.capability.epoch
  other_holder : a.capability.candidate ≠ b.capability.candidate
  target : b.proof.fence.target = some a.capability.candidate
  bound : b.proof.fence.epoch = b.capability.epoch
  no_bootstrap : b.proof.fence.mechanism ≠ .Bootstrap
  guarded : b.proof.fence.mechanism = .EffectGateExpired →
    ms a.capability.expires_at_ms + ms policy.lease_guard_ms ≤ ms b.capability.not_before_ms
  disjoint : b.proof.fence.mechanism = .EffectGateExpired →
    ∀ t, a.capability.Covers t → ¬ b.capability.Covers t

theorem no_graceful_shutdown {proof : PromotionProof} {now_ms : UInt64} {fence_class : FenceClass}
    (h : Acceptable proof current policy now_ms fence_class) :
    proof.fence.mechanism ≠ .GracefulShutdown := by
  obtain ⟨_, hex, _⟩ := h.excludes
  intro hg
  cases hex with
  | bootstrap _ _ _ hm | power _ _ hm | storage _ _ hm | expiry _ _ hm => rw [hg] at hm; cases hm

/-- Without a holder only a bootstrap is accepted. -/
theorem bootstrap_of_initial {p : Promotion}
    (h : validate_promotion p.proof .initial policy p.now_ms = .ok p.capability) :
    p.proof.fence.mechanism = .Bootstrap := by
  obtain ⟨_, hex, _⟩ := (accepted h).1.excludes
  generalize p.capability.fence_class = cls at hex
  cases hex with
  | bootstrap _ _ _ hm => exact hm
  | power hh | storage hh | expiry hh => cases hh

/-- A lease that starts a guard after the end of another one shares no time with it. -/
theorem disjoint_of_guarded {v w : ValidatedPromotion} {guard : UInt64}
    (h : ms v.expires_at_ms + ms guard ≤ ms w.not_before_ms) :
    ∀ t, v.Covers t → ¬ w.Covers t := by
  rintro t ⟨_, hlt⟩ ⟨hle, _⟩
  have hguard := ms_nonneg guard
  rw [← ms_lt] at hlt
  rw [← ms_le] at hle
  omega

theorem takesOver_of_succeeds (h : Succeeds policy a b) : TakesOver policy a b := by
  obtain ⟨hacc, hv⟩ := accepted h
  obtain ⟨safe, hex, hsafe⟩ := hacc.excludes
  have hepoch : b.capability.epoch = b.proof.epoch := by rw [hv]; rfl
  have hcand : b.capability.candidate = b.proof.candidate := by rw [hv]; rfl
  have hstart : b.capability.not_before_ms = b.proof.lease.not_before_ms := by rw [hv]; rfl
  -- The holder that the fence had to name is the one that `a` installed.
  obtain ⟨htarget, hmech⟩ := hex.of_holder rfl
  have hguarded : b.proof.fence.mechanism = .EffectGateExpired →
      ms a.capability.expires_at_ms + ms policy.lease_guard_ms ≤ ms b.capability.not_before_ms := by
    intro hm
    obtain ⟨_, hx, rfl, _⟩ := hex.of_expired hm
    cases hx
    rw [hstart]
    exact hsafe
  refine ⟨?_, ?_, htarget, hacc.fence_epoch.trans hepoch.symm, hmech, hguarded, ?_⟩
  · rw [hepoch]
    exact hacc.newer
  · rw [hcand]
    intro heq
    exact hacc.not_holder (congrArg some heq)
  · intro hm
    exact disjoint_of_guarded (hguarded hm)

/-- Every answer of a history was given against some authority. -/
theorem evaluated (hrun : SerialRun policy es current) {ev : Evaluation} (hev : ev ∈ es) :
    ∃ current, validate_promotion ev.proof current policy ev.now_ms = ev.answer := by
  obtain ⟨before, after, rfl⟩ := List.append_of_mem hev
  obtain ⟨current, _, _, hstep, _⟩ := hrun.at_event
  exact ⟨current, hstep.1⟩

theorem capability_of_promotion (hrun : SerialRun policy es current) {p : Promotion}
    (hp : p ∈ promotions es) : ∃ fence_class, p.capability = capabilityOf p.proof fence_class := by
  obtain ⟨⟨proof, now_ms, answer⟩, hev, hpev⟩ := List.mem_filterMap.mp hp
  obtain ⟨current, hval⟩ := evaluated hrun hev
  rcases answer with e | v
  · cases hpev
  · cases hpev
    exact ⟨v.fence_class, (accepted hval).2⟩

/-! ## The law -/

/-- The chain of authority of a history is well formed. -/
structure WellFormedChain (policy : SafetyPolicy) (es : List Evaluation) : Prop where
  certified : ∀ p ∈ promotions es, ∃ fence_class, p.capability = capabilityOf p.proof fence_class
  increasing : (promotions es).Pairwise fun a b => a.capability.epoch < b.capability.epoch
  bootstrap : ∀ before p after, promotions es = before ++ p :: after →
    (p.proof.fence.mechanism = .Bootstrap ↔ before = [])
  takes_over : (promotions es).IsChain (TakesOver policy)
  graceful : ∀ ev ∈ es, ev.proof.fence.mechanism = .GracefulShutdown → ∃ e, ev.answer = .error e

/-- Every serial history under one policy, of any proofs and at any times, has a
well-formed chain of authority, and ends with the authority of its last accepted
promotion. -/
theorem serial_histories_form_a_chain (hrun : SerialRun policy es current) :
    WellFormedChain policy es ∧ current = authorityAfter (promotions es) := by
  obtain ⟨hcurrent, hchain, hfirst⟩ := serial_run hrun
  have hhand : (promotions es).IsChain (TakesOver policy) :=
    hchain.imp fun _ _ h => takesOver_of_succeeds h
  refine ⟨⟨fun p hp => capability_of_promotion hrun hp, ?_, ?_, hhand, ?_⟩, hcurrent⟩
  · let older (a b : Promotion) : Prop := a.capability.epoch < b.capability.epoch
    have : Trans older older older := ⟨lt_trans⟩
    exact List.isChain_iff_pairwise.mp (hhand.imp fun _ _ h => h.newer)
  · intro before p after hps
    constructor
    · intro hm
      rcases List.eq_nil_or_concat before with rfl | ⟨before, a, rfl⟩
      · rfl
      · rw [List.concat_eq_append, List.append_assoc, List.singleton_append] at hps
        have hstep := List.isChain_iff_forall_rel_of_append_cons_cons.mp hhand hps
        exact absurd hm hstep.no_bootstrap
    · rintro rfl
      exact bootstrap_of_initial (hfirst p (by simp [hps]))
  · rintro ⟨proof, now_ms, answer⟩ hev hm
    obtain ⟨current, hval⟩ := evaluated hrun hev
    rcases answer with e | v
    · exact ⟨e, rfl⟩
    · exact absurd hm (no_graceful_shutdown (accepted hval).1)

namespace tests

/-- node-a is promoted, a proof of the same epoch is refused, and node-b takes over. -/
def evaluations : List Evaluation :=
  [⟨proof node_a ⟨1⟩, 10000, .ok first.capability⟩,
    ⟨proof node_b ⟨1⟩, 9999, .error .StaleEpoch⟩,
    ⟨takeover node_a node_b ⟨2⟩ 9995, 10000, .ok (second 9995).capability⟩]

end tests

theorem serial_histories_form_a_chain_with_a_refusal :
    WellFormedChain tests.policy tests.evaluations ∧
    (tests.second 9995).capability.authority = authorityAfter (promotions tests.evaluations) := by
  have hrun : SerialRun tests.policy tests.evaluations (tests.second 9995).capability.authority := by
    refine Run.snoc (Run.snoc (Run.snoc .nil ⟨tests.proof_accepted, rfl⟩) ⟨?_, rfl⟩) ⟨?_, rfl⟩
    · decide
    · decide
  exact serial_histories_form_a_chain hrun

end quorumarc_core

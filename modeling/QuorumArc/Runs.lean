-- Runs of a labelled step relation: the events of a run, oldest first, and the
-- state after them. A fact about every run is proved once for the empty run
-- and once for a step.
import Mathlib.Data.List.Forall2
import Mathlib.Data.List.Induction

namespace runs

variable {σ ε : Type*}

/-- The runs from `start`. The relation has one rule for the empty run and one
for a step at the end. -/
inductive Run (step : σ → ε → σ → Prop) (start : σ) : List ε → σ → Prop
  | nil : Run step start [] start
  | snoc {es : List ε} {e : ε} {s s' : σ} :
      Run step start es s → step s e s' → Run step start (es ++ [e]) s'

variable {step : σ → ε → σ → Prop} {start s s' : σ} {es : List ε}

/-- A fact of the start that every step keeps holds after every run. -/
theorem Run.invariant (I : σ → Prop) (h : Run step start es s) (h0 : I start)
    (hstep : ∀ s e s', I s → step s e s' → I s') : I s := by
  induction h with
  | nil => exact h0
  | snoc _ hst ih => exact hstep _ _ _ ih hst

/-- The same for a fact about the state and the events so far. -/
theorem Run.history (H : List ε → σ → Prop) (h : Run step start es s) (h0 : H [] start)
    (hstep : ∀ es s e s', Run step start es s → H es s → step s e s' → H (es ++ [e]) s') :
    H es s := by
  induction h with
  | nil => exact h0
  | snoc hrun hst ih => exact hstep _ _ _ _ hrun ih hst

theorem Run.append {es' : List ε} (h : Run step start es s) (h' : Run step s es' s') :
    Run step start (es ++ es') s' := by
  induction h' with
  | nil => simpa using h
  | snoc _ hst ih => rw [← List.append_assoc]; exact ih.snoc hst

/-- A map of states and events that keeps steps keeps runs. -/
theorem Run.map {τ δ : Type*} {step' : τ → δ → τ → Prop} (f : σ → τ) (g : ε → δ)
    (hstep : ∀ s e s', step s e s' → step' (f s) (g e) (f s')) (h : Run step start es s) :
    Run step' (f start) (es.map g) (f s) := by
  induction h with
  | nil => exact .nil
  | snoc _ hst ih =>
    rw [List.map_append]
    exact ih.snoc (hstep _ _ _ hst)

/-- The last event of a run is a step into its last state. -/
theorem Run.last {e : ε} (h : Run step start (es ++ [e]) s') :
    ∃ s, Run step start es s ∧ step s e s' := by
  generalize hl : es ++ [e] = l at h
  cases h with
  | nil => simp at hl
  | snoc hrun hst =>
    obtain ⟨rfl, he⟩ := List.append_inj' hl rfl
    cases he
    exact ⟨_, hrun, hst⟩

/-- Where no event leads to two states, a run is known by its events. -/
theorem Run.unique (hdet : ∀ s e s₁ s₂, step s e s₁ → step s e s₂ → s₁ = s₂)
    (h : Run step start es s) (h' : Run step start es s') : s = s' := by
  induction h generalizing s' with
  | nil =>
    generalize hl : [] = l at h'
    cases h' with
    | nil => rfl
    | snoc => simp at hl
  | snoc _ hst ih =>
    obtain ⟨s₁, hrun, hst'⟩ := h'.last
    obtain rfl := ih hrun
    exact hdet _ _ _ _ hst hst'

/-- A run of `es ++ es'` passes through a state between the two. -/
theorem Run.split {es' : List ε} (h : Run step start (es ++ es') s') :
    ∃ s, Run step start es s ∧ Run step s es' s' := by
  induction es' using List.reverseRecOn generalizing s' with
  | nil => exact ⟨s', by simpa using h, .nil⟩
  | append_singleton es' e ih =>
    rw [← List.append_assoc] at h
    obtain ⟨s₁, hrun, hst⟩ := h.last
    obtain ⟨s, h1, h2⟩ := ih hrun
    exact ⟨s, h1, h2.snoc hst⟩

/-- Every event of a run is a step between two states of the run. -/
theorem Run.at_event {e : ε} {after : List ε} (h : Run step start (es ++ e :: after) s') :
    ∃ s₁ s₂, Run step start es s₁ ∧ step s₁ e s₂ ∧ Run step s₂ after s' := by
  rw [List.append_cons] at h
  obtain ⟨s₂, h1, h2⟩ := h.split
  obtain ⟨s₁, hrun, hst⟩ := h1.last
  exact ⟨s₁, s₂, hrun, hst, h2⟩

theorem Run.of_nil (h : Run step start [] s) : s = start := by
  generalize hl : [] = l at h
  cases h with
  | nil => rfl
  | snoc => simp at hl

/-- The first event of a run is a step from its start. -/
theorem Run.first {e : ε} (h : Run step start (e :: es) s') :
    ∃ s, step start e s ∧ Run step s es s' := by
  have h' : Run step start ([] ++ e :: es) s' := h
  obtain ⟨s₁, s, hnil, hst, hrun⟩ := h'.at_event
  rw [hnil.of_nil] at hst
  exact ⟨s, hst, hrun⟩

/-- Steps that are the same make the same runs. -/
theorem run_congr {step' : σ → ε → σ → Prop} (h : ∀ s e s', step s e s' ↔ step' s e s') :
    Run step start es s ↔ Run step' start es s := by
  have hsame : step = step' := by
    funext s e s'
    exact propext (h s e s')
  rw [hsame]

/-- A view of the events goes on with what the last event shows. -/
theorem filterMap_snoc {δ : Type*} (view : ε → Option δ) (es : List ε) (e : ε) :
    (es ++ [e]).filterMap view = es.filterMap view ++ (view e).toList := by
  rw [List.filterMap_append]
  cases h : view e <;> simp [h]

/-- A forward simulation. Where every step has a run of the other side that keeps the
two related, with what happened on each, every run has a run of the other side. -/
theorem Run.simulated {τ δ : Type*} {step' : τ → δ → τ → Prop} {start' t₀ : τ} {ds₀ : List δ}
    (R : List ε → List δ → σ → τ → Prop) (h : Run step start es s)
    (h' : Run step' start' ds₀ t₀) (h0 : R [] ds₀ start t₀)
    (hstep : ∀ es ds s e s' t, R es ds s t → step s e s' →
      ∃ out t', Run step' t out t' ∧ R (es ++ [e]) (ds ++ out) s' t') :
    ∃ ds t, Run step' start' ds t ∧ R es ds s t := by
  induction h with
  | nil => exact ⟨ds₀, t₀, h', h0⟩
  | snoc _ hst ih =>
    obtain ⟨ds, t, hrun, hrel⟩ := ih
    obtain ⟨out, t', hout, hrel'⟩ := hstep _ _ _ _ _ _ hrel hst
    exact ⟨ds ++ out, t', hrun.append hout, hrel'⟩

section related

variable {α β : Type*} {R : α → β → Prop}

/-- What is related to one list after another is one list after another. -/
theorem forall₂_append_left {l₁ l₂ : List α} {k : List β} (h : List.Forall₂ R (l₁ ++ l₂) k) :
    ∃ k₁ k₂, k = k₁ ++ k₂ ∧ List.Forall₂ R l₁ k₁ ∧ List.Forall₂ R l₂ k₂ := by
  have hbefore := List.forall₂_take l₁.length h
  have hafter := List.forall₂_drop l₁.length h
  rw [List.take_left] at hbefore
  rw [List.drop_left] at hafter
  exact ⟨_, _, (List.take_append_drop _ _).symm, hbefore, hafter⟩

theorem forall₂_append_right {l : List α} {k₁ k₂ : List β} (h : List.Forall₂ R l (k₁ ++ k₂)) :
    ∃ l₁ l₂, l = l₁ ++ l₂ ∧ List.Forall₂ R l₁ k₁ ∧ List.Forall₂ R l₂ k₂ :=
  ⟨_, _, (List.take_append_drop _ _).symm, List.forall₂_take_append _ _ _ h,
    List.forall₂_drop_append _ _ _ h⟩

theorem mem_of_forall₂ {l : List α} {k : List β} {b : β} (h : List.Forall₂ R l k) (hb : b ∈ k) :
    ∃ a ∈ l, R a b := by
  obtain ⟨k₁, k₂, rfl⟩ := List.append_of_mem hb
  obtain ⟨l₁, l₂, rfl, _, h₂⟩ := forall₂_append_right h
  obtain ⟨a, l₃, hab, _, rfl⟩ := List.forall₂_cons_right_iff.mp h₂
  exact ⟨a, by simp, hab⟩

/-- Where everything is related to something, so is every list. -/
theorem exists_forall₂ (h : ∀ a, ∃ b, R a b) (l : List α) : ∃ k, List.Forall₂ R l k := by
  induction l with
  | nil => exact ⟨[], .nil⟩
  | cons a l ih =>
    obtain ⟨b, hb⟩ := h a
    obtain ⟨k, hk⟩ := ih
    exact ⟨b :: k, .cons hb hk⟩

end related

/-- Where related events lead related states to related states, a run of one side and
events related to its own make a run of the other side. -/
theorem Run.related {τ δ : Type*} {step' : τ → δ → τ → Prop} {start' : τ} {ds : List δ}
    (S : σ → τ → Prop) (E : ε → δ → Prop) (h : Run step start es s) (h0 : S start start')
    (hes : List.Forall₂ E es ds)
    (hstep : ∀ s e s' t d, step s e s' → S s t → E e d → ∃ t', step' t d t' ∧ S s' t') :
    ∃ t, Run step' start' ds t ∧ S s t := by
  induction h generalizing ds with
  | nil =>
    cases hes
    exact ⟨start', .nil, h0⟩
  | @snoc es e s s' _ hst ih =>
    obtain ⟨before, last, rfl, hbefore, hlast⟩ := forall₂_append_left hes
    obtain ⟨d, rest, he, hrest, rfl⟩ := List.forall₂_cons_left_iff.mp hlast
    cases hrest
    obtain ⟨t, hrun, hrel⟩ := ih hbefore
    obtain ⟨t', hst', hrel'⟩ := hstep _ _ _ _ _ hst hrel he
    exact ⟨t', hrun.snoc hst', hrel'⟩

/-- A quantity that no step raises by more than one is raised by a run by no more than
its length. -/
theorem Run.quantity_le (f : σ → Nat) (hstep : ∀ s e s', step s e s' → f s' ≤ f s + 1)
    (h : Run step start es s) : f s ≤ f start + es.length := by
  induction h with
  | nil => exact Nat.le_refl _
  | snoc _ hst ih =>
    rw [List.length_append]
    exact Nat.le_trans (hstep _ _ _ hst) (Nat.succ_le_succ ih)

/-! ## What can happen soon -/

section soon

/-- Some run of at most `k` events leads to a state with `P`. -/
def Soon (step : σ → ε → σ → Prop) (k : Nat) (s : σ) (P : σ → Prop) : Prop :=
  ∃ es t, es.length ≤ k ∧ Run step s es t ∧ P t

variable {P Q : σ → Prop} {k l : Nat}

theorem Soon.now (h : P s) : Soon step k s P :=
  ⟨[], s, Nat.zero_le k, .nil, h⟩

theorem Soon.once {e : ε} (hst : step s e s') (h : P s') : Soon step 1 s P :=
  ⟨[e], s', Nat.le_refl _, Run.nil.snoc hst, h⟩

/-- What can happen soon from every state that can come soon. -/
theorem Soon.bind (h : Soon step k s P)
    (h' : ∀ es t, Run step s es t → P t → Soon step l t Q) : Soon step (l + k) s Q := by
  obtain ⟨es, t, hk, hrun, ht⟩ := h
  obtain ⟨es', u, hl, hrun', hu⟩ := h' es t hrun ht
  refine ⟨es ++ es', u, ?_, hrun.append hrun', hu⟩
  rw [List.length_append, Nat.add_comm]
  exact Nat.add_le_add hl hk

theorem Soon.mono (h : Soon step k s P) (hk : k ≤ l) : Soon step l s P := by
  obtain ⟨es, t, hle, hrun, ht⟩ := h
  exact ⟨es, t, Nat.le_trans hle hk, hrun, ht⟩

end soon

/-! ## Runs with a companion -/

section companion

variable {τ : Type*}

/-- The steps of a system with the state of a companion that follows every step. -/
def Accompanied (step : σ → ε → σ → Prop) (follow : σ → ε → σ → τ → τ) (m : σ × τ) (e : ε)
    (m' : σ × τ) : Prop :=
  step m.1 e m'.1 ∧ m'.2 = follow m.1 e m'.1 m.2

variable {follow : σ → ε → σ → τ → τ} {t₀ : τ}

/-- The companion never stands in the way of a run. -/
theorem Run.accompanied (h : Run step start es s) (follow : σ → ε → σ → τ → τ) (t₀ : τ) :
    ∃ t, Run (Accompanied step follow) (start, t₀) es (s, t) := by
  induction h with
  | nil => exact ⟨t₀, .nil⟩
  | @snoc es e s s' _ hst ih =>
    obtain ⟨t, hrun⟩ := ih
    exact ⟨follow s e s' t, hrun.snoc ⟨hst, rfl⟩⟩

theorem Run.alone {m : σ × τ} (h : Run (Accompanied step follow) (start, t₀) es m) :
    Run step start es m.1 := by
  induction h with
  | nil => exact .nil
  | snoc _ hst ih => exact ih.snoc hst.1

end companion

/-! ## Replaying events -/

/-- The state that the events lead to, where `next` says what each one does. -/
def replay (next : σ → ε → Option σ) : σ → List ε → Option σ
  | s, [] => some s
  | s, e :: es => (next s e).bind fun s' => replay next s' es

variable {next : σ → ε → Option σ}

theorem replay_snoc {e : ε} :
    replay next s (es ++ [e]) = (replay next s es).bind fun s' => next s' e := by
  induction es generalizing s with
  | nil => simp [replay]
  | cons e' es ih =>
    rcases h : next s e' with _ | s'
    · simp [replay, h]
    · simp [replay, h, ih]

/-- The runs of a function are what its replay computes. -/
theorem run_iff_replay :
    Run (fun s e s' => next s e = some s') s es s' ↔ replay next s es = some s' := by
  constructor
  · intro h
    induction h with
    | nil => rfl
    | snoc _ hst ih => simp [replay_snoc, ih, hst]
  · intro h
    induction es using List.reverseRecOn generalizing s' with
    | nil =>
      cases h
      exact .nil
    | append_singleton es e ih =>
      rw [replay_snoc] at h
      obtain ⟨s₁, h₁, hst⟩ := Option.bind_eq_some_iff.mp h
      exact (ih h₁).snoc hst

/-! ## What happened and was not undone -/

/-- Some event of the past met `P`, given the events before it, and every event
since then met `Q`. -/
def Since (P : List ε → ε → Prop) (Q : ε → Prop) (past : List ε) : Prop :=
  ∃ before e after, past = before ++ e :: after ∧ P before e ∧ ∀ x ∈ after, Q x

variable {P : List ε → ε → Prop} {Q : ε → Prop} {past : List ε} {e : ε}

/-- The event is of the past, and so is all that came before it. -/
theorem Since.mem (h : Since P Q past) : ∃ before e, P before e ∧ e ∈ past ∧ before ⊆ past := by
  obtain ⟨before, e, after, rfl, hp, _⟩ := h
  exact ⟨before, e, hp, by simp, List.subset_append_left _ _⟩

theorem Since.now (h : P past e) : Since P Q (past ++ [e]) :=
  ⟨past, e, [], rfl, h, by simp⟩

theorem Since.still (h : Since P Q past) (he : Q e) : Since P Q (past ++ [e]) := by
  obtain ⟨before, e₀, after, rfl, hp, hq⟩ := h
  refine ⟨before, e₀, after ++ [e], by simp, hp, ?_⟩
  intro x hx
  rcases List.mem_append.mp hx with hx | hx
  · exact hq x hx
  · exact List.mem_singleton.mp hx ▸ he

end runs

-- What the explorer finds and what it counts. Its loops go through the levels of
-- breadth-first search, so it reports every violation and only real ones, and its
-- counts are those of the states and the actions within its depth.
import QuorumArc.SimExplore
import QuorumArc.SimWriters

open checks levels runs

namespace quorumarc_sim

/-! ## What the loops add -/

theorem Action.mem_all (a : Action) : a ∈ Action.ALL := by
  cases a <;> decide

theorem Action.nodup_all : Action.ALL.Nodup := by
  decide

section explorer

variable {S : Type*}

/-- Where an action leads, if it is applied. -/
def nextOf (step : S → Action → Except Rejection S) (s : S) (a : Action) : Option S :=
  (step s a).toOption

/-- A promotion that is refused, and not because nothing would change. -/
def refused (step : S → Action → Except Rejection S) (s : S) (a : Action) : Bool :=
  match step s a with
  | .ok _ => false
  | .error reason => a.candidate.isSome && reason != .NoStateChange

def violationOf (writers : S → ℕ) (entry : S × List Action) : Option Violation :=
  if writers entry.1 > 1 then some { trace := entry.2, active_writers := writers entry.1 } else none

theorem push_violation {writers : S → ℕ} (violations : List Violation) (s : S)
    (trace : List Action) :
    (if writers s > 1 then violations ++ [{ trace, active_writers := writers s }]
      else violations) = violations ++ [(s, trace)].filterMap (violationOf writers) := by
  by_cases h : writers s > 1 <;> simp [violationOf, h]

theorem violationOf_eq_some {writers : S → ℕ} {entry : S × List Action} {v : Violation} :
    violationOf writers entry = some v ↔
      v.trace = entry.2 ∧ v.active_writers = writers entry.1 ∧ 1 < writers entry.1 := by
  obtain ⟨trace, active_writers⟩ := v
  unfold violationOf
  by_cases h : writers entry.1 > 1
  · simp [h, eq_comm]
  · simp [h]

/-- The actions are applied one after the other, and lead from `start` to a state. -/
abbrev StepRun (step : S → Action → Except Rejection S) (start : S) :=
  Run (fun s a s' => step s a = .ok s') start

theorem way_iff {step : S → Action → Except Rejection S} {start s : S} {actions : List Action} :
    Way (nextOf step) Action.ALL start actions s ↔ StepRun step start actions s := by
  apply run_congr
  intro s a s'
  simp [nextOf, toOption_eq_some, Action.mem_all]

variable [LinearOrder S]

/-- What a part of the loops does to their variables: it expands these states
and tries these actions, and everything found goes where it belongs. -/
structure Adds (step : S → Action → Except Rejection S) (writers : S → ℕ) (states : List S)
    (ts : List ((S × List Action) × Action)) (ex ex' : Exploration S) : Prop where
  maps : (ex'.seen, ex'.next_frontier) =
    (ts.filterMap (found (nextOf step))).foldl discover (ex.seen, ex.next_frontier)
  transitions : ex'.transitions_explored =
    ex.transitions_explored + ts.countP fun t => (nextOf step t.1.1 t.2).isSome
  rejected : ex'.rejected_promotions =
    ex.rejected_promotions + ts.countP fun t => refused step t.1.1 t.2
  violations : ex'.violations =
    ex.violations ++ (ts.filterMap (found (nextOf step))).filterMap (violationOf writers)
  expanded : ex'.expanded = ex.expanded ++ states

variable {step : S → Action → Except Rejection S} {writers : S → ℕ} {ex ex₁ ex₂ : Exploration S}
  {states states' : List S} {ts ts' : List ((S × List Action) × Action)}

theorem Adds.refl (ex : Exploration S) : Adds step writers [] [] ex ex :=
  ⟨rfl, rfl, rfl, (List.append_nil _).symm, (List.append_nil _).symm⟩

theorem Adds.append (h : Adds step writers states ts ex ex₁)
    (h' : Adds step writers states' ts' ex₁ ex₂) :
    Adds step writers (states ++ states') (ts ++ ts') ex ex₂ := by
  refine ⟨?_, ?_, ?_, ?_, ?_⟩
  · rw [h'.maps, h.maps, List.filterMap_append, List.foldl_append]
  · rw [h'.transitions, h.transitions, List.countP_append, Nat.add_assoc]
  · rw [h'.rejected, h.rejected, List.countP_append, Nat.add_assoc]
  · rw [h'.violations, h.violations, List.filterMap_append, List.filterMap_append,
      List.append_assoc]
  · rw [h'.expanded, h.expanded, List.append_assoc]

/-- A loop adds what its turns add. -/
theorem Adds.foldl {β : Type*} {body : Exploration S → β → Exploration S} {statesOf : β → List S}
    {triesOf : β → List ((S × List Action) × Action)}
    (hbody : ∀ ex x, Adds step writers (statesOf x) (triesOf x) ex (body ex x)) (xs : List β)
    (ex : Exploration S) :
    Adds step writers (xs.flatMap statesOf) (xs.flatMap triesOf) ex (xs.foldl body ex) := by
  induction xs generalizing ex with
  | nil => exact .refl ex
  | cons x xs ih => exact (hbody ex x).append (ih (body ex x))

theorem explore_action.spec (state : S) (trace : List Action) (ex : Exploration S)
    (action : Action) : Adds step writers [] [((state, trace), action)] ex
      (explore_action step writers state trace ex action) := by
  unfold explore_action
  rcases hst : step state action with reason | next
  · have hnone : nextOf step state action = none := by simp [nextOf, hst, Except.toOption]
    by_cases hr : (action.candidate.isSome && reason != .NoStateChange) = true
    · refine ⟨?_, ?_, ?_, ?_, ?_⟩ <;> simp [found, refused, hnone, hst, hr]
    · refine ⟨?_, ?_, ?_, ?_, ?_⟩ <;> simp [found, refused, hnone, hst, hr]
  · have hsome : nextOf step state action = some next := by simp [nextOf, hst, Except.toOption]
    have hfound : [((state, trace), action)].filterMap (found (nextOf step)) =
        [(next, trace ++ [action])] := by simp [found, hsome]
    have hadds : ∀ seen next_frontier,
        (seen, next_frontier) = discover (ex.seen, ex.next_frontier) (next, trace ++ [action]) →
        Adds step writers [] [((state, trace), action)] ex { ex with
          seen, next_frontier
          transitions_explored := ex.transitions_explored + 1
          violations :=
            if writers next > 1 then
              ex.violations ++ [{ trace := trace ++ [action], active_writers := writers next }]
            else ex.violations } := by
      intro seen next_frontier hmaps
      refine ⟨?_, ?_, ?_, ?_, ?_⟩
      · rw [hfound]
        exact hmaps
      · simp [hsome]
      · simp [refused, hst]
      · rw [hfound]
        exact push_violation _ _ _
      · simp
    dsimp only
    by_cases hseen : next ∈ ex.seen
    · rw [if_pos hseen]
      exact hadds ex.seen ex.next_frontier (if_pos hseen).symm
    · rw [if_neg hseen]
      exact hadds _ _ (if_neg hseen).symm

theorem explore_state.spec (ex : Exploration S) (entry : S × List Action) :
    Adds step writers [entry.1] (Action.ALL.map fun a => (entry, a)) ex
      (explore_state step writers ex entry) := by
  have hlog : Adds step writers [entry.1] [] ex { ex with expanded := ex.expanded ++ [entry.1] } :=
    ⟨rfl, rfl, rfl, (List.append_nil _).symm, rfl⟩
  have hactions : Adds step writers (Action.ALL.flatMap fun _ => [])
      (Action.ALL.flatMap fun a => [(entry, a)]) { ex with expanded := ex.expanded ++ [entry.1] }
      (explore_state step writers ex entry) :=
    .foldl (explore_action.spec entry.1 entry.2) Action.ALL _
  exact hlog.append hactions

/-- A turn of the outer loop expands the frontier. -/
theorem explore_layer.spec (frontier : Traces S Action) (ex : Exploration S) :
    Adds step writers frontier.keys (tries Action.ALL frontier) { ex with next_frontier := ∅ }
      (explore_layer step writers frontier ex) := by
  have hstates : Adds step writers (frontier.toList.flatMap fun entry => [entry.1])
      (frontier.toList.flatMap fun entry => Action.ALL.map fun a => (entry, a))
      { ex with next_frontier := ∅ } (explore_layer step writers frontier ex) :=
    .foldl explore_state.spec frontier.toList _
  rw [← List.map_eq_flatMap, Std.TreeMap.map_fst_toList_eq_keys] at hstates
  exact hstates

/-! ## The loop goes through the levels -/

/-- What `d` turns of the outer loop do from level `k` on. -/
structure Ran (step : S → Action → Except Rejection S) (writers : S → ℕ) (start : S) (k d : ℕ)
    (ex ex' : Exploration S) : Prop where
  seen : ex'.seen = (level (nextOf step) Action.ALL start (k + d)).1
  transitions : ex'.transitions_explored = ex.transitions_explored +
    (triesFrom (nextOf step) Action.ALL start k d).countP fun t => (nextOf step t.1.1 t.2).isSome
  rejected : ex'.rejected_promotions = ex.rejected_promotions +
    (triesFrom (nextOf step) Action.ALL start k d).countP fun t => refused step t.1.1 t.2
  violations : ex'.violations = ex.violations ++
    ((triesFrom (nextOf step) Action.ALL start k d).filterMap
      (found (nextOf step))).filterMap (violationOf writers)
  expanded : ex'.expanded = ex.expanded ++ expandedFrom (nextOf step) Action.ALL start k d

variable {start : S} {k d : ℕ}

/-- The first turn, and then what the other turns do. -/
theorem Ran.cons (h : Adds step writers (level (nextOf step) Action.ALL start k).2.keys
      (tries Action.ALL (level (nextOf step) Action.ALL start k).2) { ex with next_frontier := ∅ }
      ex₁) (h' : Ran step writers start (k + 1) d ex₁ ex₂) :
    Ran step writers start k (d + 1) ex ex₂ := by
  refine ⟨?_, ?_, ?_, ?_, ?_⟩
  · rw [h'.seen, Nat.add_assoc, Nat.add_comm 1]
  · rw [h'.transitions, h.transitions, triesFrom_succ, List.countP_append, Nat.add_assoc]
  · rw [h'.rejected, h.rejected, triesFrom_succ, List.countP_append, Nat.add_assoc]
  · rw [h'.violations, h.violations, triesFrom_succ, List.filterMap_append,
      List.filterMap_append, List.append_assoc]
  · rw [h'.expanded, h.expanded, expandedFrom_succ, List.append_assoc]

/-- Nothing is left to do after a level without a state. -/
theorem Ran.stalled (hseen : ex.seen = (level (nextOf step) Action.ALL start k).1)
    (h : (level (nextOf step) Action.ALL start k).2.isEmpty = true) :
    Ran step writers start k d ex ex := by
  obtain ⟨hexpanded, htries⟩ := expandedFrom_stalled (d := d) h
  refine ⟨?_, ?_, ?_, ?_, ?_⟩
  · rw [hseen, (level_stalled h).1]
  · rw [htries, List.countP_nil, Nat.add_zero]
  · rw [htries, List.countP_nil, Nat.add_zero]
  · rw [htries, List.filterMap_nil, List.filterMap_nil, List.append_nil]
  · rw [hexpanded, List.append_nil]

theorem explore_loop.spec (frontier : Traces S Action)
    (hfrontier : (ex.seen, frontier) = level (nextOf step) Action.ALL start k) :
    Ran step writers start k d ex (explore_loop step writers d frontier ex) := by
  induction d generalizing k frontier ex with
  | zero => exact ⟨congrArg Prod.fst hfrontier, rfl, rfl, (List.append_nil _).symm,
      (List.append_nil _).symm⟩
  | succ d ih =>
    obtain rfl : frontier = (level (nextOf step) Action.ALL start k).2 :=
      congrArg Prod.snd hfrontier
    have hlayer : Adds step writers (level (nextOf step) Action.ALL start k).2.keys
        (tries Action.ALL (level (nextOf step) Action.ALL start k).2)
        { ex with next_frontier := ∅ } (explore_layer step writers _ ex) :=
      explore_layer.spec _ ex
    unfold explore_loop
    dsimp only
    generalize explore_layer step writers (level (nextOf step) Action.ALL start k).2 ex = ex₁
      at hlayer ⊢
    have hmaps : (ex₁.seen, ex₁.next_frontier) = level (nextOf step) Action.ALL start (k + 1) := by
      rw [hlayer.maps, level, ← hfrontier]
      rfl
    by_cases hempty : ex₁.next_frontier.isEmpty = true
    · rw [if_pos hempty]
      refine .cons hlayer (.stalled (congrArg Prod.fst hmaps) ?_)
      rw [← hmaps]
      exact hempty
    · rw [if_neg hempty]
      exact .cons hlayer (ih _ hmaps)

theorem explore_from.spec (start : S) (depth : ℕ) : Ran step writers start 0 depth
    { seen := (∅ : Traces S Action).insert start []
      next_frontier := ∅
      transitions_explored := 0
      rejected_promotions := 0
      violations := []
      expanded := [] } (explore_from step writers start depth) :=
  explore_loop.spec _ rfl

/-! ## The violations -/

variable {s : S} {actions : List Action} {depth : ℕ} {v : Violation}

theorem violations_eq (start : S) (depth : ℕ) : (explore_from step writers start depth).violations =
    (foundBefore (nextOf step) Action.ALL start depth).filterMap (violationOf writers) := by
  rw [(explore_from.spec start depth).violations]
  rfl

theorem violation_replays (h : v ∈ (explore_from step writers start depth).violations) :
    v.trace.length ≤ depth ∧ 1 ≤ v.trace.length ∧
      ∃ s, StepRun step start v.trace s ∧ writers s = v.active_writers ∧ 1 < writers s := by
  rw [violations_eq] at h
  obtain ⟨⟨s, trace⟩, hfound, hv⟩ := List.mem_filterMap.mp h
  obtain ⟨rfl, hwriters, hmany⟩ := violationOf_eq_some.mp hv
  obtain ⟨hw, hpos, hle⟩ := way_of_foundBefore hfound
  exact ⟨hle, hpos, s, way_iff.mp hw, hwriters.symm, hmany⟩

/-- A violating state is reported, if under other actions than the given ones. -/
theorem violation_found (hrun : StepRun step start actions s) (hpos : 1 ≤ actions.length)
    (hle : actions.length ≤ depth) (hmany : 1 < writers s) :
    ∃ v, v ∈ (explore_from step writers start depth).violations := by
  obtain ⟨trace, hfound⟩ := found_of_way (way_iff.mpr hrun) hpos hle
  refine ⟨{ trace, active_writers := writers s }, ?_⟩
  rw [violations_eq]
  exact List.mem_filterMap.mpr ⟨(s, trace), hfound, violationOf_eq_some.mpr ⟨rfl, rfl, hmany⟩⟩

theorem violations_sorted : (explore_from step writers start depth).violations.Pairwise
    fun v w => v.trace.length ≤ w.trace.length := by
  rw [violations_eq, List.pairwise_filterMap]
  refine List.Pairwise.imp ?_ foundBefore_sorted
  intro a b hle v hv w hw
  rw [(violationOf_eq_some.mp hv).1, (violationOf_eq_some.mp hw).1]
  exact hle

theorem violations_extend (depth : ℕ) : (explore_from step writers start depth).violations <+:
    (explore_from step writers start (depth + 1)).violations := by
  rw [violations_eq, violations_eq]
  exact foundBefore_extend.filterMap _

theorem violations_extend_of_le {depth' : ℕ} (hle : depth ≤ depth') :
    (explore_from step writers start depth).violations <+:
      (explore_from step writers start depth').violations := by
  induction depth', hle using Nat.le_induction with
  | base => exact List.prefix_rfl
  | succ n _ ih => exact ih.trans (violations_extend n)

/-- A first violation is as short as any sequence into a violating state. -/
theorem first_violation_shortest
    (hfirst : (explore_from step writers start depth).violations.head? = some v)
    (hrun : StepRun step start actions s) (hpos : 1 ≤ actions.length) (hmany : 1 < writers s) :
    v.trace.length ≤ actions.length := by
  obtain ⟨hle, _⟩ := violation_replays (List.mem_of_mem_head? hfirst)
  by_cases hdeep : depth ≤ actions.length
  · exact le_trans hle hdeep
  · -- A search that is as deep as the sequence finds a violation, and its first one is `v`.
    obtain ⟨w, hw⟩ := violation_found hrun hpos (le_refl _) hmany
    obtain ⟨rest, hext⟩ : (explore_from step writers start actions.length).violations <+:
        (explore_from step writers start depth).violations :=
      violations_extend_of_le (by omega)
    rcases hl : (explore_from step writers start actions.length).violations with _ | ⟨w₀, ws⟩
    · rw [hl] at hw
      cases hw
    · rw [← hext, hl] at hfirst
      cases hfirst
      have hmem : v ∈ (explore_from step writers start actions.length).violations := by
        rw [hl]
        exact List.mem_cons_self
      exact (violation_replays hmem).1

/-- The explorer finds every violation and reports only real ones, over any
start, any step function and any count of writers. Its traces are in the order
of their lengths, so the first is as short as any, and a deeper search only
adds reports at the end. -/
theorem explorer_finds_every_violation (start : S) (step : S → Action → Except Rejection S)
    (writers : S → ℕ) (depth : ℕ) :
    ((explore_from step writers start depth).violations ≠ [] ↔
      ∃ actions s, 1 ≤ actions.length ∧ actions.length ≤ depth ∧ StepRun step start actions s ∧
        1 < writers s) ∧
    (∀ v ∈ (explore_from step writers start depth).violations, v.trace.length ≤ depth ∧
      ∃ s, StepRun step start v.trace s ∧ writers s = v.active_writers ∧ 1 < v.active_writers) ∧
    ((explore_from step writers start depth).violations.Pairwise
      fun v w => v.trace.length ≤ w.trace.length) ∧
    (∀ v, (explore_from step writers start depth).violations.head? = some v →
      ∀ actions s, 1 ≤ actions.length → StepRun step start actions s → 1 < writers s →
        v.trace.length ≤ actions.length) ∧
    (explore_from step writers start depth).violations <+:
      (explore_from step writers start (depth + 1)).violations := by
  refine ⟨⟨?_, ?_⟩, ?_, violations_sorted, ?_, violations_extend depth⟩
  · intro hne
    obtain ⟨v, hv⟩ := List.exists_mem_of_ne_nil _ hne
    obtain ⟨hle, hpos, s, hrun, _, hmany⟩ := violation_replays hv
    exact ⟨v.trace, s, hpos, hle, hrun, hmany⟩
  · rintro ⟨actions, s, hpos, hle, hrun, hmany⟩
    obtain ⟨v, hv⟩ := violation_found hrun hpos hle hmany
    exact List.ne_nil_of_mem hv
  · intro v hv
    obtain ⟨hle, _, s, hrun, hwriters, hmany⟩ := violation_replays hv
    exact ⟨hle, s, hrun, hwriters, hwriters ▸ hmany⟩
  · intro v hfirst actions s hpos hrun hmany
    exact first_violation_shortest hfirst hrun hpos hmany

/-- A model in which every tick brings another writer. -/
example : (explore_from (fun n a => if a = .AdvanceTime then .ok (n + 1) else .error .NoStateChange)
    id 0 3).violations = [⟨[.AdvanceTime, .AdvanceTime], 2⟩,
      ⟨[.AdvanceTime, .AdvanceTime, .AdvanceTime], 3⟩] := by
  decide

end explorer

/-! ## The counts -/

/-- At most `d` applied actions lead to the state. -/
def ReachedWithin (d : ℕ) (s : ModelState) : Prop :=
  ∃ actions, actions.length ≤ d ∧ ModelRun actions s

/-- Fewer than `d` applied actions lead to the state. -/
def ReachedBefore (d : ℕ) (s : ModelState) : Prop :=
  ∃ actions, actions.length < d ∧ ModelRun actions s

/-- What an action of the model leads to, for the levels. -/
abbrev modelNext : ModelState → Action → Option ModelState := nextOf fun s a => (apply s a).result

variable {s : ModelState} {a : Action} {actions trace : List Action} {d : ℕ}

theorem modelNext_isSome : (modelNext s a).isSome = true ↔ ∃ s', apply s a = .Applied s' := by
  unfold modelNext nextOf
  rcases h : apply s a with s' | reason <;> simp [h, Outcome.result, Except.toOption]

theorem refused_iff : refused (fun s a => (apply s a).result) s a = true ↔
    (a = .PromoteA ∨ a = .PromoteB) ∧
      ∃ reason, apply s a = .Rejected reason ∧ reason ≠ .NoStateChange := by
  have hcandidate : a.candidate.isSome = true ↔ a = .PromoteA ∨ a = .PromoteB := by
    cases a <;> simp [Action.candidate]
  unfold refused
  rcases h : apply s a with s' | reason <;> simp [h, Outcome.result, hcandidate]

theorem stepRun_iff : StepRun (fun s a => (apply s a).result) .default actions s ↔
    ModelRun actions s :=
  run_congr fun _ _ _ => Outcome.result_eq_ok

theorem model_way_iff : Way modelNext Action.ALL .default actions s ↔ ModelRun actions s := by
  unfold modelNext
  rw [way_iff, stepRun_iff]

theorem within_iff : Within modelNext Action.ALL .default d s ↔ ReachedWithin d s := by
  simp only [Within, ReachedWithin, model_way_iff]

theorem before_iff : Before modelNext Action.ALL .default d s ↔ ReachedBefore d s := by
  simp only [Before, ReachedBefore, model_way_iff]

/-- The loops of `explore` go through the levels from the default state. -/
theorem exploration.spec (d : ℕ) : Ran (fun s a => (apply s a).result) ModelState.active_writers
    .default 0 d
    { seen := (∅ : Traces ModelState Action).insert .default []
      next_frontier := ∅
      transitions_explored := 0
      rejected_promotions := 0
      violations := []
      expanded := [] } (exploration d) :=
  explore_from.spec _ d

theorem exploration_seen (d : ℕ) :
    (exploration d).seen = (level modelNext Action.ALL .default d).1 := by
  rw [(exploration.spec d).seen, Nat.zero_add]

theorem exploration_expanded (d : ℕ) :
    (exploration d).expanded = expandedFrom modelNext Action.ALL .default 0 d := by
  rw [(exploration.spec d).expanded]
  rfl

theorem count_transitions (d : ℕ) : ((exploration d).transitions_explored : ℕ∞) =
    {q : ModelState × Action | ReachedBefore d q.1 ∧
      ∃ s', apply q.1 q.2 = .Applied s'}.encard := by
  rw [(exploration.spec d).transitions, Nat.zero_add,
    count_tries Action.nodup_all fun s a => (modelNext s a).isSome]
  simp only [before_iff, modelNext_isSome, Action.mem_all, true_and]

theorem count_rejected (d : ℕ) : ((exploration d).rejected_promotions : ℕ∞) =
    {q : ModelState × Action | ReachedBefore d q.1 ∧ (q.2 = .PromoteA ∨ q.2 = .PromoteB) ∧
      ∃ reason, apply q.1 q.2 = .Rejected reason ∧ reason ≠ .NoStateChange}.encard := by
  rw [(exploration.spec d).rejected, Nat.zero_add,
    count_tries Action.nodup_all fun s a => refused (fun s a => (apply s a).result) s a]
  simp only [before_iff, refused_iff, Action.mem_all, true_and]

/-- The explorer reports no violation of the model, at any depth. -/
theorem explore_is_safe (d : ℕ) : (explore d).is_safe = true := by
  have hnone : (exploration d).violations = [] := by
    rw [List.eq_nil_iff_forall_not_mem]
    intro v hv
    obtain ⟨_, _, s, hrun, _, hmany⟩ := violation_replays hv
    have hle := active_writers_le_one (allHeld_run (stepRun_iff.mp hrun))
    omega
  unfold SimulationReport.is_safe explore Exploration.report
  rw [hnone]
  rfl

/-- The counts of `explore` are exact: the states reached, the transitions and
the refused promotions of the states before the last layer. Every trace that is
kept is a shortest run to its state, and the states before the last layer are
expanded once each, also when the loop stops early. -/
theorem exploration_counts_are_exact (d : ℕ) :
    ((explore d).states_explored : ℕ∞) = {s | ReachedWithin d s}.encard ∧
    ((explore d).transitions_explored : ℕ∞) = {q : ModelState × Action | ReachedBefore d q.1 ∧
      ∃ s', apply q.1 q.2 = .Applied s'}.encard ∧
    ((explore d).rejected_promotions : ℕ∞) = {q : ModelState × Action | ReachedBefore d q.1 ∧
      (q.2 = .PromoteA ∨ q.2 = .PromoteB) ∧
      ∃ reason, apply q.1 q.2 = .Rejected reason ∧ reason ≠ .NoStateChange}.encard ∧
    (∀ s, s ∈ (exploration d).seen ↔ ReachedWithin d s) ∧
    (∀ s trace, (exploration d).seen[s]? = some trace → ModelRun trace s ∧
      ∀ actions, ModelRun actions s → trace.length ≤ actions.length) ∧
    (exploration d).expanded.Nodup ∧ ∀ s, s ∈ (exploration d).expanded ↔ ReachedBefore d s := by
  have hlevel := leveled_level modelNext Action.ALL .default d
  refine ⟨?_, count_transitions d, count_rejected d, ?_, ?_, ?_, ?_⟩
  · show ((exploration d).seen.size : ℕ∞) = _
    rw [exploration_seen, size_level]
    simp only [within_iff]
  · intro s
    rw [exploration_seen, hlevel.seen, within_iff]
  · intro s trace hs
    rw [exploration_seen] at hs
    obtain ⟨hw, hshort⟩ := hlevel.shortest s trace hs
    refine ⟨model_way_iff.mp hw, ?_⟩
    intro actions hrun
    exact hshort actions (model_way_iff.mpr hrun)
  · rw [exploration_expanded]
    exact nodup_expandedFrom
  · intro s
    rw [exploration_expanded, mem_expandedFrom, before_iff]

end quorumarc_sim

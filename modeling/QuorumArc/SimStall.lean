-- When a bounded exploration is a proof. If one more turn of the explorer finds no new
-- state, then no deeper one finds anything, and what was explored is all there is.
import QuorumArc.SimSearch

open levels

namespace levels

variable {σ ε : Type*} {next : σ → ε → Option σ} {events es : List ε} {start s : σ} {k d : ℕ}

theorem within_mono (h : Within next events start k s) (hle : k ≤ d) :
    Within next events start d s := by
  obtain ⟨es, hes, hw⟩ := h
  exact ⟨es, le_trans hes hle, hw⟩

variable [LinearOrder σ]

/-- When a level adds nothing in number, it adds nothing. -/
theorem within_of_same_size
    (h : (level next events start (k + 1)).1.size = (level next events start k).1.size)
    (hs : Within next events start (k + 1) s) : Within next events start k s := by
  have hcount : ((level next events start k).1.size : ℕ∞) =
      {s | Within next events start k s}.encard := size_level
  have hfinite := Set.finite_of_encard_eq_coe hcount.symm
  have hsame : {s | Within next events start k s} = {s | Within next events start (k + 1) s} := by
    refine hfinite.eq_of_subset_of_encard_le ?_ ?_
    · intro s hs
      exact within_mono hs (Nat.le_succ k)
    · rw [← size_level, ← size_level, h]
  have hmem : s ∈ {s | Within next events start (k + 1) s} := hs
  rw [← hsame] at hmem
  exact hmem

/-- Then no state is at that distance. -/
theorem frontier_empty_of_same_size
    (h : (level next events start (k + 1)).1.size = (level next events start k).1.size) :
    (level next events start (k + 1)).2.isEmpty = true := by
  rw [Std.TreeMap.isEmpty_iff_forall_not_mem]
  intro s hs
  have hleveled := leveled_level next events start (k + 1)
  obtain ⟨es, hes⟩ := getElem?_of_mem hs
  obtain ⟨hseen, hlength⟩ := (hleveled.frontier s es).mp hes
  have hle := shortest_length_le (hleveled.shortest s es hseen)
    (within_of_same_size h ((hleveled.seen s).mp (mem_of_getElem? hseen)))
  omega

/-- From a level with an empty frontier on, nothing is seen that was not seen, and
nothing is tried. -/
theorem seen_of_stalled (h : (level next events start k).2.isEmpty = true)
    (hw : Way next events start es s) : s ∈ (level next events start k).1 := by
  rw [← (level_stalled (d := es.length) h).1, (leveled_level next events start _).seen]
  exact ⟨es, Nat.le_add_left _ _, hw⟩

theorem triesFrom_stalled (h : (level next events start k).2.isEmpty = true) :
    triesFrom next events start 0 (k + d) = triesFrom next events start 0 k := by
  have hrest := (expandedFrom_stalled (d := d) h).2
  unfold triesFrom at hrest ⊢
  have hrange : List.range' 0 (k + d) = List.range' 0 k ++ List.range' k d := by
    rw [← List.range'_append_1, Nat.zero_add]
  rw [hrange, List.flatMap_append, hrest, List.append_nil]

end levels

namespace quorumarc_sim

variable {S : Type*} [LinearOrder S]

/-! ## The law -/

/-- When one more turn of the explorer finds no new state, over any start, any step
function and any count of writers, then every state that can be reached was found and
the report is the same at every greater depth. If it has no violation, no run of one
action or more leads to one. The start itself is never checked by the explorer. -/
theorem stalled_exploration_is_final (start : S) (step : S → Action → Except Rejection S)
    (writers : S → ℕ) (depth : ℕ)
    (h : (explore_from step writers start (depth + 1)).seen.size =
      (explore_from step writers start depth).seen.size) :
    (∀ actions s, StepRun step start actions s →
      s ∈ (explore_from step writers start depth).seen) ∧
    (∀ more, (explore_from step writers start (depth + 1 + more)).report 0 =
      (explore_from step writers start (depth + 1)).report 0) ∧
    ((explore_from step writers start (depth + 1)).violations = [] →
      ∀ actions s, 1 ≤ actions.length → StepRun step start actions s → writers s ≤ 1) := by
  have hran : ∀ depth, Ran step writers start 0 depth _ (explore_from step writers start depth) :=
    fun depth => explore_from.spec start depth
  have hsize : (level (nextOf step) Action.ALL start (depth + 1)).1.size =
      (level (nextOf step) Action.ALL start depth).1.size := by
    have h1 := (hran (depth + 1)).seen
    have h0 := (hran depth).seen
    rw [Nat.zero_add] at h1 h0
    rw [← h1, ← h0]
    exact h
  have hempty := frontier_empty_of_same_size hsize
  have hfinal : ∀ more, (explore_from step writers start (depth + 1 + more)).report 0 =
      (explore_from step writers start (depth + 1)).report 0 := by
    intro more
    have hdeep := hran (depth + 1 + more)
    have hhere := hran (depth + 1)
    have hseen : (explore_from step writers start (depth + 1 + more)).seen =
        (explore_from step writers start (depth + 1)).seen := by
      rw [hdeep.seen, hhere.seen, Nat.zero_add, Nat.zero_add, (level_stalled hempty).1]
    unfold Exploration.report
    rw [hseen, hdeep.transitions, hdeep.rejected, hdeep.violations, triesFrom_stalled hempty,
      hhere.transitions, hhere.rejected, hhere.violations]
  refine ⟨?_, hfinal, ?_⟩
  · intro actions s hrun
    have hseen := seen_of_stalled hempty (way_iff.mpr hrun)
    rw [(leveled_level _ _ _ _).seen] at hseen
    rw [(hran depth).seen, Nat.zero_add, (leveled_level _ _ _ _).seen]
    exact within_of_same_size hsize hseen
  · intro hnone actions s hpos hrun
    refine Nat.le_of_not_lt fun hmany => ?_
    have hle : actions.length ≤ depth + 1 + actions.length := Nat.le_add_left _ _
    obtain ⟨v, hv⟩ := violation_found hrun hpos hle hmany
    have hsame := congrArg SimulationReport.violations (hfinal actions.length)
    change (explore_from step writers start _).violations = _ at hsame
    rw [hsame] at hv
    change v ∈ (explore_from step writers start (depth + 1)).violations at hv
    rw [hnone] at hv
    cases hv

/-- A model in which time advances once. -/
def oneTick (ticked : Bool) (a : Action) : Except Rejection Bool :=
  if a = .AdvanceTime ∧ ticked = false then .ok true else .error .NoStateChange

/-- Its exploration stalls after the first turn. -/
theorem stalled_exploration_is_final_for_one_tick :
    (explore_from oneTick Bool.toNat false 2).seen.size =
      (explore_from oneTick Bool.toNat false 1).seen.size ∧
    ∀ actions s, 1 ≤ actions.length → StepRun oneTick false actions s → s.toNat ≤ 1 := by
  have hstall : (explore_from oneTick Bool.toNat false 2).seen.size =
      (explore_from oneTick Bool.toNat false 1).seen.size := by decide
  exact ⟨hstall, (stalled_exploration_is_final false oneTick Bool.toNat 1 hstall).2.2 (by decide)⟩

end quorumarc_sim

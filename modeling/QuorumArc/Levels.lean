-- Breadth-first search by levels, over maps from a state to the events that
-- lead to it. A level holds the states at one distance from the start, each
-- with a shortest way, and what the search tries is known from the distances.
import Mathlib.Data.List.ProdSigma
import Mathlib.Data.Set.Card
import QuorumArc.Runs

open runs

namespace levels

variable {σ ε : Type*}

/-! ## The ways to a state -/

/-- The events are among `events` and lead from `start` to `s`. -/
abbrev Way (next : σ → ε → Option σ) (events : List ε) (start : σ) :=
  Run (fun s e s' => e ∈ events ∧ next s e = some s') start

/-- The events lead to `s`, and no fewer events do. -/
def Shortest (next : σ → ε → Option σ) (events : List ε) (start : σ) (es : List ε) (s : σ) : Prop :=
  Way next events start es s ∧ ∀ es', Way next events start es' s → es.length ≤ es'.length

/-- At most `k` events lead to `s`. -/
def Within (next : σ → ε → Option σ) (events : List ε) (start : σ) (k : ℕ) (s : σ) : Prop :=
  ∃ es, es.length ≤ k ∧ Way next events start es s

variable {next : σ → ε → Option σ} {events es : List ε} {start s : σ} {k : ℕ}

theorem within_zero_iff : Within next events start 0 s ↔ s = start := by
  constructor
  · rintro ⟨es, hle, hw⟩
    obtain rfl := List.eq_nil_of_length_eq_zero (Nat.le_zero.mp hle)
    generalize hl : ([] : List ε) = l at hw
    cases hw with
    | nil => rfl
    | snoc => simp at hl
  · rintro rfl
    exact ⟨[], le_refl _, .nil⟩

/-- A way of at most `k + 1` events is one of at most `k`, or one more event after such a one. -/
theorem within_succ_iff : Within next events start (k + 1) s ↔ Within next events start k s ∨
    ∃ s₀ e, Within next events start k s₀ ∧ e ∈ events ∧ next s₀ e = some s := by
  constructor
  · rintro ⟨es, hle, hw⟩
    rcases List.eq_nil_or_concat es with rfl | ⟨es, e, rfl⟩
    · exact Or.inl ⟨[], Nat.zero_le _, hw⟩
    · rw [List.concat_eq_append] at hle hw
      obtain ⟨s₀, hw₀, hst⟩ := hw.last
      rw [List.length_append, List.length_singleton] at hle
      exact Or.inr ⟨s₀, e, ⟨es, by omega, hw₀⟩, hst⟩
  · rintro (⟨es, hle, hw⟩ | ⟨s₀, e, ⟨es, hle, hw⟩, hst⟩)
    · exact ⟨es, by omega, hw⟩
    · refine ⟨es ++ [e], ?_, hw.snoc hst⟩
      rw [List.length_append, List.length_singleton]
      omega

theorem shortest_length_le (h : Shortest next events start es s)
    (hw : Within next events start k s) : es.length ≤ k := by
  obtain ⟨es', hle, hw'⟩ := hw
  exact le_trans (h.2 es' hw') hle

/-! ## The search -/

variable [LinearOrder σ]

/-- Each state with the events that led to it. -/
abbrev Traces (σ ε : Type*) [LinearOrder σ] := Std.TreeMap σ (List ε)

/-- The events tried in the states of a frontier, in the order of the map. -/
def tries (events : List ε) (frontier : Traces σ ε) : List ((σ × List ε) × ε) :=
  frontier.toList.flatMap fun entry => events.map fun e => (entry, e)

/-- The state that a try leads to, with the events to it. -/
def found (next : σ → ε → Option σ) (t : (σ × List ε) × ε) : Option (σ × List ε) :=
  (next t.1.1 t.2).map fun s => (s, t.1.2 ++ [t.2])

/-- A state that is not seen yet is seen now, and is in the next frontier. -/
def discover (m : Traces σ ε × Traces σ ε) (entry : σ × List ε) : Traces σ ε × Traces σ ε :=
  if entry.1 ∈ m.1 then m
  else (m.1.insert entry.1 entry.2, m.2.insert entry.1 entry.2)

/-- The states seen and the frontier, from those before. -/
def advance (next : σ → ε → Option σ) (events : List ε) (m : Traces σ ε × Traces σ ε) :
    Traces σ ε × Traces σ ε :=
  ((tries events m.2).filterMap (found next)).foldl discover (m.1, ∅)

def level (next : σ → ε → Option σ) (events : List ε) (start : σ) : ℕ → Traces σ ε × Traces σ ε
  | 0 => ((∅ : Traces σ ε).insert start [], (∅ : Traces σ ε).insert start [])
  | k + 1 => advance next events (level next events start k)

/-! ## What one level adds -/

/-- The events of the first entry for `s`. -/
def firstFor (s : σ) (entries : List (σ × List ε)) : Option (List ε) :=
  (entries.find? fun entry => entry.1 = s).map Prod.snd

theorem mem_of_firstFor {entries : List (σ × List ε)} {es : List ε}
    (h : firstFor s entries = some es) : (s, es) ∈ entries := by
  obtain ⟨⟨s', es'⟩, hf, rfl⟩ := Option.map_eq_some_iff.mp h
  have hs := List.find?_some hf
  simp only [decide_eq_true_eq] at hs
  rw [← hs]
  exact List.mem_of_find?_eq_some hf

theorem firstFor_of_mem {entries : List (σ × List ε)} {es : List ε} (h : (s, es) ∈ entries) :
    ∃ es', firstFor s entries = some es' := by
  unfold firstFor
  rw [← Option.isSome_iff_exists, Option.isSome_map, List.find?_isSome]
  exact ⟨_, h, by simp⟩

theorem firstFor_cons {entry : σ × List ε} {entries : List (σ × List ε)} :
    firstFor s (entry :: entries) = if entry.1 = s then some entry.2 else firstFor s entries := by
  unfold firstFor
  rw [List.find?_cons]
  by_cases h : entry.1 = s <;> simp [h]

/-- The first entry for a state that was not seen counts, and no other one. -/
theorem discover_foldl (entries : List (σ × List ε)) (m : Traces σ ε × Traces σ ε) (s : σ) :
    (entries.foldl discover m).1[s]? = m.1[s]?.or (firstFor s entries) ∧
      (entries.foldl discover m).2[s]? =
        if s ∈ m.1 then m.2[s]? else (firstFor s entries).or m.2[s]? := by
  induction entries generalizing m with
  | nil => simp [firstFor]
  | cons entry entries ih =>
    obtain ⟨h₁, h₂⟩ := ih (discover m entry)
    rw [List.foldl_cons, h₁, h₂, firstFor_cons]
    unfold discover
    by_cases hseen : entry.1 ∈ m.1
    · rw [if_pos hseen]
      by_cases hs : entry.1 = s
      · subst hs
        simp [hseen]
      · simp [hs]
    · rw [if_neg hseen]
      by_cases hs : entry.1 = s
      · subst hs
        simp [hseen, Std.TreeMap.mem_insert]
      · simp [hs, Std.TreeMap.getElem?_insert, Std.TreeMap.mem_insert]

/-! ## The levels are the distances -/

/-- After `k` levels the states within `k` events are seen, each with a shortest
way, and the frontier is those at distance `k`. -/
structure Leveled (next : σ → ε → Option σ) (events : List ε) (start : σ) (k : ℕ)
    (m : Traces σ ε × Traces σ ε) : Prop where
  seen : ∀ s, s ∈ m.1 ↔ Within next events start k s
  shortest : ∀ (s : σ) (es : List ε), m.1[s]? = some es → Shortest next events start es s
  frontier : ∀ (s : σ) (es : List ε), m.2[s]? = some es ↔ m.1[s]? = some es ∧ es.length = k

variable {m : Traces σ ε × Traces σ ε}

theorem mem_of_getElem? {t : Traces σ ε} (h : t[s]? = some es) : s ∈ t :=
  Std.TreeMap.mem_iff_isSome_getElem?.mpr (by rw [h]; rfl)

theorem getElem?_of_mem {t : Traces σ ε} (h : s ∈ t) : ∃ es, t[s]? = some es :=
  Option.isSome_iff_exists.mp (Std.TreeMap.mem_iff_isSome_getElem?.mp h)

theorem mem_tries {frontier : Traces σ ε} {t : (σ × List ε) × ε} :
    t ∈ tries events frontier ↔ frontier[t.1.1]? = some t.1.2 ∧ t.2 ∈ events := by
  obtain ⟨⟨s, es⟩, e⟩ := t
  unfold tries
  simp only [List.mem_flatMap, List.mem_map, Prod.mk.injEq, Prod.exists]
  constructor
  · rintro ⟨s', es', hmem, e', he, ⟨rfl, rfl⟩, rfl⟩
    exact ⟨Std.TreeMap.mem_toList_iff_getElem?_eq_some.mp hmem, he⟩
  · rintro ⟨hmem, he⟩
    exact ⟨s, es, Std.TreeMap.mem_toList_iff_getElem?_eq_some.mpr hmem, e, he, ⟨rfl, rfl⟩, rfl⟩

/-- What the tries of level `k` find: the states one event further, with their ways. -/
theorem mem_found (h : Leveled next events start k m) {entry : σ × List ε} :
    entry ∈ (tries events m.2).filterMap (found next) ↔ ∃ s₀ es₀ e, m.1[s₀]? = some es₀ ∧
      es₀.length = k ∧ e ∈ events ∧ next s₀ e = some entry.1 ∧ entry.2 = es₀ ++ [e] := by
  obtain ⟨s, es⟩ := entry
  simp only [List.mem_filterMap, mem_tries, Prod.exists, found, Option.map_eq_some_iff,
    Prod.mk.injEq, h.frontier]
  constructor
  · rintro ⟨s₀, es₀, e, ⟨⟨hs₀, hlen⟩, he⟩, s', hst, rfl, rfl⟩
    exact ⟨s₀, es₀, e, hs₀, hlen, he, hst, rfl⟩
  · rintro ⟨s₀, es₀, e, hs₀, hlen, he, hst, rfl⟩
    exact ⟨s₀, es₀, e, ⟨⟨hs₀, hlen⟩, he⟩, s, hst, rfl, rfl⟩

theorem way_of_found (h : Leveled next events start k m)
    (hmem : (s, es) ∈ (tries events m.2).filterMap (found next)) :
    Way next events start es s ∧ es.length = k + 1 := by
  obtain ⟨s₀, es₀, e, hs₀, hlen, he, hst, rfl⟩ := (mem_found h).mp hmem
  refine ⟨(h.shortest s₀ es₀ hs₀).1.snoc ⟨he, hst⟩, ?_⟩
  rw [List.length_append, List.length_singleton, hlen]

/-- A state one event after one that was seen was seen too, or is found. -/
theorem seen_or_found (h : Leveled next events start k m) {s₀ : σ} {e : ε}
    (hs₀ : Within next events start k s₀) (he : e ∈ events) (hst : next s₀ e = some s) :
    s ∈ m.1 ∨ ∃ es, (s, es) ∈ (tries events m.2).filterMap (found next) := by
  obtain ⟨es₀, hes₀⟩ := getElem?_of_mem ((h.seen s₀).mpr hs₀)
  have hshort := h.shortest s₀ es₀ hes₀
  rcases Nat.lt_or_eq_of_le (shortest_length_le hshort hs₀) with hlt | hlen
  · refine Or.inl ((h.seen s).mpr ⟨es₀ ++ [e], ?_, hshort.1.snoc ⟨he, hst⟩⟩)
    rw [List.length_append, List.length_singleton]
    omega
  · exact Or.inr ⟨es₀ ++ [e], (mem_found h).mpr ⟨s₀, es₀, e, hes₀, hlen, he, hst, rfl⟩⟩

theorem getElem?_advance_fst : (advance next events m).1[s]? =
    m.1[s]?.or (firstFor s ((tries events m.2).filterMap (found next))) :=
  (discover_foldl _ (m.1, ∅) s).1

theorem getElem?_advance_snd : (advance next events m).2[s]? =
    if s ∈ m.1 then none else firstFor s ((tries events m.2).filterMap (found next)) := by
  have h := (discover_foldl ((tries events m.2).filterMap (found next)) (m.1, ∅) s).2
  unfold advance
  rw [h]
  simp

/-- What is seen after a level was seen before it, or is found in it. -/
theorem seen_advance (hes : (advance next events m).1[s]? = some es) :
    m.1[s]? = some es ∨ s ∉ m.1 ∧ (s, es) ∈ (tries events m.2).filterMap (found next) := by
  rw [getElem?_advance_fst] at hes
  rcases hm : m.1[s]? with _ | es'
  · rw [hm, Option.none_or] at hes
    refine Or.inr ⟨?_, mem_of_firstFor hes⟩
    rw [Std.TreeMap.mem_iff_isSome_getElem?, hm]
    exact Bool.false_ne_true
  · rw [hm, Option.some_or] at hes
    exact Or.inl hes

theorem mem_advance_iff (h : Leveled next events start k m) :
    s ∈ (advance next events m).1 ↔ Within next events start (k + 1) s := by
  constructor
  · intro hs
    obtain ⟨es, hes⟩ := getElem?_of_mem hs
    rcases seen_advance hes with hold | ⟨_, hmem⟩
    · exact within_succ_iff.mpr (Or.inl ((h.seen s).mp (mem_of_getElem? hold)))
    · obtain ⟨hw, hlen⟩ := way_of_found h hmem
      exact ⟨es, le_of_eq hlen, hw⟩
  · intro hw
    have hmem : s ∈ m.1 ∨ ∃ es, (s, es) ∈ (tries events m.2).filterMap (found next) := by
      rcases within_succ_iff.mp hw with hw | ⟨s₀, e, hs₀, he, hst⟩
      · exact Or.inl ((h.seen s).mpr hw)
      · exact seen_or_found h hs₀ he hst
    rw [Std.TreeMap.mem_iff_isSome_getElem?, getElem?_advance_fst]
    rcases hmem with hold | ⟨es, hes⟩
    · obtain ⟨es, hes⟩ := getElem?_of_mem hold
      rw [hes, Option.some_or]
      rfl
    · obtain ⟨es', hes'⟩ := firstFor_of_mem hes
      rw [hes']
      cases m.1[s]? <;> rfl

theorem leveled_advance (h : Leveled next events start k m) :
    Leveled next events start (k + 1) (advance next events m) := by
  refine ⟨fun s => mem_advance_iff h, ?_, ?_⟩
  · intro s es hes
    rcases seen_advance hes with hold | ⟨hnot, hmem⟩
    · exact h.shortest s es hold
    · -- A way that is no longer would have put the state into an earlier level.
      obtain ⟨hw, hlen⟩ := way_of_found h hmem
      refine ⟨hw, ?_⟩
      intro es' hw'
      have hlong : ¬ es'.length ≤ k := fun hle => hnot ((h.seen s).mpr ⟨es', hle, hw'⟩)
      omega
  · intro s es
    rw [getElem?_advance_snd, getElem?_advance_fst]
    by_cases hs : s ∈ m.1
    · obtain ⟨es', hes'⟩ := getElem?_of_mem hs
      have hle := shortest_length_le (h.shortest s es' hes') ((h.seen s).mp hs)
      rw [if_pos hs, hes', Option.some_or, Option.some_inj]
      constructor
      · intro hnone
        cases hnone
      · rintro ⟨rfl, hlen⟩
        omega
    · rw [if_neg hs, Std.TreeMap.getElem?_eq_none hs, Option.none_or]
      constructor
      · intro hes
        exact ⟨hes, (way_of_found h (mem_of_firstFor hes)).2⟩
      · rintro ⟨hes, _⟩
        exact hes

theorem leveled_level (next : σ → ε → Option σ) (events : List ε) (start : σ) (k : ℕ) :
    Leveled next events start k (level next events start k) := by
  induction k with
  | zero =>
    have hget : ∀ (s : σ) (es : List ε), ((∅ : Traces σ ε).insert start [])[s]? = some es ↔
        s = start ∧ es = [] := by
      intro s es
      rw [Std.TreeMap.getElem?_insert]
      by_cases hs : start = s
      · subst hs
        simp [eq_comm]
      · simp [hs, Ne.symm hs]
    refine ⟨?_, ?_, ?_⟩
    · intro s
      show s ∈ (∅ : Traces σ ε).insert start [] ↔ Within next events start 0 s
      rw [within_zero_iff, Std.TreeMap.mem_insert, compare_eq_iff_eq]
      simp [eq_comm]
    · intro s es hes
      obtain ⟨rfl, rfl⟩ := (hget s es).mp hes
      exact ⟨.nil, fun _ _ => Nat.zero_le _⟩
    · intro s es
      show ((∅ : Traces σ ε).insert start [])[s]? = some es ↔
        ((∅ : Traces σ ε).insert start [])[s]? = some es ∧ es.length = 0
      rw [hget]
      constructor
      · rintro ⟨rfl, rfl⟩
        exact ⟨⟨rfl, rfl⟩, rfl⟩
      · exact And.left
  | succ k ih => exact leveled_advance ih

/-! ## All that is tried -/

section tried

variable (next : σ → ε → Option σ) (events : List ε) (start : σ)

/-- The states whose events are tried in the levels from `k` to `k + d`, in order. -/
def expandedFrom (k d : ℕ) : List σ :=
  (List.range' k d).flatMap fun j => (level next events start j).2.keys

/-- The tries of the levels from `k` to `k + d`, in order. -/
def triesFrom (k d : ℕ) : List ((σ × List ε) × ε) :=
  (List.range' k d).flatMap fun j => tries events (level next events start j).2

end tried

variable {d : ℕ}

theorem triesFrom_succ : triesFrom next events start k (d + 1) =
    tries events (level next events start k).2 ++ triesFrom next events start (k + 1) d := by
  unfold triesFrom
  rw [List.range'_succ, List.flatMap_cons]

theorem expandedFrom_succ : expandedFrom next events start k (d + 1) =
    (level next events start k).2.keys ++ expandedFrom next events start (k + 1) d := by
  unfold expandedFrom
  rw [List.range'_succ, List.flatMap_cons]

/-- More levels only add tries. -/
theorem triesFrom_extend :
    triesFrom next events start k d <+: triesFrom next events start k (d + 1) := by
  unfold triesFrom
  rw [List.range'_1_concat, List.flatMap_append]
  exact List.prefix_append _ _

/-- A level without a state is the last one. -/
theorem level_stalled (h : (level next events start k).2.isEmpty = true) :
    (level next events start (k + d)).1 = (level next events start k).1 ∧
      (level next events start (k + d)).2.isEmpty = true := by
  induction d with
  | zero => exact ⟨rfl, h⟩
  | succ d ih =>
    obtain ⟨hseen, hempty⟩ := ih
    have hnone : tries events (level next events start (k + d)).2 = [] := by
      have hlist : (level next events start (k + d)).2.toList = [] := by
        rw [← List.isEmpty_iff, Std.TreeMap.isEmpty_toList, hempty]
      unfold tries
      rw [hlist, List.flatMap_nil]
    have hsame : level next events start (k + (d + 1)) =
        ((level next events start (k + d)).1, ∅) := by
      show advance next events (level next events start (k + d)) = _
      unfold advance
      rw [hnone]
      rfl
    rw [hsame]
    exact ⟨hseen, Std.TreeMap.isEmpty_emptyc⟩

theorem expandedFrom_stalled (h : (level next events start k).2.isEmpty = true) :
    expandedFrom next events start k d = [] ∧ triesFrom next events start k d = [] := by
  have hnone : ∀ j ∈ List.range' k d, (level next events start j).2.toList = [] := by
    intro j hj
    obtain ⟨hle, _⟩ := List.mem_range'_1.mp hj
    obtain ⟨i, rfl⟩ := Nat.exists_eq_add_of_le hle
    rw [← List.isEmpty_iff, Std.TreeMap.isEmpty_toList, (level_stalled (d := i) h).2]
  unfold expandedFrom triesFrom tries
  rw [List.flatMap_eq_nil_iff, List.flatMap_eq_nil_iff]
  refine ⟨?_, ?_⟩
  · intro j hj
    rw [← Std.TreeMap.map_fst_toList_eq_keys, hnone j hj, List.map_nil]
  · intro j hj
    rw [hnone j hj, List.flatMap_nil]

/-- The state is fewer than `d` events from the start. -/
def Before (next : σ → ε → Option σ) (events : List ε) (start : σ) (d : ℕ) (s : σ) : Prop :=
  ∃ es, es.length < d ∧ Way next events start es s

theorem mem_level_keys : s ∈ (level next events start k).2.keys ↔
    ∃ es, Shortest next events start es s ∧ es.length = k := by
  have h := leveled_level next events start k
  rw [Std.TreeMap.mem_keys]
  constructor
  · intro hs
    obtain ⟨es, hes⟩ := getElem?_of_mem hs
    obtain ⟨hseen, hlen⟩ := (h.frontier s es).mp hes
    exact ⟨es, h.shortest s es hseen, hlen⟩
  · rintro ⟨es, hshort, rfl⟩
    obtain ⟨es', hes'⟩ := getElem?_of_mem ((h.seen s).mpr ⟨es, le_refl _, hshort.1⟩)
    have hlen := Nat.le_antisymm ((h.shortest s es' hes').2 es hshort.1)
      (hshort.2 es' (h.shortest s es' hes').1)
    exact mem_of_getElem? ((h.frontier s es').mpr ⟨hes', hlen⟩)

/-- The states that are expanded are those before the last level, each once. -/
theorem mem_expandedFrom :
    s ∈ expandedFrom next events start 0 d ↔ Before next events start d s := by
  unfold expandedFrom
  simp only [List.mem_flatMap, List.mem_range'_1, mem_level_keys]
  constructor
  · rintro ⟨k, ⟨_, hlt⟩, es, hshort, rfl⟩
    exact ⟨es, by omega, hshort.1⟩
  · rintro ⟨es, hlt, hw⟩
    have h := leveled_level next events start es.length
    obtain ⟨es', hes'⟩ := getElem?_of_mem ((h.seen s).mpr ⟨es, le_refl _, hw⟩)
    have hshort := h.shortest s es' hes'
    have hle := hshort.2 es hw
    exact ⟨es'.length, by omega, es', hshort, rfl⟩

theorem nodup_expandedFrom : (expandedFrom next events start k d).Nodup := by
  unfold expandedFrom
  rw [List.nodup_flatMap]
  refine ⟨fun j _ => Std.TreeMap.nodup_keys, ?_⟩
  refine List.Pairwise.imp ?_ List.nodup_range'
  intro i j hij s hi hj
  obtain ⟨es, hshort, rfl⟩ := mem_level_keys.mp hi
  obtain ⟨es', hshort', rfl⟩ := mem_level_keys.mp hj
  exact hij (Nat.le_antisymm (hshort.2 es' hshort'.1) (hshort'.2 es hshort.1))

/-! ## Counting -/

/-- A list without repetitions counts what it holds. -/
theorem encard_of_nodup {α : Type*} {l : List α} (h : l.Nodup) :
    {a | a ∈ l}.encard = (l.length : ℕ∞) := by
  classical
  have hset : {a | a ∈ l} = (l.toFinset : Set α) := by
    ext a
    simp
  rw [hset, Set.encard_coe_eq_coe_finsetCard, List.toFinset_card_of_nodup h]

theorem size_level : ((level next events start d).1.size : ℕ∞) =
    {s | Within next events start d s}.encard := by
  have hset : {s | Within next events start d s} =
      {s | s ∈ (level next events start d).1.keys} := by
    ext s
    simp only [Set.mem_ofPred_eq, Std.TreeMap.mem_keys, (leveled_level next events start d).seen]
  rw [hset, encard_of_nodup Std.TreeMap.nodup_keys, Std.TreeMap.length_keys]

/-- Every event is tried in every expanded state. -/
theorem tried_pairs : (triesFrom next events start 0 d).map (fun t => (t.1.1, t.2)) =
    expandedFrom next events start 0 d ×ˢ events := by
  have hlevel : ∀ j, (tries events (level next events start j).2).map (fun t => (t.1.1, t.2)) =
      (level next events start j).2.keys ×ˢ events := by
    intro j
    unfold tries
    rw [← Std.TreeMap.map_fst_toList_eq_keys, List.map_flatMap]
    show _ = List.product _ _
    unfold List.product
    rw [List.flatMap_map]
    simp only [List.map_map, Function.comp_def]
  unfold triesFrom expandedFrom
  rw [List.map_flatMap]
  simp only [hlevel]
  show _ = List.product _ _
  unfold List.product
  rw [List.flatMap_assoc]
  rfl

/-- The tries that meet `p` are as many as the states and events that meet it. -/
theorem count_tries (hnodup : events.Nodup) (p : σ → ε → Bool) :
    ((triesFrom next events start 0 d).countP (fun t => p t.1.1 t.2) : ℕ∞) =
      {q : σ × ε | Before next events start d q.1 ∧ q.2 ∈ events ∧ p q.1 q.2 = true}.encard := by
  have hset : {q : σ × ε | Before next events start d q.1 ∧ q.2 ∈ events ∧ p q.1 q.2 = true} =
      {q | q ∈ (expandedFrom next events start 0 d ×ˢ events).filter fun q => p q.1 q.2} := by
    ext ⟨s, e⟩
    simp only [Set.mem_ofPred_eq, List.mem_filter, List.mem_product, mem_expandedFrom, and_assoc]
  have hpairs : (expandedFrom next events start 0 d ×ˢ events).Nodup :=
    nodup_expandedFrom.product hnodup
  rw [hset, encard_of_nodup (hpairs.filter _), ← List.countP_eq_length_filter, ← tried_pairs,
    List.countP_map]
  rfl

/-! ## What the tries find -/

/-- The states found in the first `d` levels, with their ways, in order. -/
def foundBefore (next : σ → ε → Option σ) (events : List ε) (start : σ) (d : ℕ) :
    List (σ × List ε) :=
  (triesFrom next events start 0 d).filterMap (found next)

theorem foundBefore_eq : foundBefore next events start d = (List.range' 0 d).flatMap fun j =>
    (tries events (level next events start j).2).filterMap (found next) := by
  unfold foundBefore triesFrom
  rw [List.filterMap_flatMap]

theorem foundBefore_extend :
    foundBefore next events start d <+: foundBefore next events start (d + 1) :=
  triesFrom_extend.filterMap _

theorem way_of_foundBefore (h : (s, es) ∈ foundBefore next events start d) :
    Way next events start es s ∧ 1 ≤ es.length ∧ es.length ≤ d := by
  rw [foundBefore_eq] at h
  obtain ⟨j, hj, hmem⟩ := List.mem_flatMap.mp h
  obtain ⟨_, hlt⟩ := List.mem_range'_1.mp hj
  obtain ⟨hw, hlen⟩ := way_of_found (leveled_level next events start j) hmem
  exact ⟨hw, by omega, by omega⟩

/-- Every state that some events lead to is found, if by other ones. -/
theorem found_of_way (hw : Way next events start es s) (hpos : 1 ≤ es.length)
    (hle : es.length ≤ d) : ∃ es', (s, es') ∈ foundBefore next events start d := by
  rcases List.eq_nil_or_concat es with rfl | ⟨es₀, e, rfl⟩
  · exact absurd hpos (by simp)
  · rw [List.concat_eq_append] at hw hle
    rw [List.length_append, List.length_singleton] at hle
    obtain ⟨s₀, hw₀, he, hst⟩ := hw.last
    have hs₀ := mem_expandedFrom.mpr ⟨es₀, hle, hw₀⟩
    have hpair : (s₀, e) ∈ (triesFrom next events start 0 d).map fun t => (t.1.1, t.2) := by
      rw [tried_pairs, List.mem_product]
      exact ⟨hs₀, he⟩
    obtain ⟨⟨⟨s₁, es₁⟩, e₁⟩, ht, heq⟩ := List.mem_map.mp hpair
    obtain ⟨rfl, rfl⟩ := Prod.mk.inj heq
    exact ⟨es₁ ++ [e₁], List.mem_filterMap.mpr ⟨_, ht, by simp [found, hst]⟩⟩

/-- The ways are found in the order of their lengths. -/
theorem foundBefore_sorted :
    (foundBefore next events start d).Pairwise fun a b => a.2.length ≤ b.2.length := by
  have hlen : ∀ j, ∀ a ∈ (tries events (level next events start j).2).filterMap (found next),
      a.2.length = j + 1 := by
    intro j a ha
    exact (way_of_found (leveled_level next events start j) ha).2
  rw [foundBefore_eq, List.pairwise_flatMap]
  refine ⟨?_, ?_⟩
  · intro j _
    refine List.pairwise_of_forall_mem_list ?_
    intro a ha b hb
    rw [hlen j a ha, hlen j b hb]
  · refine List.Pairwise.imp ?_ (List.pairwise_lt_range' 1)
    intro i j hij a ha b hb
    rw [hlen i a ha, hlen j b hb]
    omega

end levels

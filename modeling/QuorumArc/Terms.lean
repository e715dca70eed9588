-- An office with one holder at a time. Each term of it has a holder and an
-- epoch, a new term is of a newer epoch than the one before it, and only the
-- holder of the current term acts.
import Mathlib.Order.Defs.PartialOrder
import QuorumArc.Runs

open runs

namespace terms

variable {N E : Type*}

structure Term (N E : Type*) where
  holder : N
  epoch : E
deriving DecidableEq

inductive Event (N E : Type*) where
  | granted (term : Term N E)
  | acted (term : Term N E)

def Event.act? : Event N E → Option (Term N E)
  | .acted term => some term
  | .granted _ => none

/-- The acts of a run, in order. -/
def acts (es : List (Event N E)) : List (Term N E) := es.filterMap Event.act?

section order

variable [Preorder E]

/-- The steps of the office, with its current term if it was ever held. -/
inductive Step : Option (Term N E) → Event N E → Option (Term N E) → Prop
  | granted {current : Option (Term N E)} (term : Term N E) :
      (∀ t, current = some t → t.epoch < term.epoch) → Step current (.granted term) (some term)
  | acted (term : Term N E) : Step (some term) (.acted term) (some term)

/-- `b` is of the same term as `a`, or of a newer epoch. -/
def NoOlder (a b : Term N E) : Prop := a = b ∨ a.epoch < b.epoch

/-- The acts come term by term: no act is of an older term than one before it. -/
def InOrder (ts : List (Term N E)) : Prop := ts.Pairwise NoOlder

variable {a b c : Term N E} {ts : List (Term N E)}

theorem NoOlder.trans_lt (h : NoOlder a b) (hlt : b.epoch < c.epoch) : NoOlder a c := by
  rcases h with rfl | h
  · exact Or.inr hlt
  · exact Or.inr (lt_trans h hlt)

/-- Acts of one epoch are of one holder. -/
theorem InOrder.same_holder (h : InOrder ts) (ha : a ∈ ts) (hb : b ∈ ts)
    (he : a.epoch = b.epoch) : a = b := by
  have hsame : ts.Pairwise fun a b => a.epoch = b.epoch → a = b := by
    refine List.Pairwise.imp ?_ h
    rintro a b (hab | hlt) heq
    · exact hab
    · exact absurd heq (ne_of_lt hlt)
  refine List.Pairwise.forall_of_forall_of_flip ?_ hsame ?_ ha hb he
  · intro a _ _
    rfl
  · refine hsame.imp ?_
    intro a b hab heq
    exact (hab heq.symm).symm

/-! ## The law -/

/-- Every act so far is of the current term or of an older epoch. -/
def PastActs (es : List (Event N E)) (current : Option (Term N E)) : Prop :=
  ∀ a ∈ acts es, ∃ t, current = some t ∧ NoOlder a t

theorem inOrder_step {es : List (Event N E)} {e : Event N E} {current current' : Option (Term N E)}
    (h : InOrder (acts es) ∧ PastActs es current) (hstep : Step current e current') :
    InOrder (acts (es ++ [e])) ∧ PastActs (es ++ [e]) current' := by
  obtain ⟨horder, hpast⟩ := h
  unfold PastActs acts
  rw [filterMap_snoc]
  change InOrder (acts es ++ _) ∧ ∀ a ∈ acts es ++ _, _
  cases hstep with
  | granted term hnewer =>
    simp only [Event.act?, Option.toList_none, List.append_nil]
    refine ⟨horder, ?_⟩
    intro a ha
    obtain ⟨t, ht, hat⟩ := hpast a ha
    exact ⟨term, rfl, hat.trans_lt (hnewer t ht)⟩
  | acted term =>
    have hall : ∀ a ∈ acts es, NoOlder a term := by
      intro a ha
      obtain ⟨t, ht, hat⟩ := hpast a ha
      cases ht
      exact hat
    simp only [Event.act?, Option.toList_some]
    refine ⟨?_, ?_⟩
    · refine List.pairwise_append.mpr ⟨horder, List.pairwise_singleton _ _, ?_⟩
      intro a ha b hb
      rw [List.mem_singleton.mp hb]
      exact hall a ha
    · intro a ha
      refine ⟨term, rfl, ?_⟩
      rcases List.mem_append.mp ha with ha | ha
      · exact hall a ha
      · exact Or.inl (List.mem_singleton.mp ha)

theorem inOrder_run {es : List (Event N E)} {current : Option (Term N E)}
    (hrun : Run Step none es current) : InOrder (acts es) := by
  refine (hrun.history (fun es current => InOrder (acts es) ∧ PastActs es current) ?_ ?_).1
  · exact ⟨List.Pairwise.nil, by simp [PastActs, acts]⟩
  · intro es current e current' _ h hstep
    exact inOrder_step h hstep

end order

end terms

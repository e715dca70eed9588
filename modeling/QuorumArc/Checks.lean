-- Validators that stop at the first failed check. A validator is a chain of
-- refusals in `Except`; it accepts when no refusal fires.
import Mathlib.Tactic.TypeStar

namespace checks

variable {ε α β : Type*}

/-- `if c { return Err(e); }` -/
def refuse_if (c : Prop) [Decidable c] (e : ε) : Except ε Unit :=
  if c then .error e else .ok ()

/-- `Option::ok_or`. -/
def ok_or (o : Option α) (e : ε) : Except ε α :=
  match o with
  | some a => .ok a
  | none => .error e

@[simp] theorem refuse_if_eq_ok {c : Prop} [Decidable c] {e : ε} {u : Unit} :
    refuse_if c e = .ok u ↔ ¬ c := by
  unfold refuse_if
  split <;> simp [*]

theorem refuse_if_pos {c : Prop} [Decidable c] {e : ε} (h : c) : refuse_if c e = .error e :=
  if_pos h

theorem refuse_if_neg {c : Prop} [Decidable c] {e : ε} (h : ¬ c) : refuse_if c e = .ok () :=
  if_neg h

@[simp] theorem ok_or_eq_ok {o : Option α} {e : ε} {a : α} : ok_or o e = .ok a ↔ o = some a := by
  cases o <;> simp [ok_or]

theorem toOption_eq_some {x : Except ε α} {a : α} : x.toOption = some a ↔ x = .ok a := by
  cases x <;> simp [Except.toOption]

/-- A refusal whose failure the rest of the chain keeps as a proof. -/
theorem dite_error_eq_ok {c : Prop} [Decidable c] {e : ε} {f : ¬ c → Except ε α} {a : α} :
    (if h : c then .error e else f h) = .ok a ↔ ∃ h : ¬ c, f h = .ok a := by
  split <;> simp [*]

section bind

variable {ε α β : Type} {x : Except ε α} {f : α → Except ε β}

@[simp] theorem ok_bind {a : α} : ((.ok a : Except ε α) >>= f) = f a := rfl

@[simp] theorem error_bind {e : ε} : ((.error e : Except ε α) >>= f) = .error e := rfl

/-- A chain accepts when its first check accepts and the rest accepts what it gave. -/
theorem chain_eq_ok {b : β} : (x >>= f) = .ok b ↔ ∃ a, x = .ok a ∧ f a = .ok b := by
  rcases x with e | a
  · simp [bind, Except.bind]
  · simp [bind, Except.bind]

end bind

/-! ## Chains that agree -/

/-- Both refuse for the same reason, or both accept with related results. -/
inductive Agrees (R : α → β → Prop) : Except ε α → Except ε β → Prop
  | ok {a : α} {b : β} : R a b → Agrees R (.ok a) (.ok b)
  | error {e : ε} : Agrees R (.error e) (.error e)

theorem Agrees.of_eq {x : Except ε α} : Agrees (· = ·) x x := by
  rcases x with e | a
  · exact .error
  · exact .ok rfl

theorem Agrees.map {α' β' : Type*} {R : α → β → Prop} {S : α' → β' → Prop} {f : α → α'}
    {f' : β → β'} {x : Except ε α} {x' : Except ε β} (h : Agrees R x x')
    (hf : ∀ a b, R a b → S (f a) (f' b)) : Agrees S (x.map f) (x'.map f') := by
  cases h with
  | ok ha => exact .ok (hf _ _ ha)
  | error => exact .error

theorem Agrees.unique {R : α → β → Prop} {x : Except ε α} {y y' : Except ε β}
    (hR : ∀ a b b', R a b → R a b' → b = b') (h : Agrees R x y) (h' : Agrees R x y') : y = y' := by
  cases h with
  | ok hb =>
    cases h' with
    | ok hb' => rw [hR _ _ _ hb hb']
  | error =>
    cases h'
    rfl

theorem agrees_refuse_if {c c' : Prop} [Decidable c] [Decidable c'] {e : ε} (h : c' ↔ c) :
    Agrees (· = ·) (refuse_if c e) (refuse_if c' e) := by
  by_cases hc : c
  · rw [refuse_if_pos hc, refuse_if_pos (h.mpr hc)]
    exact .error
  · rw [refuse_if_neg hc, refuse_if_neg (mt h.mp hc)]
    exact .ok rfl

/-- Choices by conditions that are the same are related if their branches are. -/
theorem ite_related {R : α → β → Prop} {c c' : Prop} [Decidable c] [Decidable c'] {a₁ a₂ : α}
    {b₁ b₂ : β} (h : c' ↔ c) (h₁ : c → R a₁ b₁) (h₂ : ¬ c → R a₂ b₂) :
    R (if c then a₁ else a₂) (if c' then b₁ else b₂) := by
  by_cases hc : c
  · rw [if_pos hc, if_pos (h.mpr hc)]
    exact h₁ hc
  · rw [if_neg hc, if_neg (mt h.mp hc)]
    exact h₂ hc

section bind

variable {ε α α' β β' : Type} {R : α → α' → Prop} {S : β → β' → Prop} {x : Except ε α}
  {x' : Except ε α'} {f : α → Except ε β} {f' : α' → Except ε β'}

theorem Agrees.bind (h : Agrees R x x') (hf : ∀ a a', R a a' → Agrees S (f a) (f' a')) :
    Agrees S (x >>= f) (x' >>= f') := by
  cases h with
  | ok ha => exact hf _ _ ha
  | error => exact .error

/-- A first refusal by conditions that are the same. -/
theorem Agrees.refuse {c c' : Prop} [Decidable c] [Decidable c'] {e : ε} {y : Except ε β}
    {y' : Except ε β'} (h : c' ↔ c) (hrest : ¬ c → Agrees S y y') :
    Agrees S (refuse_if c e >>= fun _ => y) (refuse_if c' e >>= fun _ => y') := by
  by_cases hc : c
  · rw [refuse_if_pos hc, refuse_if_pos (h.mpr hc)]
    exact .error
  · rw [refuse_if_neg hc, refuse_if_neg (mt h.mp hc)]
    exact hrest hc

end bind

end checks

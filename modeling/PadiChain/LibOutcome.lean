import Mathlib.Logic.Basic

/-! Programs that may crash. A run gives a value, reports an error, breaks off in a panic or does not
end. The rules say when a sequence of steps comes back with a value or an error, and when one that is given
more time ends as before. -/

inductive Outcome (ε α : Type) where
  | ok (a : α)
  | error (e : ε)
  | panic
  | diverge
  deriving DecidableEq

namespace Outcome

variable {ε ε' α β : Type}

protected def bind (x : Outcome ε α) (f : α → Outcome ε β) : Outcome ε β :=
  match x with
  | ok a => f a
  | error e => error e
  | panic => panic
  | diverge => diverge

instance : Monad (Outcome ε) where
  pure := ok
  bind := Outcome.bind

def mapError (f : ε → ε') : Outcome ε α → Outcome ε' α
  | ok a => ok a
  | error e => error (f e)
  | panic => panic
  | diverge => diverge

def ofExcept : Except ε α → Outcome ε α
  | .ok a => ok a
  | .error e => error e

def Returns : Outcome ε α → Prop
  | ok _ => True
  | error _ => True
  | panic => False
  | diverge => False

instance : ∀ x : Outcome ε α, Decidable x.Returns
  | ok _ => isTrue trivial
  | error _ => isTrue trivial
  | panic => isFalse id
  | diverge => isFalse id

@[simp] theorem ok_bind (a : α) (f : α → Outcome ε β) : (ok a >>= f) = f a := rfl

@[simp] theorem error_bind (e : ε) (f : α → Outcome ε β) : (error e >>= f) = error e := rfl

@[simp] theorem returns_ok {a : α} : (ok a : Outcome ε α).Returns := trivial

@[simp] theorem returns_pure {a : α} : (pure a : Outcome ε α).Returns := trivial

@[simp] theorem returns_error {e : ε} : (error e : Outcome ε α).Returns := trivial

theorem returns_check {c : Prop} [Decidable c] {e : ε} {a : α} :
    (if c then error e else pure a : Outcome ε α).Returns := by
  split <;> trivial

@[simp] theorem returns_ofExcept {x : Except ε α} : (ofExcept x).Returns := by
  cases x <;> trivial

variable {a : α} {f : α → Outcome ε β} {x y : Outcome ε α} {P : α → Prop} {D : Prop} {Q : β → Prop}

theorem ofExcept_eq_ok {x : Except ε α} : ofExcept x = ok a ↔ x = .ok a := by
  cases x <;> simp [ofExcept]

theorem returns_mapError {f : ε → ε'} : (x.mapError f).Returns ↔ x.Returns := by
  cases x <;> exact Iff.rfl

theorem mapError_eq_ok {f : ε → ε'} : x.mapError f = ok a ↔ x = ok a := by
  cases x <;> simp [mapError]

theorem bind_eq_ok {b : β} : x >>= f = ok b ↔ ∃ a, x = ok a ∧ f a = ok b := by
  cases x <;> simp [Bind.bind, Outcome.bind]

theorem returns_bind : (x >>= f).Returns ↔ x.Returns ∧ ∀ a, x = ok a → (f a).Returns := by
  cases x <;> simp [Bind.bind, Outcome.bind, Returns]

/-- The run ends with a value that has the property; it may go on for ever only if `D`. -/
def Ends (P : α → Prop) (D : Prop) : Outcome ε α → Prop
  | ok a => P a
  | error _ => False
  | panic => False
  | diverge => D

theorem Ends.mono {Q : α → Prop} {D' : Prop} (h : x.Ends P D) (hP : ∀ a, P a → Q a) (hD : D → D') : x.Ends Q D' := by
  cases x with
  | ok a => exact hP a h
  | error _ | panic => exact h
  | diverge => exact hD h

theorem Ends.bind (h : x.Ends P D) (hf : ∀ a, P a → (f a).Ends Q D) : (x >>= f).Ends Q D := by
  cases x with
  | ok a => exact hf a h
  | error _ | panic | diverge => exact h

theorem Ends.exists_ok (h : x.Ends P D) (hD : ¬ D) : ∃ a, x = ok a ∧ P a := by
  cases x with
  | ok a => exact ⟨a, rfl, h⟩
  | error _ | panic => exact h.elim
  | diverge => exact (hD h).elim

/-- The run comes back with an error, or with a value that has the property. -/
def Meets (P : α → Prop) : Outcome ε α → Prop
  | ok a => P a
  | error _ => True
  | panic => False
  | diverge => False

theorem Meets.bind (h : x.Meets P) (hf : ∀ a, P a → (f a).Meets Q) : (x >>= f).Meets Q := by
  cases x with
  | ok a => exact hf a h
  | error e => trivial
  | panic | diverge => exact h

theorem Meets.mapError (h : x.Meets P) {f : ε → ε'} : (x.mapError f).Meets P := by
  cases x with
  | ok a | panic | diverge => exact h
  | error e => trivial

theorem Ends.exists_ok_forall {ι : Type} [Nonempty ι] {P : ι → α → Prop}
    (h : ∀ i, x.Ends (P i) D) (hD : ¬ D) : ∃ a, x = ok a ∧ ∀ i, P i a := by
  obtain ⟨i⟩ := ‹Nonempty ι›
  obtain ⟨a, rfl, -⟩ := (h i).exists_ok hD
  exact ⟨a, rfl, h⟩

/-- The second run is the first one, if that ends. -/
def Below (x y : Outcome ε α) : Prop := x = diverge ∨ x = y

theorem Below.refl (x : Outcome ε α) : x.Below x := .inr rfl

theorem Below.trans {z : Outcome ε α} (h : x.Below y) (h' : y.Below z) : x.Below z := by
  rcases h with rfl | rfl
  · exact .inl rfl
  · exact h'

theorem Below.bind {g : α → Outcome ε β} (h : x.Below y) (hfg : ∀ a, (f a).Below (g a)) :
    (x >>= f).Below (y >>= g) := by
  rcases h with rfl | rfl
  · exact .inl rfl
  · cases x with
    | ok a => exact hfg a
    | error _ | panic => exact .inr rfl
    | diverge => exact .inl rfl

theorem Below.eq_ok (h : x.Below y) (hx : x = ok a) : y = ok a := by
  rcases h with h | h
  · cases hx.symm.trans h
  · exact h.symm.trans hx

end Outcome

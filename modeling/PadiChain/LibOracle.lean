import Mathlib.Logic.Basic

/-! Computations that ask an oracle questions. A computation is the tree of its questions, so what it
can depend on is exactly the answers along one path of the tree. -/

/-- A computation that asks for values of type `ρ` under names of type `ι`. -/
inductive Query (ι ρ α : Type) where
  | done (result : α)
  | ask (name : ι) (next : ρ → Query ι ρ α)

namespace Query

variable {ι ρ α β : Type}

def eval (oracle : ι → ρ) : Query ι ρ α → α
  | done result => result
  | ask name next => (next (oracle name)).eval oracle

def bind : Query ι ρ α → (α → Query ι ρ β) → Query ι ρ β
  | done result, f => f result
  | ask name next, f => ask name fun answer => (next answer).bind f

/-- Two oracles give the same answers to the questions the computation asks. -/
def Agree (left right : ι → ρ) : Query ι ρ α → Prop
  | done _ => True
  | ask name next => left name = right name ∧ (next (left name)).Agree left right

@[simp] theorem eval_done (oracle : ι → ρ) (result : α) : (done result : Query ι ρ α).eval oracle = result :=
  rfl

variable {left right : ι → ρ} {computation : Query ι ρ α}

/-- Agreement on the questions asked is agreement on the result. -/
theorem eval_eq_of_agree (h : computation.Agree left right) : computation.eval left = computation.eval right := by
  induction computation with
  | done result => rfl
  | ask name next ih =>
    obtain ⟨hname, hnext⟩ := h
    calc (next (left name)).eval left = (next (left name)).eval right := ih (left name) hnext
      _ = (next (right name)).eval right := by rw [hname]

theorem agree_of_forall (h : ∀ name, left name = right name) :
    computation.Agree left right := by
  induction computation with
  | done result => trivial
  | ask name next ih => exact ⟨h name, ih (left name)⟩

/-- Every question the computation asks under an oracle satisfies a predicate. -/
def Asks (oracle : ι → ρ) (P : ι → Prop) : Query ι ρ α → Prop
  | done _ => True
  | ask name next => P name ∧ (next (oracle name)).Asks oracle P

theorem agree_of_asks {P : ι → Prop} (h : ∀ name, P name → left name = right name)
    (hasks : computation.Asks left P) : computation.Agree left right := by
  induction computation with
  | done result => trivial
  | ask name next ih => exact ⟨h name hasks.1, ih (left name) hasks.2⟩

end Query

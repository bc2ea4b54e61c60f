import PadiChain.LibOutcome

/-! Commands over a state. A command changes the state and returns a value, or fails with an error; the state
it has reached is kept in both cases. It may also break off in a panic or not end. What holds after a command is
computed backwards, from the postcondition of its value, that of its error, and whether it may go on for ever;
a panic satisfies none. -/

def Command (σ ε α : Type) : Type := σ → Outcome (ε × σ) (α × σ)

namespace Command

variable {σ ε α β : Type}

protected def bind (c : Command σ ε α) (f : α → Command σ ε β) : Command σ ε β := fun s =>
  match c s with
  | .ok (a, t) => f a t
  | .error e => .error e
  | .panic => .panic
  | .diverge => .diverge

instance : Monad (Command σ ε) where
  pure a := fun s => .ok (a, s)
  bind := Command.bind

def throw (e : ε) : Command σ ε α := fun s => .error (e, s)

/-- What the runtime does where an index or a slice is out of range. -/
def crash : Command σ ε α := fun _ => .panic

def get : Command σ ε σ := fun s => .ok (s, s)

def modify (f : σ → σ) : Command σ ε Unit := fun s => .ok ((), f s)

/-- A function of the state that returns a value besides. -/
def change (f : σ → α × σ) : Command σ ε α := fun s => .ok (f s)

def orThrow (e : ε) : Option α → Command σ ε α
  | some a => pure a
  | none => throw e

def orCrash : Option α → Command σ ε α
  | some a => pure a
  | none => crash

/-- The postconditions hold of what the command does from a state. -/
def wp (c : Command σ ε α) (Q : α → σ → Prop) (R : ε → σ → Prop) (D : Prop) (s : σ) : Prop :=
  match c s with
  | .ok (a, t) => Q a t
  | .error (e, t) => R e t
  | .panic => False
  | .diverge => D

variable {Q Q' : α → σ → Prop} {R R' : ε → σ → Prop} {D D' : Prop} {s : σ}

@[simp] theorem wp_pure (a : α) : wp (pure a : Command σ ε α) Q R D s ↔ Q a s := Iff.rfl

@[simp] theorem wp_bind (c : Command σ ε β) (f : β → Command σ ε α) :
    wp (c >>= f) Q R D s ↔ wp c (fun b t => wp (f b) Q R D t) R D s := by
  simp only [wp, Bind.bind, Command.bind]
  rcases c s with ⟨b, t⟩ | ⟨e, t⟩ | _ | _ <;> rfl

@[simp] theorem wp_throw (e : ε) : wp (throw e : Command σ ε α) Q R D s ↔ R e s := Iff.rfl

@[simp] theorem wp_crash : wp (crash : Command σ ε α) Q R D s ↔ False := Iff.rfl

@[simp] theorem wp_get {Q : σ → σ → Prop} : wp (get : Command σ ε σ) Q R D s ↔ Q s s := Iff.rfl

@[simp] theorem wp_modify {Q : Unit → σ → Prop} (f : σ → σ) : wp (modify f : Command σ ε Unit) Q R D s ↔ Q () (f s) :=
  Iff.rfl

@[simp] theorem wp_orThrow (e : ε) (o : Option α) :
    wp (orThrow e o) Q R D s ↔ (∀ a, o = some a → Q a s) ∧ (o = none → R e s) := by
  cases o with
  | none | some a => simp [orThrow]

@[simp] theorem wp_orCrash (o : Option α) : wp (orCrash o : Command σ ε α) Q R D s ↔ ∃ a, o = some a ∧ Q a s := by
  cases o with
  | none | some a => simp [orCrash]

variable {p : Prop} {c : Command σ ε α} {t : σ}

@[simp] theorem wp_ite [Decidable p] (c d : Command σ ε α) :
    wp (if p then c else d) Q R D s ↔ (p → wp c Q R D s) ∧ (¬ p → wp d Q R D s) := by
  by_cases h : p
  · simp [h]
  · simp [h]

theorem wp_mono (h : wp c Q R D s) (hQ : ∀ a t, Q a t → Q' a t) (hR : ∀ e t, R e t → R' e t)
    (hD : D → D') : wp c Q' R' D' s := by
  simp only [wp] at h ⊢
  rcases hc : c s with ⟨a, t⟩ | ⟨e, t⟩ | _ | _
  · rw [hc] at h
    exact hQ a t h
  · rw [hc] at h
    exact hR e t h
  · rw [hc] at h
    exact h
  · rw [hc] at h
    exact hD h

/-- A command that neither fails nor goes on for ever returns a value. -/
theorem exists_ok_of_wp (h : wp c Q (fun _ _ => False) False s) : ∃ a t, c s = .ok (a, t) ∧ Q a t := by
  simp only [wp] at h
  rcases hc : c s with ⟨a, t⟩ | ⟨e, t⟩ | _ | _
  · rw [hc] at h
    exact ⟨a, t, rfl, h⟩
  all_goals
    rw [hc] at h
    exact h.elim

theorem wp_error {e : ε} (h : wp c Q R D s) (hc : c s = .error (e, t)) : R e t := by
  rw [wp, hc] at h
  exact h

theorem wp_of_ok {a : α} (hc : c s = .ok (a, t)) (h : Q a t) : wp c Q R D s := by
  rw [wp, hc]
  exact h

/-- The second command does what the first one does, if that ends. -/
def Below (c d : Command σ ε α) : Prop := ∀ s, (c s).Below (d s)

theorem Below.refl (c : Command σ ε α) : c.Below c := fun s => .refl (c s)

theorem Below.bind {c d : Command σ ε β} {f g : β → Command σ ε α} (h : c.Below d) (hfg : ∀ b, (f b).Below (g b)) :
    (c >>= f).Below (d >>= g) := by
  intro s
  simp only [Bind.bind, Command.bind]
  rcases h s with hc | hc
  · rw [hc]
    exact .inl rfl
  · rw [← hc]
    rcases c s with ⟨b, t⟩ | e | _ | _
    · exact hfg b t
    all_goals exact .refl _

theorem Below.ite [Decidable p] {d c' d' : Command σ ε α} (h : c.Below c') (h' : d.Below d') :
    (if p then c else d).Below (if p then c' else d') := by
  split
  · exact h
  · exact h'

end Command

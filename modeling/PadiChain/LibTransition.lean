import Mathlib.Data.List.Basic
import Mathlib.Logic.Relation

/-! Machines that take one operation after another. A run is a list of operations; a condition on
steps speaks about the state before the step; an output is what a step appends to a log. The rules
here carry an invariant from single steps to whole runs. -/

namespace Transition

variable {σ ι ω : Type*} (step : σ → ι → σ)

def run (s : σ) (ops : List ι) : σ := ops.foldl step s

@[simp] theorem run_nil (s : σ) : run step s [] = s := rfl

@[simp] theorem run_cons (s : σ) (op : ι) (ops : List ι) :
    run step s (op :: ops) = run step (step s op) ops := rfl

theorem run_append (s : σ) (first second : List ι) :
    run step s (first ++ second) = run step (run step s first) second := List.foldl_append

/-- Every step of the run meets the condition in the state it starts from. -/
def Steps (cond : σ → ι → Prop) : σ → List ι → Prop
  | _, [] => True
  | s, op :: ops => cond s op ∧ Steps cond (step s op) ops

def log (out : σ → ι → List ω) : σ → List ι → List ω
  | _, [] => []
  | s, op :: ops => out s op ++ log out (step s op) ops

variable {step}

instance decidableSteps {cond : σ → ι → Prop} [∀ s op, Decidable (cond s op)] :
    ∀ (s : σ) (ops : List ι), Decidable (Steps step cond s ops)
  | _, [] => isTrue trivial
  | s, op :: ops => @instDecidableAnd _ _ _ (decidableSteps (step s op) ops)

variable {cond : σ → ι → Prop} {s : σ} {ops : List ι} {out : σ → ι → List ω}

theorem Steps.and {cond' : σ → ι → Prop} (h : Steps step cond s ops)
    (h' : Steps step cond' s ops) : Steps step (fun s op => cond s op ∧ cond' s op) s ops := by
  induction ops generalizing s with
  | nil => trivial
  | cons op ops ih => exact ⟨⟨h.1, h'.1⟩, ih h.2 h'.2⟩

theorem steps_append {first second : List ι} :
    Steps step cond s (first ++ second) ↔ Steps step cond s first ∧ Steps step cond (run step s first) second := by
  induction first generalizing s with
  | nil => exact ⟨fun h => ⟨trivial, h⟩, fun h => h.2⟩
  | cons op ops ih =>
    constructor
    · rintro ⟨hop, hrest⟩
      obtain ⟨hfirst, hsecond⟩ := ih.mp hrest
      exact ⟨⟨hop, hfirst⟩, hsecond⟩
    · rintro ⟨⟨hop, hfirst⟩, hsecond⟩
      exact ⟨hop, ih.mpr ⟨hfirst, hsecond⟩⟩

theorem steps_of_forall_mem {cond : ι → Prop} (h : ∀ op ∈ ops, cond op) (s : σ) :
    Steps step (fun _ op => cond op) s ops := by
  induction ops generalizing s with
  | nil => trivial
  | cons op ops ih =>
    refine ⟨h op List.mem_cons_self, ih ?_ (step s op)⟩
    exact fun other hother => h other (List.mem_cons_of_mem op hother)

/-- An invariant that every step keeps under the condition holds after every run that meets it. -/
theorem run_invariant {P : σ → Prop} (hstep : ∀ s op, cond s op → P s → P (step s op))
    (hsteps : Steps step cond s ops) (hs : P s) : P (run step s ops) := by
  induction ops generalizing s with
  | nil => exact hs
  | cons op ops ih => exact ih hsteps.2 (hstep s op hsteps.1 hs)

theorem run_preserves {P : σ → Prop} (hstep : ∀ s op, P s → P (step s op)) (ops : List ι) (hs : P s) :
    P (run step s ops) :=
  run_invariant (fun s op _ h => hstep s op h) (steps_of_forall_mem (fun _ _ => trivial) s) hs

theorem log_invariant {P : List ω → σ → Prop} (hstep : ∀ l s op, cond s op → P l s → P (l ++ out s op) (step s op))
    (hsteps : Steps step cond s ops) {l : List ω} (hs : P l s) : P (l ++ log step out s ops) (run step s ops) := by
  induction ops generalizing s l with
  | nil =>
    rw [log, List.append_nil]
    exact hs
  | cons op ops ih =>
    rw [log, ← List.append_assoc]
    exact ih hsteps.2 (hstep l s op hsteps.1 hs)

theorem run_related {R : σ → σ → Prop} (hrefl : ∀ s, R s s)
    (htrans : ∀ s t u, R s t → R t u → R s u) (hstep : ∀ s op, R s (step s op)) (s : σ)
    (ops : List ι) : R s (run step s ops) := by
  induction ops generalizing s with
  | nil => exact hrefl s
  | cons op ops ih => exact htrans _ _ _ (hstep s op) (ih (step s op))

/-- Two machines related step by step append the same to their logs and stay related. -/
theorem simulation {τ : Type*} {step' : τ → ι → τ} {out' : τ → ι → List ω} {R : σ → τ → Prop}
    (hstep : ∀ s t op, cond s op → R s t → out s op = out' t op ∧ R (step s op) (step' t op))
    {t : τ} (hsteps : Steps step cond s ops) (h : R s t) :
    log step out s ops = log step' out' t ops ∧ R (run step s ops) (run step' t ops) := by
  induction ops generalizing s t with
  | nil => exact ⟨rfl, h⟩
  | cons op ops ih =>
    obtain ⟨hout, hnext⟩ := hstep s t op hsteps.1 h
    obtain ⟨hlog, hrun⟩ := ih hsteps.2 hnext
    refine ⟨?_, hrun⟩
    rw [log, log, hout, hlog]

end Transition

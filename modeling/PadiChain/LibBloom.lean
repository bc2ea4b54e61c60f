import Mathlib.Data.BitVec

/-! Bloom filters of a fixed width. An element sets the bits at its positions, and is tested by looking at them. A
filter has every bit of the filter over some elements exactly if all of them pass the test. -/

namespace BloomFilter

variable {α : Type*} {w : Nat} (positions : α → List (Fin w))

def add (b : BitVec w) (d : α) : BitVec w := (positions d).foldl (fun b (i : Fin w) => b ||| BitVec.twoPow w i) b

def addAll (b : BitVec w) (ds : List α) : BitVec w := ds.foldl (add positions) b

def test (b : BitVec w) (d : α) : Bool := (positions d).all fun i => b.getLsbD i

def Covers (b b' : BitVec w) : Prop := ∀ i : Fin w, b'.getLsbD i = true → b.getLsbD i = true

variable {positions} {b : BitVec w}

instance (b b' : BitVec w) : Decidable (Covers b b') := inferInstanceAs (Decidable (∀ _ : Fin w, _ → _))

theorem covers_zero (b : BitVec w) : Covers b 0 := by
  intro i hi
  simp at hi

theorem covers_or_iff {b₁ b₂ : BitVec w} : Covers b (b₁ ||| b₂) ↔ Covers b b₁ ∧ Covers b b₂ := by
  simp only [Covers, BitVec.getLsbD_or, Bool.or_eq_true]
  constructor
  · intro h
    exact ⟨fun i hi => h i (.inl hi), fun i hi => h i (.inr hi)⟩
  · rintro ⟨h₁, h₂⟩ i (hi | hi)
    · exact h₁ i hi
    · exact h₂ i hi

theorem covers_twoPow_iff {i : Fin w} : Covers b (BitVec.twoPow w i) ↔ b.getLsbD i = true := by
  constructor
  · intro h
    refine h i ?_
    simp
  · intro h j hj
    rw [BitVec.getLsbD_twoPow] at hj
    simp only [Bool.and_eq_true, decide_eq_true_eq] at hj
    rw [← hj.2]
    exact h

variable {b' : BitVec w}

theorem covers_foldl_twoPow_iff {is : List (Fin w)} :
    Covers b (is.foldl (fun b (i : Fin w) => b ||| BitVec.twoPow w i) b') ↔ Covers b b' ∧ ∀ i ∈ is, b.getLsbD i = true := by
  induction is generalizing b' with
  | nil => simp
  | cons i is ih => rw [List.foldl_cons, ih, covers_or_iff, covers_twoPow_iff, List.forall_mem_cons, and_assoc]

theorem covers_add_iff {d : α} : Covers b (add positions b' d) ↔ Covers b b' ∧ test positions b d = true := by
  rw [add, covers_foldl_twoPow_iff, test, List.all_eq_true]

theorem covers_addAll_iff {ds : List α} :
    Covers b (addAll positions b' ds) ↔ Covers b b' ∧ ∀ d ∈ ds, test positions b d = true := by
  induction ds generalizing b' with
  | nil => simp [addAll]
  | cons d ds ih =>
    have hstep : addAll positions b' (d :: ds) = addAll positions (add positions b' d) ds := rfl
    rw [hstep, ih, covers_add_iff, List.forall_mem_cons, and_assoc]

end BloomFilter

import Mathlib.Algebra.GroupWithZero.Nat
import Mathlib.Data.List.MinMax
import Mathlib.Data.List.Perm.Basic

/-! Merging queues: as long as one is left, the head with the greatest key is taken. Every element has an owner, and
what a merge does is stated about what is left of each owner. -/

namespace Merge

open Function List

variable {α β κ : Type} [LinearOrder β] [DecidableEq κ] (key : α → β) (owner : α → κ)

/-- The queues after the head of one has been taken. A queue is removed with its last element. -/
def pop (queues : List (α × List α)) (i : Nat) : List α → List (α × List α)
  | [] => queues.eraseIdx i
  | x :: rest => queues.set i (x, rest)

/-- The first `n` elements of the merge. Of equal heads that of the earlier queue is taken. -/
def merge : Nat → List (α × List α) → List α
  | 0, _ => []
  | n + 1, queues =>
    match queues.zipIdx.argmax (key ·.1.1) with
    | none => []
    | some ((x, rest), i) => x :: merge n (pop queues i rest)

/-- What a merge is for: each element is the next one of its owner and the greatest of those that are next. -/
inductive Greedy : (κ → List α) → List α → Prop
  | nil {left} : Greedy left []
  | cons {left x rest out} (hnext : left (owner x) = x :: rest) (hmost : ∀ k, ∀ y ∈ (left k).head?, key y ≤ key x)
      (hout : Greedy (update left (owner x) rest) out) : Greedy left (x :: out)

/-- The queues are what is left of the owners. -/
structure Holds (left : κ → List α) (queues : List (α × List α)) : Prop where
  mem_iff : ∀ x rest, (x, rest) ∈ queues ↔ left (owner x) = x :: rest
  nodup : queues.Nodup
  owned : ∀ k, ∀ x ∈ left k, owner x = k

variable {key owner} {left : κ → List α} {queues : List (α × List α)} {x y : α} {rest out : List α} {i : Nat} {k : κ}

theorem pop_perm (hi : i < queues.length) :
    (pop queues i rest).Perm ((rest.head?.map (·, rest.tail)).toList ++ queues.eraseIdx i) := by
  cases rest with
  | nil => exact .refl _
  | cons y ys => exact set_perm_cons_eraseIdx hi _

theorem Holds.pop (h : Holds owner left queues) (hx : queues[i]? = some (x, rest)) :
    Holds owner (update left (owner x) rest) (Merge.pop queues i rest) := by
  obtain ⟨hi, hget⟩ := List.getElem?_eq_some_iff.mp hx
  have hnext : left (owner x) = x :: rest := (h.mem_iff x rest).mp (List.mem_of_getElem? hx)
  have hrest : ∀ y ∈ rest, owner y = owner x := fun y hy => h.owned _ y (hnext ▸ List.mem_cons_of_mem x hy)
  have hnodup := h.nodup
  have hperm := List.getElem_cons_eraseIdx_perm hi
  rw [hget] at hperm
  rw [← hperm.nodup_iff, List.nodup_cons] at hnodup
  have hothers (y : α) (ys : List α) :
      (y, ys) ∈ queues.eraseIdx i ↔ owner y ≠ owner x ∧ left (owner y) = y :: ys := by
    have := hperm.mem_iff (a := (y, ys))
    have := h.mem_iff y ys
    grind
  have hpop : (Merge.pop queues i rest).Perm _ := pop_perm hi
  refine ⟨fun y ys => ?_, ?_, fun k y hy => ?_⟩
  · rw [hpop.mem_iff, List.mem_append, hothers]
    by_cases hy : owner y = owner x
    · rw [hy, update_self]
      cases rest <;> simp [eq_comm]
    · rw [update_of_ne hy]
      cases rest <;> grind
  · rw [hpop.nodup_iff]
    cases rest with
    | nil => exact hnodup.2
    | cons y ys =>
      refine List.nodup_cons.mpr ⟨fun hmem => ?_, hnodup.2⟩
      exact ((hothers y ys).mp hmem).1 (hrest y List.mem_cons_self)
  · rw [update_apply] at hy
    split_ifs at hy with hk
    · exact hk ▸ hrest y hy
    · exact h.owned k y hy

theorem merge_greedy (h : Holds owner left queues) {n : Nat} : Greedy key owner left (merge key n queues) := by
  induction n generalizing left queues with
  | zero => exact .nil
  | succ n ih =>
    rw [merge]
    split
    · exact .nil
    · rename_i x rest i hbest
      have hx := mk_mem_zipIdx_iff_getElem?.mp (argmax_mem hbest)
      refine .cons ((h.mem_iff x rest).mp (mem_of_getElem? hx)) (fun k y hy => ?_) (ih (h.pop hx))
      obtain ⟨ys, hleft⟩ := head?_eq_some_iff.mp hy
      have hmem : (y, ys) ∈ queues := by
        rw [h.mem_iff, h.owned k y (by rw [hleft]; exact mem_cons_self), hleft]
      obtain ⟨j, hj⟩ := mem_iff_getElem?.mp hmem
      exact le_of_mem_argmax (f := (key ·.1.1)) (mk_mem_zipIdx_iff_getElem?.mpr hj) hbest

def size (queues : List (α × List α)) : Nat := (queues.map (·.2.length + 1)).sum

theorem size_pop (hx : queues[i]? = some (x, rest)) : size queues = size (pop queues i rest) + 1 := by
  obtain ⟨hi, hget⟩ := List.getElem?_eq_some_iff.mp hx
  have hperm := List.getElem_cons_eraseIdx_perm hi
  rw [hget] at hperm
  rw [size, size, ← (hperm.map _).sum_nat, ((pop_perm hi).map _).sum_nat]
  cases rest <;> simp <;> omega

theorem length_merge (n : Nat) : (merge key n queues).length = min n (size queues) := by
  induction n generalizing queues with
  | zero => simp [merge]
  | succ n ih =>
    rw [merge]
    split
    · rename_i hbest
      rw [argmax_eq_none, zipIdx_eq_nil_iff] at hbest
      subst hbest
      rfl
    · rename_i x rest i hbest
      rw [size_pop (mk_mem_zipIdx_iff_getElem?.mp (argmax_mem hbest)), length_cons, ih]
      omega

namespace Greedy

variable (h : Greedy key owner left out)

include h

theorem filter_isPrefix (k : κ) : out.filter (owner · = k) <+: left k := by
  induction h with
  | nil => exact List.nil_prefix
  | @cons left x rest out hnext _ _ ih =>
    by_cases hk : owner x = k
    · subst hk
      rw [update_self] at ih
      simpa [hnext] using ih
    · rw [update_of_ne (Ne.symm hk)] at ih
      simpa [hk] using ih

theorem le_key (hx : out[i]? = some x)
    (hy : y ∈ ((left k).drop ((out.take i).filter (owner · = k)).length).head?) : key y ≤ key x := by
  induction h generalizing i with
  | nil => cases hx
  | @cons left z rest out hnext hmost _ ih =>
    cases i with
    | zero =>
      cases hx
      exact hmost k y hy
    | succ i =>
      refine ih hx ?_
      by_cases hk : owner z = k
      · subst hk
        rw [update_self]
        simpa [hnext] using hy
      · rw [update_of_ne (Ne.symm hk)]
        simpa [hk] using hy

theorem nodup (hleft : ∀ k, (left k).Nodup) : out.Nodup := by
  induction h with
  | nil => exact nodup_nil
  | @cons left x rest out hnext _ hout ih =>
    have hx := hleft (owner x)
    rw [hnext, nodup_cons] at hx
    refine nodup_cons.mpr ⟨fun hmem => hx.1 ?_, ih ?_⟩
    · have hprefix := hout.filter_isPrefix (owner x)
      rw [update_self] at hprefix
      exact hprefix.subset (mem_filter.mpr ⟨hmem, decide_eq_true rfl⟩)
    · exact (forall_update_iff left fun _ l => l.Nodup).mpr ⟨hx.2, fun k _ => hleft k⟩

end Greedy

end Merge

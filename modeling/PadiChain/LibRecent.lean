import Mathlib.Data.List.Nodup

/-! A memory of recent keys. It holds the last keys that were new to it, up to a limit, and forgets the oldest one
when it is full. A key that is in it stays for as many new keys as fit behind it. -/

/-- The keys that are remembered, oldest first. -/
structure Recent (κ : Type*) (limit : Nat) where
  order : List κ

namespace Recent

open List

variable {κ α : Type*} [DecidableEq κ] {limit : Nat}

def add (c : Recent κ limit) (k : κ) : Bool × Recent κ limit :=
  if k ∈ c.order then (false, c)
  else
    let order := c.order ++ [k]
    (true, ⟨if limit < order.length then order.tail else order⟩)

variable (key : α → κ)

/-- Remember the keys of some items, and return the items whose keys were new when they were reached. -/
def takeNew (c : Recent κ limit) : List α → List α × Recent κ limit
  | [] => ([], c)
  | x :: xs =>
    let (new, c) := c.add (key x)
    let (rest, c) := takeNew c xs
    (if new then x :: rest else rest, c)

variable {key} {c : Recent κ limit} {k : κ} {x : α} {xs : List α}

theorem add_of_mem (h : k ∈ c.order) : c.add k = (false, c) := if_pos h

theorem takeNew_cons_of_mem (h : key x ∈ c.order) : c.takeNew key (x :: xs) = c.takeNew key xs := by
  rw [takeNew, add_of_mem h]
  rfl

theorem takeNew_cons_of_notMem (h : key x ∉ c.order) :
    c.takeNew key (x :: xs) = (x :: ((c.add (key x)).2.takeNew key xs).1, ((c.add (key x)).2.takeNew key xs).2) := by
  rw [takeNew, add, if_neg h]
  rfl

theorem order_add_of_notMem (h : k ∉ c.order) :
    (c.add k).2.order = if limit < c.order.length + 1 then (c.order ++ [k]).tail else c.order ++ [k] := by
  rw [add, if_neg h]
  simp

theorem mem_order_add (h : k ∈ (c.add (key x)).2.order) : k ∈ c.order ∨ k = key x := by
  by_cases hx : key x ∈ c.order
  · rw [add_of_mem hx] at h
    exact .inl h
  · rw [order_add_of_notMem hx] at h
    have hmem : k ∈ c.order ++ [key x] := by
      split at h
      · exact mem_of_mem_tail h
      · exact h
    exact (mem_append.mp hmem).imp_right mem_singleton.mp

theorem mem_order_add_or {new : List κ} (h : k ∈ (c.add (key x)).2.order ∨ k ∈ new) : k ∈ c.order ∨ k ∈ key x :: new := by
  rcases h with hold | hnew
  · exact (mem_order_add hold).imp_right fun hsame => mem_cons.mpr (.inl hsame)
  · exact .inr (mem_cons_of_mem _ hnew)

theorem takeNew_of_forall_mem (h : ∀ x ∈ xs, key x ∈ c.order) : c.takeNew key xs = ([], c) := by
  induction xs with
  | nil => rfl
  | cons x xs ih =>
    rw [takeNew_cons_of_mem (h x mem_cons_self)]
    exact ih fun y hy => h y (mem_cons_of_mem x hy)

theorem mem_or_mem_takeNew (c : Recent κ limit) (xs : List α) :
    ∀ x ∈ xs, key x ∈ c.order ∨ key x ∈ (c.takeNew key xs).1.map key := by
  induction xs generalizing c with
  | nil => nofun
  | cons y ys ih =>
    intro x hx
    by_cases hy : key y ∈ c.order
    · rw [takeNew_cons_of_mem hy]
      rcases mem_cons.mp hx with rfl | hx
      · exact .inl hy
      · exact ih c x hx
    · rw [takeNew_cons_of_notMem hy, map_cons]
      rcases mem_cons.mp hx with rfl | hx
      · exact .inr mem_cons_self
      · exact mem_order_add_or (ih (c.add (key y)).2 x hx)

/-- A key with fewer new keys behind it than the limit is not new again, and stays. -/
theorem stays {before after : List κ} (horder : c.order = before ++ k :: after)
    (hroom : after.length + (c.takeNew key xs).1.length < limit) :
    k ∉ (c.takeNew key xs).1.map key ∧ k ∈ (c.takeNew key xs).2.order := by
  induction xs generalizing c before after with
  | nil =>
    refine ⟨not_mem_nil, ?_⟩
    rw [takeNew, horder]
    simp
  | cons x xs ih =>
    by_cases hx : key x ∈ c.order
    · rw [takeNew_cons_of_mem hx] at hroom ⊢
      exact ih horder hroom
    · have hne : k ≠ key x := by
        rintro rfl
        exact hx (horder ▸ mem_append_right before mem_cons_self)
      rw [takeNew_cons_of_notMem hx, length_cons] at hroom
      rw [takeNew_cons_of_notMem hx, map_cons]
      have hlater : ∃ before', (c.add (key x)).2.order = before' ++ k :: (after ++ [key x]) := by
        rw [order_add_of_notMem hx, horder]
        split
        · rename_i hfull
          cases before with
          | nil =>
            -- if nothing is before the key, then nothing has to be forgotten
            rw [nil_append, length_cons] at hfull
            omega
          | cons b before =>
            refine ⟨before, ?_⟩
            simp
        · refine ⟨before, ?_⟩
          simp
      obtain ⟨before', hlater⟩ := hlater
      have hroom' : (after ++ [key x]).length + ((c.add (key x)).2.takeNew key xs).1.length < limit := by
        rw [length_append, length_singleton]
        omega
      obtain ⟨hnot, hmem⟩ := ih hlater hroom'
      exact ⟨fun h => (mem_cons.mp h).elim hne hnot, hmem⟩

/-- As many new items as the limit allows are returned once, and remembered. -/
theorem nodup_takeNew (hroom : (c.takeNew key xs).1.length ≤ limit) :
    ((c.takeNew key xs).1.map key).Nodup ∧ ∀ x ∈ (c.takeNew key xs).1, key x ∈ (c.takeNew key xs).2.order := by
  induction xs generalizing c with
  | nil => exact ⟨nodup_nil, nofun⟩
  | cons x xs ih =>
    by_cases hx : key x ∈ c.order
    · rw [takeNew_cons_of_mem hx] at hroom ⊢
      exact ih hroom
    · rw [takeNew_cons_of_notMem hx, length_cons] at hroom
      rw [takeNew_cons_of_notMem hx, map_cons]
      have hlast : ∃ before, (c.add (key x)).2.order = before ++ [key x] := by
        rw [order_add_of_notMem hx]
        split
        · rename_i hfull
          cases horder : c.order with
          | nil =>
            rw [horder, length_nil] at hfull
            omega
          | cons b before => exact ⟨before, rfl⟩
        · exact ⟨c.order, rfl⟩
      obtain ⟨before, hlast⟩ := hlast
      have hroom' : ([] : List κ).length + ((c.add (key x)).2.takeNew key xs).1.length < limit := by
        rw [length_nil]
        omega
      obtain ⟨hnot, hmem⟩ := stays hlast hroom'
      obtain ⟨hnodup, hrest⟩ := ih (c := (c.add (key x)).2) (by omega)
      exact ⟨nodup_cons.mpr ⟨hnot, hnodup⟩, forall_mem_cons.mpr ⟨hmem, hrest⟩⟩

/-- What is remembered at last was remembered before, or is one of the new keys. -/
theorem mem_takeNew_order (h : k ∈ (c.takeNew key xs).2.order) : k ∈ c.order ∨ k ∈ (c.takeNew key xs).1.map key := by
  induction xs generalizing c with
  | nil => exact .inl h
  | cons x xs ih =>
    by_cases hx : key x ∈ c.order
    · rw [takeNew_cons_of_mem hx] at h ⊢
      exact ih h
    · rw [takeNew_cons_of_notMem hx] at h ⊢
      exact mem_order_add_or (ih h)

theorem takeNew_sublist (c : Recent κ limit) (xs : List α) : List.Sublist (c.takeNew key xs).1 xs := by
  induction xs generalizing c with
  | nil => exact .slnil
  | cons x xs ih =>
    by_cases hx : key x ∈ c.order
    · rw [takeNew_cons_of_mem hx]
      exact (ih c).cons x
    · rw [takeNew_cons_of_notMem hx]
      exact (ih _).cons_cons x

theorem takeNew_subset (c : Recent κ limit) (xs : List α) : ∀ x ∈ (c.takeNew key xs).1, x ∈ xs :=
  fun _ hx => (takeNew_sublist c xs).subset hx

theorem length_takeNew_le (c : Recent κ limit) (xs : List α) : (c.takeNew key xs).1.length ≤ xs.length :=
  (takeNew_sublist c xs).length_le

end Recent

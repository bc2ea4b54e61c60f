import Mathlib.Data.List.Perm.Basic
import Mathlib.Data.List.Nodup

/-! Drawing from queues in rounds. A round takes one element from every queue that has one left; the rounds
together take everything, and from every queue about as much. The queues are the classes of a list under a key. -/

namespace RoundRobin

open List

variable {α κ : Type*}

/-- What a round takes: the element at the round's place of every queue that is long enough. -/
def layer (queues : List (List α)) (r : Nat) : List α := queues.filterMap fun q => q[r]?

/-- What the rounds from one on take, for a number of rounds. -/
def layers (queues : List (List α)) (r k : Nat) : List α := (List.range' r k).flatMap (layer queues)

variable {queues : List (List α)} {r k : Nat}

theorem layers_zero : layers queues r 0 = [] := rfl

theorem layers_succ : layers queues r (k + 1) = layer queues r ++ layers queues (r + 1) k := by
  rw [layers, range'_succ, flatMap_cons]
  rfl

theorem layer_eq_nil_iff : layer queues r = [] ↔ ∀ q ∈ queues, q.length ≤ r := by
  simp [layer, filterMap_eq_nil_iff]

theorem layers_eq_nil (h : layer queues r = []) : layers queues r k = [] := by
  refine flatMap_eq_nil_iff.mpr fun r' hr' => layer_eq_nil_iff.mpr fun q hq => ?_
  exact Nat.le_trans (layer_eq_nil_iff.mp h q hq) (mem_range'_1.mp hr').1

theorem layers_concat : layers queues 0 (k + 1) = layers queues 0 k ++ layer queues k := by
  simp [layers, range'_concat]

section Groups

variable [DecidableEq κ]

def firsts (keys : List κ) : List κ := keys.foldl (fun order g => if g ∈ order then order else order ++ [g]) []

theorem foldl_firsts {order : List κ} (keys : List κ) (hnodup : order.Nodup) :
    (keys.foldl (fun order g => if g ∈ order then order else order ++ [g]) order).Nodup ∧
      ∀ g, g ∈ order ∨ g ∈ keys → g ∈ keys.foldl (fun order g => if g ∈ order then order else order ++ [g]) order := by
  induction keys generalizing order with
  | nil => exact ⟨hnodup, fun g hg => hg.resolve_right not_mem_nil⟩
  | cons k keys ih =>
    have hnext : (if k ∈ order then order else order ++ [k]).Nodup := by
      split_ifs with hk
      · exact hnodup
      · rw [nodup_append_comm]
        exact nodup_cons.mpr ⟨hk, hnodup⟩
    have hmem : ∀ g, g ∈ order ∨ g = k → g ∈ if k ∈ order then order else order ++ [k] := by
      split_ifs with hk
      · rintro g (hg | rfl)
        · exact hg
        · exact hk
      · exact fun g hg => mem_append.mpr (hg.imp_right mem_singleton.mpr)
    refine ⟨(ih hnext).1, fun g hg => (ih hnext).2 g ?_⟩
    rw [mem_cons, ← or_assoc] at hg
    exact hg.imp_left (hmem g)

theorem nodup_firsts {keys : List κ} : (firsts keys).Nodup := (foldl_firsts keys nodup_nil).1

theorem mem_firsts {keys : List κ} {g : κ} (h : g ∈ keys) : g ∈ firsts keys :=
  (foldl_firsts keys nodup_nil).2 g (.inr h)

variable (key : α → κ)

def groups (order : List κ) (l : List α) : List (List α) := order.map fun g => l.filter fun x => key x = g

/-- The elements of a list with a given key, in its order. -/
def classOf (g : κ) (l : List α) : List α := l.filter fun x => key x = g

variable {key} in
theorem mem_classOf {g : κ} {l : List α} {x : α} : x ∈ classOf key g l ↔ x ∈ l ∧ key x = g := by
  rw [classOf, mem_filter, decide_eq_true_eq]

variable {order : List κ} (l : List α) (g : κ)

theorem classOf_append (l' : List α) : classOf key g (l ++ l') = classOf key g l ++ classOf key g l' :=
  filter_append l l'

theorem classOf_layer_groups (hnodup : order.Nodup) : classOf key g (layer (groups key order l) r) =
    if g ∈ order then ((classOf key g l)[r]?).toList else [] := by
  induction order with
  | nil => rfl
  | cons a order ih =>
    rw [nodup_cons] at hnodup
    have hsplit : layer (groups key (a :: order) l) r =
        ((classOf key a l)[r]?).toList ++ layer (groups key order l) r := by
      rw [layer, groups, map_cons, filterMap_cons, ← groups, ← layer, ← classOf]
      cases (classOf key a l)[r]? with
      | none | some _ => rfl
    have hkey : ∀ x ∈ ((classOf key a l)[r]?).toList, key x = a := fun x hx =>
      (mem_classOf.mp (mem_of_getElem? (Option.mem_toList.mp hx))).2
    rw [hsplit, classOf_append, ih hnodup.2]
    by_cases ha : g = a
    · subst ha
      rw [if_neg hnodup.1, append_nil, if_pos mem_cons_self]
      exact filter_eq_self.mpr fun x hx => decide_eq_true (hkey x hx)
    · have hnone : classOf key g ((classOf key a l)[r]?).toList = [] :=
        eq_nil_iff_forall_not_mem.mpr fun x hx =>
          ha ((mem_classOf.mp hx).2.symm.trans (hkey x (mem_classOf.mp hx).1))
      rw [hnone, nil_append]
      simp only [mem_cons, ha, false_or]

/-- The rounds take from every class the first elements it has. -/
theorem classOf_layers_groups : classOf key g (layers (groups key (firsts (l.map key)) l) 0 k) =
    (classOf key g l).take k := by
  induction k with
  | zero => rfl
  | succ k ih =>
    rw [layers_concat, classOf_append, ih, classOf_layer_groups key l g nodup_firsts, take_add_one]
    split_ifs with hg
    · rfl
    · have hnone : classOf key g l = [] := by
        refine eq_nil_iff_forall_not_mem.mpr fun x hx => hg ?_
        obtain ⟨hmem, rfl⟩ := mem_classOf.mp hx
        exact mem_firsts (mem_map_of_mem hmem)
      rw [hnone]
      rfl

/-- As many rounds as the list has elements take every element. -/
theorem layers_groups_perm [DecidableEq α] (h : l.length ≤ k) :
    (layers (groups key (firsts (l.map key)) l) 0 k).Perm l := by
  refine perm_iff_count.mpr fun x => ?_
  have hcount : ∀ l, (classOf key (key x) l).count x = l.count x := fun l => count_filter (decide_eq_true rfl)
  have hlength : (classOf key (key x) l).length ≤ k := Nat.le_trans (length_filter_le _ l) h
  rw [← hcount, classOf_layers_groups, take_of_length_le hlength, hcount]

/-- Wherever the rounds are stopped, every class has given as many elements or one more, as far as it has them. -/
theorem classOf_take_layers (m : Nat) : ∃ r, ∀ g, ∃ r' ∈ [r, r + 1],
    classOf key g ((layers (groups key (firsts (l.map key)) l) 0 k).take m) = (classOf key g l).take r' := by
  induction k with
  | zero => exact ⟨0, fun g => ⟨0, mem_cons_self, by simp [layers_zero, classOf]⟩⟩
  | succ k ih =>
    rw [layers_concat, take_append]
    generalize hm : m - _ = m'
    cases m' with
    | zero => rwa [take_zero, append_nil]
    | succ m' =>
      refine ⟨k, fun g => ?_⟩
      -- what is taken of the last round is at most the class's one element of it
      have hround := classOf_layers_groups key l g (k := k + 1)
      rw [layers_concat, classOf_append, classOf_layers_groups, take_add_one, append_right_inj] at hround
      have hpart := (take_sublist (m' + 1) (layer (groups key (firsts (l.map key)) l) k)).filter (key · = g)
      rw [← classOf, ← classOf, hround] at hpart
      rw [take_of_length_le (by omega), classOf_append, classOf_layers_groups]
      cases helem : (classOf key g l)[k]? with
      | none =>
        rw [helem] at hpart
        exact ⟨k, mem_cons_self, by rw [sublist_nil.mp hpart, append_nil]⟩
      | some x =>
        rw [helem] at hpart
        rcases sublist_singleton.mp hpart with hpart | hpart
        · exact ⟨k, mem_cons_self, by rw [hpart, append_nil]⟩
        · exact ⟨k + 1, by simp, by rw [hpart, take_add_one, helem]; rfl⟩

end Groups

end RoundRobin

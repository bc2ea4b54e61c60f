import Mathlib.Data.Finset.Basic

/-! Reference graphs and mark and sweep. The vertices are what a store holds, under a key each, and a
vertex refers to further vertices. Marking walks the graph from some roots; it collects the keys it
comes by, or fails. -/

namespace Reach

open List

variable {α κ ε ι : Type}

structure RefGraph (α κ : Type) where
  refs : α → List α
  key : α → κ

namespace RefGraph

variable (G : RefGraph α κ)

def Reaches (a b : α) : Prop := Relation.ReflTransGen (fun a b => b ∈ G.refs a) a b

/-- All vertices on the paths from the roots have the property. -/
def Along (P : α → Prop) (roots : List α) : Prop := ∀ a ∈ roots, ∀ b, G.Reaches a b → P b

def keys (roots : List α) : Set κ := {k | ∃ a ∈ roots, ∃ b, G.Reaches a b ∧ G.key b = k}

/-- The store holds all vertices on the paths from the roots. -/
def Whole (store : List κ) (roots : List α) : Prop := ∀ k ∈ G.keys roots, k ∈ store

variable {G}

theorem reaches_iff {a b : α} : G.Reaches a b ↔ a = b ∨ ∃ c ∈ G.refs a, G.Reaches c b := by
  constructor
  · intro h
    rcases Relation.ReflTransGen.cases_head h with heq | ⟨c, hc, hcb⟩
    · exact .inl heq
    · exact .inr ⟨c, hc, hcb⟩
  · rintro (rfl | ⟨c, hc, hcb⟩)
    · exact Relation.ReflTransGen.refl
    · exact Relation.ReflTransGen.head hc hcb

variable {P : α → Prop} {items : List ι} {f : ι → List α} {roots : List α} {k : κ}

@[simp] theorem along_nil : G.Along P [] := forall_mem_nil _

theorem along_append {first second : List α} : G.Along P (first ++ second) ↔ G.Along P first ∧ G.Along P second :=
  forall_mem_append

theorem along_flatMap : G.Along P (items.flatMap f) ↔ ∀ i ∈ items, G.Along P (f i) := forall_mem_flatMap

theorem along_map {f : ι → α} : G.Along P (items.map f) ↔ ∀ i ∈ items, G.Along P [f i] := by
  rw [map_eq_flatMap, along_flatMap]

theorem along_singleton {a : α} : G.Along P [a] ↔ P a ∧ G.Along P (G.refs a) := by
  constructor
  · intro h
    have ha := h a (mem_singleton_self a)
    exact ⟨ha a (reaches_iff.mpr (Or.inl rfl)), fun c hc b hcb => ha b (reaches_iff.mpr (Or.inr ⟨c, hc, hcb⟩))⟩
  · rintro ⟨ha, hrefs⟩ a' ha' b hb
    rw [mem_singleton.mp ha'] at hb
    rcases reaches_iff.mp hb with rfl | ⟨c, hc, hcb⟩
    · exact ha
    · exact hrefs c hc b hcb

theorem Along.mono {Q : α → Prop} (h : G.Along P roots) (hPQ : ∀ a, P a → Q a) :
    G.Along Q roots := fun a ha b hb => hPQ b (h a ha b hb)

theorem whole_iff_along {store : List κ} : G.Whole store roots ↔ G.Along (fun a => G.key a ∈ store) roots := by
  constructor
  · intro h a ha b hb
    exact h _ ⟨a, ha, b, hb, rfl⟩
  · rintro h k ⟨a, ha, b, hb, rfl⟩
    exact h a ha b hb

/-- The keys that lie along some roots, in terms of the negated walk. -/
theorem mem_keys_iff : k ∈ G.keys roots ↔ ¬ G.Along (fun a => G.key a ≠ k) roots := by
  simp [keys, Along]

@[simp] theorem keys_nil : G.keys [] = ∅ := by
  ext k
  simp [keys]

theorem keys_append (first second : List α) : G.keys (first ++ second) = G.keys first ∪ G.keys second := by
  ext k
  rw [Set.mem_union, mem_keys_iff, mem_keys_iff, mem_keys_iff, along_append, not_and_or]

theorem mem_keys_flatMap : k ∈ G.keys (items.flatMap f) ↔ ∃ i ∈ items, k ∈ G.keys (f i) := by
  simp [mem_keys_iff, along_flatMap]

theorem mem_keys_map {f : ι → α} : k ∈ G.keys (items.map f) ↔ ∃ i ∈ items, k ∈ G.keys [f i] := by
  rw [map_eq_flatMap, mem_keys_flatMap]

theorem keys_singleton (a : α) : G.keys [a] = insert (G.key a) (G.keys (G.refs a)) := by
  ext k
  rw [Set.mem_insert_iff, mem_keys_iff, mem_keys_iff, along_singleton, not_and_or, not_not, eq_comm]

end RefGraph

/-! ### Computations that mark -/

/-- If `P`, the computation adds the keys `K` to any set of marked keys, and otherwise it fails. -/
structure Marks (P : Prop) (K : Set κ) (mark : Finset κ → Except ε (Finset κ)) : Prop where
  ok : P → ∀ marked, ∃ marked', mark marked = .ok marked' ∧ ∀ k, k ∈ marked' ↔ k ∈ marked ∨ k ∈ K
  fails : ¬ P → ∀ marked, ∃ e, mark marked = .error e

namespace Marks

variable {P Q : Prop} {K L : Set κ} {mark next : Finset κ → Except ε (Finset κ)}

theorem congr (h : Marks P K mark) (hP : P ↔ Q) (hK : Q → ∀ k, k ∈ K ↔ k ∈ L) : Marks Q L mark := by
  constructor
  · intro hq marked
    obtain ⟨marked', heq, hmem⟩ := h.ok (hP.mpr hq) marked
    exact ⟨marked', heq, fun k => by rw [hmem, hK hq]⟩
  · intro hq
    exact h.fails fun hp => hq (hP.mp hp)

theorem nothing : Marks True (∅ : Set κ) (fun marked => (.ok marked : Except ε (Finset κ))) :=
  ⟨fun _ marked => ⟨marked, rfl, fun k => by simp⟩, fun h => absurd trivial h⟩

theorem never (hP : ¬ P) (h : ∀ marked, ∃ e, mark marked = .error e) : Marks P K mark :=
  ⟨fun hp => absurd hp hP, fun _ => h⟩

theorem single [DecidableEq κ] (k : κ) : Marks True {k} (fun marked => (.ok (insert k marked) : Except ε (Finset κ))) :=
  ⟨fun _ marked => ⟨_, rfl, fun k' => by rw [Finset.mem_insert, Set.mem_singleton_iff, or_comm]⟩,
    fun h => absurd trivial h⟩

theorem of_ok (h : Marks P K mark) {marked marked' : Finset κ} (hok : mark marked = .ok marked') :
    P ∧ ∀ k, k ∈ marked' ↔ k ∈ marked ∨ k ∈ K := by
  by_cases hp : P
  · obtain ⟨found, hfound, hmem⟩ := h.ok hp marked
    rw [hok] at hfound
    cases hfound
    exact ⟨hp, hmem⟩
  · obtain ⟨e, herror⟩ := h.fails hp marked
    rw [hok] at herror
    cases herror

theorem andThen (h : Marks P K mark) (h' : Marks Q L next) :
    Marks (P ∧ Q) (K ∪ L) (fun marked => mark marked >>= next) := by
  constructor
  · rintro ⟨hp, hq⟩ marked
    obtain ⟨marked', heq, hmem⟩ := h.ok hp marked
    obtain ⟨marked'', heq', hmem'⟩ := h'.ok hq marked'
    refine ⟨marked'', ?_, fun k => ?_⟩
    · show mark marked >>= next = _
      rw [heq]
      exact heq'
    · rw [hmem', hmem, Set.mem_union, or_assoc]
  · intro hpq marked
    by_cases hp : P
    · obtain ⟨marked', heq, -⟩ := h.ok hp marked
      obtain ⟨e, herror⟩ := h'.fails (fun hq => hpq ⟨hp, hq⟩) marked'
      refine ⟨e, ?_⟩
      show mark marked >>= next = _
      rw [heq]
      exact herror
    · obtain ⟨e, herror⟩ := h.fails hp marked
      refine ⟨e, ?_⟩
      show mark marked >>= next = _
      rw [herror]
      rfl

theorem foldlM {P : ι → Prop} {K : ι → Set κ} {mark : ι → Finset κ → Except ε (Finset κ)} (items : List ι)
    (h : ∀ i ∈ items, Marks (P i) (K i) (mark i)) :
    Marks (∀ i ∈ items, P i) {k | ∃ i ∈ items, k ∈ K i}
      (fun marked => items.foldlM (fun marked i => mark i marked) marked) := by
  induction items with
  | nil => exact nothing.congr (by simp) (fun _ k => by simp)
  | cons i rest ih =>
    have hrest := ih fun j hj => h j (mem_cons_of_mem i hj)
    exact ((h i mem_cons_self).andThen hrest).congr (by simp) (fun _ k => by simp)

end Marks

end Reach

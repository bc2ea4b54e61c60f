import Mathlib.Data.List.Basic

/-! Undo logs. A state is changed in place, and every change leaves an entry from which it can be
undone; a mark is a length of the log to which it can be cut back. Undoing need not give the very
state of before: a state may hold more in its caches than another and behave the same, and that is a
preorder the entries respect. -/

namespace Undo

/-- Entries of type `ε` over states of type `σ`. `le s t` says that `t` is `s` with more cached, and
`ok e s` that the entry finds in `s` what it is to change. -/
structure Entries (σ ε : Type*) where
  undo : ε → σ → σ
  ok : ε → σ → Prop
  le : σ → σ → Prop
  le_refl : ∀ s, le s s
  le_trans : ∀ {s t u}, le s t → le t u → le s u
  ok_mono : ∀ {e s t}, le s t → ok e s → ok e t
  undo_mono : ∀ {e s t}, le s t → ok e s → le (undo e s) (undo e t)

namespace Entries

variable {σ ε : Type*} (E : Entries σ ε)

/-- The state with a list of entries undone, newest first. -/
def rollback : List ε → σ → σ
  | [], s => s
  | e :: es, s => rollback es (E.undo e s)

/-- Each entry of the list finds what it is to change when its turn comes. -/
def Undoable : List ε → σ → Prop
  | [], _ => True
  | e :: es, s => E.ok e s ∧ Undoable es (E.undo e s)

def Back (s : σ) (es : List ε) (t : σ) : Prop := E.Undoable es t ∧ E.le s (E.rollback es t)

/-- At each mark the state, once cut back to it, has the property. -/
def Marked (P : σ → Prop) (log : List ε) (marks : List Nat) (s : σ) : Prop :=
  ∀ m ∈ marks, m ≤ log.length ∧ P (E.rollback (log.take (log.length - m)) s)

variable {E} {s t u : σ} {es fs log : List ε} {marks : List Nat} {P : σ → Prop}

theorem rollback_append (es fs : List ε) (s : σ) : E.rollback (es ++ fs) s = E.rollback fs (E.rollback es s) := by
  induction es generalizing s with
  | nil => rfl
  | cons e es ih => exact ih (E.undo e s)

theorem undoable_append : E.Undoable (es ++ fs) s ↔ E.Undoable es s ∧ E.Undoable fs (E.rollback es s) := by
  induction es generalizing s with
  | nil => exact ⟨fun h => ⟨trivial, h⟩, fun h => h.2⟩
  | cons e es ih =>
    constructor
    · rintro ⟨hok, hrest⟩
      obtain ⟨hes, hfs⟩ := ih.mp hrest
      exact ⟨⟨hok, hes⟩, hfs⟩
    · rintro ⟨⟨hok, hes⟩, hfs⟩
      exact ⟨hok, ih.mpr ⟨hes, hfs⟩⟩

section

variable (h : E.Undoable es s)

include h

theorem Undoable.take (n : Nat) : E.Undoable (es.take n) s := by
  rw [← List.take_append_drop n es] at h
  exact (undoable_append.mp h).1

theorem Undoable.drop (n : Nat) : E.Undoable (es.drop n) (E.rollback (es.take n) s) := by
  rw [← List.take_append_drop n es] at h
  exact (undoable_append.mp h).2

theorem Undoable.mono (hle : E.le s t) : E.Undoable es t := by
  induction es generalizing s t with
  | nil => trivial
  | cons e es ih => exact ⟨E.ok_mono hle h.1, ih h.2 (E.undo_mono hle h.1)⟩

theorem Undoable.rollback_mono (hle : E.le s t) : E.le (E.rollback es s) (E.rollback es t) := by
  induction es generalizing s t with
  | nil => exact hle
  | cons e es ih => exact ih h.2 (E.undo_mono hle h.1)

end

theorem Back.of_le (h : E.le s t) : E.Back s [] t := ⟨trivial, h⟩

theorem Back.of_undo {e : ε} (hok : E.ok e t) (hle : E.le s (E.undo e t)) : E.Back s [e] t :=
  ⟨⟨hok, trivial⟩, hle⟩

theorem Back.trans (h : E.Back s es t) (h' : E.Back t fs u) : E.Back s (fs ++ es) u := by
  refine ⟨undoable_append.mpr ⟨h'.1, h.1.mono h'.2⟩, ?_⟩
  rw [rollback_append]
  exact E.le_trans h.2 (h.1.rollback_mono h'.2)

/-- What was undoable stays so when the log grows. -/
theorem Back.undoable (h : E.Back s es t) (hlog : E.Undoable log s) : E.Undoable (es ++ log) t :=
  undoable_append.mpr ⟨h.1, hlog.mono h.2⟩

theorem Marked.back (hP : ∀ s t, E.le s t → P s → P t) (hlog : E.Undoable log s)
    (hmarked : E.Marked P log marks s) (h : E.Back s es t) : E.Marked P (es ++ log) marks t := by
  intro m hm
  obtain ⟨hlen, hprop⟩ := hmarked m hm
  have hcut : (es ++ log).take ((es ++ log).length - m) = es ++ log.take (log.length - m) := by
    rw [List.length_append, Nat.add_sub_assoc hlen, List.take_length_add_append]
  refine ⟨by rw [List.length_append]; omega, ?_⟩
  rw [hcut, rollback_append]
  exact hP _ _ ((hlog.take _).rollback_mono h.2) hprop

theorem Marked.mark (hmarked : E.Marked P log marks s) (hs : P s) : E.Marked P log (log.length :: marks) s := by
  refine List.forall_mem_cons.mpr ⟨⟨Nat.le_refl _, ?_⟩, hmarked⟩
  rw [Nat.sub_self]
  exact hs

theorem Marked.cut (hmarked : E.Marked P log marks s) {m : Nat} (hm : m ≤ log.length)
    {below : List Nat} (hsub : ∀ m' ∈ below, m' ∈ marks ∧ m' ≤ m) :
    E.Marked P (log.drop (log.length - m)) below (E.rollback (log.take (log.length - m)) s) := by
  intro m' hm'
  obtain ⟨hmem, hle⟩ := hsub m' hm'
  have hlength : (log.drop (log.length - m)).length = m := by
    rw [List.length_drop]
    omega
  refine ⟨by rw [hlength]; exact hle, ?_⟩
  rw [hlength, ← rollback_append, ← List.take_add,
    show log.length - m + (m - m') = log.length - m' by omega]
  exact (hmarked m' hmem).2

end Entries

end Undo

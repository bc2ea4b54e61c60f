import Mathlib.Order.Nat

/-! Forests given by a partial parent function along which a height falls by one. Ancestry is the
reflexive and transitive closure of the parent relation; the ancestors of a node form a chain with one
node at each height. -/

namespace Ancestry

variable {β : Type*}

def Ancestor (parent : β → Option β) (a b : β) : Prop :=
  Relation.ReflTransGen (fun x y => parent x = some y) b a

namespace Ancestor

variable {parent parent' : β → Option β} {a b : β}

theorem refl (b : β) : Ancestor parent b b := Relation.ReflTransGen.refl

theorem trans {c : β} (hab : Ancestor parent a b) (hbc : Ancestor parent b c) : Ancestor parent a c :=
  Relation.ReflTransGen.trans hbc hab

theorem of_parent {p : β} (hp : parent b = some p) (h : Ancestor parent a p) : Ancestor parent a b :=
  Relation.ReflTransGen.head hp h

theorem eq_or_parent (h : Ancestor parent a b) : a = b ∨ ∃ p, parent b = some p ∧ Ancestor parent a p := by
  rcases Relation.ReflTransGen.cases_head h with heq | ⟨p, hp, hrest⟩
  · exact .inl heq.symm
  · exact .inr ⟨p, hp, hrest⟩

theorem mono (hparent : ∀ x y, parent x = some y → parent' x = some y) (h : Ancestor parent a b) :
    Ancestor parent' a b :=
  Relation.ReflTransGen.mono hparent _ _ h

section Height

variable {height : β → Nat} (hheight : ∀ x y, parent x = some y → height x = height y + 1)

include hheight

variable (h : Ancestor parent a b)

include h

theorem height_le : height a ≤ height b := by
  induction h using Relation.ReflTransGen.head_induction_on with
  | refl => exact le_rfl
  | head hp _ ih =>
    have hstep := hheight _ _ hp
    omega

theorem eq_of_height_le (hle : height b ≤ height a) : a = b := by
  rcases h.eq_or_parent with heq | ⟨p, hp, hrest⟩
  · exact heq
  · have hstep := hheight _ _ hp
    have hbound := hrest.height_le hheight
    omega

/-- Of two ancestors of a node, the lower one is an ancestor of the higher one. -/
theorem of_height_le {a' : β} (h' : Ancestor parent a' b) (hle : height a ≤ height a') : Ancestor parent a a' := by
  induction h' using Relation.ReflTransGen.head_induction_on with
  | refl => exact h
  | head hp hrest ih =>
    refine ih ?_
    rcases h.eq_or_parent with heq | ⟨p, hp', hrest'⟩
    · have hstep := hheight _ _ hp
      have hbound := height_le hheight hrest
      subst heq
      omega
    · rw [hp] at hp'
      cases hp'
      exact hrest'

theorem unique {a' : β} (h' : Ancestor parent a' b) (heq : height a = height a') : a = a' :=
  (h.of_height_le hheight h' heq.le).eq_of_height_le hheight heq.ge

end Height

end Ancestor

end Ancestry

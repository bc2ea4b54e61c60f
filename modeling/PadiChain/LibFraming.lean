import Mathlib.Data.List.Basic

/-! Logs of self-delimiting records. A record is written as a string of symbols and read back from the
front of the log; reading stops at the first place where no record can be read. A log that was cut off
reads as the records that lie before the cut as a whole. Records written in groups are read one by one,
so a cut can separate the records of a group. -/

namespace Framing

open List

variable {α ρ : Type*}

/-- How records are written, and read from the front of a string. -/
structure Code (encode : ρ → List α) (decode : List α → Option (ρ × List α)) (valid : ρ → Prop) : Prop where
  decode_encode : ∀ {r}, valid r → ∀ rest, decode (encode r ++ rest) = some (r, rest)
  decode_take : ∀ {r}, valid r → ∀ {n}, n < (encode r).length → decode ((encode r).take n) = none
  encode_pos : ∀ {r}, valid r → 0 < (encode r).length

/-- The records read from the front of a string, at most `fuel` of them. -/
def scan (decode : List α → Option (ρ × List α)) : Nat → List α → List ρ
  | 0, _ => []
  | fuel + 1, symbols =>
    match decode symbols with
    | none => []
    | some (r, rest) => r :: scan decode fuel rest

variable (encode : ρ → List α)

def size (rs : List ρ) : Nat := (rs.flatMap encode).length

/-- The records that lie within the first `n` symbols of their log. -/
def whole : Nat → List ρ → List ρ
  | _, [] => []
  | n, r :: rs => if (encode r).length ≤ n then r :: whole (n - (encode r).length) rs else []

/-- The cut at `n` falls inside the group, after one or more whole records of it. -/
def Torn (n : Nat) (before : List (List ρ)) (group : List ρ) : Prop :=
  size encode before.flatten + size encode (group.take 1) ≤ n ∧
    n < size encode before.flatten + size encode group

instance (n : Nat) (before : List (List ρ)) (group : List ρ) : Decidable (Torn encode n before group) :=
  inferInstanceAs (Decidable (_ ∧ _))

variable {encode}

@[simp] theorem size_nil : size encode ([] : List ρ) = 0 := rfl

@[simp] theorem size_cons (r : ρ) (rs : List ρ) : size encode (r :: rs) = (encode r).length + size encode rs := by
  rw [size, flatMap_cons, length_append, size]

@[simp] theorem size_append (rs ts : List ρ) : size encode (rs ++ ts) = size encode rs + size encode ts := by
  rw [size, flatMap_append, length_append, size, size]

variable {n : Nat} {r : ρ}

theorem whole_cons_of_le {rs : List ρ} (h : (encode r).length ≤ n) :
    whole encode n (r :: rs) = r :: whole encode (n - (encode r).length) rs := if_pos h

theorem whole_cons_of_lt {rs : List ρ} (h : n < (encode r).length) :
    whole encode n (r :: rs) = [] := if_neg (Nat.not_le.mpr h)

theorem whole_append_of_le {rs ts : List ρ} (h : size encode rs ≤ n) :
    whole encode n (rs ++ ts) = rs ++ whole encode (n - size encode rs) ts := by
  induction rs generalizing n with
  | nil => rfl
  | cons r rs ih =>
    rw [size_cons] at h
    rw [cons_append, whole_cons_of_le (by omega), ih (by omega), size_cons, Nat.sub_sub]
    rfl

theorem whole_append_of_lt {rs ts : List ρ} (h : n < size encode rs) :
    whole encode n (rs ++ ts) = whole encode n rs := by
  induction rs generalizing n with
  | nil => exact absurd h (Nat.not_lt_zero n)
  | cons r rs ih =>
    rw [size_cons] at h
    by_cases hr : (encode r).length ≤ n
    · rw [cons_append, whole_cons_of_le hr, whole_cons_of_le hr, ih (by omega)]
    · rw [cons_append, whole_cons_of_lt (by omega), whole_cons_of_lt (by omega)]

theorem whole_subset (n : Nat) {rs : List ρ} : whole encode n rs ⊆ rs := by
  induction rs generalizing n with
  | nil => exact List.Subset.refl []
  | cons r rs ih =>
    by_cases hr : (encode r).length ≤ n
    · rw [whole_cons_of_le hr]
      exact cons_subset_cons r (ih _)
    · rw [whole_cons_of_lt (by omega)]
      exact nil_subset _

/-- A log that was cut off reads as the records before the cut. -/
theorem scan_take {decode : List α → Option (ρ × List α)} {valid : ρ → Prop} (code : Code encode decode valid)
    {rs : List ρ} (hvalid : ∀ r ∈ rs, valid r) (hnil : decode [] = none) {fuel : Nat}
    (hfuel : ((rs.flatMap encode).take n).length < fuel) :
    scan decode fuel ((rs.flatMap encode).take n) = whole encode n rs := by
  induction rs generalizing n fuel with
  | nil =>
    obtain ⟨fuel, rfl⟩ := Nat.exists_eq_add_one_of_ne_zero (Nat.ne_zero_of_lt hfuel)
    rw [flatMap_nil, take_nil, scan, hnil, whole]
  | cons r rs ih =>
    obtain ⟨fuel, rfl⟩ := Nat.exists_eq_add_one_of_ne_zero (Nat.ne_zero_of_lt hfuel)
    have hr := hvalid r mem_cons_self
    have hpos := code.encode_pos hr
    rw [flatMap_cons, take_append] at hfuel ⊢
    by_cases hn : (encode r).length ≤ n
    · rw [take_of_length_le hn] at hfuel ⊢
      rw [length_append] at hfuel
      have hrest : scan decode fuel ((rs.flatMap encode).take (n - (encode r).length)) =
          whole encode (n - (encode r).length) rs :=
        ih (fun t ht => hvalid t (mem_cons_of_mem r ht)) (by omega)
      rw [scan, code.decode_encode hr, whole_cons_of_le hn]
      exact congrArg (r :: ·) hrest
    · have hlt := Nat.lt_of_not_le hn
      rw [Nat.sub_eq_zero_of_le (Nat.le_of_lt hlt), take_zero, append_nil, scan, code.decode_take hr hlt,
        whole_cons_of_lt hlt]

section Groups

variable {groups before after : List (List ρ)} {group : List ρ} {n : Nat}

theorem whole_of_torn (hgroups : groups = before ++ group :: after) (h : Torn encode n before group) :
    whole encode n groups.flatten = before.flatten ++ whole encode (n - size encode before.flatten) group := by
  have hle : size encode before.flatten ≤ n := Nat.le_trans (Nat.le_add_right _ _) h.1
  have hlt : n - size encode before.flatten < size encode group := by
    have hend := h.2
    omega
  rw [hgroups, flatten_append, flatten_cons, whole_append_of_le hle, whole_append_of_lt hlt]

theorem whole_of_untorn (groups : List (List ρ))
    (h : ∀ before group after, groups = before ++ group :: after → ¬ Torn encode n before group) :
    ∃ k, whole encode n groups.flatten = (groups.take k).flatten := by
  induction groups generalizing n with
  | nil => exact ⟨0, rfl⟩
  | cons group groups ih =>
    by_cases hle : size encode group ≤ n
    · have hrest : ∀ before t after, groups = before ++ t :: after →
          ¬ Torn encode (n - size encode group) before t := by
        intro before t after hsplit htorn
        refine h (group :: before) t after (congrArg (group :: ·) hsplit) ?_
        obtain ⟨hstart, hend⟩ := htorn
        rw [Torn, flatten_cons, size_append]
        constructor <;> omega
      obtain ⟨k, hk⟩ := ih hrest
      refine ⟨k + 1, ?_⟩
      rw [flatten_cons, whole_append_of_le hle, hk, take_succ_cons, flatten_cons]
    · have hlt := Nat.lt_of_not_le hle
      -- not even the first record of the group is before the cut
      refine ⟨0, ?_⟩
      rw [flatten_cons, whole_append_of_lt hlt]
      cases group with
      | nil => exact absurd hlt (Nat.not_lt_zero n)
      | cons r rs =>
        have huntorn := h [] (r :: rs) groups rfl
        refine whole_cons_of_lt (Nat.lt_of_not_le fun hfirst => huntorn ⟨?_, ?_⟩)
        · simpa using hfirst
        · simpa using hlt

end Groups

end Framing

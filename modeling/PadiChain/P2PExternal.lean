import Mathlib.Data.Finset.Card
import Mathlib.Logic.Function.Basic

/-! How a node learns its external address from what its peers report. Votes are never withdrawn, and an address that
has enough of them replaces the settled one however many that has. -/

namespace PadiChain.P2P

def minObservations : Nat := 3

variable {ι α : Type} [DecidableEq ι] [DecidableEq α]

/-- `externalAddress`: for each address the peers that have reported it, and the address that has won. -/
structure ExternalAddress (ι α : Type) where
  votes : α → Finset ι
  settled : Option α

namespace ExternalAddress

/-- `note`, with the routable address that the report names, if any. -/
def note (e : ExternalAddress ι α) (sender : ι) : Option α → Bool × ExternalAddress ι α
  | none => (false, e)
  | some candidate =>
    let votes := Function.update e.votes candidate (insert sender (e.votes candidate))
    if (votes candidate).card < minObservations ∨ e.settled = some candidate then (false, { e with votes })
    else (true, ⟨votes, some candidate⟩)

/-- What a history of reports leads to, the latest first. -/
def after : List (ι × Option α) → ExternalAddress ι α
  | [] => ⟨fun _ => ∅, none⟩
  | (sender, candidate) :: earlier => ((after earlier).note sender candidate).2

/-- The peers that have reported an address. -/
def reporters (reports : List (ι × Option α)) (addr : α) : Finset ι :=
  ((reports.filter (·.2 = some addr)).map Prod.fst).toFinset

/-- The peers whose latest report names an address. -/
def backers (reports : List (ι × Option α)) (addr : α) : Finset ι :=
  (reporters reports addr).filter fun i => reports.find? (·.1 = i) = some (i, some addr)

variable {reports : List (ι × Option α)} {addr : α}

theorem votes_after : (after reports).votes addr = reporters reports addr := by
  induction reports with
  | nil => rfl
  | cons r earlier ih =>
    obtain ⟨sender, _ | candidate⟩ := r
    · rw [after, note, ih]
      simp [reporters]
    have hvotes : (after ((sender, some candidate) :: earlier)).votes =
        Function.update (after earlier).votes candidate (insert sender ((after earlier).votes candidate)) := by
      simp only [after, note]
      split <;> rfl
    rw [hvotes]
    by_cases haddr : candidate = addr
    · subst haddr
      simp [ih, reporters]
    · rw [Function.update_of_ne (Ne.symm haddr), ih]
      simp [reporters, haddr]

theorem settled_after (h : (after reports).settled = some addr) : minObservations ≤ (reporters reports addr).card := by
  induction reports with
  | nil => cases h
  | cons r earlier ih =>
    have hvotes : (after (r :: earlier)).votes addr = reporters (r :: earlier) addr := votes_after
    have hkeep : (after earlier).settled = some addr → minObservations ≤ (reporters (r :: earlier) addr).card :=
      fun hold => (ih hold).trans (Finset.card_le_card fun i => by simp [reporters]; grind)
    obtain ⟨sender, _ | candidate⟩ := r
    · exact hkeep h
    simp only [after, note] at h hvotes
    split at h
    · exact hkeep h
    · rename_i hwon
      rw [if_neg hwon] at hvotes
      cases h
      rw [← hvotes]
      exact not_lt.mp (not_or.mp hwon).1

/-- Enough peers back the address, and no other has more backers. -/
def Backed (reports : List (ι × Option α)) (addr : α) : Prop :=
  minObservations ≤ (backers reports addr).card ∧ ∀ other, (backers reports other).card ≤ (backers reports addr).card

/-- The settled address is backed by a plurality if no peer changes its report and no two addresses are reported by
enough peers. -/
theorem settled_backed (hsteady : ∀ r ∈ reports, ∀ r' ∈ reports, r.1 = r'.1 → r = r')
    (halone : ∀ a a', minObservations ≤ (reporters reports a).card → minObservations ≤ (reporters reports a').card → a = a')
    (h : (after reports).settled = some addr) : Backed reports addr := by
  have hbackers (a : α) : backers reports a = reporters reports a := by
    refine Finset.filter_true_of_mem fun i hi => ?_
    obtain ⟨r, hr, rfl⟩ := List.mem_map.mp (List.mem_toFinset.mp hi)
    obtain ⟨hmem, ha⟩ := List.mem_filter.mp hr
    obtain ⟨r', hfind⟩ : ∃ r', reports.find? (·.1 = r.1) = some r' :=
      Option.isSome_iff_exists.mp (List.find?_isSome.mpr ⟨r, hmem, decide_eq_true rfl⟩)
    have hsame := hsteady r' (List.mem_of_find?_eq_some hfind) r hmem (by simpa using List.find?_some hfind)
    rw [hfind, hsame, ← of_decide_eq_true ha]
  have henough := settled_after h
  refine ⟨by rwa [hbackers], fun other => ?_⟩
  rw [hbackers, hbackers]
  by_cases hother : minObservations ≤ (reporters reports other).card
  · rw [halone other addr hother henough]
  · exact (not_le.mp hother).le.trans henough

/-- Three of seven peers move the address away from what the other four report. -/
theorem settled_by_minority :
    ∃ reports : List (Nat × Option Nat), (after reports).settled = some 1 ∧ ¬ Backed reports 1 := by
  refine ⟨[(6, some 1), (5, some 1), (4, some 1), (3, some 0), (2, some 0), (1, some 0), (0, some 0)], by decide,
    fun h => absurd (h.2 0) (by decide)⟩

theorem settled_backed_three : Backed [(2, some 0), (1, some 0), (0, some 0)] 0 := by
  have honly (a : Nat) (ha : minObservations ≤ (reporters [(2, some 0), (1, some 0), (0, some 0)] a).card) : a = 0 := by
    by_contra hne
    simp [reporters, Ne.symm hne, minObservations] at ha
  exact settled_backed (by decide) (fun a a' ha ha' => (honly a ha).trans (honly a' ha').symm) (by decide)

end ExternalAddress

end PadiChain.P2P

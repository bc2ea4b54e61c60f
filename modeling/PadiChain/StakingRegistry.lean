import PadiChain.StakingParams
import Mathlib.Algebra.BigOperators.Fin
import Mathlib.Algebra.Order.BigOperators.Group.Finset

/-! The validator registry. The source keeps it in the storage of the staking account, one value per
slot, each slot the hash of a label and an index; here every slot family is a field, which is what
the hashed layout means when no two slots collide. A record goes through `Validator.packed` when it
is written: the balance is kept modulo `2^256`, the slashing epoch in seven bytes, and a key that is
not 48 bytes, or is all zero, reads back as no key. -/

namespace PadiChain.Staking

open Function List

inductive Status where
  | pending
  | active
  | exiting
  | exited
  | slashed
  | withdrawn
  deriving DecidableEq, Repr

/-- One registry entry. Every function of the source keeps the effective balance equal to
`computeEffectiveBalance` of the balance, so it is not a field. -/
structure Validator where
  index : Nat
  address : Address
  withdrawalAddress : Address
  blsPublicKey : Bytes
  balance : Nat
  status : Status
  activationEpoch : Nat
  exitEpoch : Nat
  withdrawableEpoch : Nat
  slashedEpoch : Nat
  deriving DecidableEq, Repr

namespace Validator

def effectiveBalance (v : Validator) : Nat := computeEffectiveBalance v.balance

def isActiveAt (v : Validator) (epoch : Nat) : Bool :=
  match v.status with
  | .active => decide (v.activationEpoch ≤ epoch)
  | .exiting => decide (v.activationEpoch ≤ epoch) && decide (epoch < v.exitEpoch)
  | _ => false

/-- The record an empty slot reads as. -/
def zero : Validator :=
  ⟨0, 0, 0, [], 0, .pending, 0, 0, 0, 0⟩

def setBalance (v : Validator) (balance : Nat) : Validator := { v with balance := balance }

def setStatus (v : Validator) (status : Status) : Validator := { v with status := status }

/-- What reading a record back returns after it was written. -/
def packed (v : Validator) : Validator :=
  { v with
    balance := v.balance % 2 ^ 256
    slashedEpoch := v.slashedEpoch % 2 ^ 56
    blsPublicKey :=
      if v.blsPublicKey.length = blsPublicKeyLength ∧ ¬ v.blsPublicKey.all (· == 0) then v.blsPublicKey
      else [] }

variable (v : Validator)

@[simp] theorem packed_index : v.packed.index = v.index := rfl

@[simp] theorem packed_address : v.packed.address = v.address := rfl

theorem packed_balance_of_lt {v : Validator} (h : v.balance < 2 ^ 256) :
    v.packed.balance = v.balance := Nat.mod_eq_of_lt h

@[simp] theorem packed_packed : v.packed.packed = v.packed := by
  unfold packed
  simp only [Nat.mod_mod]
  congr 1
  split_ifs <;> simp_all

theorem packed_blsPublicKey : v.packed.blsPublicKey = v.blsPublicKey ∨ v.packed.blsPublicKey = [] := by
  unfold packed
  split_ifs
  · exact .inl rfl
  · exact .inr rfl

end Validator

structure EpochState where
  lastProcessedEpoch : Nat
  finalizedEpoch : Nat
  exitQueueEpoch : Nat
  exitQueueCount : Nat
  deriving DecidableEq, Repr

/-- What the staking account's storage holds. A record is what was read out of its slots, so packing
it again changes nothing. -/
structure Registry where
  count : Nat
  records : Nat → Validator
  index : Address → Option Nat
  slashedStake : Nat → Nat
  epochState : EpochState
  randaoMix : Hash
  packed_records : ∀ i, (records i).packed = records i

namespace Registry

def empty : Registry where
  count := 0
  records := fun _ => Validator.zero
  index := fun _ => none
  slashedStake := fun _ => 0
  epochState := ⟨0, 0, 0, 0⟩
  randaoMix := 0
  packed_records := fun _ => rfl

variable (r : Registry)

def get (i : Nat) : Option Validator :=
  if i < r.count then some { r.records i with index := i } else none

def byAddress (addr : Address) : Option Validator :=
  match r.index addr with
  | none => none
  | some i => r.get i

def put (v : Validator) : Registry :=
  { r with
    records := update r.records v.index v.packed
    packed_records := by
      intro i
      rw [update_apply]
      split_ifs
      · exact Validator.packed_packed v
      · exact r.packed_records i }

/-- `Append`: the new record takes the next index, and the address points at it. -/
def append (v : Validator) : Registry × Validator :=
  let v := { v with index := r.count }
  let r' := r.put v
  ({ r' with index := update r'.index v.address (some r.count), count := r.count + 1 }, v)

def all : List Validator := (List.range r.count).map fun i => { r.records i with index := i }

def activeAt (epoch : Nat) : List Validator := r.all.filter (·.isActiveAt epoch)

def activeAddressesAt (epoch : Nat) : List Address := (r.activeAt epoch).map (·.address)

def activeBLSKeysAt (epoch : Nat) : List Bytes := (r.activeAt epoch).map (·.blsPublicKey)

def totalActiveStake (epoch : Nat) : Nat := ((r.activeAt epoch).map (·.effectiveBalance)).sum

def slashedStakeIn (epoch : Nat) : Nat := r.slashedStake (epoch % slashingWindow)

def setSlashedStake (epoch amount : Nat) : Registry :=
  { r with slashedStake := update r.slashedStake (epoch % slashingWindow) (amount % 2 ^ 256) }

def addSlashedStake (epoch amount : Nat) : Registry :=
  r.setSlashedStake epoch (r.slashedStakeIn epoch + amount)

def resetSlashedStake (epoch : Nat) : Registry := r.setSlashedStake epoch 0

def correlatedSlashedStake (epoch : Nat) : Nat :=
  let start := if slashingWindow < epoch then epoch - slashingWindow else 0
  ((List.range' start (epoch + 1 - start)).map r.slashedStakeIn).sum

def saveEpochState (s : EpochState) : Registry := { r with epochState := s }

/-- `ProposerAt`: walk the active set accumulating effective balance until it passes a threshold
drawn from the seed, the slot and the round. With no stake to weight by it is a plain rotation. -/
def proposerAt (draw : Hash → Nat → Nat → Hash) (epoch : Nat) (seed : Hash) (slot round : Nat) :
    Option Address :=
  let active := r.activeAt epoch
  if active.isEmpty then none
  else
    let total := r.totalActiveStake epoch
    if total = 0 then (active[(slot + round) % 2 ^ 64 % active.length]?).map (·.address)
    else
      let target := (draw seed slot round).toNat % total
      let rec pick (cumulative : Nat) : List Validator → Option Address
        | [] => (active.getLast?).map (·.address)
        | v :: rest =>
          if target < cumulative + v.effectiveBalance then some v.address
          else pick (cumulative + v.effectiveBalance) rest
      pick 0 active

def setRandaoMix (mix : Hash) : Registry := { r with randaoMix := mix }

def totalStaked : Nat := ∑ i ∈ Finset.range r.count, (r.records i).balance

variable {r}

variable {i : Nat} {v : Validator} {vs : List Validator}

theorem get_eq_some : r.get i = some v ↔ i < r.count ∧ { r.records i with index := i } = v := by
  unfold get
  split <;> simp_all

theorem get_index (h : r.get i = some v) : v.index = i := by
  rw [← (get_eq_some.mp h).2]

theorem records_balance_lt (i : Nat) : (r.records i).balance < 2 ^ 256 := by
  have h : (r.records i).balance % 2 ^ 256 = (r.records i).balance :=
    congrArg Validator.balance (r.packed_records i)
  rw [← h]
  exact Nat.mod_lt _ (by decide)

theorem get_packed (h : r.get i = some v) : v.packed = v := by
  rw [← (get_eq_some.mp h).2]
  exact congrArg (fun v : Validator => { v with index := i }) (r.packed_records i)

theorem get_lt (h : r.get i = some v) : i < r.count := (get_eq_some.mp h).1

theorem byAddress_eq_some {addr : Address} :
    r.byAddress addr = some v ↔ r.index addr = some v.index ∧ r.get v.index = some v := by
  unfold byAddress
  cases h : r.index addr with
  | none => simp
  | some i =>
    constructor
    · intro hget
      rw [get_index hget]
      exact ⟨rfl, hget⟩
    · rintro ⟨hi, hget⟩
      rw [Option.some.inj hi]
      exact hget

theorem mem_all : v ∈ r.all ↔ r.get v.index = some v := by
  unfold all
  rw [mem_map, get_eq_some]
  constructor
  · rintro ⟨i, hi, rfl⟩
    exact ⟨mem_range.mp hi, rfl⟩
  · rintro ⟨hlt, hv⟩
    exact ⟨v.index, mem_range.mpr hlt, hv⟩

theorem map_index_all : r.all.map (·.index) = List.range r.count := by
  unfold all
  rw [map_map]
  exact map_id' _

theorem nodup_all : (r.all.map (·.index)).Nodup := by
  rw [map_index_all]
  exact nodup_range

theorem mem_activeAt {epoch : Nat} : v ∈ r.activeAt epoch ↔ r.get v.index = some v ∧ v.isActiveAt epoch = true := by
  unfold activeAt
  rw [mem_filter, mem_all]

@[simp] theorem put_count (v : Validator) : (r.put v).count = r.count := rfl

@[simp] theorem put_epochState (v : Validator) : (r.put v).epochState = r.epochState := rfl

@[simp] theorem get_resetSlashedStake (epoch i : Nat) : (r.resetSlashedStake epoch).get i = r.get i := rfl

theorem put_records_self (v : Validator) : (r.put v).records v.index = v.packed :=
  update_self ..

theorem put_records_of_ne (v : Validator) (h : i ≠ v.index) :
    (r.put v).records i = r.records i := update_of_ne h ..

theorem get_put_self (h : v.index < r.count) : (r.put v).get v.index = some v.packed :=
  get_eq_some.mpr ⟨h, by rw [put_records_self]; rfl⟩

theorem get_put_of_ne (v : Validator) (h : i ≠ v.index) : (r.put v).get i = r.get i := by
  unfold get
  rw [put_count, put_records_of_ne v h]

/-- Writing one record moves the total by exactly the change of that record's balance. -/
theorem totalStaked_put (h : v.index < r.count) :
    (r.put v).totalStaked + (r.records v.index).balance = r.totalStaked + v.packed.balance := by
  have hmem : v.index ∈ Finset.range r.count := Finset.mem_range.mpr h
  have hrest : ∀ i ∈ Finset.range r.count \ {v.index},
      ((r.put v).records i).balance = (r.records i).balance := by
    intro i hi
    rw [put_records_of_ne v (by simpa using (Finset.mem_sdiff.mp hi).2)]
  unfold totalStaked
  rw [put_count, ← Finset.sum_sdiff (Finset.singleton_subset_iff.mpr hmem),
    ← Finset.sum_sdiff (Finset.singleton_subset_iff.mpr hmem), Finset.sum_congr rfl hrest,
    Finset.sum_singleton, Finset.sum_singleton, put_records_self]
  omega

theorem balance_le_totalStaked (h : i < r.count) : (r.records i).balance ≤ r.totalStaked :=
  Finset.single_le_sum (f := fun i => (r.records i).balance) (fun _ _ => Nat.zero_le _)
    (Finset.mem_range.mpr h)

theorem totalStaked_append (v : Validator) : (r.append v).1.totalStaked = r.totalStaked + v.packed.balance := by
  have hold : ∀ i ∈ Finset.range r.count,
      ((r.append v).1.records i).balance = (r.records i).balance := by
    intro i hi
    have hne : i ≠ r.count := (Finset.mem_range.mp hi).ne
    exact congrArg Validator.balance (update_of_ne hne ..)
  unfold totalStaked
  rw [show (r.append v).1.count = r.count + 1 from rfl, Finset.sum_range_succ, Finset.sum_congr rfl hold]
  have hnew : (r.append v).1.records r.count = ({ v with index := r.count } : Validator).packed :=
    update_self ..
  rw [hnew]
  rfl

def putAll (r : Registry) (vs : List Validator) : Registry := vs.foldl put r

@[simp] theorem putAll_cons (v : Validator) (vs : List Validator) :
    r.putAll (v :: vs) = (r.put v).putAll vs := rfl

theorem putAll_frame {γ : Type*} (π : Registry → γ) (hput : ∀ r v, π (put r v) = π r) :
    π (r.putAll vs) = π r := by
  induction vs generalizing r with
  | nil => rfl
  | cons v vs ih => rw [putAll_cons, ih, hput]

theorem putAll_records_of_notMem (h : i ∉ vs.map (·.index)) : (r.putAll vs).records i = r.records i := by
  induction vs generalizing r with
  | nil => rfl
  | cons v vs ih =>
    rw [map_cons, mem_cons, not_or] at h
    rw [putAll_cons, ih h.2, put_records_of_ne v h.1]

theorem putAll_records_of_mem (hnodup : (vs.map (·.index)).Nodup)
    (h : v ∈ vs) : (r.putAll vs).records v.index = v.packed := by
  induction vs generalizing r with
  | nil => cases h
  | cons w vs ih =>
    rw [map_cons, nodup_cons] at hnodup
    rw [putAll_cons]
    rcases mem_cons.mp h with rfl | hmem
    · rw [putAll_records_of_notMem hnodup.1, put_records_self]
    · exact ih hnodup.2 hmem

/-- A loop over distinct records moves the total by the changes of their balances. -/
theorem totalStaked_putAll (hnodup : (vs.map (·.index)).Nodup) (hlt : ∀ v ∈ vs, v.index < r.count) :
    (r.putAll vs).totalStaked + (vs.map fun v => (r.records v.index).balance).sum
      = r.totalStaked + (vs.map fun v => v.packed.balance).sum := by
  induction vs generalizing r with
  | nil => rfl
  | cons v vs ih =>
    rw [map_cons, nodup_cons] at hnodup
    have hrest : (vs.map fun w => ((r.put v).records w.index).balance)
        = vs.map fun w => (r.records w.index).balance := by
      refine map_congr_left fun w hw => ?_
      have hne : w.index ≠ v.index := by
        intro h
        exact hnodup.1 (h ▸ mem_map_of_mem hw)
      rw [put_records_of_ne v hne]
    have hstep := totalStaked_put (r := r) (hlt v mem_cons_self)
    have hloop := ih (r := r.put v) hnodup.2 fun w hw => hlt w (mem_cons_of_mem _ hw)
    rw [hrest] at hloop
    rw [putAll_cons, map_cons, map_cons, sum_cons, sum_cons]
    omega

def updateWhere (r : Registry) (c : Validator → Bool) (f : Validator → Validator) : Registry :=
  r.putAll ((r.all.filter c).map f)

section UpdateWhere

variable {c : Validator → Bool} {f : Validator → Validator}

theorem foldl_eq_updateWhere {γ : Type*} (π : γ → Registry) (step : γ → Validator → γ)
    (hstep : ∀ acc v, π (step acc v) = if c v then (π acc).put (f v) else π acc) (acc : γ) :
    π ((π acc).all.foldl step acc) = (π acc).updateWhere c f := by
  suffices h : ∀ (vs : List Validator) (acc : γ),
      π (vs.foldl step acc) = (π acc).putAll ((vs.filter c).map f) from h _ acc
  intro vs
  induction vs with
  | nil => intro acc; rfl
  | cons v vs ih =>
    intro acc
    rw [foldl_cons, ih, hstep]
    split_ifs with hv
    · rw [filter_cons_of_pos hv, map_cons, putAll_cons]
    · rw [filter_cons_of_neg hv]

@[simp] theorem updateWhere_count : (r.updateWhere c f).count = r.count :=
  putAll_frame count (fun _ _ => rfl)

@[simp] theorem updateWhere_index : (r.updateWhere c f).index = r.index :=
  putAll_frame index (fun _ _ => rfl)

@[simp] theorem updateWhere_slashedStake : (r.updateWhere c f).slashedStake = r.slashedStake :=
  putAll_frame slashedStake (fun _ _ => rfl)

variable (hf : ∀ v, (f v).index = v.index)

include hf

theorem map_index_filter_all : ((r.all.filter c).map f).map (·.index) = (r.all.filter c).map (·.index) := by
  rw [map_map]
  exact map_congr_left fun v _ => hf v

theorem nodup_updates : (((r.all.filter c).map f).map (·.index)).Nodup := by
  rw [map_index_filter_all hf]
  exact (List.Sublist.map _ filter_sublist).nodup nodup_all

theorem get_updateWhere (i : Nat) :
    (r.updateWhere c f).get i = (r.get i).map fun v => if c v then (f v).packed else v := by
  cases hget : r.get i with
  | none =>
    have hcount : ¬ i < r.count := by
      intro h
      rw [get, if_pos h] at hget
      cases hget
    unfold get
    rw [updateWhere_count, if_neg hcount]
    rfl
  | some v =>
    have hlt : i < r.count := get_lt hget
    have hindex : v.index = i := get_index hget
    rw [Option.map_some, get_eq_some]
    refine ⟨by rw [updateWhere_count]; exact hlt, ?_⟩
    by_cases hc : c v = true
    · have hmem : f v ∈ (r.all.filter c).map f :=
        mem_map_of_mem (mem_filter.mpr ⟨mem_all.mpr (by rw [hindex]; exact hget), hc⟩)
      have hrec : (r.updateWhere c f).records i = (f v).packed := by
        have h := putAll_records_of_mem (r := r) (nodup_updates hf) hmem
        rwa [hf v, hindex] at h
      rw [if_pos hc, hrec, show i = (f v).packed.index by rw [Validator.packed_index, hf v, hindex]]
    · have hnot : i ∉ ((r.all.filter c).map f).map (·.index) := by
        rw [map_index_filter_all hf]
        intro hi
        obtain ⟨w, hw, hwi⟩ := mem_map.mp hi
        obtain ⟨hwall, hcw⟩ := mem_filter.mp hw
        have hwget : r.get i = some w := by
          rw [← hwi]
          exact mem_all.mp hwall
        rw [hget] at hwget
        exact hc (Option.some.inj hwget ▸ hcw)
      have hrec : (r.updateWhere c f).records i = r.records i := putAll_records_of_notMem hnot
      rw [if_neg hc, hrec]
      exact (get_eq_some.mp hget).2

theorem all_updateWhere : (r.updateWhere c f).all = r.all.map fun v => if c v then (f v).packed else v := by
  have hall : ∀ r : Registry, r.all.map some = (range r.count).map r.get := by
    intro r
    unfold all
    rw [map_map]
    refine map_congr_left fun i hi => ?_
    rw [get, if_pos (mem_range.mp hi)]
    rfl
  refine map_injective_iff.mpr (Option.some_injective _) ?_
  calc (r.updateWhere c f).all.map some
      = (range r.count).map (r.updateWhere c f).get := by rw [hall, updateWhere_count]
    _ = (range r.count).map fun i => (r.get i).map fun v => if c v then (f v).packed else v :=
        map_congr_left fun i _ => get_updateWhere hf i
    _ = ((range r.count).map r.get).map (Option.map fun v => if c v then (f v).packed else v) := by
        rw [map_map]
        rfl
    _ = (r.all.map fun v => if c v then (f v).packed else v).map some := by
        rw [← hall, map_map, map_map]
        rfl

theorem totalStaked_updateWhere :
    (r.updateWhere c f).totalStaked + ((r.all.filter c).map (·.balance)).sum
      = r.totalStaked + ((r.all.filter c).map fun v => (f v).packed.balance).sum := by
  have hmove := totalStaked_putAll (r := r) (nodup_updates (c := c) hf) (by
    intro v hv
    obtain ⟨w, hw, rfl⟩ := mem_map.mp hv
    rw [hf w]
    exact get_lt (mem_all.mp (mem_filter.mp hw).1))
  rw [map_map, map_map] at hmove
  have hold : (r.all.filter c).map ((fun v => (r.records v.index).balance) ∘ f)
      = (r.all.filter c).map (·.balance) := by
    refine map_congr_left fun v hv => ?_
    have hget := get_eq_some.mp (mem_all.mp (mem_filter.mp hv).1)
    rw [comp_apply, hf v, ← hget.2]
  rw [hold] at hmove
  exact hmove

end UpdateWhere

end Registry

end PadiChain.Staking

import PadiChain.StateRefund

/-! What the writes to one slot cost in a transaction. Every write pays for a warm read, the first one
for the cold read as well, and what is charged on top when the slot leaves its original value is given
back when it returns there. From an original value other than zero a return gives back `2100` less
than the departure charged. -/

namespace PadiChain.State

open Transition

/-- A slot during a transaction: its value, whether it has been accessed yet, and the gas charged and
the refund booked for its writes. -/
structure SlotMeter where
  current : Hash
  cold : Bool
  gas : Nat
  refund : Int
  deriving DecidableEq

namespace SlotMeter

def start (original : Hash) (cold : Bool) : SlotMeter := ⟨original, cold, 0, 0⟩

/-- `SSTORE` as `dynamicGas` meters it: the slot is warm afterwards. -/
def write (original : Hash) (m : SlotMeter) (value : Hash) : SlotMeter :=
  let charged := sstoreGas original m.current value m.cold
  ⟨value, false, m.gas + charged.1, m.refund + charged.2⟩

/-- What is charged on top of the reads while a slot is away from its original value, less what its
return does not give back. -/
def away (original current : Hash) : Int :=
  if current = original then 0
  else if original = 0 then gasSstoreSet - gasWarmStorageRead
  else gasSstoreReset - gasColdSloadCost - gasWarmStorageRead - if current = 0 then gasSstoreClear else 0

/-- The reads that have been paid, and the differences that were not given back. -/
def paid (original : Hash) (m : SlotMeter) : Int :=
  m.gas - m.refund - away original m.current + if m.cold then gasColdSloadCost else 0

/-- The refund is not negative, and is enough to take back the one for clearing the slot. -/
def Covered (original : Hash) (m : SlotMeter) : Prop :=
  (if original ≠ 0 ∧ m.current = 0 then (gasSstoreClear : Int) else 0) ≤ m.refund

/-- How often the slot leaves its original value. -/
def departures (original : Hash) : Hash → List Hash → Nat
  | _, [] => 0
  | current, value :: values =>
    (if current = original ∧ value ≠ original then 1 else 0) + departures original value values

variable {original : Hash} {m : SlotMeter}

theorem departures_eq_zero {values : List Hash} :
    departures original original values = 0 ↔ ∀ value ∈ values, value = original := by
  induction values with
  | nil => exact iff_of_true rfl nofun
  | cons value values ih =>
    rw [departures, List.forall_mem_cons]
    by_cases hvalue : value = original
    · simp [hvalue, ih]
    · simp [hvalue]

theorem sstoreGas_cold (original current value : Hash) (cold : Bool) :
    sstoreGas original current value cold =
      ((if cold then gasColdSloadCost else 0) + (sstoreGas original current value false).1,
        (sstoreGas original current value false).2) := by
  simp only [sstoreGas, Bool.false_eq_true, if_false, Nat.zero_add]
  split_ifs <;> rfl

theorem sstoreGas_away (original current value : Hash) :
    ((sstoreGas original current value false).1 : Int) - (sstoreGas original current value false).2 =
      away original value - away original current + gasWarmStorageRead +
        if original ≠ 0 ∧ current = original ∧ value ≠ original then (gasColdSloadCost : Int) else 0 := by
  by_cases hvalue : current = value
  · subst hvalue
    simp +contextual [sstoreGas]
  by_cases hcurrent : current = original
  · subst hcurrent
    simp only [sstoreGas, away, hvalue, Ne.symm hvalue, if_true, if_false, Bool.false_eq_true, gasColdSloadCost,
      gasWarmStorageRead, gasSstoreSet, gasSstoreReset, gasSstoreClear]
    split_ifs <;> grind
  · simp only [sstoreGas, away, hvalue, hcurrent, Ne.symm hcurrent, if_false, Bool.false_eq_true, gasColdSloadCost,
      gasWarmStorageRead, gasSstoreSet, gasSstoreReset, gasSstoreClear]
    split_ifs <;> grind

theorem paid_write (m : SlotMeter) (value : Hash) :
    (m.write original value).paid original = m.paid original + gasWarmStorageRead +
      if original ≠ 0 ∧ m.current = original ∧ value ≠ original then (gasColdSloadCost : Int) else 0 := by
  have hcharge := sstoreGas_away original m.current value
  simp only [paid, write]
  rw [sstoreGas_cold]
  cases m.cold with
  | false | true =>
    simp only [Bool.false_eq_true, if_true, if_false]
    omega

theorem covered_write {value : Hash} (h : m.Covered original) : (m.write original value).Covered original := by
  simp only [Covered, write] at h ⊢
  rw [sstoreGas_cold]
  simp only [sstoreGas, gasSstoreSet, gasWarmStorageRead, gasSstoreReset, gasColdSloadCost, gasSstoreClear] at h ⊢
  split_ifs at h ⊢ <;> grind

theorem paid_run (original : Hash) (values : List Hash) (m : SlotMeter) :
    (run (write original) m values).paid original = m.paid original + gasWarmStorageRead * values.length +
      if original = 0 then 0 else (gasColdSloadCost * departures original m.current values : Int) := by
  induction values generalizing m with
  | nil => simp [departures]
  | cons value values ih =>
    rw [run_cons, ih, paid_write, departures, show (m.write original value).current = value from rfl]
    simp only [gasWarmStorageRead, gasColdSloadCost, List.length_cons]
    split_ifs <;> grind

end SlotMeter

open SlotMeter

/-- A sequence of writes that ends with the original value costs, less its refund, what as many writes
that change nothing cost exactly when the original value is zero or no write changes the slot; and at no
point is the refund of the slot negative. -/
theorem net_metering (original : Hash) (cold : Bool) (values : List Hash) :
    (((run (write original) (start original cold) (values ++ [original])).gas : Int)
        - (run (write original) (start original cold) (values ++ [original])).refund
          = gasWarmStorageRead * (values.length + 1) + (if cold then gasColdSloadCost else 0 : Nat) ↔
      original = 0 ∨ ∀ value ∈ values, value = original) ∧
    0 ≤ (run (write original) (start original cold) values).refund := by
  constructor
  · have hpaid := paid_run original (values ++ [original]) (start original cold)
    have hdepartures : departures original original (values ++ [original]) = 0 ↔
        ∀ value ∈ values, value = original := by
      rw [departures_eq_zero, List.forall_mem_append]
      exact and_iff_left (List.forall_mem_singleton.mpr rfl)
    rw [← hdepartures]
    rw [run_append] at hpaid ⊢
    set m := run (write original) (start original cold) values
    simp only [run_cons, run_nil, paid, away, start, write, if_pos, gasWarmStorageRead, gasColdSloadCost,
      List.length_append] at hpaid ⊢
    split_ifs at hpaid ⊢ <;> grind
  · have hstart : (start original cold).Covered original := (if_neg fun h => h.1 h.2).le
    have hend : (run (write original) (start original cold) values).Covered original :=
      run_preserves (fun _ _ h => covered_write h) values hstart
    refine le_trans ?_ hend
    split_ifs <;> decide

/-- A slot that holds one is set to two and back: `2300` instead of `200`. -/
theorem net_metering_overcharges :
    (run (write 1) (start 1 false) [2, 1]).gas = 5100 ∧ (run (write 1) (start 1 false) [2, 1]).refund = 2800 ∧
      ((run (write 1) (start 1 false) [2, 1]).gas : Int) - (run (write 1) (start 1 false) [2, 1]).refund
        ≠ gasWarmStorageRead * 2 := by
  decide

end PadiChain.State

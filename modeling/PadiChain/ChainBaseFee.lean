import Mathlib.Tactic.Linarith
import Mathlib.Tactic.Ring
import PadiChain.ChainVerify

/-! The base fee under any configuration. A parent that has used at most twice its target moves it by one denominator-th
or by one; an odd gas limit or another elasticity lets a parent use more, and move it further. -/

namespace PadiChain.Chain

open Core

/-- The settings that `CalcBaseFee` reads. -/
structure FeeConfig where
  elasticityMultiplier : Nat
  baseFeeChangeDenominator : Nat
  minBaseFee : Nat

namespace FeeConfig

variable (cfg : FeeConfig) (parent : Header)

/-- `DefaultConfig`. -/
def default : FeeConfig := ⟨Chain.elasticityMultiplier, Chain.baseFeeChangeDenominator, Chain.minBaseFee⟩

def target : Nat := parent.gasLimit / cfg.elasticityMultiplier

def change (delta : Nat) : Nat := parent.baseFee * delta / cfg.target parent / cfg.baseFeeChangeDenominator

/-- `CalcBaseFee`. A division by zero panics. -/
def calcBaseFee : Option Nat :=
  if parent.baseFee = 0 then some cfg.minBaseFee
  else if cfg.elasticityMultiplier = 0 then none
  else if cfg.target parent = 0 then some parent.baseFee
  else if parent.gasUsed = cfg.target parent then some parent.baseFee
  else if cfg.baseFeeChangeDenominator = 0 then none
  else if cfg.target parent < parent.gasUsed then
    let change := cfg.change parent (parent.gasUsed - cfg.target parent)
    some (parent.baseFee + if change = 0 then 1 else change)
  else
    let fee := parent.baseFee - cfg.change parent (cfg.target parent - parent.gasUsed)
    some (if fee < cfg.minBaseFee then cfg.minBaseFee else fee)

/-- What the next base fee is to be. Only a rise is rounded up to one. -/
structure Controlled (fee : Nat) : Prop where
  least : cfg.minBaseFee ≤ fee
  steady : parent.gasUsed = cfg.target parent → fee = parent.baseFee
  rises : cfg.target parent < parent.gasUsed → parent.baseFee < fee
  most : fee ≤ parent.baseFee + max 1 (parent.baseFee / cfg.baseFeeChangeDenominator)
  falls : parent.baseFee ≤ fee + parent.baseFee / cfg.baseFeeChangeDenominator

/-- Nothing is divided by zero, and no more than twice the target is used. -/
structure Moderate : Prop where
  elasticity : cfg.elasticityMultiplier ≠ 0
  denominator : parent.gasUsed = cfg.target parent ∨ cfg.baseFeeChangeDenominator ≠ 0
  used : parent.gasUsed ≤ 2 * cfg.target parent

/-- A header after a moderate parent. -/
structure Follows (header : Header) : Prop where
  moderate : cfg.Moderate parent
  pos : 0 < parent.baseFee
  least : cfg.minBaseFee ≤ parent.baseFee
  fee : cfg.calcBaseFee parent = some header.baseFee

/-- After `k` blocks the fee is within the `k`-th powers of the factor, apart from the steps of one. -/
def Within (k : Nat) (last : Header) : Prop :=
  cfg.baseFeeChangeDenominator ^ k * last.baseFee ≤ (cfg.baseFeeChangeDenominator + 1) ^ k * (parent.baseFee + k) ∧
    (cfg.baseFeeChangeDenominator - 1) ^ k * parent.baseFee ≤ cfg.baseFeeChangeDenominator ^ k * last.baseFee

theorem calcBaseFee_default : default.calcBaseFee parent = some (Chain.calcBaseFee parent) := by
  simp only [default, calcBaseFee, Chain.calcBaseFee, target, change, Chain.elasticityMultiplier, Chain.baseFeeChangeDenominator,
    OfNat.ofNat_ne_zero, if_false]
  split_ifs <;> grind

variable {cfg parent} {fee fee' : Nat}

theorem change_mono {delta delta' : Nat} (h : delta ≤ delta') : cfg.change parent delta ≤ cfg.change parent delta' :=
  Nat.div_le_div_right (Nat.div_le_div_right (Nat.mul_le_mul_left _ h))

theorem change_le {delta : Nat} (h : delta ≤ cfg.target parent) :
    cfg.change parent delta ≤ parent.baseFee / cfg.baseFeeChangeDenominator := by
  refine Nat.div_le_div_right (Nat.div_le_of_le_mul ?_)
  rw [Nat.mul_comm]
  exact Nat.mul_le_mul_right _ h

theorem Moderate.controlled (h : cfg.Moderate parent) (hpos : 0 < parent.baseFee)
    (hleast : cfg.minBaseFee ≤ parent.baseFee) :
    ∃ fee, cfg.calcBaseFee parent = some fee ∧ cfg.Controlled parent fee := by
  obtain ⟨helasticity, hdenominator, hused⟩ := h
  rw [calcBaseFee, if_neg hpos.ne', if_neg helasticity]
  by_cases htarget : parent.gasUsed = cfg.target parent
  · rw [if_pos htarget, ite_self]
    exact ⟨_, rfl, hleast, fun _ => rfl, fun h => absurd htarget h.ne', Nat.le_add_right _ _, Nat.le_add_right _ _⟩
  rw [if_neg (by omega), if_neg htarget, if_neg (hdenominator.resolve_left htarget)]
  by_cases habove : cfg.target parent < parent.gasUsed
  · have hchange : cfg.change parent (parent.gasUsed - cfg.target parent) ≤ _ := change_le (by omega)
    rw [if_pos habove]
    refine ⟨_, rfl, ?_, fun h => absurd h htarget, fun _ => ?_, ?_, ?_⟩ <;> split_ifs <;> omega
  · have hchange : cfg.change parent (cfg.target parent - parent.gasUsed) ≤ _ := change_le (by omega)
    rw [if_neg habove]
    refine ⟨_, rfl, ?_, fun h => absurd h htarget, fun h => absurd h habove, ?_, ?_⟩ <;> split_ifs <;> omega

/-- With a base fee for which both divisions are exact, nothing is hidden by rounding. -/
theorem moderate_of_controlled (h : ∀ fee, 0 < fee → cfg.minBaseFee ≤ fee →
    ∃ fee', cfg.calcBaseFee { parent with baseFee := fee } = some fee' ∧
      cfg.Controlled { parent with baseFee := fee } fee') : cfg.Moderate parent := by
  set t := cfg.target parent
  set d := cfg.baseFeeChangeDenominator with hd
  let fee := (cfg.minBaseFee + 1) * (max 1 t * max 1 d)
  have hone : 1 ≤ max 1 t * max 1 d := Nat.mul_pos (le_max_left 1 t) (le_max_left 1 d)
  have hmin : cfg.minBaseFee + 1 ≤ fee := Nat.le_mul_of_pos_right _ hone
  obtain ⟨fee', hfee, -, -, hrises, hmost, -⟩ := h fee (by omega) (by omega)
  have htarget : cfg.target { parent with baseFee := fee } = t := rfl
  have hchange : ∀ delta, cfg.change { parent with baseFee := fee } delta = fee * delta / t / d := fun _ => rfl
  simp only [calcBaseFee, htarget, hchange, ← hd] at hfee hrises hmost
  have hexact (ht : t ≠ 0) (hd : d ≠ 0) (delta : Nat) : fee * delta = (cfg.minBaseFee + 1) * delta * d * t := by
    rw [show fee = (cfg.minBaseFee + 1) * (t * d) by grind]
    ring
  split_ifs at hfee with hzero helasticity hnone hsteady hdenominator habove hsmall
  · omega
  · have hused : ¬ t < parent.gasUsed := fun h => absurd (hrises h) (by grind)
    exact ⟨helasticity, .inl (by omega), by omega⟩
  · exact ⟨helasticity, .inl hsteady, by omega⟩
  · rw [hexact hnone hdenominator, Nat.mul_div_cancel _ (by omega), Nat.mul_div_cancel _ (by omega)] at hsmall
    grind
  · refine ⟨helasticity, .inr hdenominator, ?_⟩
    rw [hexact hnone hdenominator, Nat.mul_div_cancel _ (by omega), Nat.mul_div_cancel _ (by omega)] at hfee
    have hbase : fee / d = (cfg.minBaseFee + 1) * t :=
      Nat.div_eq_of_eq_mul_left (by omega) (by linarith [hexact hnone hdenominator 1])
    rw [hbase, ← Option.some.inj hfee] at hmost
    by_contra hused
    have hdelta := Nat.mul_le_mul_left (cfg.minBaseFee + 1) (show t + 1 ≤ parent.gasUsed - t by omega)
    rw [Nat.mul_add_one] at hdelta
    have : 1 ≤ (cfg.minBaseFee + 1) * t := Nat.mul_pos (by omega) (by omega)
    omega
  all_goals exact ⟨helasticity, .inr hdenominator, by omega⟩

theorem calcBaseFee_mono {used : Nat} (hleast : cfg.minBaseFee ≤ parent.baseFee) (hused : parent.gasUsed ≤ used)
    (h : cfg.calcBaseFee parent = some fee) (h' : cfg.calcBaseFee { parent with gasUsed := used } = some fee') :
    fee ≤ fee' := by
  have hrise : cfg.change parent (parent.gasUsed - cfg.target parent) ≤ cfg.change parent (used - cfg.target parent) :=
    change_mono (by omega)
  have hfall : cfg.change parent (cfg.target parent - used) ≤ cfg.change parent (cfg.target parent - parent.gasUsed) :=
    change_mono (by omega)
  have htarget : cfg.target { parent with gasUsed := used } = cfg.target parent := rfl
  have hchange : cfg.change { parent with gasUsed := used } = cfg.change parent := rfl
  simp only [calcBaseFee, htarget, hchange] at h h'
  split_ifs at h h' <;> grind

theorem Controlled.bounds {d : Nat} (hd : cfg.baseFeeChangeDenominator = d) (h : cfg.Controlled parent fee) :
    d * fee ≤ (d + 1) * parent.baseFee + d ∧ (d - 1) * parent.baseFee ≤ d * fee := by
  obtain ⟨-, -, -, hmost, hfalls⟩ := h
  rw [hd] at hmost hfalls
  have hquotient := Nat.mul_div_le parent.baseFee d
  have hsum := max_le_add_of_nonneg (Nat.zero_le 1) (Nat.zero_le (parent.baseFee / d))
  have hrise := Nat.mul_le_mul_left d (hmost.trans (Nat.add_le_add_left hsum _))
  have hfall := Nat.mul_le_mul_left d hfalls
  constructor
  · linarith
  · rw [Nat.sub_mul, Nat.one_mul, Nat.sub_le_iff_le_add]
    linarith

theorem within_run (headers : List Header) (first : Header) (h : List.IsChain cfg.Follows (first :: headers)) :
    cfg.Within first headers.length (headers.getLastD first) := by
  induction headers generalizing first with
  | nil => simp [Within]
  | cons header headers ih =>
    obtain ⟨hstep, hrest⟩ := List.isChain_cons_cons.mp h
    obtain ⟨fee, hfee, hcontrolled⟩ := hstep.moderate.controlled hstep.pos hstep.least
    obtain rfl : header.baseFee = fee := Option.some.inj (hstep.fee.symm.trans hfee)
    obtain ⟨hrise, hfall⟩ := hcontrolled.bounds rfl
    obtain ⟨hup, hdown⟩ := ih header hrest
    rw [List.getLastD_cons, List.length_cons]
    set d := cfg.baseFeeChangeDenominator
    set last := (headers.getLastD header).baseFee
    constructor
    · calc d ^ (headers.length + 1) * last = d * (d ^ headers.length * last) := by ring
        _ ≤ d * ((d + 1) ^ headers.length * (header.baseFee + headers.length)) := Nat.mul_le_mul_left d hup
        _ = (d + 1) ^ headers.length * (d * header.baseFee + d * headers.length) := by ring
        _ ≤ (d + 1) ^ headers.length * ((d + 1) * (first.baseFee + (headers.length + 1))) :=
          Nat.mul_le_mul_left _ (by linarith)
        _ = (d + 1) ^ (headers.length + 1) * (first.baseFee + (headers.length + 1)) := by ring
    · calc (d - 1) ^ (headers.length + 1) * first.baseFee
        _ = (d - 1) ^ headers.length * ((d - 1) * first.baseFee) := by ring
        _ ≤ (d - 1) ^ headers.length * (d * header.baseFee) := Nat.mul_le_mul_left _ hfall
        _ = d * ((d - 1) ^ headers.length * header.baseFee) := by ring
        _ ≤ d * (d ^ headers.length * last) := Nat.mul_le_mul_left d hdown
        _ = d ^ (headers.length + 1) * last := by ring

end FeeConfig

open FeeConfig

/-- After a parent the base fee is as it is to be, for every fee the parent may have, exactly if the parent is moderate.
It does not decrease when more is used, and over a run of blocks with moderate parents it stays within the powers of the
factor. -/
theorem baseFee_controlled (cfg : FeeConfig) :
    (∀ parent : Header, (∀ fee, 0 < fee → cfg.minBaseFee ≤ fee →
      ∃ fee', cfg.calcBaseFee { parent with baseFee := fee } = some fee' ∧
        cfg.Controlled { parent with baseFee := fee } fee') ↔ cfg.Moderate parent) ∧
    (∀ (parent : Header) (used fee fee' : Nat), cfg.minBaseFee ≤ parent.baseFee → parent.gasUsed ≤ used →
      cfg.calcBaseFee parent = some fee → cfg.calcBaseFee { parent with gasUsed := used } = some fee' → fee ≤ fee') ∧
    ∀ (headers : List Header) (first : Header), List.IsChain cfg.Follows (first :: headers) →
      cfg.Within first headers.length (headers.getLastD first) :=
  ⟨fun parent => ⟨moderate_of_controlled, fun h fee =>
    (show cfg.Moderate { parent with baseFee := fee } from ⟨h.1, h.2, h.3⟩).controlled⟩,
    fun _ _ _ _ => calcBaseFee_mono, within_run⟩

namespace BaseFeeExample

def parent (limit used : Nat) : Header := ⟨0, 0, 0, 0, 0, 0, 0, limit, used, 0, [], 1000000000, 0, [], [], []⟩

end BaseFeeExample

open BaseFeeExample

theorem baseFee_controlled_full_block : ∃ fee, default.calcBaseFee (parent 30000000 30000000) = some fee ∧
    default.Controlled (parent 30000000 30000000) fee :=
  ((baseFee_controlled default).1 (parent 30000000 30000000)).mpr ⟨by decide, by decide, by decide⟩ 1000000000
    (by decide) (by decide)

/-- A full block with an odd gas limit raises the fee by more than an eighth, and one whose gas limit is below the
elasticity does not raise it. -/
theorem baseFee_uncontrolled :
    (∃ fee, default.calcBaseFee (parent 5001 5001) = some fee ∧
      ¬ fee ≤ (parent 5001 5001).baseFee + max 1 ((parent 5001 5001).baseFee / baseFeeChangeDenominator)) ∧
    default.target (parent 1 1) < (parent 1 1).gasUsed ∧
      default.calcBaseFee (parent 1 1) = some (parent 1 1).baseFee := by
  decide

end PadiChain.Chain

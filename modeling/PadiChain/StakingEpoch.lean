import PadiChain.StakingLifecycle

/-! The end-of-epoch transition `ProcessEpoch`, cut at the steps the source numbers: finish exits,
reward and penalise, correlation penalties, ejections, activations. The loops run over lists read
before they start; a record in such a list is still the stored one when its turn comes, because the
indices of a list are distinct. -/

namespace PadiChain.Staking

open Registry

/-- Which validators attested during an epoch, and how many blocks each proposed. -/
structure Participation where
  attested : Address → Bool
  proposers : Address → Nat

namespace Participation

def new : Participation := ⟨fun _ => false, fun _ => 0⟩

def markAttested (p : Participation) (addr : Address) : Participation :=
  { p with attested := Function.update p.attested addr true }

def markProposed (p : Participation) (addr : Address) : Participation :=
  { p with proposers := Function.update p.proposers addr (p.proposers addr + 1) }

end Participation

structure EpochReport where
  epoch : Nat
  activated : List Address
  exited : List Address
  ejected : List Address
  rewarded : Nat
  penalised : Nat
  correlated : List Address
  issued : Nat
  burned : Nat
  leakActive : Bool
  deriving DecidableEq, Repr

/-- The reward unit of a validator: it falls with the square root of the total stake. -/
def baseReward (effectiveBalance totalStake : Nat) : Nat :=
  if totalStake = 0 then 0
  else
    let root := Nat.sqrt totalStake
    if root = 0 then 0 else effectiveBalance * baseRewardFactor / root / 4

def finalityDelay (epoch finalizedEpoch : Nat) : Nat := epoch - finalizedEpoch

/-- What a validator that attested is paid: the unit, and a bonus for each block it proposed. -/
def attestationReward (totalStake : Nat) (p : Participation) (v : Validator) : Nat :=
  let base := baseReward v.effectiveBalance totalStake
  base + base / proposerRewardQuotient * p.proposers v.address

/-- What an absent validator is charged: the unit, and the leak while finality is delayed. -/
def absencePenalty (totalStake delay : Nat) (v : Validator) : Nat :=
  let base := baseReward v.effectiveBalance totalStake
  let leak :=
    if inactivityLeakThreshold < delay then v.effectiveBalance * delay / inactivityPenaltyQuotient
    else 0
  min (base + leak) v.balance

def settledBalance (totalStake delay : Nat) (p : Participation) (v : Validator) : Nat :=
  if p.attested v.address then v.balance + attestationReward totalStake p v
  else v.balance - absencePenalty totalStake delay v

def finishExit (epoch : Nat) (acc : Registry × EpochReport) (v : Validator) : Registry × EpochReport :=
  if v.status = .exiting ∧ v.exitEpoch ≤ epoch then
    (acc.1.put (v.setStatus .exited), { acc.2 with exited := acc.2.exited ++ [v.address] })
  else acc

def settle (totalStake delay : Nat) (p : Participation) (acc : Registry × EpochReport)
    (v : Validator) : Registry × EpochReport :=
  let r := acc.1.put (v.setBalance (settledBalance totalStake delay p v))
  if p.attested v.address then
    (r, { acc.2 with
      issued := acc.2.issued + attestationReward totalStake p v, rewarded := acc.2.rewarded + 1 })
  else
    (r, { acc.2 with
      burned := acc.2.burned + absencePenalty totalStake delay v
      penalised := acc.2.penalised + 1 })

/-- Step 2 for the whole set. Without stake, or without participation, nothing is settled. -/
def settleAll (totalStake delay : Nat) (participation : Option Participation)
    (active : List Validator) (acc : Registry × EpochReport) : Registry × EpochReport :=
  match participation with
  | none => acc
  | some p => if totalStake = 0 then acc else active.foldl (settle totalStake delay p) acc

def correlationPenalty (correlated totalStake : Nat) (v : Validator) : Nat :=
  let scaled := min (correlated * correlationPenaltyMultiplier) totalStake
  min (v.effectiveBalance * scaled / totalStake) v.balance

/-- Step 3, one validator: charge the penalty if it falls due in this epoch. -/
def correlate (epoch correlated totalStake : Nat) (acc : StateDB × EpochReport) (v : Validator) :
    StateDB × EpochReport :=
  if v.status ≠ .slashed ∨ v.balance = 0 then acc
  else if v.slashedEpoch + correlationPenaltyEpochOffset ≠ epoch then acc
  else
    let penalty := correlationPenalty correlated totalStake v
    if penalty = 0 then acc
    else
      let s := acc.1.setRegistry (acc.1.registry.put (v.setBalance (v.balance - penalty)))
      (s.subBalance stakingAddress penalty,
        { acc.2 with
          burned := acc.2.burned + penalty, correlated := acc.2.correlated ++ [v.address] })

def applyCorrelationPenalties (epoch : Nat) (acc : StateDB × EpochReport) : StateDB × EpochReport :=
  let r := acc.1.registry
  let totalStake := r.totalActiveStake epoch
  if totalStake = 0 then acc
  else
    let correlated := min (r.correlatedSlashedStake epoch) totalStake
    r.all.foldl (correlate epoch correlated totalStake) acc

def eject (epoch : Nat) (acc : StateDB × EpochReport) (v : Validator) : StateDB × EpochReport :=
  match acc.1.registry.get v.index with
  | none => acc -- not reached: indices are never taken back
  | some current =>
    if current.status = .active ∧ current.balance < ejectionBalance then
      match requestExit acc.1 current.address epoch with
      | .error _ => acc
      | .ok (_, s) => (s, { acc.2 with ejected := acc.2.ejected ++ [current.address] })
    else acc

def activate (epoch : Nat) (acc : StateDB × EpochReport) (v : Validator) : StateDB × EpochReport :=
  let v := { v with status := .active, activationEpoch := epoch + minActivationDelay }
  (acc.1.setRegistry (acc.1.registry.put v),
    { acc.2 with activated := acc.2.activated ++ [v.address] })

/-- The deposits step 5 may activate, oldest first. -/
def pendingDeposits (r : Registry) : List Validator :=
  r.all.filter fun v => decide (v.status = .pending) && decide (minDeposit ≤ v.balance)

/-- Step 5: activate pending deposits up to the churn limit. -/
def activatePending (epoch : Nat) (acc : StateDB × EpochReport) : StateDB × EpochReport :=
  let r := acc.1.registry
  let limit := churnLimit (r.activeAt epoch).length
  ((pendingDeposits r).take limit).foldl (activate epoch) acc

def newReport (epoch finalizedEpoch : Nat) : EpochReport :=
  ⟨epoch, [], [], [], 0, 0, [], 0, 0,
    decide (inactivityLeakThreshold < finalityDelay epoch finalizedEpoch)⟩

/-- Step 1. -/
def finishExits (epoch : Nat) (acc : Registry × EpochReport) : Registry × EpochReport :=
  acc.1.all.foldl (finishExit epoch) acc

def payStakingAccount (s : StateDB) (report : EpochReport) : StateDB :=
  let s := if 0 < report.issued then s.addBalance stakingAddress report.issued else s
  if 0 < report.burned then s.subBalance stakingAddress report.burned else s

/-- Steps 1 to 3: the set that was active, and the state and the report once every reward and penalty
is charged and the slot the next epoch's tally reuses is cleared. -/
def chargeEpoch (s : StateDB) (epoch : Nat) (participation : Option Participation)
    (finalizedEpoch : Nat) : List Validator × StateDB × EpochReport :=
  let finished := finishExits epoch (s.registry, newReport epoch finalizedEpoch)
  let active := finished.1.activeAt epoch
  let totalStake := (active.map (·.effectiveBalance)).sum
  let settled := settleAll totalStake (finalityDelay epoch finalizedEpoch) participation active finished
  let paid := payStakingAccount (s.setRegistry settled.1) settled.2
  let charged := applyCorrelationPenalties epoch (paid, settled.2)
  (active, charged.1.setRegistry (charged.1.registry.resetSlashedStake (epoch + 1)), charged.2)

/-- `ProcessEpoch`. The bookkeeping record is loaded before the steps and written back after them. -/
def processEpoch (s : StateDB) (epoch : Nat) (participation : Option Participation)
    (finalizedEpoch : Nat) : Except StakingError (EpochReport × StateDB) :=
  let state := s.registry.epochState
  if epoch ≤ state.lastProcessedEpoch ∧ state.lastProcessedEpoch ≠ 0 then .error (.epochProcessed epoch)
  else
    let charged := chargeEpoch s epoch participation finalizedEpoch
    let acc := charged.1.foldl (eject epoch) charged.2
    let acc := activatePending epoch acc
    let state := { state with lastProcessedEpoch := epoch, finalizedEpoch := finalizedEpoch }
    .ok (acc.2, acc.1.setRegistry (acc.1.registry.saveEpochState state))

/-! ### What the loops write -/

def exitDue (epoch : Nat) (v : Validator) : Bool :=
  decide (v.status = .exiting ∧ v.exitEpoch ≤ epoch)

theorem finishExits_registry (epoch : Nat) (acc : Registry × EpochReport) :
    (finishExits epoch acc).1 = acc.1.updateWhere (exitDue epoch) (·.setStatus .exited) := by
  refine foldl_eq_updateWhere Prod.fst (finishExit epoch) (fun acc v => ?_) acc
  unfold finishExit exitDue
  split
  · rename_i h
    rw [if_pos (decide_eq_true h)]
  · rename_i h
    rw [if_neg (by simpa using h)]

variable {epoch totalStake correlated : Nat} {v : Validator}

theorem isActiveAt_of_exitDue (h : exitDue epoch v = true) : v.isActiveAt epoch = false := by
  obtain ⟨hstatus, hexit⟩ := of_decide_eq_true h
  unfold Validator.isActiveAt
  rw [hstatus]
  simp only [Bool.and_eq_false_iff, decide_eq_false_iff_not, not_lt]
  exact .inr hexit

/-- Finishing exits does not change the active set: an exit that is due has already left it. -/
theorem finishExits_activeAt (epoch : Nat) (acc : Registry × EpochReport) :
    (finishExits epoch acc).1.activeAt epoch = acc.1.activeAt epoch := by
  unfold activeAt
  rw [finishExits_registry, all_updateWhere (by intro v; rfl), List.filter_map]
  have hcond : ∀ v : Validator,
      ((fun v : Validator => v.isActiveAt epoch) ∘ fun v =>
        if exitDue epoch v then (v.setStatus .exited).packed else v) v = v.isActiveAt epoch := by
    intro v
    by_cases hv : exitDue epoch v = true
    · rw [Function.comp_apply, if_pos hv, isActiveAt_of_exitDue hv]
      rfl
    · rw [Function.comp_apply, if_neg hv]
  rw [List.filter_congr fun v _ => hcond v]
  refine (List.map_congr_left fun v hv => ?_).trans (List.map_id _)
  have hactive : v.isActiveAt epoch = true := (List.mem_filter.mp hv).2
  have hdue : ¬ exitDue epoch v = true := by
    intro h
    rw [isActiveAt_of_exitDue h] at hactive
    cases hactive
  rw [if_neg hdue]
  rfl

/-- The balance of an active validator after step 2, whether or not step 2 settles anything. -/
def epochBalance (totalStake delay : Nat) (participation : Option Participation) (v : Validator) : Nat :=
  match participation with
  | none => v.balance
  | some p => if totalStake = 0 then v.balance else settledBalance totalStake delay p v

theorem settleAll_of_zero (hzero : totalStake = 0) (delay : Nat)
    (participation : Option Participation) (active : List Validator) (acc : Registry × EpochReport) :
    settleAll totalStake delay participation active acc = acc ∧
      epochBalance totalStake delay participation = Validator.balance := by
  cases participation with
  | none => exact ⟨rfl, rfl⟩
  | some p =>
    exact ⟨if_pos hzero, funext fun v => if_pos hzero⟩

theorem settleAll_of_pos (hpos : totalStake ≠ 0) (delay : Nat) (p : Participation)
    (active : List Validator) (acc : Registry × EpochReport) :
    settleAll totalStake delay (some p) active acc = active.foldl (settle totalStake delay p) acc ∧
      epochBalance totalStake delay (some p) = settledBalance totalStake delay p := by
  exact ⟨if_neg hpos, funext fun v => if_neg hpos⟩

section

variable (totalStake delay epoch : Nat) (participation : Option Participation) (acc : Registry × EpochReport)

theorem settleAll_registry :
    (settleAll totalStake delay participation (acc.1.activeAt epoch) acc).1 = acc.1 ∧
        (∀ v, epochBalance totalStake delay participation v = v.balance) ∨
      (settleAll totalStake delay participation (acc.1.activeAt epoch) acc).1
        = acc.1.updateWhere (·.isActiveAt epoch) fun v =>
            v.setBalance (epochBalance totalStake delay participation v) := by
  by_cases hzero : totalStake = 0
  · obtain ⟨hsame, hbalance⟩ := settleAll_of_zero hzero delay participation (acc.1.activeAt epoch) acc
    exact .inl ⟨by rw [hsame], fun v => by rw [hbalance]⟩
  cases participation with
  | none => exact .inl ⟨rfl, fun v => rfl⟩
  | some p =>
    obtain ⟨hfold, hbalance⟩ := settleAll_of_pos hzero delay p (acc.1.activeAt epoch) acc
    rw [hfold, hbalance, activeAt, List.foldl_filter]
    refine .inr (foldl_eq_updateWhere Prod.fst _ (fun acc v => ?_) acc)
    split
    · unfold settle
      split <;> rfl
    · rfl

theorem settleAll_get (i : Nat) :
    (settleAll totalStake delay participation (acc.1.activeAt epoch) acc).1.get i
      = (acc.1.get i).map fun v =>
          if v.isActiveAt epoch then (v.setBalance (epochBalance totalStake delay participation v)).packed
          else v := by
  rcases settleAll_registry totalStake delay epoch participation acc with ⟨hsame, hbalance⟩ | hwrite
  · rw [hsame]
    cases hget : acc.1.get i with
    | none => rfl
    | some v =>
      rw [Option.map_some, hbalance, show v.setBalance v.balance = v from rfl,
        get_packed hget, ite_self]
  · rw [hwrite, get_updateWhere (by intro v; rfl)]

end

@[simp] theorem payStakingAccount_registry (s : StateDB) (report : EpochReport) :
    (payStakingAccount s report).registry = s.registry := by
  unfold payStakingAccount
  split <;> split <;> rfl

def correlationDue (epoch correlated totalStake : Nat) (v : Validator) : Bool :=
  decide (v.status = .slashed ∧ v.balance ≠ 0 ∧ v.slashedEpoch + correlationPenaltyEpochOffset = epoch ∧
    correlationPenalty correlated totalStake v ≠ 0)

theorem correlate_of_due (h : correlationDue epoch correlated totalStake v = true) (acc : StateDB × EpochReport) :
    correlate epoch correlated totalStake acc v =
      let penalty := correlationPenalty correlated totalStake v
      ((acc.1.setRegistry (acc.1.registry.put (v.setBalance (v.balance - penalty)))).subBalance
          stakingAddress penalty,
        { acc.2 with burned := acc.2.burned + penalty, correlated := acc.2.correlated ++ [v.address] }) := by
  obtain ⟨hstatus, hbalance, hepoch, hpenalty⟩ := of_decide_eq_true h
  unfold correlate
  rw [if_neg (by simp [hstatus, hbalance]), if_neg (by simp [hepoch])]
  rw [if_neg hpenalty]

theorem correlate_of_not_due (h : ¬ correlationDue epoch correlated totalStake v = true) (acc : StateDB × EpochReport) :
    correlate epoch correlated totalStake acc v = acc := by
  unfold correlate
  split
  · rfl
  · rename_i hstatus
    split
    · rfl
    · rename_i hepoch
      dsimp only
      split
      · rfl
      · rename_i hpenalty
        push Not at hstatus hepoch
        exact absurd (decide_eq_true ⟨hstatus.1, hstatus.2, hepoch, hpenalty⟩) h

theorem correlate_registry (epoch correlated totalStake : Nat) (acc : StateDB × EpochReport) (v : Validator) :
    (correlate epoch correlated totalStake acc v).1.registry =
      if correlationDue epoch correlated totalStake v then
        acc.1.registry.put (v.setBalance (v.balance - correlationPenalty correlated totalStake v))
      else acc.1.registry := by
  split_ifs with hdue
  · rw [correlate_of_due hdue]
    rfl
  · rw [correlate_of_not_due hdue]

theorem applyCorrelationPenalties_registry (epoch : Nat) (acc : StateDB × EpochReport) :
    (applyCorrelationPenalties epoch acc).1.registry = acc.1.registry ∨
      ∃ correlated totalStake, (applyCorrelationPenalties epoch acc).1.registry
        = acc.1.registry.updateWhere (correlationDue epoch correlated totalStake) fun v =>
            v.setBalance (v.balance - correlationPenalty correlated totalStake v) := by
  unfold applyCorrelationPenalties
  by_cases hzero : acc.1.registry.totalActiveStake epoch = 0
  · exact .inl (by rw [if_pos hzero])
  · rw [if_neg hzero]
    exact .inr ⟨min (acc.1.registry.correlatedSlashedStake epoch)
        (acc.1.registry.totalActiveStake epoch), acc.1.registry.totalActiveStake epoch,
      foldl_eq_updateWhere (fun acc : StateDB × EpochReport => acc.1.registry) _
        (correlate_registry epoch _ _) acc⟩

end PadiChain.Staking

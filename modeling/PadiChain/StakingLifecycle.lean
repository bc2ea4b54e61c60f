import PadiChain.StateDB
import PadiChain.CryptoBls

/-! The staking operations of the manager: deposit, voluntary exit, slashing and withdrawal. Each
either returns an error and has written nothing, or returns its result with the new state. -/

namespace PadiChain.Staking

inductive StakingError where
  | notFound
  | belowMinimum (amount : Nat)
  | notActive (validator : Address) (status : Status)
  | notWithdrawable (withdrawable now : Nat)
  | notLeaving (validator : Address) (status : Status)
  | alreadySlashed (validator : Address)
  | alreadyLeft (validator : Address)
  | alreadyWithdrawn (validator : Address)
  | badBLSKey
  | badPossession
  | epochProcessed (epoch : Nat)
  deriving DecidableEq, Repr

/-- The record of a first deposit. Activation is scheduled by the epoch transition. -/
def newValidator (validator withdrawal : Address) (amount : Nat) : Validator where
  index := 0
  address := validator
  withdrawalAddress := withdrawal
  blsPublicKey := []
  balance := amount
  status := .pending
  activationEpoch := farFutureEpoch
  exitEpoch := farFutureEpoch
  withdrawableEpoch := farFutureEpoch
  slashedEpoch := 0

/-- `Deposit`: record a claim on value the transition has already moved into the staking account. A
registered address is topped up. -/
def deposit (s : StateDB) (validator withdrawal : Address) (amount : Nat) :
    Except StakingError (Validator × StateDB) :=
  match s.registry.byAddress validator with
  | some existing =>
    match existing.status with
    | .exited | .slashed | .withdrawn => .error (.alreadyLeft validator)
    | _ =>
      let v := existing.setBalance (existing.balance + amount)
      .ok (v, s.setRegistry (s.registry.put v))
  | none =>
    if amount < minDeposit then .error (.belowMinimum amount)
    else
      let appended := s.registry.append (newValidator validator withdrawal amount)
      .ok (appended.2, s.setRegistry appended.1)

/-- `DepositWithKey`: a deposit that also registers an attestation key, on the first registration
only. The proof of possession is mandatory. -/
def depositWithKey (bls : Bls) (s : StateDB) (validator withdrawal : Address)
    (blsKey possession : Bytes) (amount : Nat) : Except StakingError (Validator × StateDB) :=
  if blsKey.length ≠ blsPublicKeyLength then .error .badBLSKey
  else
    match bls.publicKeyFromBytes blsKey with
    | none => .error .badBLSKey
    | some pub =>
      match bls.signatureFromBytes possession with
      | none => .error .badPossession
      | some proof =>
        if !bls.verifyPossession pub proof then .error .badPossession
        else
          match deposit s validator withdrawal amount with
          | .error e => .error e
          | .ok (v, s') =>
            if v.blsPublicKey.isEmpty then
              let v := { v with blsPublicKey := blsKey }
              .ok (v, s'.setRegistry (s'.registry.put v))
            else .ok (v, s')

/-- `scheduleExit` on the queue counters: the epoch given out and the counters after it. -/
def EpochState.scheduleExit (state : EpochState) (epoch limit : Nat) : EpochState :=
  let earliest := epoch + minActivationDelay
  let state :=
    if state.exitQueueEpoch < earliest then { state with exitQueueEpoch := earliest, exitQueueCount := 0 }
    else state
  let state :=
    if limit ≤ state.exitQueueCount then
      { state with exitQueueEpoch := state.exitQueueEpoch + 1, exitQueueCount := 0 }
    else state
  { state with exitQueueCount := state.exitQueueCount + 1 }

def scheduleExit (r : Registry) (epoch : Nat) : Nat × Registry :=
  let limit := churnLimit (r.activeAt epoch).length
  let state := r.epochState.scheduleExit epoch limit
  (state.exitQueueEpoch, r.saveEpochState state)

def exitingRecord (v : Validator) (exitEpoch : Nat) : Validator :=
  { v with
    status := .exiting, exitEpoch := exitEpoch, withdrawableEpoch := exitEpoch + withdrawalDelay }

def leftRecord (v : Validator) (epoch : Nat) : Validator :=
  { v with status := .exited, exitEpoch := epoch, withdrawableEpoch := epoch + withdrawalDelay }

/-- `RequestExit`: a pending validator leaves at once, an active one joins the exit queue. -/
def requestExit (s : StateDB) (validator : Address) (epoch : Nat) :
    Except StakingError (Validator × StateDB) :=
  match s.registry.byAddress validator with
  | none => .error .notFound
  | some v =>
    match v.status with
    | .active =>
      let scheduled := scheduleExit s.registry epoch
      let v := exitingRecord v scheduled.1
      .ok (v, s.setRegistry (scheduled.2.put v))
    | .pending =>
      let v := leftRecord v epoch
      .ok (v, s.setRegistry (s.registry.put v))
    | status => .error (.notActive validator status)

def slashPenalty (v : Validator) : Nat := min (v.effectiveBalance / slashPenaltyQuotient) v.balance

def slashedRecord (v : Validator) (epoch : Nat) : Validator :=
  { v with
    balance := v.balance - slashPenalty v, status := .slashed, slashedEpoch := epoch
    exitEpoch := epoch, withdrawableEpoch := epoch + withdrawalDelay }

/-- `Slash`: charge the first penalty, eject, and burn the penalty from the staking account. -/
def slash (s : StateDB) (validator : Address) (epoch : Nat) :
    Except StakingError (Validator × Nat × StateDB) :=
  match s.registry.byAddress validator with
  | none => .error .notFound
  | some v =>
    if v.status = .slashed then .error (.alreadySlashed validator)
    else if v.status = .exited ∨ v.status = .withdrawn then .error (.alreadyLeft validator)
    else
      let penalty := slashPenalty v
      let v := slashedRecord v epoch
      let r := (s.registry.put v).addSlashedStake epoch v.effectiveBalance
      .ok (v, penalty, (s.setRegistry r).subBalance stakingAddress penalty)

/-- `Withdraw`: return the stake of a validator that has left to its withdrawal address. -/
def withdraw (s : StateDB) (validator : Address) (epoch : Nat) :
    Except StakingError (Nat × StateDB) :=
  match s.registry.byAddress validator with
  | none => .error .notFound
  | some v =>
    match v.status with
    | .exited | .slashed =>
      if epoch < v.withdrawableEpoch then .error (.notWithdrawable v.withdrawableEpoch epoch)
      else
        let amount := v.balance
        let r := s.registry.put ((v.setBalance 0).setStatus .withdrawn)
        .ok (amount,
          ((s.setRegistry r).subBalance stakingAddress amount).addBalance v.withdrawalAddress amount)
    | .withdrawn => .error (.alreadyWithdrawn validator)
    | status => .error (.notLeaving validator status)

/-! ### What each operation does when it succeeds -/

variable {s s' : StateDB} {validator withdrawal : Address} {v' : Validator}

variable {amount epoch penalty : Nat} {v : Validator}

theorem deposit_ok (h : deposit s validator withdrawal amount = .ok (v', s')) :
    (∃ v, s.registry.byAddress validator = some v ∧ v' = v.setBalance (v.balance + amount) ∧
        s' = s.setRegistry (s.registry.put v')) ∨
      (s.registry.byAddress validator = none ∧
        v' = (s.registry.append (newValidator validator withdrawal amount)).2 ∧
        s' = s.setRegistry (s.registry.append (newValidator validator withdrawal amount)).1) := by
  unfold deposit at h
  split at h
  · rename_i v hget
    split at h
    · cases h
    · cases h
    · cases h
    · cases h
      exact .inl ⟨v, hget, rfl, rfl⟩
  · rename_i hget
    split at h
    · cases h
    · cases h
      exact .inr ⟨hget, rfl, rfl⟩

theorem depositWithKey_ok {bls : Bls} {blsKey possession : Bytes}
    (h : depositWithKey bls s validator withdrawal blsKey possession amount = .ok (v', s')) :
    ∃ v s₁, deposit s validator withdrawal amount = .ok (v, s₁) ∧
      (v' = v ∧ s' = s₁ ∨
        v.blsPublicKey = [] ∧ v' = { v with blsPublicKey := blsKey } ∧ s' = s₁.setRegistry (s₁.registry.put v')) := by
  unfold depositWithKey at h
  iterate 5
    split at h
    · cases h
  rename_i v s₁ hdeposit
  split at h
  · rename_i hkey
    cases h
    exact ⟨v, s₁, hdeposit, Or.inr ⟨List.isEmpty_iff.mp hkey, rfl, rfl⟩⟩
  · cases h
    exact ⟨_, _, hdeposit, Or.inl ⟨rfl, rfl⟩⟩

theorem requestExit_ok (h : requestExit s validator epoch = .ok (v', s')) :
    ∃ v, s.registry.byAddress validator = some v ∧
      (v.status = .active ∧ v' = exitingRecord v (scheduleExit s.registry epoch).1 ∧
          s' = s.setRegistry ((scheduleExit s.registry epoch).2.put v') ∨
        v.status = .pending ∧ v' = leftRecord v epoch ∧ s' = s.setRegistry (s.registry.put v')) := by
  unfold requestExit at h
  split at h
  · cases h
  rename_i v hget
  refine ⟨v, hget, ?_⟩
  split at h
  · rename_i hstatus
    cases h
    exact .inl ⟨hstatus, rfl, rfl⟩
  · rename_i hstatus
    cases h
    exact .inr ⟨hstatus, rfl, rfl⟩
  · cases h

section

variable (h : slash s validator epoch = .ok (v', penalty, s'))

include h

theorem slash_ok :
    ∃ v, s.registry.byAddress validator = some v ∧ penalty = slashPenalty v ∧
      v' = slashedRecord v epoch ∧
      s' = (s.setRegistry ((s.registry.put v').addSlashedStake epoch v'.effectiveBalance)).subBalance
        stakingAddress penalty := by
  unfold slash at h
  split at h
  · cases h
  rename_i v hget
  split at h
  · cases h
  · split at h
    · cases h
    · cases h
      exact ⟨v, hget, rfl, rfl, rfl⟩

/-- Only a validator that has neither been slashed nor left can be slashed. -/
theorem slash_status (hget : s.registry.byAddress validator = some v) :
    v.status ≠ .slashed ∧ v.status ≠ .exited ∧ v.status ≠ .withdrawn := by
  rw [slash, hget] at h
  dsimp only at h
  split at h
  · cases h
  rename_i hslashed
  split at h
  · cases h
  · rename_i hleft
    exact ⟨hslashed, not_or.mp hleft⟩

end

theorem slash_eq_ok (hget : s.registry.byAddress validator = some v)
    (hslashed : v.status ≠ .slashed) (hexited : v.status ≠ .exited) (hwithdrawn : v.status ≠ .withdrawn) :
    slash s validator epoch = .ok (slashedRecord v epoch, slashPenalty v,
      (s.setRegistry ((s.registry.put (slashedRecord v epoch)).addSlashedStake epoch
        (slashedRecord v epoch).effectiveBalance)).subBalance stakingAddress (slashPenalty v)) := by
  unfold slash
  rw [hget]
  dsimp only
  rw [if_neg hslashed, if_neg (not_or.mpr ⟨hexited, hwithdrawn⟩)]

theorem slash_of_exited (hget : s.registry.byAddress validator = some v)
    (hexited : v.status = .exited) : slash s validator epoch = .error (.alreadyLeft validator) := by
  unfold slash
  rw [hget]
  dsimp only
  rw [if_neg (by rw [hexited]; decide), if_pos (Or.inl hexited)]

theorem withdraw_ok (h : withdraw s validator epoch = .ok (amount, s')) :
    ∃ v, s.registry.byAddress validator = some v ∧ (v.status = .exited ∨ v.status = .slashed) ∧
      v.withdrawableEpoch ≤ epoch ∧ amount = v.balance ∧
      s' = ((s.setRegistry (s.registry.put ((v.setBalance 0).setStatus .withdrawn))).subBalance
        stakingAddress amount).addBalance v.withdrawalAddress amount := by
  unfold withdraw at h
  split at h
  · cases h
  rename_i v hget
  refine ⟨v, hget, ?_⟩
  split at h
  · rename_i hstatus
    split at h
    · cases h
    · rename_i hepoch
      cases h
      exact ⟨Or.inl hstatus, not_lt.mp hepoch, rfl, rfl⟩
  · rename_i hstatus
    split at h
    · cases h
    · rename_i hepoch
      cases h
      exact ⟨Or.inr hstatus, not_lt.mp hepoch, rfl, rfl⟩
  · cases h
  · cases h

end PadiChain.Staking

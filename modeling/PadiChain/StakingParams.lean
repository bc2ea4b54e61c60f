import PadiChain.Common

/-! The protocol parameters of the staking package and its epoch arithmetic. Amounts are wei.
Epochs and heights are unsigned 64-bit numbers in the source; an epoch is a height divided by
`epochLength`, so no sum of epochs below wraps, and they are natural numbers here. -/

namespace PadiChain.Staking

def gwei : Nat := 1000000000

def ether : Nat := gwei * gwei

/-- The system account that holds staked funds and the registry. No one holds a key for it. -/
def stakingAddress : Address := 0xFF#160

def minDeposit : Nat := 32 * ether

def maxEffectiveBalance : Nat := 32 * ether

def effectiveBalanceIncrement : Nat := ether

def ejectionBalance : Nat := 16 * ether

def epochLength : Nat := 32

def minActivationDelay : Nat := 1

def withdrawalDelay : Nat := 256

def minChurnLimit : Nat := 4

def churnLimitQuotient : Nat := 65536

def slashPenaltyQuotient : Nat := 32

def correlationPenaltyMultiplier : Nat := 3

def slashingWindow : Nat := withdrawalDelay

def correlationPenaltyEpochOffset : Nat := slashingWindow / 2

def proposerRewardQuotient : Nat := 8

def baseRewardFactor : Nat := 64

def inactivityLeakThreshold : Nat := 4

def inactivityPenaltyQuotient : Nat := 2 ^ 16

/-- The epoch that marks a transition as not scheduled: the largest 64-bit value. -/
def farFutureEpoch : Nat := 2 ^ 64 - 1

def blsPublicKeyLength : Nat := 48

def epochOf (blockNumber : Nat) : Nat := blockNumber / epochLength

def epochStart (epoch : Nat) : Nat := epoch * epochLength

/-- Whether a block is the first of its epoch; the epoch transition runs on exactly these. -/
def isEpochBoundary (blockNumber : Nat) : Bool :=
  decide (0 < blockNumber) && blockNumber % epochLength == 0

/-- How many validators may enter or leave in one epoch. -/
def churnLimit (activeCount : Nat) : Nat :=
  if activeCount / churnLimitQuotient < minChurnLimit then minChurnLimit
  else activeCount / churnLimitQuotient

def computeEffectiveBalance (balance : Nat) : Nat :=
  if maxEffectiveBalance ≤ balance then maxEffectiveBalance
  else balance / effectiveBalanceIncrement * effectiveBalanceIncrement

theorem computeEffectiveBalance_le (balance : Nat) : computeEffectiveBalance balance ≤ balance := by
  unfold computeEffectiveBalance
  split
  · assumption
  · exact Nat.div_mul_le_self _ _

theorem computeEffectiveBalance_le_max {balance : Nat} : computeEffectiveBalance balance ≤ maxEffectiveBalance := by
  unfold computeEffectiveBalance
  split
  · exact Nat.le_refl _
  · rename_i hbelow
    exact (Nat.div_mul_le_self _ _).trans (not_le.mp hbelow).le

/-- The effective balance is at least one increment exactly when the balance is. -/
theorem effectiveBalanceIncrement_le_computeEffectiveBalance {balance : Nat} :
    effectiveBalanceIncrement ≤ computeEffectiveBalance balance ↔ effectiveBalanceIncrement ≤ balance := by
  constructor
  · intro h
    exact h.trans (computeEffectiveBalance_le balance)
  · intro h
    unfold computeEffectiveBalance
    split
    · decide
    · have hone : 1 ≤ balance / effectiveBalanceIncrement :=
        (Nat.one_le_div_iff (by decide)).mpr h
      exact Nat.le_mul_of_pos_left _ hone

end PadiChain.Staking

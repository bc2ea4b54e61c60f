import PadiChain.CoreAttestation
import PadiChain.CoreBlock
import PadiChain.StakingEpoch

/-! Applying one message that is addressed to the staking account: the admission checks, the gas
accounting around the call, and the staking operation itself with its revert. -/

namespace PadiChain.Processor

open Core Staking

structure BlockContext where
  coinbase : Address
  gasLimit : Nat
  blockNumber : Nat
  time : Nat
  baseFee : Nat
  random : Hash
  deriving DecidableEq, Repr

/-- The chain's constants, and the decoder of slashing evidence. -/
structure ChainConfig where
  chainID : Nat
  bls : Bls
  decodeEquivocation : Bytes → Option Equivocation

inductive TxError where
  | senderInvalid
  | nonceTooHigh
  | nonceTooLow
  | senderNotEOA
  | tipAboveFeeCap
  | feeCapBelowBaseFee
  | insufficientFunds
  | gasLimitReached
  | gasUintOverflow
  | intrinsicGas
  | initCodeTooLarge
  deriving DecidableEq, Repr

inductive StakingCallError where
  | noSelector
  | depositWithoutValue
  | depositWithoutAddress
  | slashWithoutEvidence
  | malformedEvidence
  | unknownOp (selector : UInt8)
  | insufficientFunds
  | outOfGas
  | noUsableKey
  | staking (e : StakingError)
  | evidence (e : AttestationError)
  deriving DecidableEq, Repr

def opDeposit : UInt8 := 0x01

def opExit : UInt8 := 0x02

def opWithdraw : UInt8 := 0x03

def opSlash : UInt8 := 0x04

def depositWithKeyLength : Nat := 1 + 20 + blsPublicKeyLength + 96

def gasDeposit : Nat := 60000

def gasExit : Nat := 30000

def gasWithdraw : Nat := 30000

def gasSlash : Nat := 80000

def gasDepositWithKey : Nat := 250000

def txGas : Nat := 21000

def txGasContractCreation : Nat := 53000

def txDataNonZeroGas : Nat := 16

def txDataZeroGas : Nat := 4

def gasInitCodeWord : Nat := 2

def txAccessListAddressGas : Nat := 2400

def txAccessListStorageKeyGas : Nat := 1900

def refundQuotient : Nat := 5

def maxUint64 : Nat := 2 ^ 64 - 1

/-- `IntrinsicGas`: what a message owes before anything runs; none when the sum would overflow. -/
def intrinsicGas (data : Bytes) (accessList : AccessList) (isContractCreation : Bool) : Option Nat :=
  let gas := if isContractCreation then txGasContractCreation else txGas
  let nonZero := (data.filter (· ≠ 0)).length
  let zero := data.length - nonZero
  if (maxUint64 - gas) / txDataNonZeroGas < nonZero then none
  else
    let gas := gas + nonZero * txDataNonZeroGas
    if (maxUint64 - gas) / txDataZeroGas < zero then none
    else
      let gas := gas + zero * txDataZeroGas
      let words := if isContractCreation then (data.length + 31) / 32 else 0
      if (maxUint64 - gas) / gasInitCodeWord < words then none
      else
        some (gas + words * gasInitCodeWord + accessList.length * txAccessListAddressGas +
          (accessList.map (·.2.length)).sum * txAccessListStorageKeyGas)

/-- `preCheck` and `buyGas`: the admission checks, then the debit of the most the message can cost.
The result is the gas left in the block's pool and the state. -/
def preCheck (ctx : BlockContext) (msg : Message) (gasPool : Nat) (s : StateDB) :
    Except TxError (Nat × StateDB) :=
  if s.nonce msg.sender < msg.nonce then .error .nonceTooHigh
  else if msg.nonce < s.nonce msg.sender then .error .nonceTooLow
  else if !(s.code msg.sender).isEmpty then .error .senderNotEOA
  else if msg.gasFeeCap < msg.gasTipCap then .error .tipAboveFeeCap
  else if msg.gasFeeCap < ctx.baseFee then .error .feeCapBelowBaseFee
  else if s.balance msg.sender < (msg.gasLimit * msg.gasFeeCap + msg.value : Nat) then
    .error .insufficientFunds
  else if gasPool < msg.gasLimit then .error .gasLimitReached
  else .ok (gasPool - msg.gasLimit, s.subBalance msg.sender (msg.gasLimit * msg.gasFeeCap : Nat))

theorem preCheck_ok {ctx : BlockContext} {msg : Message} {gasPool gasPool' : Nat} {s s' : StateDB}
    (h : preCheck ctx msg gasPool s = .ok (gasPool', s')) :
    s' = s.subBalance msg.sender (msg.gasLimit * msg.gasFeeCap : Nat) := by
  unfold preCheck at h
  iterate 7
    split at h
    · cases h
  cases h
  rfl

/-- `refundGas`: return the unused gas and the capped storage refund to the sender and the pool. -/
def refundGas (msg : Message) (refund gas : Nat) (gasPool : Nat) (s : StateDB) : Nat × Nat × StateDB :=
  let gas := gas + min refund ((msg.gasLimit - gas) / refundQuotient)
  (gas, gasPool + gas, s.addBalance msg.sender (gas * msg.gasFeeCap : Nat))

/-- `payProposer`: the priority fee goes to the proposer, the overpaid part back to the sender. -/
def payProposer (ctx : BlockContext) (msg : Message) (gas : Nat) (s : StateDB) : StateDB :=
  let gasUsed := msg.gasLimit - gas
  let s := s.addBalance ctx.coinbase (gasUsed * (msg.gasPrice - ctx.baseFee) : Nat)
  if msg.gasPrice < msg.gasFeeCap then
    s.addBalance msg.sender (gasUsed * (msg.gasFeeCap - msg.gasPrice) : Nat)
  else s

/-- The outcome of a message: the gas used, whether it failed, the pool and the state. -/
structure ExecutionResult where
  usedGas : Nat
  failed : Bool
  logs : List Log
  gasPool : Nat
  state : StateDB

def settleGas (ctx : BlockContext) (msg : Message) (refund gas gasPool : Nat) (failed : Bool)
    (logs : List Log) (s : StateDB) : ExecutionResult :=
  let refunded := refundGas msg refund gas gasPool s
  ⟨msg.gasLimit - refunded.1, failed, logs, refunded.2.1, payProposer ctx msg refunded.1 refunded.2.2⟩

def liftStaking {α β : Type} (result : Except StakingError α) (f : α → β) : Except StakingCallError β :=
  match result with
  | .error e => .error (.staking e)
  | .ok a => .ok (f a)

theorem liftStaking_ok {α β : Type} {result : Except StakingError α} {f : α → β} {b : β}
    (h : liftStaking result f = .ok b) : ∃ a, result = .ok a ∧ f a = b := by
  cases result with
  | error e => cases h
  | ok a =>
    cases h
    exact ⟨a, rfl, rfl⟩

/-- The slashing operation: the evidence is re-verified against the key the registry holds. -/
def applySlash (cfg : ChainConfig) (s : StateDB) (evidence : Equivocation) (epoch : Nat) :
    Except StakingCallError (Nat × StateDB) :=
  match s.registry.get evidence.index with
  | none => .error (.staking .notFound)
  | some accused =>
    match cfg.bls.publicKeyFromBytes accused.blsPublicKey with
    | none => .error .noUsableKey
    | some key =>
      match evidence.verify cfg.bls cfg.chainID (some key) with
      | .error e => .error (.evidence e)
      | .ok () => liftStaking (slash s accused.address epoch) fun r => (gasSlash, r.2.2)

theorem applySlash_ok {cfg : ChainConfig} {s s' : StateDB} {evidence : Equivocation} {epoch gas : Nat}
    (h : applySlash cfg s evidence epoch = .ok (gas, s')) :
    ∃ accused v' penalty, s.registry.get evidence.index = some accused ∧
      slash s accused.address epoch = .ok (v', penalty, s') := by
  unfold applySlash at h
  split at h
  · cases h
  rename_i accused hget
  split at h
  · cases h
  split at h
  · cases h
  obtain ⟨⟨v', penalty, s₁⟩, hslash, hresult⟩ := liftStaking_ok h
  cases hresult
  exact ⟨accused, v', penalty, hget, hslash⟩

/-- The deposit operation, with an attestation key when the call data has room for one. -/
def applyDeposit (cfg : ChainConfig) (s : StateDB) (msg : Message) : Except StakingCallError (Nat × StateDB) :=
  let withdrawal := bytesToAddress ((msg.data.drop 1).take 20)
  if msg.value = 0 then .error .depositWithoutValue
  else if depositWithKeyLength ≤ msg.data.length then
    let blsKey := (msg.data.drop 21).take blsPublicKeyLength
    let possession := (msg.data.drop (21 + blsPublicKeyLength)).take 96
    liftStaking (depositWithKey cfg.bls s msg.sender withdrawal blsKey possession msg.value) fun r =>
      (gasDepositWithKey, r.2)
  else if 21 ≤ msg.data.length then
    liftStaking (deposit s msg.sender withdrawal msg.value) fun r => (gasDeposit, r.2)
  else .error .depositWithoutAddress

/-- `applyStakingCall`: the operation the first byte of the call data selects, and its gas. -/
def applyStakingCall (cfg : ChainConfig) (msg : Message) (epoch : Nat) (s : StateDB) :
    Except StakingCallError (Nat × StateDB) :=
  match msg.data with
  | [] => .error .noSelector
  | selector :: arguments =>
    if selector = opDeposit then applyDeposit cfg s msg
    else if selector = opExit then
      liftStaking (requestExit s msg.sender epoch) fun r => (gasExit, r.2)
    else if selector = opWithdraw then
      liftStaking (withdraw s msg.sender epoch) fun r => (gasWithdraw, r.2)
    else if selector = opSlash then
      if arguments.isEmpty then .error .slashWithoutEvidence
      else
        match cfg.decodeEquivocation arguments with
        | none => .error .malformedEvidence
        | some evidence => applySlash cfg s evidence epoch
    else .error (.unknownOp selector)

/-- The value the call carries, moved into the staking account before the operation runs. -/
def moveValue (msg : Message) (s : StateDB) : Option StateDB :=
  if msg.value = 0 then some s
  else if s.balance msg.sender < msg.value then none
  else some ((s.subBalance msg.sender msg.value).addBalance stakingAddress msg.value)

/-- The operation with its value transfer: the gas it used and the state, or the error. -/
def stakingOperation (cfg : ChainConfig) (msg : Message) (epoch : Nat) (s : StateDB) :
    Except StakingCallError (Nat × StateDB) :=
  match moveValue msg s with
  | none => .error .insufficientFunds
  | some s => applyStakingCall cfg msg epoch s

/-- `runStakingCall`. A rejected operation, or one the gas does not cover, is reverted to the state
after the nonce increment, and still charged. -/
def runStakingCall (cfg : ChainConfig) (ctx : BlockContext) (msg : Message) (gas gasPool : Nat)
    (s : StateDB) : ExecutionResult :=
  let snapshot := s.setNonce msg.sender (s.nonce msg.sender + 1)
  match stakingOperation cfg msg (epochOf ctx.blockNumber) snapshot with
  | .error _ =>
    let gas := if gas < gasExit then 0 else gas - gasExit
    settleGas ctx msg 0 gas gasPool true [] snapshot
  | .ok (used, s') =>
    let cost := max gasExit used
    if gas < cost then settleGas ctx msg 0 0 gasPool true [] snapshot
    else settleGas ctx msg 0 (gas - cost) gasPool false [] s'

def applyStakingMessage (cfg : ChainConfig) (ctx : BlockContext) (msg : Message) (gasPool : Nat)
    (s : StateDB) : Except TxError ExecutionResult :=
  match preCheck ctx msg gasPool s with
  | .error e => .error e
  | .ok (gasPool, s) =>
    match intrinsicGas msg.data msg.accessList false with
    | none => .error .gasUintOverflow
    | some intrinsic =>
      if msg.gasLimit < intrinsic then .error .intrinsicGas
      else .ok (runStakingCall cfg ctx msg (msg.gasLimit - intrinsic) gasPool s)

end PadiChain.Processor

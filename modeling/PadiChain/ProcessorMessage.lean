import PadiChain.EvmConserve
import PadiChain.EvmNonce
import PadiChain.ProcessorBlock

/-! Applying a message to the state: the checks and the purchase of gas, the execution, the refund and the payment of
the proposer. A staking operation is a parameter: the writes it makes, and its gas or its error. -/

namespace PadiChain.Executor

open State (TxState TxOp)
open Core (AccessList TxData)
open Evm (Env VmError FrameResult OpCode)
open Processor (TxError StakingCallError)
open Command

/-- A transaction reduced to what execution needs. -/
structure Message where
  sender : Address
  toAddress : Option Address
  nonce : UInt64
  value : Int
  gasLimit : UInt64
  gasPrice : Int
  gasFeeCap : Option Int
  gasTipCap : Option Int
  data : Bytes
  accessList : AccessList
  skipChecks : Bool

inductive StakingOp where
  | getState (key : Hash)
  | setState (key value : Hash)
  | addBalance (addr : Address) (amount : Int)
  | subBalance (addr : Address) (amount : Int)

def StakingOp.op : StakingOp → TxOp
  | getState key => .getState Staking.stakingAddress key
  | setState key value => .setState Staking.stakingAddress key value
  | addBalance addr amount => .addBalance addr amount
  | subBalance addr amount => .subBalance addr amount

/-- A staking operation that was carried out: what it did, and the gas it used or the reason why it was rejected. -/
structure StakingRun where
  ops : List StakingOp
  result : Except StakingCallError Nat

def StakingRun.apply (r : StakingRun) (s : TxState) : TxState := Transition.run TxState.step s (r.ops.map StakingOp.op)

/-- The machine a message is applied with. -/
structure Host where
  env : Env
  /-- There is no base fee, or it is not to be charged. -/
  noBaseFee : Bool
  precompileAddresses : List Address
  /-- `applyStakingCall`, in the epoch of the block. -/
  applyStakingCall : Message → TxState → StakingRun

structure StateTransition where
  state : TxState
  gasPool : Nat
  gas : Nat
  initialGas : Nat

inductive ExecutionError where
  | vm (e : VmError)
  | staking (e : StakingCallError)

structure Execution where
  err : Option ExecutionError
  returnData : Bytes
  executed : List OpCode

structure ExecutionResult where
  usedGas : Nat
  err : Option ExecutionError
  returnData : Bytes

abbrev Step := Command StateTransition TxError

def modifyState (f : TxState → TxState) : Step Unit := modify fun st => { st with state := f st.state }

/-- A question to the state, which may load accounts. -/
def ask {α : Type} (f : TxState → α × TxState) : Step α := change fun st =>
  ((f st.state).1, { st with state := (f st.state).2 })

/-- A snapshot that is not there panics. -/
def revertToSnapshot (id : Nat) : Step Unit := do
  let st ← get
  let s ← orCrash (st.state.revertToSnapshot id)
  modifyState fun _ => s

def runFrame {α : Type} (result : α → FrameResult) (f : Nat → TxState → Outcome Empty α) : Step Execution := fun st =>
  match f st.gas st.state with
  | .ok r => .ok (⟨(result r).err.map .vm, (result r).ret, (result r).executed⟩,
      { st with state := (result r).state, gas := (result r).gas })
  | .panic => .panic
  | .diverge => .diverge

section Apply

variable (host : Host) (msg : Message)

def Message.feeCap : Int := msg.gasFeeCap.getD msg.gasPrice

def Message.maxCost : Int := msg.gasLimit.toNat * msg.feeCap

def Message.isStakingCall : Bool := msg.toAddress = some Staking.stakingAddress

def Message.tipAboveFeeCap : Bool :=
  match msg.gasFeeCap, msg.gasTipCap with
  | some feeCap, some tipCap => decide (feeCap < tipCap)
  | _, _ => false

def feeCapBelowBaseFee : Bool :=
  match msg.gasFeeCap with
  | some feeCap => !host.noBaseFee && decide (feeCap < host.env.baseFee)
  | none => false

/-- Whether a code hash is that of an account without code. -/
def isExternal (codeHash : Hash) : Bool := codeHash = 0 || codeHash = host.env.keccak []

/-- The checks of a message, unless they are skipped. -/
def checkMessage : Step Unit :=
  if msg.skipChecks then pure ()
  else do
    let stateNonce ← ask (·.getNonce msg.sender)
    if stateNonce < msg.nonce.toNat then throw .nonceTooHigh
    else if msg.nonce.toNat < stateNonce then throw .nonceTooLow
    else do
      let codeHash ← ask (Evm.getCodeHash host.env.keccak · msg.sender)
      if !isExternal host codeHash then throw .senderNotEOA
      else if msg.tipAboveFeeCap then throw .tipAboveFeeCap
      else if feeCapBelowBaseFee host msg then throw .feeCapBelowBaseFee
      else pure ()

def checkFunds : Step Unit :=
  if msg.skipChecks then pure ()
  else do
    let balance ← ask (·.getBalance msg.sender)
    if balance < msg.maxCost + msg.value then throw .insufficientFunds else pure ()

def subGas : Step Unit := do
  let st ← get
  if st.gasPool < msg.gasLimit.toNat then throw .gasLimitReached
  else modify fun st => { st with gasPool := st.gasPool - msg.gasLimit.toNat }

def buyGas : Step Unit := do
  checkFunds msg
  subGas msg
  modify fun st => { st with gas := msg.gasLimit.toNat, initialGas := msg.gasLimit.toNat }
  if msg.skipChecks then pure () else modifyState (·.subBalance msg.sender msg.maxCost)

def preCheck : Step Unit := do
  checkMessage host msg
  buyGas msg

def useGas (amount : Nat) : Step Bool := do
  let st ← get
  if st.gas < amount then pure false
  else do
    modify fun st => { st with gas := st.gas - amount }
    pure true

def countNonce : Step Unit := do
  let nonce ← ask (·.getNonce msg.sender)
  modifyState (·.setNonce msg.sender ((nonce + 1) % 2 ^ 64))

/-- The value a staking operation carries goes to the staking account first. -/
def moveValue : Step (Option StakingCallError) :=
  if msg.value ≤ 0 then pure none
  else do
    let balance ← ask (·.getBalance msg.sender)
    if balance < msg.value then pure (some .insufficientFunds)
    else do
      modifyState (·.subBalance msg.sender msg.value)
      modifyState (·.addBalance Staking.stakingAddress msg.value)
      pure none

/-- The operation, and what is charged for it: at least the cheapest one. -/
def stakingOperation : Step (Nat × Option StakingCallError) := do
  let refused ← moveValue msg
  match refused with
  | some e => pure (Processor.gasExit, some e)
  | none => do
    let st ← get
    let r := host.applyStakingCall msg st.state
    modifyState r.apply
    match r.result with
    | .error e => pure (Processor.gasExit, some e)
    | .ok used => pure (max Processor.gasExit used, none)

def revertIf (failed : Bool) (snapshot : Nat) : Step Unit :=
  if failed then revertToSnapshot snapshot else pure ()

/-- `runStakingCall`, up to the refund. -/
def runStakingCall : Step Execution := do
  countNonce msg
  let snapshot ← ask (·.snapshot)
  let (cost, opErr) ← stakingOperation host msg
  let paid ← useGas cost
  if !paid then do
    revertToSnapshot snapshot
    modify fun st => { st with gas := 0 }
    pure ⟨some (.vm .outOfGas), [], []⟩
  else do
    revertIf opErr.isSome snapshot
    pure ⟨opErr.map .staking, [], []⟩

/-- A creation or a call. The machine makes as many rounds as there is gas and one more; it needs no more. -/
def runMachine : Step Execution :=
  match msg.toAddress with
  | none => runFrame Prod.snd fun gas s =>
    Evm.create host.env (Evm.run host.env (gas + 1)) 0 false msg.sender msg.data gas msg.value s
  | some dest => do
    countNonce msg
    runFrame id fun gas s =>
      Evm.call host.env (Evm.run host.env (gas + 1)) 0 false msg.sender dest msg.data gas msg.value s

/-- A staking operation is executed by the protocol rather than the machine. -/
def execute : Step Execution := if msg.isStakingCall then runStakingCall host msg else runMachine host msg

def payUnused (gas : Nat) : Step Unit :=
  if msg.skipChecks then pure () else modifyState (·.addBalance msg.sender (gas * msg.feeCap))

/-- `refundGas`: unused gas goes back to the sender and the pool, with the storage refund. -/
def refundGas : Step Unit := do
  modify fun st =>
    { st with gas := st.gas + min st.state.db.refund ((st.initialGas - st.gas) / Processor.refundQuotient) }
  let st ← get
  payUnused msg st.gas
  modify fun st => { st with gasPool := st.gasPool + st.gas }

def tip : Int := if host.noBaseFee then msg.gasPrice else max (msg.gasPrice - host.env.baseFee) 0

def payBack (gasUsed : Nat) : Step Unit :=
  if 0 < msg.feeCap - msg.gasPrice then
    modifyState (·.addBalance msg.sender (gasUsed * (msg.feeCap - msg.gasPrice)))
  else pure ()

def payProposer : Step Unit :=
  if msg.skipChecks then pure ()
  else do
    let st ← get
    modifyState (·.addBalance host.env.coinbase ((st.initialGas - st.gas : Nat) * tip host msg))
    payBack msg (st.initialGas - st.gas)

def payIntrinsic : Step Unit :=
  match Processor.intrinsicGas msg.data msg.accessList msg.toAddress.isNone with
  | none => throw .gasUintOverflow
  | some intrinsic => do
    let paid ← useGas intrinsic
    if !paid then throw .intrinsicGas
    else if msg.toAddress.isNone && decide (Processor.maxInitCodeSize < msg.data.length) then throw .initCodeTooLarge
    else pure ()

def run : Step ExecutionResult := do
  preCheck host msg
  payIntrinsic msg
  modifyState (·.prepare msg.sender host.env.coinbase msg.toAddress host.precompileAddresses msg.accessList)
  let r ← execute host msg
  refundGas msg
  payProposer host msg
  let st ← get
  pure ⟨st.initialGas - st.gas, r.err, r.returnData⟩

def applyMessage (gasPool : Nat) (s : TxState) :
    Outcome (TxError × StateTransition) (ExecutionResult × StateTransition) :=
  run host msg ⟨s, gasPool, 0, 0⟩

end Apply

/-! ### Transactions and blocks -/

def effectiveGasPrice (tx : TxData) (baseFee : Nat) : Nat :=
  match tx with
  | .legacy tx => tx.gasPrice
  | .dynamicFee tx => min (tx.gasFeeCap - baseFee) tx.gasTipCap + baseFee

/-- `MessageFromTx`, once the sender is known. -/
def messageFromTx (sender : Address) (tx : TxData) (baseFee : Nat) : Message :=
  match tx with
  | .legacy t =>
    ⟨sender, t.toAddress, .ofNat t.nonce, t.value, .ofNat t.gas, effectiveGasPrice tx baseFee, some t.gasPrice,
      some t.gasPrice, t.data, [], false⟩
  | .dynamicFee t =>
    ⟨sender, t.toAddress, .ofNat t.nonce, t.value, .ofNat t.gas, effectiveGasPrice tx baseFee, some t.gasFeeCap,
      some t.gasTipCap, t.data, t.accessList, false⟩

/-- What a block is executed with; the origin and the price of each transaction are set for it. -/
structure BlockHost where
  host : Host
  baseFee : Nat
  sender : TxData → Option Address
  txHash : TxData → Hash

/-- `Reset`: the machine of one transaction. It is not static, and nobody stops it. -/
def BlockHost.reset (b : BlockHost) (msg : Message) : Host :=
  { b.host with
    env := { b.host.env with
      origin := msg.sender
      gasPrice := msg.gasPrice
      baseFee := b.baseFee
      abort := false
      readOnly := false }
    noBaseFee := false }

/-- A transaction that was included in a block, with the accounts before it and after. -/
structure Included where
  msg : Message
  usedGas : Nat
  before : State.Ledger
  after : State.Ledger

def applyTransaction (b : BlockHost) (index : Nat) (tx : TxData) (gasPool : Nat) (s : TxState) :
    Outcome TxError (Included × Nat × TxState) :=
  match b.sender tx with
  | none => .error .senderInvalid
  | some sender =>
    let msg := messageFromTx sender tx b.baseFee
    match applyMessage (b.reset msg) msg gasPool (s.setTxContext (b.txHash tx) index) with
    | .ok (r, st) =>
      let s' := st.state.finalise true
      .ok (⟨msg, r.usedGas, s.ledger, s'.ledger⟩, st.gasPool, s')
    | .error (e, _) => .error e
    | .panic => .panic
    | .diverge => .diverge

def applyTransactions (b : BlockHost) : Nat → List TxData → Nat → TxState →
    Outcome TxError (List Included × Nat × TxState)
  | _, [], gasPool, s => .ok ([], gasPool, s)
  | index, tx :: txs, gasPool, s => do
    let (included, gasPool, s) ← applyTransaction b index tx gasPool s
    let (rest, gasPool, s) ← applyTransactions b (index + 1) txs gasPool s
    pure (included :: rest, gasPool, s)

end PadiChain.Executor

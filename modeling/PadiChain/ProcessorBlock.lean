import PadiChain.LibOracle
import PadiChain.ProcessorTransition

/-! Executing a block: its transactions, the proposer's randomness, and the epoch transition. What
execution reads from the chain it extends is the headers the canonical index names and the validator
set the chain derives for a height; both are fields of `ChainView`. The EVM is a parameter: a
computation that may ask for block hashes. -/

namespace PadiChain.Processor

open Core Staking

structure EvmResult where
  gas : Nat
  refund : Nat
  failed : Bool
  logs : List Log
  state : StateDB

/-- The parts of the node that are functions of bytes alone: hashing, signature recovery, decoding,
trie roots, and the EVM. -/
structure Env where
  cfg : ChainConfig
  hash : Header → Hash
  /-- `Author`: the address that sealed a header. -/
  author : Header → Option Address
  /-- `MessageFromTx` at a base fee. -/
  message : Transaction → Nat → Option Message
  decodeQuorumCert : Bytes → Option QuorumCert
  txRoot : List Transaction → Hash
  receiptRoot : List Receipt → Hash
  stateRoot : StateDB → Hash
  mixRandao : Hash → Bytes → Hash
  draw : Hash → Nat → Nat → Hash
  random : Hash → Bytes → Hash
  evmCreate : BlockContext → Message → Nat → StateDB → Query Nat Hash EvmResult
  evmCall : BlockContext → Message → Nat → StateDB → Query Nat Hash EvmResult
  /-- The engine's own validator list, sorted. -/
  validators : List Address
  period : Nat
  roundTimeout : Nat

structure ChainView where
  headerByNumber : Nat → Option Header
  validatorsAt : Nat → Option (List Address)

inductive ProcessError where
  | transaction (index : Nat) (e : TxError)
  | unregisteredProposer
  | proposerWithoutKey
  | invalidReveal
  | validatorSet
  | epoch (e : StakingError)
  | gasUsed (claimed used : Nat)
  deriving DecidableEq, Repr

def maxInitCodeSize : Nat := 2 * 24576

/-- `GetHash` and the window of the BLOCKHASH instruction: the last 256 blocks. -/
def blockHash (env : Env) (view : ChainView) (ctx : BlockContext) (requested : Nat) : Hash :=
  if ctx.blockNumber ≤ requested ∨ 256 < ctx.blockNumber - requested then 0
  else
    match view.headerByNumber requested with
    | none => 0
    | some header => env.hash header

def applyEvmMessage (env : Env) (ctx : BlockContext) (msg : Message) (gasPool : Nat) (s : StateDB) :
    Query Nat Hash (Except TxError ExecutionResult) :=
  match preCheck ctx msg gasPool s with
  | .error e => .done (.error e)
  | .ok (gasPool, s) =>
    match intrinsicGas msg.data msg.accessList msg.toAddress.isNone with
    | none => .done (.error .gasUintOverflow)
    | some intrinsic =>
      if msg.gasLimit < intrinsic then .done (.error .intrinsicGas)
      else if msg.toAddress.isNone && decide (maxInitCodeSize < msg.data.length) then
        .done (.error .initCodeTooLarge)
      else
        let gas := msg.gasLimit - intrinsic
        let execution :=
          if msg.toAddress.isNone then env.evmCreate ctx msg gas s
          else env.evmCall ctx msg gas (s.setNonce msg.sender (s.nonce msg.sender + 1))
        execution.bind fun r =>
          .done (.ok (settleGas ctx msg r.refund r.gas gasPool r.failed r.logs r.state))

def applyMessage (env : Env) (ctx : BlockContext) (msg : Message) (gasPool : Nat) (s : StateDB) :
    Query Nat Hash (Except TxError ExecutionResult) :=
  if msg.toAddress = some stakingAddress then .done (applyStakingMessage env.cfg ctx msg gasPool s)
  else applyEvmMessage env ctx msg gasPool s

structure BlockProgress where
  index : Nat
  gasPool : Nat
  usedGas : Nat
  receipts : List Receipt
  state : StateDB

/-- `applyTransaction`: run one transaction, finalise the state, and append its receipt. -/
def applyTransaction (env : Env) (ctx : BlockContext) (tx : Transaction) (acc : BlockProgress) :
    Query Nat Hash (Except ProcessError BlockProgress) :=
  match env.message tx ctx.baseFee with
  | none => .done (.error (.transaction acc.index .senderInvalid))
  | some msg =>
    (applyMessage env ctx msg acc.gasPool acc.state).bind fun result =>
      match result with
      | .error e => .done (.error (.transaction acc.index e))
      | .ok r =>
        let usedGas := acc.usedGas + r.usedGas
        .done (.ok ⟨acc.index + 1, r.gasPool, usedGas,
          acc.receipts ++ [⟨!r.failed, usedGas, r.logs⟩], r.state.finalise⟩)

def applyTransactions (env : Env) (ctx : BlockContext) :
    List Transaction → BlockProgress → Query Nat Hash (Except ProcessError BlockProgress)
  | [], acc => .done (.ok acc)
  | tx :: txs, acc =>
    (applyTransaction env ctx tx acc).bind fun result =>
      match result with
      | .error e => .done (.error e)
      | .ok acc => applyTransactions env ctx txs acc

def newBlockContext (env : Env) (header : Header) : BlockContext :=
  ⟨header.coinbase, header.gasLimit, header.number, header.time, header.baseFee,
    env.random header.parentHash header.extra⟩

def runTransactions (env : Env) (block : Block) (s : StateDB) :
    Query Nat Hash (Except ProcessError BlockProgress) :=
  applyTransactions env (newBlockContext env block.header) block.transactions
    ⟨0, block.header.gasLimit, 0, [], s⟩

def applyRandao (env : Env) (header : Header) (s : StateDB) : Except ProcessError StateDB :=
  if header.randaoReveal.isEmpty then .ok s
  else
    match s.registry.byAddress header.coinbase with
    | none => .error .unregisteredProposer
    | some validator =>
      match env.cfg.bls.publicKeyFromBytes validator.blsPublicKey with
      | none => .error .proposerWithoutKey
      | some key =>
        match env.cfg.bls.signatureFromBytes header.randaoReveal with
        | none => .error .invalidReveal
        | some sig =>
          if env.cfg.bls.verify key (.randao env.cfg.chainID (epochOf header.number)) sig then
            .ok (s.setRegistry (s.registry.setRandaoMix
              (env.mixRandao s.registry.randaoMix header.randaoReveal)))
          else .error .invalidReveal

/-- `DecodeQuorumCert`: no bytes are no certificate. -/
def decodeJustification (env : Env) (justification : Bytes) : Option (Option QuorumCert) :=
  if justification.isEmpty then some none
  else
    match env.decodeQuorumCert justification with
    | none => none
    | some qc => some (some qc)

def certificateOf (env : Env) (header : Header) : Option QuorumCert :=
  match decodeJustification env header.justification with
  | some (some qc) => if qc.isEmpty then none else some qc
  | _ => none

def markHeader (env : Env) (validators : List Address) (p : Participation) (header : Header) :
    Participation :=
  let p := p.markProposed header.coinbase
  match certificateOf env header with
  | none => p
  | some qc =>
    (Bitfield.indices qc.signers validators.length).foldl
      (fun p i =>
        match validators[i]? with
        | none => p
        | some addr => p.markAttested addr) p

/-- `EpochParticipation`: who attested during an epoch, read off the canonical headers. -/
def epochParticipation (env : Env) (view : ChainView) (epoch : Nat) (validators : List Address) :
    Participation :=
  if epoch = 0 then Participation.new
  else
    (List.range' (epochStart epoch) epochLength).foldl
      (fun p number =>
        match view.headerByNumber number with
        | none => p
        | some header => markHeader env validators p header) Participation.new

def processEpochBoundary (env : Env) (view : ChainView) (number finalizedNumber : Nat) (s : StateDB) :
    Except ProcessError StateDB :=
  if !isEpochBoundary number then .ok s
  else
    let epoch := epochOf number
    match view.validatorsAt (epochStart (epoch - 1)) with
    | none => .error .validatorSet
    | some validators =>
      let participation := epochParticipation env view (epoch - 1) validators
      match processEpoch s epoch (some participation) (epochOf finalizedNumber) with
      | .error e => .error (.epoch e)
      | .ok (_, s) => .ok s

/-- `Process`: the receipts and the state after the block, before it is committed. -/
def process (env : Env) (view : ChainView) (block : Block) (s : StateDB) (finalizedNumber : Nat) :
    Except ProcessError (List Receipt × StateDB) :=
  let ctx := newBlockContext env block.header
  match (runTransactions env block s).eval (blockHash env view ctx) with
  | .error e => .error e
  | .ok acc =>
    match applyRandao env block.header acc.state with
    | .error e => .error e
    | .ok s =>
      match processEpochBoundary env view block.number finalizedNumber s with
      | .error e => .error e
      | .ok s =>
        if acc.usedGas ≠ block.header.gasUsed then
          .error (.gasUsed block.header.gasUsed acc.usedGas)
        else .ok (acc.receipts, s)

/-- A hash to evaluate the model with: the height and the first byte of the extra data. -/
def plainHash (header : Header) : Hash :=
  BitVec.ofNat 256 (header.number * 256 + (header.extra.headD 0).toNat)

/-- An environment to evaluate the model with. The sealer of a header is its coinbase, a certificate
is spelled out byte by byte, a reveal moves the randomness by a fixed amount that the draw then reads,
and no transaction is well formed. -/
def Env.plain (stateRoot : StateDB → Hash) : Env where
  cfg := ⟨7, Bls.plain, fun _ => none⟩
  hash := plainHash
  author header := some header.coinbase
  message _ _ := none
  decodeQuorumCert
    | number :: high :: low :: signers :: signature =>
      some ⟨number.toNat, BitVec.ofNat 256 (high.toNat * 256 + low.toNat), [signers], signature⟩
    | _ => none
  txRoot _ := 0
  receiptRoot _ := 0
  stateRoot := stateRoot
  mixRandao mix _ := mix + 2 ^ 65
  draw seed _ _ := seed
  random _ _ := 0
  evmCreate _ _ _ s := .done ⟨0, 0, true, [], s⟩
  evmCall _ _ _ s := .done ⟨0, 0, true, [], s⟩
  validators := []
  period := 1
  roundTimeout := 1

end PadiChain.Processor

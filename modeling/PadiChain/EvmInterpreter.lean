import PadiChain.EvmCalls

/-! The interpreter: the cost of an instruction, its execution, and the loop over the instructions of a frame. The loop
is given a number of rounds, and a nested frame has one round less. -/

namespace PadiChain.Evm

open State (TxState gasWarmStorageRead gasColdSloadCost gasCallStipend sstoreGas)
open Command Vm Word

/-! ### Cost -/

/-- The cold or warm access cost; the address is warm from then on. -/
def accountAccessGas (addr : Address) : Vm Nat := do
  let m ← get
  if m.state.addressInAccessList addr then pure gasWarmStorageRead
  else do
    modifyState (·.addAddressToAccessList addr)
    pure gasColdAccountAccess

def wordCopyGas (size : Word) : Vm Nat :=
  if size = 0 then pure 0
  else if !size.isUint64 then throw .gasUintOverflow
  else orThrow .gasUintOverflow (safeMul (toWordSize size.uint64) gasCopyWord)

/-- Whether a slot was warm; it is from then on. -/
def accessSlot (addr : Address) (key : Hash) : Vm Bool :=
  state fun s => ((s.slotInAccessList addr key).2, s.addSlotToAccessList addr key)

def bookRefund (refund : Int) (s : TxState) : TxState :=
  if 0 < refund then s.addRefund refund.toNat else if refund < 0 then s.subRefund (-refund).toNat else s

/-- The refund is booked before the gas is taken. -/
def sstoreDynamicGas (c : Contract) : Vm Nat := do
  let key ← back 0
  let value ← back 1
  let warm ← accessSlot c.address key
  let original ← state fun s => s.getCommittedState c.address key
  let current ← state fun s => s.getState c.address key
  modifyState (bookRefund (sstoreGas original current value !warm).2)
  pure (sstoreGas original current value !warm).1

def initCodeGas (hashed : Bool) : Vm Nat := do
  let size ← back 2
  if !size.isUint64 then throw .gasUintOverflow
  else if maxInitCodeSize < size.uint64 then throw .maxCodeSizeExceeded
  else do
    let initGas ← orThrow .gasUintOverflow (safeMul (toWordSize size.uint64) gasInitCodeWord)
    if hashed then do
      let hashGas ← orThrow .gasUintOverflow (safeMul (toWordSize size.uint64) gasKeccakWord)
      orThrow .gasUintOverflow (safeAdd initGas hashGas)
    else pure initGas

def logDynamicGas (topics : Nat) : Vm Nat := do
  let size ← back 1
  if !size.isUint64 then throw .gasUintOverflow
  else do
    let byteGas ← orThrow .gasUintOverflow (safeMul size.uint64 gasLogByte)
    let topicGas ← orThrow .gasUintOverflow (safeMul topics gasLogTopic)
    orThrow .gasUintOverflow (safeAdd byteGas topicGas)

def callDynamicGas (readOnly : Bool) : Vm Nat := do
  let addr ← back 1
  let value ← back 2
  if readOnly && value ≠ 0 then throw .writeProtection
  else do
    let gas ← accountAccessGas addr.toAddress
    if value = 0 then pure gas
    else do
      let gas ← orThrow .gasUintOverflow (safeAdd gas gasCallValue)
      let exist ← state fun s => s.exist addr.toAddress
      if exist then pure gas else orThrow .gasUintOverflow (safeAdd gas gasNewAccount)

/-- Nothing is charged for a warm beneficiary. -/
def coldAccessGas (addr : Address) : Vm Nat := do
  let m ← get
  if m.state.addressInAccessList addr then pure 0
  else do
    modifyState (·.addAddressToAccessList addr)
    pure gasColdAccountAccess

/-- The balance is asked for only if the beneficiary is empty. -/
def selfdestructDynamicGas (c : Contract) : Vm Nat := do
  let target ← back 0
  let access ← coldAccessGas target.toAddress
  let empty ← state fun s => s.empty target.toAddress
  if empty then do
    let balance ← state fun s => s.getBalance c.address
    pure (if balance ≠ 0 then access + gasNewAccount else access)
  else pure access

/-- A cost that a static frame does not come to. -/
def unlessReadOnly (readOnly : Bool) (c : Vm Nat) : Vm Nat := if readOnly then throw .writeProtection else c

def dynamicGas (c : Contract) (readOnly : Bool) : OpCode → Vm Nat
  | .keccak256 => do
    let size ← back 1
    if !size.isUint64 then throw .gasUintOverflow
    else orThrow .gasUintOverflow (safeMul (toWordSize size.uint64) gasKeccakWord)
  | .calldatacopy | .codecopy | .returndatacopy | .mcopy => do
    let size ← back 2
    wordCopyGas size
  | .extcodecopy => do
    let size ← back 3
    let copyGas ← wordCopyGas size
    let addr ← back 0
    let access ← accountAccessGas addr.toAddress
    orThrow .gasUintOverflow (safeAdd copyGas access)
  | .balance | .extcodesize | .extcodehash => do
    let addr ← back 0
    accountAccessGas addr.toAddress
  | .exp => do
    let exponent ← back 1
    if exponent = 0 then pure 0 else orThrow .gasUintOverflow (safeMul exponent.byteLen gasExpByte)
  | .sload => do
    let key ← back 0
    let warm ← accessSlot c.address key
    pure (if warm then gasWarmStorageRead else gasColdSloadCost)
  | .sstore =>
    unlessReadOnly readOnly do
      let m ← get
      if m.gas ≤ gasCallStipend then throw .sstoreReserve else sstoreDynamicGas c
  | .tstore => unlessReadOnly readOnly (pure 0)
  | .log n => unlessReadOnly readOnly (logDynamicGas n.val)
  | .create => unlessReadOnly readOnly (initCodeGas false)
  | .create2 => unlessReadOnly readOnly (initCodeGas true)
  | .call => callDynamicGas readOnly
  | .callcode => do
    let addr ← back 1
    let gas ← accountAccessGas addr.toAddress
    let value ← back 2
    if value = 0 then pure gas else orThrow .gasUintOverflow (safeAdd gas gasCallValue)
  | .delegatecall | .staticcall => do
    let addr ← back 1
    accountAccessGas addr.toAddress
  | .selfdestruct => unlessReadOnly readOnly (selfdestructDynamicGas c)
  | _ => pure 0

def fixedExtent (size : Nat) : Vm Nat := do
  let offset ← back 0
  if !offset.isUint64 then throw .gasUintOverflow else orThrow .gasUintOverflow (safeAdd offset.uint64 size)

def oneExtent (offset size : Nat) : Vm Nat := do
  let offset ← back offset
  let size ← back size
  orThrow .gasUintOverflow (memoryExtent offset size)

def largerExtent (offset size offset' size' : Nat) : Vm Nat := do
  let first ← oneExtent offset size
  let second ← oneExtent offset' size'
  pure (max first second)

/-- The memory that an instruction reaches to. -/
def extent : OpCode → Vm Nat
  | .mload | .mstore => fixedExtent 32
  | .mstore8 => fixedExtent 1
  | .keccak256 | .return_ | .revert | .log _ => oneExtent 0 1
  | .calldatacopy | .codecopy | .returndatacopy => oneExtent 0 2
  | .mcopy => largerExtent 0 2 1 2
  | .extcodecopy => oneExtent 1 3
  | .create | .create2 => oneExtent 1 2
  | .call | .callcode => largerExtent 3 4 5 6
  | .delegatecall | .staticcall => largerExtent 2 3 4 5
  | _ => pure 0

def gasCost (c : Contract) (readOnly : Bool) (op : OpCode) : Vm (Nat × Nat) := do
  checkLimits op.stackRequirement.1 op.stackRequirement.2
  let base ← orThrow (.invalidOpCode op) op.baseGas
  let size ← extent op
  let m ← get
  let (memFee, memory) ← orThrow .gasUintOverflow (memoryGasCost m.memory size)
  modify fun m => { m with memory := memory }
  let cost ← orThrow .gasUintOverflow (safeAdd base memFee)
  let dynamic ← dynamicGas c readOnly op
  let cost ← orThrow .gasUintOverflow (safeAdd cost dynamic)
  pure (cost, size)

/-! ### Execution -/

section Execute

variable (env : Env) (run : Runner) (depth : Nat) (readOnly : Bool) (c : Contract)

/-- The immediate bytes at a position, zero past the end of the code. A slice is shorter than 2^63, so its positions do
not wrap. -/
def immediate (start size : Nat) : Option Word :=
  if start < c.code.length then
    (slice c.code start (min (start + size) c.code.length)).map fun bytes =>
      ofBytes (copyInto (List.replicate size 0) bytes)
  else some 0

def opPush (size : Nat) : Vm Unit := do
  let m ← get
  let value ← orCrash (immediate c ((m.pc + 1) % 2 ^ 64) size)
  push value
  modify fun m => { m with pc := (m.pc + size) % 2 ^ 64 }

def popTopics : Nat → Vm (List Hash)
  | 0 => pure []
  | n + 1 => do
    let topic ← pop
    let rest ← popTopics n
    pure (topic :: rest)

def opLog (count : Nat) : Vm Unit :=
  if readOnly then throw .writeProtection
  else do
    let offset ← pop
    let size ← pop
    let topics ← popTopics count
    let data ← memGetCopy offset.uint64 size.uint64
    modifyState (·.addLog ⟨c.address, topics, data⟩ (env.blockNumber % 2 ^ 64))

/-- Only the last 256 blocks are addressable. -/
def blockHash (number : Word) : Word :=
  if !number.isUint64 then 0
  else if env.blockNumber % 2 ^ 64 ≤ number.uint64 ∨ 256 < env.blockNumber % 2 ^ 64 - number.uint64 then 0
  else env.getHash number.uint64

/-- An empty account has no code hash at all. -/
def extCodeHash (addr : Address) (s : TxState) : Word × TxState :=
  let (empty, s) := s.empty addr
  if empty then (0, s) else getCodeHash env.keccak s addr

def returnDataCopy : Vm Unit := do
  let memOffset ← pop
  let dataOffset ← pop
  let size ← pop
  let m ← get
  if 2 ^ 256 ≤ dataOffset.toNat + size.toNat ∨ !(dataOffset + size).isUint64 ∨
      m.returnData.length < (dataOffset + size).uint64 then throw .returnDataOutOfBounds
  else do
    let bytes ← orCrash (slice m.returnData dataOffset.uint64 (dataOffset + size).uint64)
    memSet memOffset.uint64 size.uint64 bytes

def memCopy : Vm Unit := do
  let dst ← pop
  let src ← pop
  let size ← pop
  if size = 0 then pure ()
  else do
    let data ← memGetCopy src.uint64 size.uint64
    memSet dst.uint64 size.uint64 data

/-- The loop steps on after every instruction, so the target is one less. -/
def jumpTo (dest : Word) : Vm Unit :=
  if c.validJumpdest dest then modify fun m => { m with pc := (dest.uint64 + (2 ^ 64 - 1)) % 2 ^ 64 }
  else throw (.invalidJump dest)

def output : Vm Bytes := do
  let offset ← pop
  let size ← pop
  memGetCopy offset.uint64 size.uint64

def nested {α : Type} (result : α → FrameResult) (f : TxState → Outcome Empty α) : Vm α := fun m =>
  match f m.state with
  | .ok r => .ok (r, { m with state := (result r).state, executed := (result r).executed ++ m.executed })
  | .panic => .panic
  | .diverge => .diverge

/-- An operand that only some instructions have. -/
def popIf (present : Bool) : Vm Word := if present then pop else pure 0

/-- All but a 64th of the gas goes to the new frame. A failed creation pushes zero; only a revert makes the output
visible. -/
def opCreate (salted : Bool) : Vm Unit :=
  if readOnly then throw .writeProtection
  else do
    let value ← pop
    let offset ← pop
    let size ← pop
    let salt ← popIf salted
    let input ← memGetCopy offset.uint64 size.uint64
    let m ← get
    let gas := m.gas - m.gas / 64
    takeGas gas
    let (addr, r) ← nested Prod.snd fun s =>
      if salted then create2 env run depth readOnly c.address input gas value.toNat salt s
      else create env run depth readOnly c.address input gas value.toNat s
    push (if r.err.isSome then 0 else ofAddress addr)
    refundGas r.gas
    modify fun m => { m with returnData := if r.err = some .executionReverted then r.ret else [] }

inductive CallKind where
  | call | callcode | delegatecall | staticcall
  deriving DecidableEq

def CallKind.valued : CallKind → Bool
  | call | callcode => true
  | delegatecall | staticcall => false

def callOf (kind : CallKind) (addr : Address) (input : Bytes) (gas : Nat) (value : Word) (s : TxState) :
    Outcome Empty FrameResult :=
  match kind with
  | .call => call env run depth readOnly c.address addr input gas value.toNat s
  | .callcode => callCode env run depth readOnly c.address addr input gas value.toNat s
  | .delegatecall => delegateCall env run depth readOnly c addr input gas s
  | .staticcall => staticCall env run depth c.address addr input gas s

/-- The output of a call that succeeds or reverts is kept, as much of it as the caller asked for. -/
def keepOutput (r : FrameResult) (retOffset retSize : Word) : Vm Unit :=
  if r.err = none ∨ r.err = some .executionReverted then do
    modify fun m => { m with returnData := r.ret }
    if 0 < retSize.uint64 then memSet retOffset.uint64 (min retSize.uint64 r.ret.length) r.ret else pure ()
  else modify fun m => { m with returnData := [] }

/-- A call with value gets a stipend that the caller has not to give. -/
def withStipend (value : Word) (gas : Nat) : Nat := if value ≠ 0 then (gas + gasCallStipend) % 2 ^ 64 else gas

/-- A value is an error in a static frame. What the call leaves of its gas comes back. -/
def opCall (kind : CallKind) : Vm Unit := do
  let gasWord ← pop
  let addrWord ← pop
  let value ← popIf kind.valued
  let inOffset ← pop
  let inSize ← pop
  let retOffset ← pop
  let retSize ← pop
  if readOnly && kind = .call && value ≠ 0 then throw .writeProtection
  else do
    let input ← memGetCopy inOffset.uint64 inSize.uint64
    let m ← get
    let gas := callGas m.gas gasWord
    takeGas gas
    let r ← nested id (callOf env run depth readOnly c kind addrWord.toAddress input (withStipend value gas) value)
    push (ofBool r.err.isNone)
    keepOutput r retOffset retSize
    refundGas r.gas

/-- The balance goes to the beneficiary before the account is marked. -/
def bequeath (addr beneficiary : Address) (s : TxState) : TxState :=
  let (balance, s) := s.getBalance addr
  (s.addBalance beneficiary balance).selfDestruct addr

def silent (instruction : Vm Unit) : Vm Bytes := do
  instruction
  pure []

/-- One instruction. The output is that of `RETURN` and `REVERT`. -/
def execute : OpCode → Vm Bytes
  | .push n => silent (opPush c (n.val + 1))
  | .dup n => silent (dup n.val)
  | .swap n => silent (swap (n.val + 1))
  | .log n => silent (opLog env readOnly c n.val)
  | .stop => pure []
  | .add => silent (binary fun x y => x + y)
  | .sub => silent (binary fun x y => x - y)
  | .mul => silent (binary fun x y => x * y)
  | .div => silent (binary div)
  | .sdiv => silent (binary sdiv)
  | .mod => silent (binary mod)
  | .smod => silent (binary smod)
  | .addmod => silent (ternary addMod)
  | .mulmod => silent (ternary mulMod)
  | .exp => silent (binary exp)
  | .signextend => silent (binary signExtend)
  | .lt => silent (binary fun x y => ofBool (x.lt y))
  | .gt => silent (binary fun x y => ofBool (y.lt x))
  | .slt => silent (binary fun x y => ofBool (x.slt y))
  | .sgt => silent (binary fun x y => ofBool (x.sgt y))
  | .eq => silent (binary fun x y => ofBool (x = y))
  | .iszero => silent (unary fun x => ofBool (x = 0))
  | .and => silent (binary fun x y => x &&& y)
  | .or => silent (binary fun x y => x ||| y)
  | .xor => silent (binary fun x y => x ^^^ y)
  | .not => silent (unary fun x => ~~~x)
  | .byte => silent (binary fun n x => x.byte n)
  | .shl => silent (binary fun n x => x.shl n)
  | .shr => silent (binary fun n x => x.shr n)
  | .sar => silent (binary fun n x => x.sar n)
  | .keccak256 => silent do
      let offset ← pop
      let size ← pop
      let data ← memGetPtr offset.uint64 size.uint64
      push (env.keccak data)
  | .address => silent (push (ofAddress c.address))
  | .balance => silent (query fun x s => ((s.getBalance x.toAddress).1 |> ofInt, (s.getBalance x.toAddress).2))
  | .origin => silent (push (ofAddress env.origin))
  | .caller => silent (push (ofAddress c.callerAddress))
  | .callvalue => silent (push c.value)
  | .calldataload => silent do
      let offset ← peek
      let data ← orCrash (getDataPadded c.input offset 32)
      replaceTop (ofBytes data)
  | .calldatasize => silent (push (BitVec.ofNat 256 c.input.length))
  | .calldatacopy => silent (copyData c.input)
  | .codesize => silent (push (BitVec.ofNat 256 c.code.length))
  | .codecopy => silent (copyData c.code)
  | .gasprice => silent (push (ofInt env.gasPrice))
  | .extcodesize =>
    silent (query fun x s => (BitVec.ofNat 256 (s.getCode x.toAddress).1.length, (s.getCode x.toAddress).2))
  | .extcodecopy => silent do
      let addr ← pop
      let code ← state fun s => s.getCode addr.toAddress
      copyData code
  | .extcodehash => silent (query fun x => extCodeHash env x.toAddress)
  | .returndatasize => silent do
      let m ← get
      push (BitVec.ofNat 256 m.returnData.length)
  | .returndatacopy => silent returnDataCopy
  | .blockhash => silent (unary (blockHash env))
  | .coinbase => silent (push (ofAddress env.coinbase))
  | .timestamp => silent (push (BitVec.ofNat 256 env.time))
  | .number => silent (push (BitVec.ofNat 256 env.blockNumber))
  | .prevrandao => silent (push env.random)
  | .gaslimit => silent (push (BitVec.ofNat 256 env.gasLimit))
  | .chainid => silent (push (ofInt env.chainID))
  | .selfbalance => silent do
      let balance ← state fun s => s.getBalance c.address
      push (ofInt balance)
  | .basefee => silent (push (ofInt env.baseFee))
  | .pop => silent do
      let _ ← pop
  | .mload => silent do
      let offset ← peek
      let data ← memGetCopy offset.uint64 32
      replaceTop (ofBytes data)
  | .mstore => silent do
      let offset ← pop
      let value ← pop
      memSet32 offset.uint64 value
  | .mstore8 => silent do
      let offset ← pop
      let value ← pop
      memSet offset.uint64 1 [UInt8.ofNat value.uint64]
  | .mcopy => silent memCopy
  | .sload => silent (query fun key s => s.getState c.address key)
  | .sstore => silent do
      if readOnly then throw .writeProtection
      else do
        let key ← pop
        let value ← pop
        modifyState (·.setState c.address key value)
  | .tload => silent (query fun key s => (s.getTransientState c.address key, s))
  | .tstore => silent do
      if readOnly then throw .writeProtection
      else do
        let key ← pop
        let value ← pop
        modifyState (·.setTransientState c.address key value)
  | .jump => silent do
      let dest ← pop
      jumpTo c dest
  | .jumpi => silent do
      let dest ← pop
      let condition ← pop
      if condition = 0 then pure () else jumpTo c dest
  | .jumpdest => pure []
  | .pc => silent do
      let m ← get
      push (BitVec.ofNat 256 m.pc)
  | .msize => silent do
      let m ← get
      push (BitVec.ofNat 256 m.memory.store.length)
  | .gas => silent do
      let m ← get
      push (BitVec.ofNat 256 m.gas)
  | .push0 => silent (push 0)
  | .create => silent (opCreate env run depth readOnly c false)
  | .create2 => silent (opCreate env run depth readOnly c true)
  | .call => silent (opCall env run depth readOnly c .call)
  | .callcode => silent (opCall env run depth readOnly c .callcode)
  | .delegatecall => silent (opCall env run depth readOnly c .delegatecall)
  | .staticcall => silent (opCall env run depth readOnly c .staticcall)
  | .return_ => output
  | .revert => do
    let out ← output
    modify fun m => { m with returnData := out }
    pure out
  | .selfdestruct => silent do
      if readOnly then throw .writeProtection
      else do
        let target ← pop
        modifyState (bequeath c.address target.toAddress)
  | .invalid => throw (.invalidOpCode .invalid)
  | .undefined b => throw (.invalidOpCode (.undefined b))

/-- How a frame ends: its output, and the error it reports. -/
abbrev Halt := Bytes × Option VmError

def OpCode.halt (res : Bytes) : OpCode → Option Halt
  | .return_ => some (res, none)
  | .revert => some (res, some .executionReverted)
  | .stop | .selfdestruct => some ([], none)
  | _ => none

/-- The loop steps on, unless the frame has ended. -/
def next (op : OpCode) (res : Bytes) : Vm (Option Halt) :=
  match op.halt res with
  | some halt => pure (some halt)
  | none => do
    modify fun m => { m with pc := (m.pc + 1) % 2 ^ 64 }
    pure none

def round : Vm (Option Halt) :=
  if env.abort then throw .aborted
  else do
    let m ← get
    let op := c.getOp m.pc
    modify fun m => { m with executed := op :: m.executed }
    let (cost, memSize) ← gasCost c readOnly op
    let m ← get
    if m.gas < cost then throw .outOfGas
    else do
      modify fun m => { m with gas := m.gas - cost, memory := m.memory.resize memSize }
      let res ← execute env run depth readOnly c op
      next op res

end Execute

/-! ### Frames -/

def Machine.start (gas : Nat) (state : TxState) : Machine := ⟨gas, 0, [], .new, [], state, []⟩

def Machine.result (m : Machine) (ret : Bytes) (err : Option VmError) : FrameResult := ⟨ret, err, m.gas, m.state, m.executed⟩

/-- `Run`, over a loop that runs the code: without code there is nothing to run. -/
def frameOf (loop : Nat → Bool → Contract → Machine → Outcome Empty FrameResult) : Runner :=
  fun depth readOnly c gas s =>
    if c.code = [] then .ok ⟨[], none, gas, s, []⟩ else loop (depth + 1) readOnly c (.start gas s)

/-- The loop of `Run`, for so many rounds. -/
def loop (env : Env) : Nat → Nat → Bool → Contract → Machine → Outcome Empty FrameResult
  | 0, _, _, _, _ => .diverge
  | rounds + 1, depth, readOnly, c, m =>
    match round env (frameOf (loop env rounds)) depth readOnly c m with
    | .ok (none, m) => loop env rounds depth readOnly c m
    | .ok (some (ret, err), m) => .ok (m.result ret err)
    | .error (e, m) => .ok (m.result [] (some e))
    | .panic => .panic
    | .diverge => .diverge

def run (env : Env) (rounds : Nat) : Runner := frameOf (loop env rounds)

end PadiChain.Evm

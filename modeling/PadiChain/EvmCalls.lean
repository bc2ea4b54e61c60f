import PadiChain.CoreTransaction
import PadiChain.EvmMachine

/-! Calls and creations, over a way to run a frame. Each takes a snapshot, runs the code of an account, and returns
to the snapshot if that fails; anything but an explicit revert burns the gas. The precompiled contracts are
parameters: a cost and a result for each input. -/

namespace PadiChain.Evm

open State (TxState)

structure Precompile where
  requiredGas : Bytes → Nat
  run : Bytes → Bytes × Option VmError

/-- The block and the transaction that are executed, and how the machine is set up. -/
structure Env where
  keccak : Bytes → Hash
  getHash : Nat → Hash
  coinbase : Address
  gasLimit : Nat
  blockNumber : Nat
  time : Nat
  baseFee : Int
  random : Hash
  origin : Address
  gasPrice : Int
  chainID : Int
  precompile : Address → Option Precompile
  abort : Bool
  readOnly : Bool

structure FrameResult where
  ret : Bytes
  err : Option VmError
  gas : Nat
  state : TxState
  executed : List OpCode

/-- A run of a frame: the depth it is called at, whether it is static, its contract, gas and state. -/
abbrev Runner := Nat → Bool → Contract → Nat → TxState → Outcome Empty FrameResult

/-- Nothing is executed. -/
def refused (err : VmError) (gas : Nat) (state : TxState) : FrameResult := ⟨[], some err, gas, state, []⟩

/-- On failure the state is rolled back; anything but a revert burns the gas. -/
def settle (snapshot : Nat) (r : FrameResult) : Outcome Empty FrameResult :=
  match r.err with
  | none => .ok r
  | some err =>
    match r.state.revertToSnapshot snapshot with
    | none => .panic
    | some s => .ok { r with state := s, gas := if err = .executionReverted then r.gas else 0 }

def runPrecompile (p : Precompile) (input : Bytes) (gas : Nat) (state : TxState) : FrameResult :=
  if gas < p.requiredGas input then refused .outOfGas 0 state
  else ⟨(p.run input).1, (p.run input).2, gas - p.requiredGas input, state, []⟩

def canTransfer (s : TxState) (addr : Address) (amount : Int) : Bool × TxState :=
  let (balance, s) := s.getBalance addr
  (decide (amount ≤ balance), s)

def transfer (s : TxState) (sender recipient : Address) (amount : Int) : TxState :=
  if amount = 0 then s else (s.subBalance sender amount).addBalance recipient amount

/-- Only a call that moves value asks for the balance. -/
def affordable (s : TxState) (addr : Address) (value : Int) : Bool × TxState :=
  if value = 0 then (true, s) else canTransfer s addr value

/-- `GetCodeHash`: zero for an account that does not exist. -/
def getCodeHash (keccak : Bytes → Hash) (s : TxState) (addr : Address) : Hash × TxState :=
  let (obj, s) := s.getStateObject addr
  (obj.elim 0 fun o => keccak o.data.code, s)

section Calls

variable (env : Env) (run : Runner) (depth : Nat)

def pay (s : TxState) (exist : Bool) (caller addr : Address) (value : Int) : TxState :=
  transfer (if exist then s else s.createAccount addr) caller addr value

/-- `Call`. The frame is static if the caller's is. -/
def call (readOnly : Bool) (caller addr : Address) (input : Bytes) (gas : Nat) (value : Int) (s : TxState) :
    Outcome Empty FrameResult :=
  if maxCallDepth < depth then .ok (refused .depthLimit gas s)
  else
    let (enough, s) := affordable s caller value
    if !enough then .ok (refused .insufficientBalance gas s)
    else if env.readOnly && value ≠ 0 then .ok (refused .writeProtection gas s)
    else
      let (snapshot, s) := s.snapshot
      let (exist, s) := s.exist addr
      match env.precompile addr with
      | some p => settle snapshot (runPrecompile p input gas (pay s exist caller addr value))
      | none =>
        if !exist && value = 0 then .ok ⟨[], none, gas, s, []⟩
        else
          let (code, s) := (pay s exist caller addr value).getCode addr
          if code = [] then .ok ⟨[], none, gas, s, []⟩
          else do
            let r ← run depth readOnly ⟨caller, addr, code, input, Word.ofInt value⟩ gas s
            settle snapshot r

/-- The code of an account is run in a frame of its own, and no value moved. -/
def runCode (readOnly : Bool) (addr : Address) (input : Bytes) (gas : Nat) (frame : Bytes → Contract) (s : TxState) :
    Outcome Empty FrameResult :=
  let (snapshot, s) := s.snapshot
  match env.precompile addr with
  | some p => settle snapshot (runPrecompile p input gas s)
  | none => do
    let (code, s) := s.getCode addr
    let r ← run depth readOnly (frame code) gas s
    settle snapshot r

def callCode (readOnly : Bool) (caller addr : Address) (input : Bytes) (gas : Nat) (value : Int) (s : TxState) :
    Outcome Empty FrameResult :=
  if maxCallDepth < depth then .ok (refused .depthLimit gas s)
  else
    let (enough, s) := affordable s caller value
    if !enough then .ok (refused .insufficientBalance gas s)
    else runCode env run depth readOnly addr input gas (fun code => ⟨caller, caller, code, input, Word.ofInt value⟩) s

def delegateCall (readOnly : Bool) (parent : Contract) (addr : Address) (input : Bytes) (gas : Nat) (s : TxState) :
    Outcome Empty FrameResult :=
  if maxCallDepth < depth then .ok (refused .depthLimit gas s)
  else
    runCode env run depth readOnly addr input gas
      (fun code => ⟨parent.callerAddress, parent.address, code, input, parent.value⟩) s

def staticCall (caller addr : Address) (input : Bytes) (gas : Nat) (s : TxState) : Outcome Empty FrameResult :=
  if maxCallDepth < depth then .ok (refused .depthLimit gas s)
  else runCode env run depth true addr input gas (fun code => ⟨caller, addr, code, input, 0⟩) s

/-- What the init code returns becomes the code, charged per byte. -/
def deploy (addr : Address) (r : FrameResult) : FrameResult :=
  if r.err.isSome then r
  else if maxCodeSize < r.ret.length then { r with err := some .maxCodeSizeExceeded }
  else if r.ret.head? = some 0xEF then { r with err := some .invalidCode }
  else if r.gas < r.ret.length * gasCodeDeposit then { r with err := some .codeStoreOutOfGas }
  else { r with gas := r.gas - r.ret.length * gasCodeDeposit, state := r.state.setCode addr r.ret }

def occupied (s : TxState) (addr : Address) : Bool × TxState :=
  let (hash, s) := getCodeHash env.keccak s addr
  let (nonce, s) := s.getNonce addr
  (nonce ≠ 0 || (hash ≠ 0 && hash ≠ env.keccak []), s)

def endow (s : TxState) (caller addr : Address) (value : Int) : TxState :=
  transfer ((s.createAccount addr).setNonce addr 1) caller addr value

/-- `create`. The creator's nonce grows whether or not the deployment succeeds. -/
def createAt (readOnly : Bool) (caller : Address) (code : Bytes) (gas : Nat) (value : Int) (addr : Address) (s : TxState) :
    Outcome Empty (Address × FrameResult) :=
  if maxCallDepth < depth then .ok (0, refused .depthLimit gas s)
  else
    let (enough, s) := canTransfer s caller value
    if !enough then .ok (0, refused .insufficientBalance gas s)
    else if env.readOnly then .ok (0, refused .writeProtection gas s)
    else
      let (nonce, s) := s.getNonce caller
      let (occupied, s) := occupied env (s.setNonce caller ((nonce + 1) % 2 ^ 64)) addr
      if occupied then .ok (0, refused .contractAddressCollision 0 s)
      else do
        let (snapshot, s) := s.snapshot
        let r ← run depth readOnly ⟨caller, addr, code, [], Word.ofInt value⟩ gas (endow s caller addr value)
        let r ← settle snapshot (deploy addr r)
        pure (addr, r)

def createAddress (keccak : Bytes → Hash) (sender : Address) (nonce : Nat) : Address :=
  bytesToAddress (hashBytes (keccak (Rlp.Item.list [.bytes (addressBytes sender), Core.uintItem nonce]).layout))

def createAddress2 (keccak : Bytes → Hash) (sender : Address) (salt : Word) (initCode : Bytes) : Address :=
  bytesToAddress (hashBytes (keccak ([0xff] ++ addressBytes sender ++ hashBytes salt ++ hashBytes (keccak initCode))))

def create (readOnly : Bool) (caller : Address) (code : Bytes) (gas : Nat) (value : Int) (s : TxState) :
    Outcome Empty (Address × FrameResult) :=
  let (nonce, s) := s.getNonce caller
  if (nonce + 1) % 2 ^ 64 < nonce then .ok (0, refused .nonceOverflow gas s)
  else createAt env run depth readOnly caller code gas value (createAddress env.keccak caller nonce) s

def create2 (readOnly : Bool) (caller : Address) (code : Bytes) (gas : Nat) (value : Int) (salt : Word) (s : TxState) :
    Outcome Empty (Address × FrameResult) :=
  createAt env run depth readOnly caller code gas value (createAddress2 env.keccak caller salt code) s

end Calls

end PadiChain.Evm

import PadiChain.EvmOpcode
import PadiChain.LibCommand
import PadiChain.StateTx

/-! One frame of execution: its contract, stack, memory and gas, with the state that all frames share, and the
commands that instructions are made of. Where the source indexes a slice, the command panics if the index is out of
range. -/

namespace PadiChain.Evm

open State (TxState)

/-- `b[lo:hi]`. -/
def slice (b : Bytes) (lo hi : Nat) : Option Bytes :=
  if lo ≤ hi ∧ hi ≤ b.length then some ((b.take hi).drop lo) else none

/-- `copy(dst, src)`. -/
def copyInto (dst src : Bytes) : Bytes := src.take dst.length ++ dst.drop src.length

/-! ### Memory -/

structure Memory where
  store : Bytes
  lastGasCost : Nat

namespace Memory

def new : Memory := ⟨[], 0⟩

def resize (m : Memory) (size : Nat) : Memory :=
  if m.store.length < size then { m with store := m.store ++ List.replicate (size - m.store.length) 0 } else m

/-- `copy(store[lo:hi], value)`. -/
def copyTo (m : Memory) (lo hi : Nat) (value : Bytes) : Option Memory :=
  (slice m.store lo hi).map fun old =>
    { m with store := m.store.take lo ++ copyInto old value ++ m.store.drop hi }

def set (m : Memory) (offset size : Nat) (value : Bytes) : Option Memory :=
  if size = 0 then some m else m.copyTo offset ((offset + size) % 2 ^ 64) value

def set32 (m : Memory) (offset : Nat) (value : Word) : Option Memory :=
  m.copyTo offset ((offset + 32) % 2 ^ 64) (hashBytes value)

def getCopy (m : Memory) (offset size : Nat) : Option Bytes :=
  if size = 0 then some []
  else if offset < m.store.length then
    (slice m.store offset (min ((offset + size) % 2 ^ 64) m.store.length)).map (copyInto (List.replicate size 0))
  else some (List.replicate size 0)

def getPtr (m : Memory) (offset size : Nat) : Option Bytes :=
  if size = 0 ∨ m.store.length ≤ offset then some []
  else slice m.store offset (min ((offset + size) % 2 ^ 64) m.store.length)

end Memory

/-- The fee for growing the memory to a size, and the memory with what is paid for by then. -/
def memoryGasCost (m : Memory) (newSize : Nat) : Option (Nat × Memory) :=
  if newSize = 0 then some (0, m)
  else if 0x1FFFFFFFE0 < newSize then none
  else
    let newWords := toWordSize newSize
    let newTotal := (newWords * gasMemoryWord + newWords * newWords % 2 ^ 64 / 512) % 2 ^ 64
    if newTotal ≤ m.lastGasCost then some (0, m)
    else some (newTotal - m.lastGasCost, { m with lastGasCost := newTotal })

/-! ### Contracts -/

/-- What stays the same while a frame runs. -/
structure Contract where
  callerAddress : Address
  address : Address
  code : Bytes
  input : Bytes
  value : Word

/-- The bytes that are immediate data of a push, after so many that still belong to the last one. -/
def immediates : Nat → Bytes → List Bool
  | _, [] => []
  | n + 1, _ :: code => true :: immediates n code
  | 0, b :: code => false :: immediates (OpCode.ofByte b).pushSize code

def codeBitmap (code : Bytes) : List Bool := immediates 0 code

namespace Contract

/-- The instruction at a position, or `stop` past the end of the code. -/
def getOp (c : Contract) (pc : Nat) : OpCode := (c.code[pc]?).elim .stop OpCode.ofByte

def validJumpdest (c : Contract) (dest : Word) : Bool :=
  if !dest.isUint64 then false
  else
    match c.code[dest.uint64]? with
    | none => false
    | some b => if OpCode.ofByte b ≠ .jumpdest then false else !((codeBitmap c.code).getD dest.uint64 false)

end Contract

/-- Reads a number of bytes at an offset, zero-padded past the end. -/
def getDataPadded (data : Bytes) (offset : Word) (size : Nat) : Option Bytes :=
  if size = 0 then some []
  else if !offset.isUint64 then some (List.replicate size 0)
  else if data.length ≤ offset.uint64 then some (List.replicate size 0)
  else
    let last := (offset.uint64 + size) % 2 ^ 64
    let last := if data.length < last ∨ last < offset.uint64 then data.length else last
    (slice data offset.uint64 last).map (copyInto (List.replicate size 0))

/-! ### Frames -/

inductive VmError where
  | outOfGas
  | sstoreReserve
  | codeStoreOutOfGas
  | depthLimit
  | insufficientBalance
  | contractAddressCollision
  | executionReverted
  | maxCodeSizeExceeded
  | invalidJump (dest : Word)
  | writeProtection
  | returnDataOutOfBounds
  | gasUintOverflow
  | invalidCode
  | nonceOverflow
  | stackUnderflow (need got : Nat)
  | stackOverflow (values : Nat)
  | invalidOpCode (op : OpCode)
  | aborted
  | precompile (reason : String)
  deriving DecidableEq

/-- The stack is kept top first. The instructions executed so far are recorded, those of nested frames included and the
newest first; the source keeps no such record. -/
structure Machine where
  gas : Nat
  pc : Nat
  stack : List Word
  memory : Memory
  returnData : Bytes
  state : TxState
  executed : List OpCode

abbrev Vm := Command Machine VmError

namespace Vm

open Command

def push (w : Word) : Vm Unit := modify fun m => { m with stack := w :: m.stack }

def pop : Vm Word := fun m =>
  match m.stack with
  | [] => .panic
  | w :: rest => .ok (w, { m with stack := rest })

def back (n : Nat) : Vm Word := fun m =>
  match m.stack[n]? with
  | none => .panic
  | some w => .ok (w, m)

def peek : Vm Word := back 0

def replaceTop (w : Word) : Vm Unit := do
  let _ ← pop
  push w

def dup (n : Nat) : Vm Unit := do
  let w ← back n
  push w

def swap (n : Nat) : Vm Unit := do
  let top ← back 0
  let w ← back n
  modify fun m => { m with stack := (m.stack.set 0 w).set n top }

def checkLimits (pops pushes : Nat) : Vm Unit := do
  let m ← get
  if m.stack.length < pops then throw (.stackUnderflow pops m.stack.length)
  else if stackLimit < m.stack.length - pops + pushes then throw (.stackOverflow (m.stack.length - pops + pushes))
  else pure ()

/-- `UseGas`, where there is enough. -/
def takeGas (amount : Nat) : Vm Unit := modify fun m => { m with gas := m.gas - amount }

def refundGas (amount : Nat) : Vm Unit := modify fun m => { m with gas := (m.gas + amount) % 2 ^ 64 }

/-- An access to the state that also answers something. -/
def state {α : Type} (f : TxState → α × TxState) : Vm α :=
  change fun m => ((f m.state).1, { m with state := (f m.state).2 })

def modifyState (f : TxState → TxState) : Vm Unit := modify fun m => { m with state := f m.state }

def memSet (offset size : Nat) (value : Bytes) : Vm Unit := do
  let m ← get
  let memory ← orCrash (m.memory.set offset size value)
  modify fun m => { m with memory := memory }

def memSet32 (offset : Nat) (value : Word) : Vm Unit := do
  let m ← get
  let memory ← orCrash (m.memory.set32 offset value)
  modify fun m => { m with memory := memory }

def memGetCopy (offset size : Nat) : Vm Bytes := do
  let m ← get
  orCrash (m.memory.getCopy offset size)

def memGetPtr (offset size : Nat) : Vm Bytes := do
  let m ← get
  orCrash (m.memory.getPtr offset size)

/-- The first operand is popped, and the result written over the second. -/
def binary (f : Word → Word → Word) : Vm Unit := do
  let x ← pop
  let y ← peek
  replaceTop (f x y)

def ternary (f : Word → Word → Word → Word) : Vm Unit := do
  let x ← pop
  let y ← pop
  let z ← peek
  replaceTop (f x y z)

def unary (f : Word → Word) : Vm Unit := do
  let x ← peek
  replaceTop (f x)

def query (f : Word → TxState → Word × TxState) : Vm Unit := do
  let x ← peek
  let w ← state (f x)
  replaceTop w

/-- A new memory range is filled from data: the operands are the memory offset, the data offset and the size. -/
def copyData (data : Bytes) : Vm Unit := do
  let memOffset ← pop
  let dataOffset ← pop
  let size ← pop
  let bytes ← orCrash (getDataPadded data dataOffset size.uint64)
  memSet memOffset.uint64 size.uint64 bytes

end Vm

end PadiChain.Evm

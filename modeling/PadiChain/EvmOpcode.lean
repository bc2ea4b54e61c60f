import PadiChain.EvmWord
import PadiChain.StateRefund

/-! The instructions, what each takes from the stack and leaves there, and the constant part of its cost. -/

namespace PadiChain.Evm

/-- A push has its number of immediate bytes less one, `dup` and `swap` their depth less one, `log` its number of
topics. -/
inductive OpCode where
  | stop | add | mul | sub | div | sdiv | mod | smod | addmod | mulmod | exp | signextend
  | lt | gt | slt | sgt | eq | iszero | and | or | xor | not | byte | shl | shr | sar
  | keccak256
  | address | balance | origin | caller | callvalue | calldataload | calldatasize | calldatacopy | codesize
  | codecopy | gasprice | extcodesize | extcodecopy | returndatasize | returndatacopy | extcodehash
  | blockhash | coinbase | timestamp | number | prevrandao | gaslimit | chainid | selfbalance | basefee
  | pop | mload | mstore | mstore8 | sload | sstore | jump | jumpi | pc | msize | gas | jumpdest | tload | tstore
  | mcopy | push0
  | push (n : Fin 32)
  | dup (n : Fin 16)
  | swap (n : Fin 16)
  | log (n : Fin 5)
  | create | call | callcode | return_ | delegatecall | create2 | staticcall | revert | invalid | selfdestruct
  | undefined (b : UInt8)
  deriving DecidableEq

namespace OpCode

def ofByte (b : UInt8) : OpCode :=
  if h : 0x60 ≤ b.toNat ∧ b.toNat ≤ 0x7f then push ⟨b.toNat - 0x60, by omega⟩
  else if h : 0x80 ≤ b.toNat ∧ b.toNat ≤ 0x8f then dup ⟨b.toNat - 0x80, by omega⟩
  else if h : 0x90 ≤ b.toNat ∧ b.toNat ≤ 0x9f then swap ⟨b.toNat - 0x90, by omega⟩
  else if h : 0xa0 ≤ b.toNat ∧ b.toNat ≤ 0xa4 then log ⟨b.toNat - 0xa0, by omega⟩
  else
    match b with
    | 0x00 => stop
    | 0x01 => add
    | 0x02 => mul
    | 0x03 => sub
    | 0x04 => div
    | 0x05 => sdiv
    | 0x06 => mod
    | 0x07 => smod
    | 0x08 => addmod
    | 0x09 => mulmod
    | 0x0a => exp
    | 0x0b => signextend
    | 0x10 => lt
    | 0x11 => gt
    | 0x12 => slt
    | 0x13 => sgt
    | 0x14 => eq
    | 0x15 => iszero
    | 0x16 => and
    | 0x17 => or
    | 0x18 => xor
    | 0x19 => not
    | 0x1a => byte
    | 0x1b => shl
    | 0x1c => shr
    | 0x1d => sar
    | 0x20 => keccak256
    | 0x30 => address
    | 0x31 => balance
    | 0x32 => origin
    | 0x33 => caller
    | 0x34 => callvalue
    | 0x35 => calldataload
    | 0x36 => calldatasize
    | 0x37 => calldatacopy
    | 0x38 => codesize
    | 0x39 => codecopy
    | 0x3a => gasprice
    | 0x3b => extcodesize
    | 0x3c => extcodecopy
    | 0x3d => returndatasize
    | 0x3e => returndatacopy
    | 0x3f => extcodehash
    | 0x40 => blockhash
    | 0x41 => coinbase
    | 0x42 => timestamp
    | 0x43 => number
    | 0x44 => prevrandao
    | 0x45 => gaslimit
    | 0x46 => chainid
    | 0x47 => selfbalance
    | 0x48 => basefee
    | 0x50 => pop
    | 0x51 => mload
    | 0x52 => mstore
    | 0x53 => mstore8
    | 0x54 => sload
    | 0x55 => sstore
    | 0x56 => jump
    | 0x57 => jumpi
    | 0x58 => pc
    | 0x59 => msize
    | 0x5a => gas
    | 0x5b => jumpdest
    | 0x5c => tload
    | 0x5d => tstore
    | 0x5e => mcopy
    | 0x5f => push0
    | 0xf0 => create
    | 0xf1 => call
    | 0xf2 => callcode
    | 0xf3 => return_
    | 0xf4 => delegatecall
    | 0xf5 => create2
    | 0xfa => staticcall
    | 0xfd => revert
    | 0xfe => invalid
    | 0xff => selfdestruct
    | b => undefined b

/-- `IsPush` and `PushSize`: the number of immediate bytes. -/
def pushSize : OpCode → Nat
  | push n => n.val + 1
  | _ => 0

/-- How many values an instruction pops and pushes. -/
def stackRequirement : OpCode → Nat × Nat
  | push _ => (0, 1)
  | dup n => (n.val + 1, n.val + 2)
  | swap n => (n.val + 2, n.val + 2)
  | log n => (n.val + 2, 0)
  | stop | jumpdest => (0, 0)
  | pc | msize | gas | address | origin | caller | callvalue | calldatasize | codesize | gasprice | returndatasize
  | coinbase | timestamp | number | prevrandao | gaslimit | chainid | selfbalance | basefee | push0 => (0, 1)
  | pop | jump | selfdestruct => (1, 0)
  | iszero | not | balance | calldataload | extcodesize | extcodehash | blockhash | mload | sload | tload => (1, 1)
  | add | mul | sub | div | sdiv | mod | smod | exp | signextend | lt | gt | slt | sgt | eq | and | or | xor | byte
  | shl | shr | sar | keccak256 => (2, 1)
  | jumpi | mstore | mstore8 | sstore | tstore | return_ | revert => (2, 0)
  | addmod | mulmod | create => (3, 1)
  | calldatacopy | codecopy | returndatacopy | mcopy => (3, 0)
  | extcodecopy => (4, 0)
  | create2 => (4, 1)
  | delegatecall | staticcall => (6, 1)
  | call | callcode => (7, 1)
  | _ => (0, 0)

/-- The constant part of the cost; none for an instruction that is not defined. -/
def baseGas : OpCode → Option Nat
  | push _ => some gasVeryLow
  | dup _ => some gasVeryLow
  | swap _ => some gasVeryLow
  | log _ => some gasLog
  | stop | return_ | revert => some 0
  | jumpdest => some gasJumpDest
  | push0 => some gasBase
  | address | origin | caller | callvalue | calldatasize | codesize | gasprice | coinbase | timestamp | number
  | prevrandao | gaslimit | pop | pc | msize | gas | returndatasize | chainid | basefee => some gasBase
  | add | sub | not | lt | gt | slt | sgt | eq | iszero | and | or | xor | byte | calldataload | mload | mstore
  | mstore8 | shl | shr | sar | calldatacopy | codecopy | returndatacopy | mcopy => some gasVeryLow
  | mul | div | sdiv | mod | smod | signextend | selfbalance => some gasLow
  | addmod | mulmod | jump => some gasMid
  | jumpi => some gasHigh
  | keccak256 => some gasKeccak256
  | exp => some gasHigh
  | blockhash => some 20
  | balance | extcodesize | extcodehash | sload | extcodecopy => some 0
  | tload | tstore => some State.gasWarmStorageRead
  | sstore => some 0
  | create => some gasCreate
  | create2 => some gasCreate
  | call | callcode | delegatecall | staticcall => some 0
  | selfdestruct => some gasSelfDestruct
  | invalid => some 0
  | undefined _ => none

end OpCode

end PadiChain.Evm

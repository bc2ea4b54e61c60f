import PadiChain.Common

/-! Transactions, receipts, headers and blocks: the data consensus and execution pass around. The
fields that only the wire encoding or the RPC reads are left out. -/

namespace PadiChain.Core

/-- The addresses and storage slots a transaction names in advance. -/
abbrev AccessList := List (Address × List Hash)

/-- A transaction reduced to what execution needs, with its recovered sender (`Message`). -/
structure Message where
  sender : Address
  toAddress : Option Address
  nonce : Nat
  value : Nat
  gasLimit : Nat
  gasPrice : Nat
  gasFeeCap : Nat
  gasTipCap : Nat
  data : Bytes
  accessList : AccessList
  deriving DecidableEq, Repr

structure Transaction where
  bytes : Bytes
  deriving DecidableEq, Repr

structure Log where
  address : Address
  topics : List Hash
  data : Bytes
  deriving DecidableEq, Repr

/-- The consensus part of a receipt; the bloom filter is a function of the logs. -/
structure Receipt where
  success : Bool
  cumulativeGasUsed : Nat
  logs : List Log
  deriving DecidableEq, Repr

structure Header where
  parentHash : Hash
  coinbase : Address
  stateRoot : Hash
  txRoot : Hash
  receiptRoot : Hash
  bloom : BitVec 2048
  number : Nat
  gasLimit : Nat
  gasUsed : Nat
  time : Nat
  extra : Bytes
  baseFee : Nat
  round : Nat
  randaoReveal : Bytes
  justification : Bytes
  proposerSeal : Bytes
  deriving DecidableEq, Repr

structure Block where
  header : Header
  transactions : List Transaction
  deriving DecidableEq, Repr

def Block.number (b : Block) : Nat := b.header.number

def Block.parentHash (b : Block) : Hash := b.header.parentHash

end PadiChain.Core

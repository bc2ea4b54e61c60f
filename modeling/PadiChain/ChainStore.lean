import PadiChain.ProcessorBlock

/-! The chain store and what is derived from it: the canonical headers by height, and the validator
set, the proposer and the attestation keys that govern a height. The key/value store holds blocks by
hash, the canonical hash by height, and states by root; a root whose state cannot be opened is absent
from `states`. -/

namespace PadiChain.Chain

open Core Staking Processor

structure BlockChain where
  blocks : Hash → Option Block
  canonical : Nat → Option Hash
  states : Hash → Option StateDB
  genesis : Block
  current : Block
  finalized : Option Block

namespace BlockChain

variable (env : Env) (c : BlockChain)

/-- `GetHeaderByNumber`: the header the canonical index names; headers are keyed by height and hash. -/
def headerByNumber (number : Nat) : Option Header :=
  match c.canonical number with
  | none => none
  | some hash =>
    match c.blocks hash with
    | none => none
    | some block => if block.number = number then some block.header else none

/-- `genesisValidators`: the first epoch's set in registry order, or the engine's own list. -/
def genesisValidators : List Address :=
  match c.states c.genesis.header.stateRoot with
  | none => env.validators
  | some s =>
    let set := s.registry.activeAddressesAt 0
    if set.isEmpty then env.validators else set

/-- The last block of the epoch before a height's epoch, whose state settles the height's set. -/
def boundaryOf (blockNumber : Nat) : Nat := epochStart (epochOf blockNumber) - 1

/-- What the settled set of a height is read from: nothing in the first epoch or without a canonical
header at the boundary, otherwise the state of that header, which may be unavailable. -/
inductive Settled where
  | genesis
  | unavailable
  | state (s : StateDB)

def settledState (blockNumber : Nat) : Settled :=
  if epochOf blockNumber = 0 then .genesis
  else
    match c.headerByNumber (boundaryOf blockNumber) with
    | none => .genesis
    | some header =>
      match c.states header.stateRoot with
      | none => .unavailable
      | some s => .state s

def validatorsAt (blockNumber : Nat) : Option (List Address) :=
  match c.settledState blockNumber with
  | .genesis => some (c.genesisValidators env)
  | .unavailable => none
  | .state s =>
    let set := s.registry.activeAddressesAt (epochOf blockNumber)
    if set.isEmpty then some (c.genesisValidators env) else some set

def proposerAtHeight (blockNumber round : Nat) : Option Address :=
  match c.settledState blockNumber with
  | .genesis => none
  | .unavailable => none
  | .state s => s.registry.proposerAt env.draw (epochOf blockNumber) s.registry.randaoMix blockNumber round

def genesisBLSKeys : Option (List Bytes) :=
  match c.states c.genesis.header.stateRoot with
  | none => none
  | some s => some (s.registry.activeBLSKeysAt 0)

def rawBLSKeysAt (blockNumber : Nat) : Option (List Bytes) :=
  match c.settledState blockNumber with
  | .genesis => c.genesisBLSKeys
  | .unavailable => none
  | .state s =>
    let keys := s.registry.activeBLSKeysAt (epochOf blockNumber)
    if keys.isEmpty then c.genesisBLSKeys else some keys

end BlockChain

/-- Decode the attestation keys of a set; an empty encoding is a validator without a key, and an
undecodable one fails the whole list. -/
def decodeKeys (bls : Bls) : List Bytes → Option (List (Option PublicKey))
  | [] => some []
  | encoded :: rest =>
    if encoded.isEmpty then (decodeKeys bls rest).map (none :: ·)
    else
      match bls.publicKeyFromBytes encoded with
      | none => none
      | some key => (decodeKeys bls rest).map (some key :: ·)

namespace BlockChain

variable (env : Env) (c : BlockChain)

/-- `BLSKeysAt`: the attestation keys of the set that governs a height. -/
def blsKeysAt (blockNumber : Nat) : Option (List (Option PublicKey)) :=
  match c.rawBLSKeysAt blockNumber with
  | none => none
  | some raw => decodeKeys env.cfg.bls raw

def view : ChainView := ⟨c.headerByNumber, c.validatorsAt env⟩

def finalizedNumber : Nat :=
  match c.finalized with
  | none => 0
  | some block => block.number

def commit (s : StateDB) : BlockChain :=
  { c with states := Function.update c.states (env.stateRoot s) (some s) }

def writeBlock (block : Block) : BlockChain :=
  { c with blocks := Function.update c.blocks (env.hash block.header) (some block) }

@[simp] theorem writeBlock_blocks_self (block : Block) :
    (c.writeBlock env block).blocks (env.hash block.header) = some block := Function.update_self _ _ _

theorem writeBlock_blocks_of_ne {block : Block} {hash : Hash} (h : hash ≠ env.hash block.header) :
    (c.writeBlock env block).blocks hash = c.blocks hash := Function.update_of_ne h _ _

variable {env c} in
theorem writeBlock_blocks_cases {block b : Block} {hash : Hash} (h : (c.writeBlock env block).blocks hash = some b) :
    hash = env.hash block.header ∧ b = block ∨ hash ≠ env.hash block.header ∧ c.blocks hash = some b := by
  by_cases hsame : hash = env.hash block.header
  · rw [hsame, writeBlock_blocks_self] at h
    exact .inl ⟨hsame, (Option.some.inj h).symm⟩
  · exact .inr ⟨hsame, (writeBlock_blocks_of_ne env c hsame).symm.trans h⟩

end BlockChain

end PadiChain.Chain

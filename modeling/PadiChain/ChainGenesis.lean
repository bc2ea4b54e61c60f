import PadiChain.ChainTree

/-! The first block and the state it starts from. The genesis validators are staked by the protocol,
active from epoch 0, with the keys the specification lists or ones derived from their addresses. -/

namespace PadiChain.Chain

open Core Staking Processor Ancestry

structure GenesisAccount where
  address : Address
  balance : Int
  nonce : Nat
  code : Bytes
  storage : List (Hash × Hash)

structure Genesis where
  timestamp : Nat
  gasLimit : Nat
  baseFee : Nat
  extraData : Bytes
  coinbase : Address
  alloc : List GenesisAccount
  validators : List Address
  withdrawalAddresses : Address → Option Address
  /-- The listed key of a validator, or the one derived from its address. -/
  blsKeys : Address → Bytes

namespace Genesis

variable (env : Env) (g : Genesis)

def allocate (s : StateDB) (account : GenesisAccount) : StateDB :=
  let s := s.addBalance account.address account.balance
  let s := if account.nonce ≠ 0 then s.setNonce account.address account.nonce else s
  let s := if account.code.isEmpty then s
    else { s with code := Function.update s.code account.address account.code }
  { s with
    storage := Function.update s.storage account.address
      (account.storage.foldl (fun slots kv => Function.update slots kv.1 kv.2) (s.storage account.address)) }

def stake (s : StateDB) (validator : Address) : Except StakingError StateDB :=
  let withdrawal := (g.withdrawalAddresses validator).getD validator
  match deposit (s.addBalance stakingAddress minDeposit) validator withdrawal minDeposit with
  | .error e => .error e
  | .ok (v, s) =>
    .ok (s.setRegistry (s.registry.put
      { v with blsPublicKey := g.blsKeys validator, status := .active, activationEpoch := 0 }))

def toState : Except StakingError StateDB :=
  g.validators.foldlM g.stake (g.alloc.foldl allocate StateDB.empty)

def toBlock (s : StateDB) : Block where
  header :=
    { parentHash := 0
      coinbase := g.coinbase
      stateRoot := env.stateRoot s
      txRoot := env.txRoot []
      receiptRoot := env.receiptRoot []
      bloom := 0
      number := 0
      gasLimit := g.gasLimit
      gasUsed := 0
      time := g.timestamp
      extra := g.extraData
      baseFee := g.baseFee
      round := 0
      randaoReveal := []
      justification := []
      proposerSeal := [] }
  transactions := []

/-- The chain opened on a store that holds only the first block and its state. -/
def openChain (block : Block) (s : StateDB) : BlockChain where
  blocks := fun h => if h = env.hash block.header then some block else none
  canonical := fun n => if n = 0 then some (env.hash block.header) else none
  states := fun root => if root = env.stateRoot s then some s else none
  genesis := block
  current := block
  finalized := none

def commit : Except StakingError BlockChain :=
  match g.toState with
  | .error e => .error e
  | .ok s => .ok (openChain env (g.toBlock env s) s)

variable {env g}

theorem openChain_blocks {block b : Block} {s : StateDB} {h : Hash} (hb : (openChain env block s).blocks h = some b) :
    h = env.hash block.header ∧ b = block := by
  obtain ⟨rfl, hsome⟩ := Option.ite_none_right_eq_some.mp hb
  exact ⟨rfl, (Option.some.inj hsome).symm⟩

theorem commit_eq_ok {c : BlockChain} (h : g.commit env = .ok c) : ∃ s, c = openChain env (g.toBlock env s) s := by
  simp only [commit] at h
  split at h
  · cases h
  · cases h
    exact ⟨_, rfl⟩

theorem wellFormed_openChain {block : Block} {s : StateDB} (hnumber : block.number = 0) :
    (openChain env block s).WellFormed env := by
  constructor
  case hash_eq =>
    intro h b hb
    obtain ⟨rfl, rfl⟩ := openChain_blocks hb
    rfl
  case root =>
    intro h b hb _
    exact (openChain_blocks hb).2
  case linked =>
    intro h b hb hpos
    rw [(openChain_blocks hb).2, hnumber] at hpos
    exact absurd hpos (lt_irrefl 0)
  case current_stored => exact if_pos rfl
  case finalized_stored =>
    intro f hf
    cases hf
  case canonical_iff =>
    intro n h
    constructor
    · intro hcanonical
      obtain ⟨rfl, hsome⟩ := Option.ite_none_right_eq_some.mp hcanonical
      cases hsome
      exact ⟨block, if_pos rfl, hnumber, Ancestor.refl block⟩
    · rintro ⟨b, hb, rfl, -⟩
      obtain ⟨rfl, rfl⟩ := openChain_blocks hb
      exact if_pos hnumber

theorem blocks_of_commit {c : BlockChain} (h : g.commit env = .ok c) {hash : Hash} {b : Block}
    (hb : c.blocks hash = some b) : b = c.genesis ∧ b.number = 0 := by
  obtain ⟨s, rfl⟩ := commit_eq_ok h
  rw [(openChain_blocks hb).2]
  exact ⟨rfl, rfl⟩

theorem wellFormed_of_commit {c : BlockChain} (h : g.commit env = .ok c) : c.WellFormed env ∧ c.finalized = none := by
  obtain ⟨s, rfl⟩ := commit_eq_ok h
  exact ⟨wellFormed_openChain rfl, rfl⟩

/-- A genesis to evaluate the model with: the key of a validator repeats the last byte of its
address. -/
def plain (validators : List Address) : Genesis where
  timestamp := 0
  gasLimit := 30000000
  baseFee := 0
  extraData := []
  coinbase := 0
  alloc := []
  validators := validators
  withdrawalAddresses _ := none
  blsKeys addr := List.replicate 48 (UInt8.ofNat addr.toNat)

def plainState (validators : List Address) : StateDB := (plain validators).toState.toOption.getD StateDB.empty

def plainBlock (env : Env) (validators : List Address) : Block :=
  (plain validators).toBlock env (plainState validators)

def plainChain (env : Env) (validators : List Address) : BlockChain :=
  openChain env (plainBlock env validators) (plainState validators)

end Genesis

/-- The empty block a proposer builds on a parent in the first round. -/
def emptyChild (parent : Block) (coinbase : Address) (tag : UInt8) (justification : Bytes) : Block where
  header :=
    { parent.header with
      parentHash := plainHash parent.header
      coinbase := coinbase
      number := parent.number + 1
      time := parent.header.time + 1
      extra := [tag]
      baseFee := calcBaseFee parent.header
      randaoReveal := []
      justification := justification }
  transactions := []

/-- The empty blocks above a block, with the proposers of their heights. The epoch transition of the
block at height 32 moves the state root. -/
def emptyBranch (tag : UInt8) (proposer : Nat → Address) (moved : Hash) : Nat → Block → List Block
  | 0, _ => []
  | n + 1, parent =>
    let b := emptyChild parent (proposer (parent.number + 1)) tag []
    let b := if b.number = 32 then { b with header.stateRoot := b.header.stateRoot + moved } else b
    b :: emptyBranch tag proposer moved n b

end PadiChain.Chain

import PadiChain.ChainStore

/-! The rules a block is checked against before it is executed: the engine's header rules, the gas
limit and base fee of the fee market, the certificate a header carries, and the transaction root. -/

namespace PadiChain.Chain

open Core Staking Processor

inductive BlockError where
  | known
  | unknownAncestor
  | invalidNumber
  | parentMismatch
  | extraDataTooLong
  | roundTooHigh
  | timestampTooEarly
  | futureBlock
  | invalidSeal
  | unauthorizedProposer
  | noValidators
  | wrongProposerTurn
  | coinbaseMismatch
  | blockTooLarge
  | gasLimitTooLow
  | gasLimitDelta
  | baseFee
  | malformedJustification
  | justifiesNonAncestor
  | validatorSet
  | invalidJustification (e : AttestationError)
  | txRootMismatch
  | conflictsWithFinalized
  | finalityRegression
  | parentState
  | process (e : ProcessError)
  | receiptRootMismatch
  | stateRootMismatch
  | quorumNotMet
  | certificateHeight
  | certificateBlock
  | snapshotOverHistory
  | snapshotState
  deriving DecidableEq, Repr

def maxExtraDataSize : Nat := 32

def allowedFutureDrift : Nat := 15

def minGasLimit : Nat := 5000

def gasLimitBoundDivisor : Nat := 1024

def elasticityMultiplier : Nat := 2

def baseFeeChangeDenominator : Nat := 8

def minBaseFee : Nat := 1000000000

def sortAddresses (set : List Address) : List Address :=
  set.insertionSort fun a b => a.toNat ≤ b.toNat

def calcBaseFee (parent : Header) : Nat :=
  if parent.baseFee = 0 then minBaseFee
  else
    let target := parent.gasLimit / elasticityMultiplier
    if target = 0 then parent.baseFee
    else if parent.gasUsed = target then parent.baseFee
    else if target < parent.gasUsed then
      parent.baseFee +
        max 1 (parent.baseFee * (parent.gasUsed - target) / target / baseFeeChangeDenominator)
    else
      max minBaseFee (parent.baseFee -
        parent.baseFee * (target - parent.gasUsed) / target / baseFeeChangeDenominator)

def verifyGasLimit (parentLimit limit : Nat) : Except BlockError Unit :=
  if limit < minGasLimit then .error .gasLimitTooLow
  else
    let diff := if parentLimit < limit then limit - parentLimit else parentLimit - limit
    if parentLimit / gasLimitBoundDivisor ≤ diff then .error .gasLimitDelta else .ok ()

/-- `earliestTimeFor`: when a round opens, in 64 bits. -/
def earliestTimeFor (env : Env) (parentTime round : Nat) : Nat :=
  (parentTime + env.period + round * env.roundTimeout) % 2 ^ 64

namespace BlockChain

variable (env : Env) (c : BlockChain)

/-- `setFor`: the set governing a height, sorted; a set that cannot be read is not an empty set. -/
def setFor (blockNumber : Nat) : List Address :=
  match c.validatorsAt env blockNumber with
  | none => env.validators
  | some set => if set.isEmpty then env.validators else sortAddresses set

/-- `ProposerAtRound`: the stake-weighted draw, or the rotation when the chain cannot answer. -/
def proposerAtRound (number round : Nat) : Option Address :=
  match c.proposerAtHeight env number round with
  | some proposer => some proposer
  | none =>
    let set := c.setFor env number
    set[(number + round) % 2 ^ 64 % set.length]?

/-- `VerifyHeader`, at the local time `now`. -/
def verifyHeader (now : Nat) (header parent : Header) : Except BlockError Unit :=
  if header.number ≠ parent.number + 1 then .error .invalidNumber
  else if header.parentHash ≠ env.hash parent then .error .parentMismatch
  else if maxExtraDataSize < header.extra.length then .error .extraDataTooLong
  else if (c.setFor env header.number).length < header.round then .error .roundTooHigh
  else if header.time < earliestTimeFor env parent.time header.round then .error .timestampTooEarly
  else if now + allowedFutureDrift < header.time then .error .futureBlock
  else
    match env.author header with
    | none => .error .invalidSeal
    | some proposer =>
      if proposer ∉ c.setFor env header.number then .error .unauthorizedProposer
      else
        match c.proposerAtRound env header.number header.round with
        | none => .error .noValidators
        | some expected =>
          if proposer ≠ expected then .error .wrongProposerTurn
          else if header.coinbase ≠ proposer then .error .coinbaseMismatch
          else .ok ()

/-- The check of the certificate a header carries, against the keys of the height it names. -/
def verifyJustification (header : Header) : Except BlockError Unit :=
  match decodeJustification env header.justification with
  | none => .error .malformedJustification
  | some none => .ok ()
  | some (some qc) =>
    if header.number ≤ qc.number then .error .justifiesNonAncestor
    else
      match c.blsKeysAt env qc.number with
      | none => .error .validatorSet
      | some keys =>
        match qc.verify env.cfg.bls env.cfg.chainID keys with
        | .error e => .error (.invalidJustification e)
        | .ok _ => .ok ()

def verifyBlock (now : Nat) (block parent : Block) : Except BlockError Unit :=
  match c.verifyHeader env now block.header parent.header with
  | .error e => .error e
  | .ok () =>
    if block.header.gasLimit < block.header.gasUsed then .error .blockTooLarge
    else
      match verifyGasLimit parent.header.gasLimit block.header.gasLimit with
      | .error e => .error e
      | .ok () =>
        if block.header.baseFee ≠ calcBaseFee parent.header then .error .baseFee
        else
          match c.verifyJustification env block.header with
          | .error e => .error e
          | .ok () =>
            if env.txRoot block.transactions ≠ block.header.txRoot then .error .txRootMismatch
            else .ok ()

variable {env c}

theorem check_eq_ok {ε α : Type} {p : Prop} [Decidable p] {e : ε} {rest : Except ε α} {a : α} :
    (if p then .error e else rest) = .ok a ↔ ¬ p ∧ rest = .ok a := by
  split_ifs with hp
  · constructor
    · intro h
      cases h
    · intro h
      exact absurd hp h.1
  · exact ⟨fun h => ⟨hp, h⟩, fun h => h.2⟩

theorem verifyHeader_ok {now : Nat} {header parent : Header} (h : c.verifyHeader env now header parent = .ok ()) :
    header.number = parent.number + 1 ∧ header.parentHash = env.hash parent ∧
      header.extra.length ≤ maxExtraDataSize ∧ header.round ≤ (c.setFor env header.number).length ∧
      earliestTimeFor env parent.time header.round ≤ header.time ∧
      header.time ≤ now + allowedFutureDrift ∧ env.author header = some header.coinbase ∧
      header.coinbase ∈ c.setFor env header.number ∧
      c.proposerAtRound env header.number header.round = some header.coinbase := by
  simp only [verifyHeader, check_eq_ok, not_not, not_lt] at h
  obtain ⟨hnumber, hparent, hextra, hround, hearly, hfuture, h⟩ := h
  refine ⟨hnumber, hparent, hextra, hround, hearly, hfuture, ?_⟩
  split at h
  · cases h
  rename_i proposer hauthor
  rw [check_eq_ok] at h
  obtain ⟨hmem, h⟩ := h
  split at h
  · cases h
  rename_i hexpected
  simp only [check_eq_ok, not_not] at h
  obtain ⟨rfl, rfl, -⟩ := h
  exact ⟨hauthor, not_not.mp hmem, hexpected⟩

theorem verifyBlock_ok {now : Nat} {block parent : Block} (h : c.verifyBlock env now block parent = .ok ()) :
    c.verifyHeader env now block.header parent.header = .ok () ∧ c.verifyJustification env block.header = .ok () := by
  unfold verifyBlock at h
  split at h
  · cases h
  rename_i hheader
  iterate 4
    split at h
    · cases h
  rename_i hjustification
  exact ⟨hheader, hjustification⟩

end BlockChain

end PadiChain.Chain

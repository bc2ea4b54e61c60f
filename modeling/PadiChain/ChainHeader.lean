import PadiChain.ChainFinality

/-! Header verification on two nodes. The validator set, the proposer and the attestation keys of a
height are read from the state of the canonical block that closes the epoch before it, so two nodes
verify a block alike when they agree on that block for the height of the header and for the height its
certificate names. The key of the reveal is read from the state being executed and not from the
chain. -/

namespace PadiChain.Chain

open Core Staking Processor Ancestry

namespace BlockChain

/-- The two nodes started from the same first block and can read its state alike. -/
structure SameGenesis (c d : BlockChain) : Prop where
  genesis : c.genesis = d.genesis
  state : c.states c.genesis.header.stateRoot = d.states d.genesis.header.stateRoot

/-- The two nodes have the same canonical block at the boundary that settles a height, and read the
same state for it. Nothing is asked in the first epoch. -/
def SameBoundary (c d : BlockChain) (number : Nat) : Prop :=
  epochOf number ≠ 0 →
    c.headerByNumber (boundaryOf number) = d.headerByNumber (boundaryOf number) ∧
      ∀ header, c.headerByNumber (boundaryOf number) = some header →
        c.states header.stateRoot = d.states header.stateRoot

variable {env : Env} {c d : BlockChain}

variable {number : Nat}

theorem SameBoundary.settledState_eq (h : c.SameBoundary d number) : c.settledState number = d.settledState number := by
  simp only [settledState]
  by_cases hepoch : epochOf number = 0
  · rw [if_pos hepoch, if_pos hepoch]
  · obtain ⟨hheader, hstates⟩ := h hepoch
    rw [if_neg hepoch, if_neg hepoch, ← hheader]
    cases hboundary : c.headerByNumber (boundaryOf number) with
    | none => rfl
    | some header => simp [hstates header hboundary]

theorem sameBoundary_of_ancestor (hc : c.WellFormed env) (hd : d.WellFormed env) {a : Block}
    (hheight : a.number = boundaryOf number) (hca : c.IsAncestor a c.current) (hda : d.IsAncestor a d.current)
    (hstates : c.states a.header.stateRoot = d.states a.header.stateRoot) : c.SameBoundary d number := by
  intro _
  rw [← hheight, hc.headerByNumber_of_ancestor hca, hd.headerByNumber_of_ancestor hda]
  refine ⟨rfl, fun header hheader => ?_⟩
  cases hheader
  exact hstates

/-- A node that stores one more block has the same first block, and the same boundary if the block did
not change the canonical header there. -/
theorem sameGenesis_writeBlock (c : BlockChain) (block : Block) : c.SameGenesis (c.writeBlock env block) :=
  ⟨rfl, rfl⟩

theorem sameBoundary_writeBlock (c : BlockChain) {block : Block}
    (h : c.headerByNumber (boundaryOf number) = (c.writeBlock env block).headerByNumber (boundaryOf number)) :
    c.SameBoundary (c.writeBlock env block) number :=
  fun _ => ⟨h, fun _ _ => rfl⟩

section Agreement

variable (hnet : c.SameGenesis d)

include hnet

theorem SameGenesis.genesisValidators_eq : c.genesisValidators env = d.genesisValidators env := by
  simp [genesisValidators, hnet.state]

variable {number now : Nat} {header : Header}

section

variable (h : c.SameBoundary d number)

include h

theorem SameGenesis.validatorsAt_eq : c.validatorsAt env number = d.validatorsAt env number := by
  simp [validatorsAt, h.settledState_eq, hnet.genesisValidators_eq]

theorem SameGenesis.setFor_eq : c.setFor env number = d.setFor env number := by
  simp [setFor, hnet.validatorsAt_eq h]

theorem SameGenesis.proposerAtRound_eq (round : Nat) :
    c.proposerAtRound env number round = d.proposerAtRound env number round := by
  simp [proposerAtRound, proposerAtHeight, h.settledState_eq, hnet.setFor_eq h]

theorem SameGenesis.blsKeysAt_eq : c.blsKeysAt env number = d.blsKeysAt env number := by
  simp [blsKeysAt, rawBLSKeysAt, genesisBLSKeys, h.settledState_eq, hnet.state]

end

theorem SameGenesis.verifyHeader_eq {parent : Header} (h : c.SameBoundary d header.number) :
    c.verifyHeader env now header parent = d.verifyHeader env now header parent := by
  simp [verifyHeader, hnet.setFor_eq h, hnet.proposerAtRound_eq h]

theorem SameGenesis.verifyJustification_eq
    (h : ∀ qc, decodeJustification env header.justification = some (some qc) → qc.number < header.number →
      c.SameBoundary d qc.number) : c.verifyJustification env header = d.verifyJustification env header := by
  simp only [verifyJustification]
  split
  · rfl
  · rfl
  · rename_i qc hdecode
    split_ifs with hbelow
    · rfl
    · rw [hnet.blsKeysAt_eq (h qc hdecode (Nat.lt_of_not_le hbelow))]

theorem SameGenesis.verifyBlock_eq {block parent : Block} (h : c.SameBoundary d block.number)
    (hcert : ∀ qc, decodeJustification env block.header.justification = some (some qc) →
      qc.number < block.number → c.SameBoundary d qc.number) :
    c.verifyBlock env now block parent = d.verifyBlock env now block parent := by
  simp [verifyBlock, hnet.verifyHeader_eq h, hnet.verifyJustification_eq hcert]

end Agreement

end BlockChain

/-- Two nodes that agree on the canonical boundary blocks of a header's height and of the height its
certificate names verify the block against the same set, proposers and keys, with the same verdict. -/
theorem verifyBlock_agrees_of_sameBoundary (env : Env) {c d : BlockChain} (hnet : c.SameGenesis d)
    (now : Nat) (block parent : Block) (hblock : c.SameBoundary d block.number)
    (hcert : ∀ qc, decodeJustification env block.header.justification = some (some qc) →
      c.SameBoundary d qc.number) :
    c.setFor env block.number = d.setFor env block.number ∧
      (∀ round, c.proposerAtRound env block.number round = d.proposerAtRound env block.number round) ∧
      (∀ qc, decodeJustification env block.header.justification = some (some qc) →
        c.blsKeysAt env qc.number = d.blsKeysAt env qc.number) ∧
      c.verifyBlock env now block parent = d.verifyBlock env now block parent :=
  ⟨hnet.setFor_eq hblock, hnet.proposerAtRound_eq hblock, fun qc hqc => hnet.blsKeysAt_eq (hcert qc hqc),
    hnet.verifyBlock_eq hblock fun qc hqc _ => hcert qc hqc⟩

/-! ### A fork that diverges before the boundary -/

namespace HeaderExample

def env : Env :=
  Env.plain fun s => s.registry.randaoMix + BitVec.ofNat 256 s.registry.epochState.lastProcessedEpoch

def chain : BlockChain := Genesis.plainChain env [1, 2]

def turn (number : Nat) : Address := if number % 2 = 0 then 1 else 2

def quiet : List Block := emptyBranch 2 turn 0 31 chain.genesis

def parent : Block := quiet.getLastD chain.genesis

def block : Block := emptyChild parent 1 2 []

def revealed : Block :=
  { emptyChild chain.genesis 2 1 [] with
    header.stateRoot := 2 ^ 65
    header.randaoReveal := List.replicate 48 2 ++ (SigningMessage.randao 7 0).spell }

/-- A node that knows the first branch only. -/
def left : BlockChain := Transition.run (Op.apply env) chain (Op.imports 100 quiet)

/-- A node that saw the other branch before the first one. -/
def right : BlockChain :=
  Transition.run (Op.apply env) chain (Op.imports 100 (revealed :: emptyBranch 1 turn 0 30 revealed ++ quiet))

end HeaderExample

open HeaderExample in
/-- A node that stores a block of the other branch in addition verifies the block alike. -/
theorem verifyBlock_agrees_with_side_block :
    left.verifyBlock env 100 block parent = .ok () ∧
      (left.writeBlock env revealed).verifyBlock env 100 block parent = .ok () := by
  have hleft : left.verifyBlock env 100 block parent = .ok () := by
    decide +kernel
  have hheader : left.headerByNumber (BlockChain.boundaryOf block.number) =
      (left.writeBlock env revealed).headerByNumber (BlockChain.boundaryOf block.number) := by
    decide +kernel
  have hcertificate : decodeJustification env block.header.justification = some none := by
    decide
  have hagree := verifyBlock_agrees_of_sameBoundary env (left.sameGenesis_writeBlock revealed) 100 block parent
    (left.sameBoundary_writeBlock hheader) fun qc hqc => nomatch hcertificate.symm.trans hqc
  exact ⟨hleft, hagree.2.2.2.symm.trans hleft⟩

open HeaderExample in
/-- Both nodes hold every ancestor of the block. On one of them the canonical block that closes the
first epoch is on the other branch, where a reveal moved the draw, and the block is refused. -/
theorem verifyBlock_disagrees_across_boundary :
    (∀ b ∈ chain.genesis :: quiet, left.blocks (env.hash b.header) = some b ∧
        right.blocks (env.hash b.header) = some b) ∧
      left.proposerAtHeight env 32 0 = some 1 ∧ right.proposerAtHeight env 32 0 = some 2 ∧
      left.verifyBlock env 100 block parent = .ok () ∧
      right.verifyBlock env 100 block parent = .error .wrongProposerTurn := by
  decide +kernel

end PadiChain.Chain

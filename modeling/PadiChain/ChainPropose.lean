import PadiChain.ChainSeal
import PadiChain.ChainHeader
import PadiChain.StakingProposer

/-! Building a header on top of a parent: the round that is open at the local time, the validator whose
turn it is, and its seal. A header prepared and sealed this way is accepted by every node that reads the
same validator set, and the turn belongs to nobody else. -/

namespace PadiChain

open Core Staking Processor

theorem Staking.Registry.mem_of_proposerAt {r : Registry} {draw : Hash → Nat → Nat → Hash} {epoch slot round : Nat}
    {seed : Hash} {a : Address} (h : r.proposerAt draw epoch seed slot round = some a) :
    a ∈ r.activeAddressesAt epoch := by
  by_cases hne : r.activeAt epoch = []
  · unfold proposerAt at h
    rw [hne] at h
    cases h
  rcases Nat.eq_zero_or_pos (r.totalActiveStake epoch) with hzero | htotal
  · rw [proposerAt_no_stake hne hzero] at h
    obtain ⟨v, hv, rfl⟩ := Option.map_eq_some_iff.mp h
    exact List.mem_map_of_mem (List.mem_of_getElem? hv)
  · obtain ⟨v, hv, hproposer⟩ := proposerAt_eq_drawn htotal draw seed slot round
    rw [hproposer] at h
    cases h
    exact List.mem_map_of_mem (mem_of_drawn hv)

namespace Chain

/-- A validator's key: `Sign` over the sealing hash of a header, from which `Author` recovers its address. -/
structure Signer (env : Env) where
  address : Address
  sign : Header → Option Bytes
  recovers : ∀ header bytes, sign header = some bytes → env.author (header.withSeal bytes) = some address

/-- `RoundFor`: the highest round whose start has passed. -/
def roundFor (env : Env) (parentTime now : Nat) : Nat :=
  let earliest := earliestTimeFor env parentTime 0
  if now ≤ earliest ∨ env.roundTimeout = 0 then 0 else (now - earliest) / env.roundTimeout

namespace BlockChain

variable (env : Env) (c : BlockChain)

/-- The round of `Prepare` and `IsMyTurn`, no later than the last that is admitted. -/
def openRound (number parentTime now : Nat) : Nat :=
  let round := roundFor env parentTime now
  let last := (c.setFor env number).length
  if last < round then last else round

/-- `Prepare`, at the local time `now`. -/
def prepare (now : Nat) (header : Header) : Except BlockError Header :=
  match c.blocks header.parentHash with
  | none => .error .unknownAncestor
  | some parent =>
    let round := c.openRound env header.number parent.header.time now
    match c.proposerAtRound env header.number round with
    | none => .error .noValidators
    | some proposer =>
      let earliest := earliestTimeFor env parent.header.time round
      .ok { header with
        round := round
        coinbase := proposer
        time := if now < earliest then earliest else now }

/-- `Seal`. -/
def sealHeader (signer : Signer env) (header : Header) : Except BlockError Header :=
  match c.proposerAtRound env header.number header.round with
  | none => .error .noValidators
  | some proposer =>
    if signer.address ≠ proposer then .error .wrongProposerTurn
    else
      match signer.sign header with
      | none => .error .invalidSeal
      | some bytes => .ok (header.withSeal bytes)

/-- `IsMyTurn`, at the local time `now`. -/
def isMyTurn (now : Nat) (addr : Address) (nextNumber parentTime : Nat) : Bool :=
  match c.proposerAtRound env nextNumber (c.openRound env nextNumber parentTime now) with
  | none => false
  | some proposer => proposer == addr

variable {env c}

theorem openRound_le {number parentTime now : Nat} :
    c.openRound env number parentTime now ≤ (c.setFor env number).length := by
  unfold openRound
  dsimp only
  split <;> omega

theorem mem_setFor_of_proposerAtHeight {number round : Nat} {a : Address}
    (h : c.proposerAtHeight env number round = some a) : a ∈ c.setFor env number := by
  unfold proposerAtHeight at h
  split at h
  · cases h
  · cases h
  · rename_i s hsettled
    have hmem := Registry.mem_of_proposerAt h
    have hne : (s.registry.activeAddressesAt (epochOf number)).isEmpty = false :=
      List.isEmpty_eq_false_iff.mpr (List.ne_nil_of_mem hmem)
    unfold setFor validatorsAt
    simp only [hsettled, hne, Bool.false_eq_true, if_false]
    exact (List.mem_insertionSort _).mpr hmem

theorem mem_setFor_of_proposerAtRound {number round : Nat} {a : Address}
    (h : c.proposerAtRound env number round = some a) : a ∈ c.setFor env number := by
  unfold proposerAtRound at h
  split at h
  · rename_i hheight
    cases h
    exact mem_setFor_of_proposerAtHeight hheight
  · exact List.mem_of_getElem? h

theorem prepare_ok {now : Nat} {header prepared : Header} {parent : Block}
    (hparent : c.blocks header.parentHash = some parent) (h : c.prepare env now header = .ok prepared) :
    ∃ round proposer time, prepared = { header with round := round, coinbase := proposer, time := time } ∧
      c.openRound env header.number parent.header.time now = round ∧
      c.proposerAtRound env header.number round = some proposer ∧
      earliestTimeFor env parent.header.time round ≤ time := by
  unfold prepare at h
  rw [hparent] at h
  dsimp only at h
  split at h
  · cases h
  · rename_i proposer hproposer
    cases h
    refine ⟨_, proposer, _, rfl, rfl, hproposer, ?_⟩
    split <;> omega

end BlockChain

open BlockChain

/-- The validator that `Prepare` names can seal the prepared header, every node with the same boundary
block accepts it as soon as its clock is not too far behind, and it is the turn of this validator only. -/
theorem prepared_accepted (env : Env) {c d : BlockChain} (hnet : c.SameGenesis d) (signer : Signer env)
    (now : Nat) {header prepared : Header} {parent : Block} {bytes : Bytes}
    (hparent : c.blocks header.parentHash = some parent) (hhash : header.parentHash = env.hash parent.header)
    (hnumber : header.number = parent.header.number + 1) (hextra : header.extra.length ≤ maxExtraDataSize)
    (hboundary : c.SameBoundary d header.number) (hprepare : c.prepare env now header = .ok prepared)
    (hnamed : signer.address = prepared.coinbase) (hsign : signer.sign prepared = some bytes) :
    c.sealHeader env signer prepared = .ok (prepared.withSeal bytes) ∧
      (∀ now', prepared.time ≤ now' + allowedFutureDrift →
        d.verifyHeader env now' (prepared.withSeal bytes) parent.header = .ok ()) ∧
      ∀ addr, c.isMyTurn env now addr header.number parent.header.time = true ↔ addr = prepared.coinbase := by
  obtain ⟨round, proposer, time, rfl, hround, hproposer, hearly⟩ := prepare_ok hparent hprepare
  have hlast : round ≤ (c.setFor env header.number).length := by
    rw [← hround]
    exact openRound_le
  refine ⟨?_, fun now' hdrift => ?_, fun addr => ?_⟩
  · unfold sealHeader
    simp [hproposer, hnamed, hsign]
  · refine (hnet.verifyHeader_eq (by exact hboundary)).symm.trans ?_
    simp only [verifyHeader, check_eq_ok, not_not, not_lt, signer.recovers _ bytes hsign]
    simp only [Header.withSeal, hproposer, check_eq_ok, not_not]
    exact ⟨hnumber, hhash, hextra, hlast, hearly, hdrift, hnamed ▸ mem_setFor_of_proposerAtRound hproposer, hnamed,
      if_neg (not_not.mpr hnamed.symm)⟩
  · unfold isMyTurn
    rw [hround, hproposer]
    exact beq_iff_eq.trans eq_comm

namespace ProposeExample

/-- An environment in which the seal of the validator 5 is the byte 1. -/
def env : Env :=
  { Env.plain fun _ => 0 with author := fun header => if header.proposerSeal = [1] then some 5 else none }

def signer : Signer env := ⟨5, fun _ => some [1], fun _ _ h => by cases h; rfl⟩

def chain : BlockChain := Genesis.plainChain env [5]

def header : Header := (emptyChild chain.genesis 0 1 []).header

end ProposeExample

open ProposeExample in
/-- Ten seconds after the first block the turn has gone round, and is still that of the only validator. -/
theorem prepared_accepted_after_stall :
    chain.isMyTurn ProposeExample.env 10 5 1 chain.genesis.header.time = true :=
  ((prepared_accepted ProposeExample.env (⟨rfl, rfl⟩ : chain.SameGenesis chain) signer 10
    (show chain.blocks header.parentHash = some chain.genesis from rfl) rfl rfl (by decide) (fun h => absurd rfl h)
    rfl rfl rfl).2.2 5).mpr rfl

end Chain

end PadiChain

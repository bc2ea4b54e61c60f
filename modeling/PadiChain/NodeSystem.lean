import PadiChain.ChainFinality
import PadiChain.ConsensusPool

/-! Nodes that exchange blocks and votes. A node imports the blocks it is handed, votes for each block
it imported, and finalizes a block once its pool holds a quorum of votes for it. The network delivers
blocks, votes and evidence in any order, any number of times or not at all, and a key can sign
outside the node code at any time. Calls on one node are taken one after another. -/

namespace PadiChain

open Core Staking Processor Chain Consensus

/-- The node's surroundings with unforgeable signatures. -/
structure Setup where
  env : Env
  signing : Signing

/-- The environment as it answers after a log of signatures. -/
def Setup.envAt (w : Setup) (log : SignedLog) : Env :=
  { w.env with cfg := { w.env.cfg with bls := w.signing.bls log } }

def Setup.vote (w : Setup) (block : Block) : SigningMessage :=
  .attestation w.env.cfg.chainID block.number (w.env.hash block.header)

structure Node where
  chain : BlockChain
  pool : AttestationPool
  /-- The validator a node runs for and the attestation key it derived, if the registry lists it. -/
  validator : Option (Address × Option PublicKey)

namespace Node

def syncValidatorSet (env : Env) (n : Node) : Node :=
  let next := n.chain.current.number + 1
  match n.chain.validatorsAt env next with
  | none => n
  | some set =>
    if set.isEmpty then n
    else
      match n.chain.blsKeysAt env next with
      | none => n
      | some keys =>
        let encoded := keys.map fun key =>
          match key with
          | none => []
          | some key => key.bytes
        { n with pool := n.pool.setValidators env.cfg.bls set encoded }

/-- `tryFinalize`: finalize a block once a quorum has attested to it. -/
def tryFinalize (env : Env) (n : Node) (number : Nat) (blockHash : Hash) : Node :=
  let certificate := n.pool.certificate env.cfg.bls number blockHash
  let n := { n with pool := certificate.2 }
  match certificate.1 with
  | none => n
  | some qc =>
    if number ≤ n.chain.finalizedNumber then n
    else
      match n.chain.finalize env qc with
      | (.error _, c) => { n with chain := c }
      | (.ok _, c) => { n with chain := c, pool := n.pool.markFinalized number }

/-- The end of `attest`: sign a vote, record it and act on the quorum it may complete. The vote is
signed before the pool is asked whether it conflicts with an earlier one. -/
def castVote (w : Setup) (log : SignedLog) (n : Node) (block : Block) (index : Nat) (key : PublicKey) :
    Node × SignedLog :=
  let log := log ++ [(key, w.vote block)]
  let env := w.envAt log
  let vote : Attestation :=
    ⟨block.number, w.env.hash block.header, index, w.signing.sign key (w.vote block)⟩
  match n.pool.add env.cfg.bls vote with
  | (.error _, pool) => ({ n with pool := pool }, log)
  | (.ok _, pool) => (tryFinalize env { n with pool := pool } block.number (w.env.hash block.header), log)

/-- `attest`: vote for an imported block. The result has the log of signatures with it. -/
def attest (w : Setup) (log : SignedLog) (n : Node) (block : Block) : Node × SignedLog :=
  match n.validator with
  | some (addr, some key) =>
    match n.pool.indexOf addr with
    | none => (n, log)
    | some index => n.castVote w log block index key
  | _ => (n, log)

def handleBlock (w : Setup) (log : SignedLog) (n : Node) (now : Nat) (block : Block) : Node × SignedLog :=
  match n.chain.insertBlock (w.envAt log) now block with
  | (.error _, c) => ({ n with chain := c }, log)
  | (.ok _, c) => attest w log (syncValidatorSet (w.envAt log) { n with chain := c }) block

def handleAttestation (env : Env) (n : Node) (vote : Attestation) : Node :=
  match n.pool.add env.cfg.bls vote with
  | (.error _, pool) => { n with pool := pool }
  | (.ok false, pool) => { n with pool := pool }
  | (.ok true, pool) => tryFinalize env { n with pool := pool } vote.number vote.blockHash

def handleAttestations (env : Env) (n : Node) (votes : List Attestation) : Node :=
  votes.foldl (handleAttestation env) n

def handleEvidence (env : Env) (n : Node) (proofs : List Equivocation) : Node :=
  proofs.foldl (fun n proof => { n with pool := n.pool.addEvidence env.cfg.bls proof }) n

end Node

/-- The nodes of a network and the signatures made so far. -/
structure System (ι : Type) where
  nodes : ι → Node
  signed : SignedLog

/-- What can happen: a delivery to a node, or a signature made outside the node code. -/
inductive Action (ι : Type) where
  | handleBlock (node : ι) (now : Nat) (block : Block)
  | handleAttestations (node : ι) (votes : List Attestation)
  | handleEvidence (node : ι) (proofs : List Equivocation)
  | sign (key : PublicKey) (message : SigningMessage)

variable {ι : Type} [DecidableEq ι]

def System.step (w : Setup) (s : System ι) : Action ι → System ι
  | .handleBlock i now block =>
    let handled := (s.nodes i).handleBlock w s.signed now block
    ⟨Function.update s.nodes i handled.1, handled.2⟩
  | .handleAttestations i votes =>
    { s with nodes := Function.update s.nodes i ((s.nodes i).handleAttestations (w.envAt s.signed) votes) }
  | .handleEvidence i proofs =>
    { s with nodes := Function.update s.nodes i ((s.nodes i).handleEvidence (w.envAt s.signed) proofs) }
  | .sign key message => { s with signed := s.signed ++ [(key, message)] }

namespace Node

variable (env : Env) (w : Setup)

/-- Aligning the pool leaves the chain alone; the pool keeps its set or takes the one of the chain. -/
theorem syncValidatorSet_spec (n : Node) :
    (n.syncValidatorSet env).chain = n.chain ∧ (n.syncValidatorSet env).validator = n.validator ∧
      ((n.syncValidatorSet env).pool.addresses = n.pool.addresses ∨
        n.chain.validatorsAt env (n.chain.current.number + 1) = some (n.syncValidatorSet env).pool.addresses) := by
  simp only [syncValidatorSet]
  split
  · exact ⟨rfl, rfl, Or.inl rfl⟩
  rename_i set hset
  split
  · exact ⟨rfl, rfl, Or.inl rfl⟩
  split
  · exact ⟨rfl, rfl, Or.inl rfl⟩
  · exact ⟨rfl, rfl, Or.inr hset⟩

/-- What handling a vote or evidence can change of a node: the pool, and by `Finalize` the chain. -/
structure Finalizes (env : Env) (n n' : Node) : Prop where
  chain : n'.chain = n.chain ∨ ∃ qc, n'.chain = (n.chain.finalize env qc).2
  addresses : n'.pool.addresses = n.pool.addresses
  validator : n'.validator = n.validator

theorem tryFinalize_finalizes (n : Node) (number : Nat) (blockHash : Hash) :
    n.Finalizes env (n.tryFinalize env number blockHash) := by
  have hcertificate := (n.pool.certificate_sameSet env.cfg.bls number blockHash).addresses
  simp only [tryFinalize]
  split
  · exact ⟨Or.inl rfl, hcertificate, rfl⟩
  rename_i qc _
  split
  · exact ⟨Or.inl rfl, hcertificate, rfl⟩
  split
  · rename_i hfinalize
    refine ⟨Or.inr ⟨qc, ?_⟩, hcertificate, rfl⟩
    rw [hfinalize]
  · rename_i hfinalize
    refine ⟨Or.inr ⟨qc, ?_⟩, ?_, rfl⟩
    · rw [hfinalize]
    · exact AttestationPool.markFinalized_sameSet.addresses.trans hcertificate

theorem handleAttestation_finalizes (n : Node) (vote : Attestation) :
    n.Finalizes env (n.handleAttestation env vote) := by
  have hadd := (n.pool.add_sameSet env.cfg.bls vote).addresses
  simp only [handleAttestation]
  split
  · rename_i heq
    rw [heq] at hadd
    exact ⟨Or.inl rfl, hadd, rfl⟩
  · rename_i heq
    rw [heq] at hadd
    exact ⟨Or.inl rfl, hadd, rfl⟩
  · rename_i pool heq
    rw [heq] at hadd
    obtain ⟨hchain, haddresses, hvalidator⟩ :=
      tryFinalize_finalizes env { n with pool := pool } vote.number vote.blockHash
    exact ⟨hchain, haddresses.trans hadd, hvalidator⟩

theorem handleEvidence_finalizes (n : Node) (proofs : List Equivocation) :
    (n.handleEvidence env proofs).chain = n.chain ∧
      (n.handleEvidence env proofs).pool.addresses = n.pool.addresses ∧
      (n.handleEvidence env proofs).validator = n.validator := by
  induction proofs generalizing n with
  | nil => exact ⟨rfl, rfl, rfl⟩
  | cons proof rest ih =>
    obtain ⟨hchain, haddresses, hvalidator⟩ := ih { n with pool := n.pool.addEvidence env.cfg.bls proof }
    exact ⟨hchain, haddresses.trans (AttestationPool.addEvidence_sameSet _ _).addresses, hvalidator⟩

theorem castVote_spec (log : SignedLog) (n : Node) (block : Block) (index : Nat) (key : PublicKey) :
    n.Finalizes (w.envAt (log ++ [(key, w.vote block)])) (n.castVote w log block index key).1 ∧
      (n.castVote w log block index key).2 = log ++ [(key, w.vote block)] := by
  have hadd := (n.pool.add_sameSet (w.envAt (log ++ [(key, w.vote block)])).cfg.bls
    ⟨block.number, w.env.hash block.header, index, w.signing.sign key (w.vote block)⟩).addresses
  simp only [castVote]
  split
  · rename_i heq
    rw [heq] at hadd
    exact ⟨⟨Or.inl rfl, hadd, rfl⟩, rfl⟩
  · rename_i pool heq
    rw [heq] at hadd
    obtain ⟨hchain, haddresses, hvalidator⟩ := tryFinalize_finalizes
      (w.envAt (log ++ [(key, w.vote block)])) { n with pool := pool } block.number (w.env.hash block.header)
    exact ⟨⟨hchain, haddresses.trans hadd, hvalidator⟩, rfl⟩

theorem Finalizes.refl (n : Node) : n.Finalizes env n := ⟨Or.inl rfl, rfl, rfl⟩

/-- Voting: the node finalizes at most, and the log grows by its vote if it is in the pool's set. -/
theorem attest_spec (log : SignedLog) (n : Node) (block : Block) :
    n.Finalizes (w.envAt (n.attest w log block).2) (n.attest w log block).1 ∧
      ((n.attest w log block).2 = log ∨
        ∃ addr key, n.validator = some (addr, some key) ∧ addr ∈ n.pool.addresses ∧
          (n.attest w log block).2 = log ++ [(key, w.vote block)]) ∧
      (∀ addr key, n.validator = some (addr, some key) → addr ∈ n.pool.addresses →
        (key, w.vote block) ∈ (n.attest w log block).2) := by
  simp only [attest]
  split
  · rename_i addr key hvalidator
    split
    · rename_i hindex
      refine ⟨Finalizes.refl _ n, Or.inl rfl, fun addr' key' h hmem => ?_⟩
      rw [hvalidator] at h
      cases h
      obtain ⟨index, hsome⟩ := AttestationPool.indexOf_isSome hmem
      rw [hindex] at hsome
      cases hsome
    · rename_i index hindex
      obtain ⟨hfinalizes, hlog⟩ := castVote_spec w log n block index key
      rw [hlog]
      refine ⟨hfinalizes, Or.inr ⟨addr, key, hvalidator, AttestationPool.mem_of_indexOf hindex, rfl⟩,
        fun addr' key' h _ => ?_⟩
      rw [hvalidator] at h
      cases h
      exact List.mem_append_right _ (List.mem_singleton_self _)
  · rename_i hvalidator
    exact ⟨Finalizes.refl _ n, Or.inl rfl, fun addr key h => absurd h (hvalidator addr key)⟩

theorem Finalizes.states_eq {env : Env} {n n' : Node} (h : n.Finalizes env n') :
    n'.chain.states = n.chain.states ∧ n'.chain.genesis = n.chain.genesis := by
  rcases h.chain with hsame | ⟨qc, hfinalize⟩
  · rw [hsame]
    exact ⟨rfl, rfl⟩
  · obtain ⟨canonical, current, final, heq⟩ := BlockChain.finalize_eq env n.chain qc
    rw [hfinalize, heq]
    exact ⟨rfl, rfl⟩

theorem handleAttestations_states (n : Node) (votes : List Attestation) :
    (n.handleAttestations env votes).chain.states = n.chain.states ∧
      (n.handleAttestations env votes).chain.genesis = n.chain.genesis := by
  refine Transition.run_related (R := fun n n' : Node =>
    n'.chain.states = n.chain.states ∧ n'.chain.genesis = n.chain.genesis) (fun _ => ⟨rfl, rfl⟩) ?_ ?_ n votes
  · exact fun _ _ _ h h' => ⟨h'.1.trans h.1, h'.2.trans h.2⟩
  · exact fun n vote => (n.handleAttestation_finalizes env vote).states_eq

theorem handleBlock_states (log : SignedLog) (n : Node) (now : Nat) (block : Block) :
    (n.handleBlock w log now block).1.chain.states =
        (n.chain.insertBlock (w.envAt log) now block).2.states ∧
      (n.handleBlock w log now block).1.chain.genesis = (n.chain.insertBlock (w.envAt log) now block).2.genesis := by
  simp only [handleBlock]
  split
  · rename_i heq
    rw [heq]
    exact ⟨rfl, rfl⟩
  · rename_i c heq
    obtain ⟨hstates, hgenesis⟩ :=
      ((syncValidatorSet (w.envAt log) { n with chain := c }).attest_spec w log block).1.states_eq
    rw [heq, hstates, hgenesis, (syncValidatorSet_spec (w.envAt log) { n with chain := c }).1]
    exact ⟨rfl, rfl⟩

end Node

end PadiChain

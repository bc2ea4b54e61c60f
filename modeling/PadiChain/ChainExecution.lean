import PadiChain.ChainHeader

/-! Execution on two nodes. Apart from the block and the state of its parent, execution reads the
canonical headers whose hashes the transactions ask for and, in a block that starts an epoch, the
canonical headers of the epoch before, the set that governed it, and the height the node has
finalized. Two nodes that agree on what is read execute the block alike. -/

namespace PadiChain.Chain

open Core Staking Processor Ancestry

namespace BlockChain

/-- The two nodes agree on everything the execution of a block on a state reads from them. -/
structure SameReads (env : Env) (c d : BlockChain) (block : Block) (s : StateDB) : Prop where
  hashes : (runTransactions env block s).Agree
    (blockHash env (c.view env) (newBlockContext env block.header))
    (blockHash env (d.view env) (newBlockContext env block.header))
  boundary : isEpochBoundary block.number = true → c.SameBoundary d (epochStart (epochOf block.number - 1))
  headers : isEpochBoundary block.number = true → ∀ n, 0 < epochOf n → epochOf n + 1 = epochOf block.number →
    c.headerByNumber n = d.headerByNumber n
  finalized : isEpochBoundary block.number = true → epochOf c.finalizedNumber = epochOf d.finalizedNumber

variable {env : Env} {c d : BlockChain}

variable {epoch n : Nat} {s : StateDB}

theorem epochOf_of_mem_range' (h : n ∈ List.range' (epochStart epoch) epochLength) : epochOf n = epoch := by
  rw [List.mem_range'_1] at h
  simp only [epochOf, epochStart, epochLength] at h ⊢
  omega

/-- Participation reads the headers of one epoch, and nothing for the first one. -/
theorem epochParticipation_congr (validators : List Address)
    (h : 0 < epoch → ∀ n, epochOf n = epoch → c.headerByNumber n = d.headerByNumber n) :
    epochParticipation env (c.view env) epoch validators = epochParticipation env (d.view env) epoch validators := by
  simp only [epochParticipation]
  split_ifs with hepoch
  · rfl
  · refine List.foldl_ext _ _ _ fun p n hn => ?_
    have hheader : (c.view env).headerByNumber n = (d.view env).headerByNumber n :=
      h (Nat.pos_of_ne_zero hepoch) n (epochOf_of_mem_range' hn)
    rw [hheader]

theorem SameReads.processEpochBoundary_eq {block : Block} (hnet : c.SameGenesis d)
    (h : c.SameReads env d block s) (t : StateDB) :
    processEpochBoundary env (c.view env) block.number c.finalizedNumber t =
      processEpochBoundary env (d.view env) block.number d.finalizedNumber t := by
  simp only [processEpochBoundary]
  by_cases hboundary : isEpochBoundary block.number = true
  · have hset : (c.view env).validatorsAt (epochStart (epochOf block.number - 1)) =
        (d.view env).validatorsAt (epochStart (epochOf block.number - 1)) :=
      hnet.validatorsAt_eq (h.boundary hboundary)
    have hparticipation : ∀ validators, epochParticipation env (c.view env) (epochOf block.number - 1) validators =
        epochParticipation env (d.view env) (epochOf block.number - 1) validators := by
      intro validators
      refine epochParticipation_congr validators fun hpos n hn => h.headers hboundary n ?_ ?_
      · omega
      · omega
    simp [hset, hparticipation, h.finalized hboundary]
  · simp [hboundary]

theorem SameReads.process_eq {block : Block} (hnet : c.SameGenesis d) (h : c.SameReads env d block s) :
    process env (c.view env) block s c.finalizedNumber = process env (d.view env) block s d.finalizedNumber := by
  simp [process, Query.eval_eq_of_agree h.hashes, h.processEpochBoundary_eq hnet]

theorem executeBlock_congr {block parent : Block} (hnet : c.SameGenesis d)
    (hstate : c.states parent.header.stateRoot = d.states parent.header.stateRoot)
    (h : ∀ s, c.states parent.header.stateRoot = some s → c.SameReads env d block s) :
    c.executeBlock env block parent = d.executeBlock env block parent := by
  simp only [executeBlock, ← hstate]
  cases hs : c.states parent.header.stateRoot with
  | none => rfl
  | some s => simp [(h s hs).process_eq hnet]

structure SameAncestry (c d : BlockChain) (b : Block) : Prop where
  ancestors : ∀ a, c.IsAncestor a b ↔ d.IsAncestor a b
  states : ∀ a, c.IsAncestor a b → c.states a.header.stateRoot = d.states a.header.stateRoot

/-- Below a common ancestor of both heads the canonical headers agree. -/
theorem SameAncestry.headerByNumber_eq {b : Block} (h : c.SameAncestry d b) (hc : c.WellFormed env)
    (hd : d.WellFormed env) (hcb : c.IsAncestor b c.current) (hdb : d.IsAncestor b d.current)
    (hn : n ≤ b.number) : c.headerByNumber n = d.headerByNumber n := by
  have hstored := hc.stored_of_ancestor hcb fun _ => hc.current_stored
  obtain ⟨a, hancestor, rfl⟩ := hc.exists_ancestor (hc.linked_of_stored hstored) hn
  rw [hc.headerByNumber_of_ancestor (hancestor.trans hcb),
    hd.headerByNumber_of_ancestor (((h.ancestors a).mp hancestor).trans hdb)]

/-- When the parent of a block is canonical on both nodes, all that is left to agree on is the epoch
of the finalized height, in a block that starts an epoch. -/
theorem SameAncestry.sameReads {block parent : Block} (h : c.SameAncestry d parent) (hc : c.WellFormed env)
    (hd : d.WellFormed env) (hcp : c.IsAncestor parent c.current) (hdp : d.IsAncestor parent d.current)
    (hnumber : block.number = parent.number + 1)
    (hfinal : isEpochBoundary block.number = true → epochOf c.finalizedNumber = epochOf d.finalizedNumber)
    (s : StateDB) : c.SameReads env d block s := by
  have hheaders : ∀ {n}, n < block.number → c.headerByNumber n = d.headerByNumber n := fun hn =>
    h.headerByNumber_eq hc hd hcp hdp (by omega)
  refine ⟨Query.agree_of_forall (fun n => ?_), ?_, ?_, hfinal⟩
  · simp only [blockHash]
    by_cases hwindow : (newBlockContext env block.header).blockNumber ≤ n ∨
        256 < (newBlockContext env block.header).blockNumber - n
    · rw [if_pos hwindow, if_pos hwindow]
    · have hlt : n < block.number := not_le.mp fun hle => hwindow (Or.inl hle)
      have hheader : (c.view env).headerByNumber n = (d.view env).headerByNumber n := hheaders hlt
      rw [if_neg hwindow, if_neg hwindow, hheader]
  · intro _ hepoch
    have hlt : boundaryOf (epochStart (epochOf block.number - 1)) < block.number := by
      simp only [boundaryOf, epochStart, epochOf, epochLength] at hepoch ⊢
      omega
    refine ⟨hheaders hlt, fun header hheader => ?_⟩
    have hstored := hc.stored_of_ancestor hcp fun _ => hc.current_stored
    have hle : boundaryOf (epochStart (epochOf block.number - 1)) ≤ parent.number := by omega
    obtain ⟨a, hancestor, hheight⟩ := hc.exists_ancestor (hc.linked_of_stored hstored) hle
    rw [← hheight, hc.headerByNumber_of_ancestor (hancestor.trans hcp)] at hheader
    cases hheader
    exact h.states a hancestor
  · intro _ n _ hn
    refine hheaders ?_
    simp only [epochOf, epochLength] at hn
    omega

theorem sameReads_setFinalized (c : BlockChain) {f : Block} (hepoch : epochOf c.finalizedNumber = epochOf f.number)
    (block : Block) (s : StateDB) : c.SameReads env { c with finalized := some f } block s :=
  ⟨Query.agree_of_forall (fun _ => rfl), fun _ _ => ⟨rfl, fun _ _ => rfl⟩, fun _ _ _ _ => rfl, fun _ => hepoch⟩

theorem sameGenesis_setFinalized (c : BlockChain) (f : Block) : c.SameGenesis { c with finalized := some f } :=
  ⟨rfl, rfl⟩

theorem sameAncestry_setFinalized (c : BlockChain) (f b : Block) : c.SameAncestry { c with finalized := some f } b :=
  ⟨fun _ => Iff.rfl, fun _ _ => rfl⟩

end BlockChain

/-- Two nodes that hold the same ancestors of a block, and that read the same headers, the same set and
the same finalized epoch when they execute it, execute it with the same verdict, receipts and state. -/
theorem executeBlock_agrees_of_sameReads (env : Env) {c d : BlockChain} (hnet : c.SameGenesis d)
    (block parent : Block) (hancestry : c.SameAncestry d parent)
    (hreads : ∀ s, c.states parent.header.stateRoot = some s → c.SameReads env d block s) :
    c.executeBlock env block parent = d.executeBlock env block parent :=
  BlockChain.executeBlock_congr hnet (hancestry.states parent (Ancestor.refl parent)) hreads

/-! ### Two nodes that have finalized different heights -/

namespace ExecutionExample

def env : Env :=
  Env.plain fun s => BitVec.ofNat 256
    (s.registry.epochState.lastProcessedEpoch * 256 + s.registry.epochState.finalizedEpoch)

def chain : BlockChain := Genesis.plainChain env [1]

def blocks : List Block := emptyBranch 1 (fun _ => 1) 256 63 chain.genesis

def parent : Block := blocks.getLastD chain.genesis

def early : Block := (blocks[19]?).getD chain.genesis

def block : Block :=
  { emptyChild parent 1 1 [] with header.stateRoot := 2 * 256 + 1 }

/-- The vote of the only validator for the block at height 40. -/
def certificate : QuorumCert :=
  ⟨40, 40 * 256 + 1, [1], List.replicate 48 1 ++ (SigningMessage.attestation 7 40 (40 * 256 + 1)).spell⟩

/-- A node that has not seen the certificate. -/
def left : BlockChain := Transition.run (Op.apply env) chain (Op.imports 100 blocks)

/-- A node that has. -/
def right : BlockChain := Transition.run (Op.apply env) chain (Op.imports 100 blocks ++ [.finalize certificate])

end ExecutionExample

open ExecutionExample in
/-- Two finalized heights in the same epoch make no difference. -/
theorem executeBlock_agrees_within_epoch :
    (left.executeBlock env block parent).map (fun r => env.stateRoot r.2) = .ok (2 * 256) ∧
      BlockChain.executeBlock env { left with finalized := some early } block parent =
        left.executeBlock env block parent := by
  refine ⟨by decide +kernel, ?_⟩
  have hepoch : epochOf left.finalizedNumber = epochOf early.number := by
    decide +kernel
  exact (executeBlock_agrees_of_sameReads env (left.sameGenesis_setFinalized early) block parent
    (left.sameAncestry_setFinalized early parent)
    fun s _ => left.sameReads_setFinalized hepoch block s).symm

open ExecutionExample in
/-- The nodes hold the same blocks, have the same head and the same canonical chain, and differ in what
they have finalized. One accepts the block and the other computes another state root. -/
theorem executeBlock_disagrees_on_finalized :
    (∀ b ∈ chain.genesis :: blocks, left.blocks (env.hash b.header) = some b ∧
        right.blocks (env.hash b.header) = some b ∧ left.canonical b.number = right.canonical b.number) ∧
      left.current = parent ∧ right.current = parent ∧
      left.finalizedNumber = 0 ∧ right.finalizedNumber = 40 ∧
      (left.executeBlock env block parent).map (fun r => env.stateRoot r.2) = .ok (2 * 256) ∧
      (right.executeBlock env block parent).map (fun r => env.stateRoot r.2) = .ok (2 * 256 + 1) ∧
      (left.insertBlock env 100 block).1 = .error .stateRootMismatch ∧
      (right.insertBlock env 100 block).1 = .ok () := by
  decide +kernel

end PadiChain.Chain

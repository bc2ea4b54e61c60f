import PadiChain.ChainExecution

/-! The store under the chain, write by write. An import commits the state of the block, stores the
block with its receipts, records what the block's certificate finalizes and moves the head, each by a
write of its own; `Finalize` moves the head and records the block. The chain that a node opens on the
store is the one it had in memory. The state is written before its root is compared with the header's,
so this is the one trace that a refused block can leave. -/

namespace PadiChain.Chain

open Core Staking Processor Ancestry Function Transition

structure TxLookupEntry where
  blockHash : Hash
  blockIndex : Nat
  index : Nat
  deriving DecidableEq, Repr

/-- What the key/value store holds for the chain. -/
@[ext]
structure Disk where
  blocks : Hash → Option Block
  receipts : Hash → Option (List Receipt)
  canonical : Nat → Option Hash
  txLookup : Hash → Option TxLookupEntry
  states : Hash → Option StateDB
  headBlock : Option Hash
  finalizedHash : Option Hash

/-- The writes of the chain. Each is one batch, or one key. -/
inductive Write where
  | commit (s : StateDB)
  | block (block : Block) (receipts : List Receipt)
  | finalized (block : Block)
  | reorg (newChain oldChain : List Block) (block : Block)

namespace Disk

variable (env : Env) (txHash : Transaction → Hash)

def writeTxLookups (lookup : Hash → Option TxLookupEntry) (b : Block) : Hash → Option TxLookupEntry :=
  b.transactions.zipIdx.foldl (fun lookup entry =>
    update lookup (txHash entry.1) (some ⟨env.hash b.header, b.number, entry.2⟩)) lookup

def deleteTxLookups (lookup : Hash → Option TxLookupEntry) (b : Block) : Hash → Option TxLookupEntry :=
  b.transactions.foldl (fun lookup tx => update lookup (txHash tx) none) lookup

def write (d : Disk) : Write → Disk
  | .commit s => { d with states := update d.states (env.stateRoot s) (some s) }
  | .block block receipts =>
    { d with
      blocks := update d.blocks (env.hash block.header) (some block)
      receipts := update d.receipts (env.hash block.header) (some receipts) }
  | .finalized block => { d with finalizedHash := some (env.hash block.header) }
  | .reorg newChain oldChain block =>
    { d with
      canonical := BlockChain.writeCanonical env (BlockChain.dropCanonical d.canonical oldChain) newChain
      -- the old branch is dropped from the index, and then the new one written, oldest block first
      txLookup := newChain.foldr (fun b lookup => writeTxLookups env txHash lookup b)
        (oldChain.foldl (deleteTxLookups txHash) d.txLookup)
      headBlock := some (env.hash block.header) }

def writeAll (d : Disk) (writes : List Write) : Disk := run (write env txHash) d writes

/-- The end of `NewBlockChain`: the finalized block and the head are loaded by their hashes. A finalized
block that cannot be read is dropped; a head that cannot be read is an error. -/
def load (d : Disk) (genesis : Block) : Option BlockChain :=
  let final :=
    match d.finalizedHash with
    | none => none
    | some hash => d.blocks hash
  match d.headBlock with
  | none => some ⟨d.blocks, d.canonical, d.states, genesis, genesis, final⟩
  | some hash =>
    match d.blocks hash with
    | none => none
    | some head => some ⟨d.blocks, d.canonical, d.states, genesis, head, final⟩

structure Holds (d : Disk) (c : BlockChain) : Prop where
  blocks : d.blocks = c.blocks
  canonical : d.canonical = c.canonical
  states : d.states = c.states
  headBlock : d.headBlock = some (env.hash c.current.header)
  finalizedHash : d.finalizedHash = c.finalized.map fun f => env.hash f.header

end Disk

namespace BlockChain

variable (env : Env) (c : BlockChain)

def written (c : BlockChain) : Write → BlockChain
  | .commit s => c.commit env s
  | .block block _ => c.writeBlock env block
  | .finalized block => { c with finalized := some block }
  | .reorg newChain oldChain block =>
    { c with
      canonical := writeCanonical env (dropCanonical c.canonical oldChain) newChain
      current := block }

def reorgWrites (block : Block) : List Write :=
  match c.forkOf env block with
  | none => []
  | some (newChain, oldChain) => [.reorg newChain oldChain block]

/-- The write of `finalizeLocked` for the certificate of an imported block. -/
def justificationWrites (block : Block) : List Write :=
  match c.verifiedJustification env block with
  | none => []
  | some qc =>
    match c.finalizable env qc with
    | none => []
    | some f => [.finalized f]

/-- The writes of an import after the state is committed. -/
def adoptWrites (block : Block) (receipts : List Receipt) : List Write :=
  let stored := c.writeBlock env block
  let justified := stored.applyJustification env block
  .block block receipts :: (stored.justificationWrites env block ++
    if justified.current.number < block.number then justified.reorgWrites env block else [])

def insertWrites (now : Nat) (block : Block) : List Write :=
  match c.checkBlock env now block with
  | .error _ => []
  | .ok parent =>
    match c.executeBlock env block parent with
    | .error _ => []
    | .ok (receipts, s) =>
      .commit s ::
        if env.stateRoot s ≠ block.header.stateRoot then []
        else (c.commit env s).adoptWrites env block receipts

/-- The writes at the end of `Finalize`: the head moves first. -/
def finalizeBlockWrites (block : Block) : List Write :=
  if c.canonical block.number = some (env.hash block.header) then [.finalized block]
  else
    match c.forkOf env block with
    | none => []
    | some (newChain, oldChain) => [.reorg newChain oldChain block, .finalized block]

def finalizeWrites (qc : QuorumCert) : List Write :=
  if qc.isEmpty then []
  else
    match c.blsKeysAt env qc.number with
    | none => []
    | some keys =>
      match qc.verify env.cfg.bls env.cfg.chainID keys with
      | .error _ => []
      | .ok _ =>
        match c.finalizable env qc with
        | none => []
        | some block => c.finalizeBlockWrites env block

end BlockChain

section Refinement

variable {env : Env} {d : Disk} {c : BlockChain}

/-- A store for an open chain, without receipts and without transactions. -/
def Disk.ofChain (env : Env) (c : BlockChain) : Disk where
  blocks := c.blocks
  receipts _ := none
  canonical := c.canonical
  txLookup _ := none
  states := c.states
  headBlock := some (env.hash c.current.header)
  finalizedHash := c.finalized.map fun f => env.hash f.header

theorem Disk.ofChain_holds (env : Env) (c : BlockChain) : (Disk.ofChain env c).Holds env c :=
  ⟨rfl, rfl, rfl, rfl, rfl⟩

theorem Disk.Holds.write (h : d.Holds env c) (txHash : Transaction → Hash) (w : Write) :
    (d.write env txHash w).Holds env (c.written env w) := by
  cases w with
  | commit s => exact { h with states := by rw [Disk.write, h.states]; rfl }
  | block block receipts => exact { h with blocks := by rw [Disk.write, h.blocks]; rfl }
  | finalized block => exact { h with finalizedHash := rfl }
  | reorg newChain oldChain block =>
    exact { h with canonical := by rw [Disk.write, h.canonical]; rfl, headBlock := rfl }

theorem Disk.Holds.writeAll (h : d.Holds env c) (txHash : Transaction → Hash) (writes : List Write) :
    (d.writeAll env txHash writes).Holds env (run (BlockChain.written env) c writes) := by
  induction writes generalizing d c with
  | nil => exact h
  | cons w writes ih => exact ih (h.write txHash w)

theorem Disk.Holds.load_eq (h : d.Holds env c) (hwf : c.WellFormed env) : d.load c.genesis = some c := by
  have hstored : c.blocks (env.hash c.current.header) = some c.current := hwf.current_stored
  have hfinal : (match d.finalizedHash with | none => none | some hash => d.blocks hash) = c.finalized := by
    rw [h.finalizedHash, h.blocks]
    cases hf : c.finalized with
    | none => rfl
    | some f => exact hwf.finalized_stored f hf
  simp only [Disk.load, hfinal]
  simp [h.blocks, h.canonical, h.states, h.headBlock, hstored]

namespace BlockChain

variable (env : Env) (c : BlockChain) (block : Block)

theorem run_reorgWrites : run (written env) c (c.reorgWrites env block) = (c.reorgTo env block).getD c := by
  simp only [reorgWrites, reorgTo]
  cases c.forkOf env block with
  | none | some _ => rfl

theorem run_justificationWrites :
    run (written env) c (c.justificationWrites env block) = c.applyJustification env block := by
  simp only [justificationWrites, applyJustification]
  cases c.verifiedJustification env block with
  | none => rfl
  | some qc =>
    simp only [finalizeLocked]
    cases c.finalizable env qc <;> rfl

theorem run_adoptWrites (receipts : List Receipt) :
    run (written env) c (c.adoptWrites env block receipts) = (c.adopt env block).2 := by
  rw [adoptWrites, run_cons, run_append]
  change run (written env) (run (written env) (c.writeBlock env block) _) _ = _
  rw [run_justificationWrites]
  simp only [adopt]
  split
  · rw [run_reorgWrites]
    cases ((c.writeBlock env block).applyJustification env block).reorgTo env block <;> rfl
  · rfl

theorem run_insertWrites (now : Nat) (block : Block) :
    run (written env) c (c.insertWrites env now block) = (c.insertBlock env now block).2 := by
  simp only [insertWrites, insertBlock]
  cases c.checkBlock env now block with
  | error e => rfl
  | ok parent =>
    dsimp only
    cases c.executeBlock env block parent with
    | error e => rfl
    | ok result =>
      obtain ⟨receipts, s⟩ := result
      dsimp only
      split
      · rfl
      · exact run_adoptWrites env (c.commit env s) block receipts

theorem run_finalizeBlockWrites :
    run (written env) c (c.finalizeBlockWrites env block) = (c.finalizeBlock env block).2 := by
  simp only [finalizeBlockWrites, finalizeBlock, reorgTo]
  split
  · rfl
  · cases c.forkOf env block with
    | none | some _ => rfl

theorem run_finalizeWrites (qc : QuorumCert) :
    run (written env) c (c.finalizeWrites env qc) = (c.finalize env qc).2 := by
  simp only [finalizeWrites, finalize, finalizable]
  split
  · rfl
  cases c.blsKeysAt env qc.number with
  | none => rfl
  | some keys =>
    dsimp only
    cases qc.verify env.cfg.bls env.cfg.chainID keys with
    | error e => rfl
    | ok indices =>
      cases c.blocks qc.blockHash with
      | none => rfl
      | some block =>
        have hblock := run_finalizeBlockWrites env c block
        dsimp only
        split_ifs with hnumber
        · rfl
        · cases c.finalized with
          | none => exact hblock
          | some final =>
            dsimp only
            by_cases hold : block.number ≤ final.number
            · rw [if_pos hold, if_pos hold]
              rfl
            rw [if_neg hold, if_neg hold]
            split_ifs with hdescends
            · exact hblock
            · rfl

end BlockChain

end Refinement

section Rejection

namespace BlockChain

/-- The block is refused before its state is committed, or the state that is committed is there
already. -/
def CommitsNothing (env : Env) (c : BlockChain) (now : Nat) (block : Block) : Prop :=
  ∀ parent receipts s, c.checkBlock env now block = .ok parent →
    c.executeBlock env block parent = .ok (receipts, s) →
    env.stateRoot s ≠ block.header.stateRoot ∧ c.states (env.stateRoot s) = some s

variable {env : Env} {c : BlockChain} {now : Nat} {block : Block}

variable {s : StateDB} {parent : Block} {receipts : List Receipt}

theorem commit_eq_self (h : c.states (env.stateRoot s) = some s) : c.commit env s = c := by
  rw [commit, ← h, update_eq_self]

theorem insertBlock_of_unexecuted (h : ∀ parent receipts s, c.checkBlock env now block = .ok parent →
      c.executeBlock env block parent ≠ .ok (receipts, s)) :
    (∃ e, c.insertBlock env now block = (.error e, c)) ∧ c.insertWrites env now block = [] := by
  cases hcheck : c.checkBlock env now block with
  | error e =>
    simp only [insertBlock, insertWrites, hcheck]
    exact ⟨⟨e, rfl⟩, trivial⟩
  | ok parent =>
    cases hexecute : c.executeBlock env block parent with
    | error e =>
      simp only [insertBlock, insertWrites, hcheck, hexecute]
      exact ⟨⟨e, rfl⟩, trivial⟩
    | ok result => exact absurd hexecute (h parent result.1 result.2 hcheck)

variable (hcheck : c.checkBlock env now block = .ok parent)
  (hexecute : c.executeBlock env block parent = .ok (receipts, s))

include hcheck hexecute

theorem insertBlock_of_mismatch (hroot : env.stateRoot s ≠ block.header.stateRoot) :
    c.insertBlock env now block = (.error .stateRootMismatch, c.commit env s) ∧
      c.insertWrites env now block = [.commit s] := by
  simp [insertBlock, insertWrites, hcheck, hexecute, if_pos hroot]

theorem insertBlock_of_match (hroot : env.stateRoot s = block.header.stateRoot) :
    c.insertBlock env now block = (c.commit env s).adopt env block ∧
      c.insertWrites env now block = .commit s :: (c.commit env s).adoptWrites env block receipts := by
  simp [insertBlock, insertWrites, hcheck, hexecute, if_neg (not_not.mpr hroot)]

end BlockChain

open BlockChain

/-- A block is refused and leaves the store, the head, the finalized block and the canonical index as they
were exactly if it is refused before its state is committed, or the committed state was there already. -/
theorem rejected_without_trace_iff (env : Env) (txHash : Transaction → Hash) {d : Disk} {c : BlockChain}
    (hholds : d.Holds env c) (now : Nat) (block : Block) :
    ((∃ e, (c.insertBlock env now block).1 = .error e) ∧
        d.writeAll env txHash (c.insertWrites env now block) = d ∧
        (c.insertBlock env now block).2.current = c.current ∧
        (c.insertBlock env now block).2.finalized = c.finalized ∧
        (c.insertBlock env now block).2.canonical = c.canonical) ↔
      c.CommitsNothing env now block := by
  constructor
  · rintro ⟨-, hdisk, -⟩ parent receipts s hcheck hexecute
    have hafter : (c.insertBlock env now block).2.blocks = c.blocks ∧
        (c.insertBlock env now block).2.states = c.states := by
      have hholds' := hholds.writeAll txHash (c.insertWrites env now block)
      rw [run_insertWrites, hdisk] at hholds'
      exact ⟨hholds'.blocks.symm.trans hholds.blocks, hholds'.states.symm.trans hholds.states⟩
    have hroot : env.stateRoot s ≠ block.header.stateRoot := by
      intro hroot
      -- the block would be stored, and it was not before
      have hstored := writeBlock_blocks_self env (c.commit env s) block
      rw [(insertBlock_of_match hcheck hexecute hroot).1, adopt_blocks] at hafter
      rw [hafter.1, (checkBlock_ok hcheck).1] at hstored
      cases hstored
    refine ⟨hroot, ?_⟩
    rw [(insertBlock_of_mismatch hcheck hexecute hroot).1] at hafter
    rw [← hafter.2]
    exact Function.update_self _ _ _
  · intro hnothing
    by_cases hexecuted : ∃ parent receipts s, c.checkBlock env now block = .ok parent ∧
        c.executeBlock env block parent = .ok (receipts, s)
    · obtain ⟨parent, receipts, s, hcheck, hexecute⟩ := hexecuted
      obtain ⟨hroot, hstored⟩ := hnothing parent receipts s hcheck hexecute
      obtain ⟨hinsert, hwrites⟩ := insertBlock_of_mismatch hcheck hexecute hroot
      rw [hinsert, hwrites, commit_eq_self hstored]
      refine ⟨⟨_, rfl⟩, ?_, rfl, rfl, rfl⟩
      have hsame : Function.update d.states (env.stateRoot s) (some s) = d.states := by
        rw [← hstored, ← hholds.states, Function.update_eq_self]
      change { d with states := Function.update d.states (env.stateRoot s) (some s) } = d
      rw [hsame]
    · obtain ⟨⟨e, hinsert⟩, hwrites⟩ := insertBlock_of_unexecuted fun parent receipts s hcheck hexecute =>
        hexecuted ⟨parent, receipts, s, hcheck, hexecute⟩
      rw [hinsert, hwrites]
      exact ⟨⟨e, rfl⟩, rfl, rfl, rfl, rfl⟩

/-! ### A forged state root -/

namespace RejectionExample

def env : Env := Env.plain fun s => s.registry.randaoMix

def chain : BlockChain := Genesis.plainChain env [1]

/-- A block whose reveal moves the randomness, and with it the state, while its header still has the
state root of genesis. -/
def forged : Block :=
  let b := emptyChild chain.genesis 1 1 []
  { b with header.randaoReveal := List.replicate 48 1 ++ (SigningMessage.randao 7 0).spell }

def misreported : Block := { forged with header.receiptRoot := 5 }

end RejectionExample

open RejectionExample in
/-- A wrong receipt root is found before anything is written. -/
theorem misreported_without_trace :
    (∃ e, (chain.insertBlock env 100 misreported).1 = .error e) ∧
      (Disk.ofChain env chain).writeAll env (fun _ => 0) (chain.insertWrites env 100 misreported) =
        Disk.ofChain env chain ∧
      (chain.insertBlock env 100 misreported).2.current = chain.current ∧
      (chain.insertBlock env 100 misreported).2.finalized = chain.finalized ∧
      (chain.insertBlock env 100 misreported).2.canonical = chain.canonical := by
  refine (rejected_without_trace_iff env (fun _ => 0) (Disk.ofChain_holds env chain) 100 misreported).mpr ?_
  intro parent receipts s hcheck hexecute
  have hparent : chain.blocks misreported.parentHash = some chain.genesis := rfl
  rw [(checkBlock_ok hcheck).2.1] at hparent
  cases hparent
  have hfails : (chain.executeBlock env misreported chain.genesis).isOk = false := by
    decide +kernel
  rw [hexecute] at hfails
  cases hfails

open RejectionExample in
/-- The state of a block with a wrong state root stays in the store after the block is refused. -/
theorem forged_leaves_state :
    (chain.insertBlock env 100 forged).1 = .error .stateRootMismatch ∧
      (Disk.ofChain env chain).writeAll env (fun _ => 0) (chain.insertWrites env 100 forged) ≠
        Disk.ofChain env chain := by
  have hstates : (((Disk.ofChain env chain).writeAll env (fun _ => 0)
        (chain.insertWrites env 100 forged)).states (2 ^ 65)).isSome = true ∧
      ((Disk.ofChain env chain).states (2 ^ 65)).isSome = false := by
    decide +kernel
  refine ⟨by decide +kernel, fun hsame => ?_⟩
  rw [hsame] at hstates
  exact Bool.noConfusion (hstates.1.symm.trans hstates.2)

end Rejection

end PadiChain.Chain

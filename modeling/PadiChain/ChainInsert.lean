import PadiChain.ChainVerify

/-! Changing the chain: importing a block, moving the head to another branch, finalizing a block by a
certificate, and adopting a snapshot. The walks over parent links take the height as fuel; a walk in a
chain whose heights fall by one along parent links never runs out of it. -/

namespace PadiChain.Chain

open Core Staking Processor

namespace BlockChain

variable (env : Env) (c : BlockChain)

/-- Walk back from a block while it is above a height, collecting the blocks passed. -/
def unwind (target : Nat) : Nat → Block → Option (List Block × Block)
  | 0, block => if target < block.number then none else some ([], block)
  | fuel + 1, block =>
    if target < block.number then
      match c.blocks block.parentHash with
      | none => none
      | some parent => (unwind target fuel parent).map fun r => (block :: r.1, r.2)
    else some ([], block)

def meet : Nat → Block → Block → Option (List Block × List Block)
  | 0, newBlock, oldBlock =>
    if env.hash newBlock.header = env.hash oldBlock.header then some ([], []) else none
  | fuel + 1, newBlock, oldBlock =>
    if env.hash newBlock.header = env.hash oldBlock.header then some ([], [])
    else
      match c.blocks newBlock.parentHash, c.blocks oldBlock.parentHash with
      | some newParent, some oldParent =>
        (meet fuel newParent oldParent).map fun r => (newBlock :: r.1, oldBlock :: r.2)
      | _, _ => none

/-- The blocks that join and the blocks that leave the canonical chain when a block becomes the head,
each from the head down. -/
def forkOf (block : Block) : Option (List Block × List Block) :=
  match c.unwind c.current.number block.number block with
  | none => none
  | some (newHigh, newBlock) =>
    match c.unwind newBlock.number c.current.number c.current with
    | none => none
    | some (oldHigh, oldBlock) =>
      match c.meet env newBlock.number newBlock oldBlock with
      | none => none
      | some (newLow, oldLow) => some (newHigh ++ newLow, oldHigh ++ oldLow)

def dropCanonical (canonical : Nat → Option Hash) (oldChain : List Block) : Nat → Option Hash :=
  oldChain.foldl (fun index b => Function.update index b.number none) canonical

def writeCanonical (canonical : Nat → Option Hash) (newChain : List Block) : Nat → Option Hash :=
  newChain.foldr (fun b index => Function.update index b.number (some (env.hash b.header))) canonical

/-- `reorgTo`: make a block the head, rewriting the canonical index. -/
def reorgTo (block : Block) : Option BlockChain :=
  match c.forkOf env block with
  | none => none
  | some (newChain, oldChain) =>
    some { c with
      canonical := writeCanonical env (dropCanonical c.canonical oldChain) newChain
      current := block }

def isDescendant (block ancestor : Block) : Bool :=
  match c.unwind ancestor.number block.number block with
  | none => false
  | some (_, reached) => decide (env.hash reached.header = env.hash ancestor.header)

/-- `checkFinalityLocked`: reject a block that contradicts finalized history. -/
def checkFinality (block : Block) : Except BlockError Unit :=
  match c.finalized with
  | none => .ok ()
  | some final =>
    if block.number ≤ final.number then
      match c.canonical block.number with
      | none => .ok ()
      | some hash => if hash ≠ env.hash block.header then .error .conflictsWithFinalized else .ok ()
    else if c.isDescendant env block final then .ok ()
    else .error .conflictsWithFinalized

/-- The block a certificate newly finalizes, under the checks of `finalizeLocked`. -/
def finalizable (qc : QuorumCert) : Option Block :=
  match c.blocks qc.blockHash with
  | none => none
  | some block =>
    if block.number ≠ qc.number then none
    else
      match c.finalized with
      | none => some block
      | some final =>
        if block.number ≤ final.number then none
        else if c.isDescendant env block final then some block
        else none

def finalizeLocked (qc : QuorumCert) : BlockChain :=
  match c.finalizable env qc with
  | none => c
  | some block => { c with finalized := some block }

def verifiedJustification (block : Block) : Option QuorumCert :=
  match certificateOf env block.header with
  | none => none
  | some qc =>
    match c.blsKeysAt env qc.number with
    | none => none
    | some keys =>
      match qc.verify env.cfg.bls env.cfg.chainID keys with
      | .error _ => none
      | .ok _ => some qc

/-- Act on the certificate an imported block carries. -/
def applyJustification (block : Block) : BlockChain :=
  match c.verifiedJustification env block with
  | none => c
  | some qc => c.finalizeLocked env qc

/-- The execution of a block on top of its stored parent, up to the comparison of the roots: the
state that is committed, and whether its root is the one the header claims. -/
def executeBlock (block parent : Block) : Except BlockError (List Receipt × StateDB) :=
  match c.states parent.header.stateRoot with
  | none => .error .parentState
  | some s =>
    match process env (c.view env) block s c.finalizedNumber with
    | .error e => .error (.process e)
    | .ok (receipts, s) =>
      if env.receiptRoot receipts ≠ block.header.receiptRoot then .error .receiptRootMismatch
      else .ok (receipts, s.finalise)

/-- The import of a block that has been executed: store it, act on its certificate, and move the head
to it when it is higher than the current head. -/
def adopt (block : Block) : Except BlockError Unit × BlockChain :=
  let stored := c.writeBlock env block
  let justified := stored.applyJustification env block
  if justified.current.number < block.number then
    match justified.reorgTo env block with
    | none => (.error .unknownAncestor, justified)
    | some moved => (.ok (), moved)
  else (.ok (), justified)

/-- The checks of `insertLocked` before the block is executed; the result is the parent. -/
def checkBlock (now : Nat) (block : Block) : Except BlockError Block :=
  if (c.blocks (env.hash block.header)).isSome then .error .known
  else
    match c.blocks block.parentHash with
    | none => .error .unknownAncestor
    | some parent =>
      match c.verifyBlock env now block parent with
      | .error e => .error e
      | .ok () =>
        match c.checkFinality env block with
        | .error e => .error e
        | .ok () => .ok parent

/-- `insertLocked`. The state is committed before its root is compared with the header's. -/
def insertBlock (now : Nat) (block : Block) : Except BlockError Unit × BlockChain :=
  match c.checkBlock env now block with
  | .error e => (.error e, c)
  | .ok parent =>
    match c.executeBlock env block parent with
    | .error e => (.error e, c)
    | .ok (_, s) =>
      let committed := c.commit env s
      if env.stateRoot s ≠ block.header.stateRoot then (.error .stateRootMismatch, committed)
      else committed.adopt env block

/-- `InsertChain`: insert in order, skipping known blocks and stopping at the first failure. -/
def insertChain (now : Nat) (c : BlockChain) : List Block → BlockChain
  | [] => c
  | block :: rest =>
    match c.insertBlock env now block with
    | (.ok (), c') => insertChain now c' rest
    | (.error .known, c') => insertChain now c' rest
    | (.error _, c') => c'

/-- The end of `Finalize`: move the head if the block is not canonical, and record the block. -/
def finalizeBlock (block : Block) : Except BlockError Unit × BlockChain :=
  if c.canonical block.number = some (env.hash block.header) then
    (.ok (), { c with finalized := some block })
  else
    match c.reorgTo env block with
    | none => (.error .unknownAncestor, c)
    | some moved => (.ok (), { moved with finalized := some block })

/-- `Finalize`: check a certificate and mark its block final, moving the head if the block is not
canonical. -/
def finalize (qc : QuorumCert) : Except BlockError Unit × BlockChain :=
  if qc.isEmpty then (.error .quorumNotMet, c)
  else
    match c.blsKeysAt env qc.number with
    | none => (.error .validatorSet, c)
    | some keys =>
      match qc.verify env.cfg.bls env.cfg.chainID keys with
      | .error e => (.error (.invalidJustification e), c)
      | .ok _ =>
        match c.blocks qc.blockHash with
        | none => (.error .unknownAncestor, c)
        | some block =>
          if block.number ≠ qc.number then (.error .certificateHeight, c)
          else
            match c.finalized with
            | none => c.finalizeBlock env block
            | some final =>
              if block.number ≤ final.number then (.ok (), c)
              else if c.isDescendant env block final then c.finalizeBlock env block
              else (.error .finalityRegression, c)

def importSnapshot (block : Block) (qc : QuorumCert) : Except BlockError Unit × BlockChain :=
  if qc.isEmpty then (.error .quorumNotMet, c)
  else if qc.blockHash ≠ env.hash block.header ∨ qc.number ≠ block.number then (.error .certificateBlock, c)
  else
    match c.blsKeysAt env qc.number with
    | none => (.error .validatorSet, c)
    | some keys =>
      match qc.verify env.cfg.bls env.cfg.chainID keys with
      | .error e => (.error (.invalidJustification e), c)
      | .ok _ =>
        if c.current.number ≠ 0 then (.error .snapshotOverHistory, c)
        else if block.number = 0 then (.ok (), c)
        else if (c.states block.header.stateRoot).isNone then (.error .snapshotState, c)
        else
          let hash := env.hash block.header
          (.ok (), { c with
            blocks := Function.update c.blocks hash (some block)
            canonical := Function.update c.canonical block.number (some hash)
            current := block
            finalized := some block })

end BlockChain

end PadiChain.Chain

import PadiChain.ChainDisk

/-! A crash between two writes. A call that is interrupted has made a first part of its writes, and the
chain that is opened afterwards is the one these writes make. It is always a sound chain. Repeating the
call completes it if the crash came before the block was stored. Once the block is stored it is taken for
known when the import is repeated, and what was left to do, finalizing by its certificate and moving the
head, is never done. -/

namespace PadiChain.Chain

open Core Staking Processor Ancestry Function Transition BlockChain

inductive Call where
  | insertBlock (now : Nat) (block : Block)
  | finalize (qc : QuorumCert)

namespace Call

variable (env : Env)

def op : Call → Op
  | insertBlock now block => .insertBlock now block
  | finalize qc => .finalize qc

def apply (c : BlockChain) (call : Call) : BlockChain := call.op.apply env c

def writes (c : BlockChain) : Call → List Write
  | insertBlock now block => c.insertWrites env now block
  | finalize qc => c.finalizeWrites env qc

def JustifiesBranch (c : BlockChain) (call : Call) : Prop := call.op.JustifiesBranch env c

end Call

/-- An open chain with the store under it. -/
structure Session where
  chain : BlockChain
  disk : Disk

namespace Session

variable (env : Env) (txHash : Transaction → Hash)

def call (s : Session) (call : Call) : Session :=
  ⟨call.apply env s.chain, s.disk.writeAll env txHash (call.writes env s.chain)⟩

/-- The chain opened after a crash that let through the first `k` writes of a call. -/
def reopened (s : Session) (call : Call) (k : Nat) : Option BlockChain :=
  (s.disk.writeAll env txHash ((call.writes env s.chain).take k)).load s.chain.genesis

end Session

namespace BlockChain

/-- The head and the block of a certificate have in common the block that settles the keys of the
certificate's height. -/
def SharesBoundary (c : BlockChain) (qc : QuorumCert) : Prop :=
  ∀ b, c.blocks qc.blockHash = some b →
    ∃ a, a.number = boundaryOf qc.number ∧ c.IsAncestor a c.current ∧ c.IsAncestor a b

end BlockChain

namespace Call

variable (env : Env) (c : BlockChain)

/-- The crash points that a repeated call recovers from. An import has not yet stored its block, or is
complete; between the two writes of `Finalize` the head has moved, and the certificate has to verify on the
new branch as it did on the old one. -/
def Recoverable (k : Nat) : Call → Prop
  | insertBlock now block => k ≤ 1 ∨ (c.insertWrites env now block).length ≤ k
  | finalize qc => k = 0 ∨ (c.finalizeWrites env qc).length ≤ k ∨ c.SharesBoundary qc

/-- The call does not write a state under the root of another one. -/
def KeepsState : Call → Prop
  | insertBlock now block => ∀ parent receipts s t, c.checkBlock env now block = .ok parent →
      c.executeBlock env block parent = .ok (receipts, s) → c.states (env.stateRoot s) = some t → t = s
  | finalize _ => True

end Call

namespace BlockChain

structure Intact (env : Env) (c : BlockChain) : Prop where
  wellFormed : c.WellFormed env
  backed : ∀ h b, c.blocks h = some b → (c.states b.header.stateRoot).isSome = true

/-- What a write finds in a chain that it leaves intact. -/
def Safe (env : Env) (c : BlockChain) : Write → Prop
  | .commit _ => True
  | .block b _ => c.blocks (env.hash b.header) = none ∧ (c.states b.header.stateRoot).isSome = true ∧
      ∃ parent, c.blocks b.parentHash = some parent ∧ b.number = parent.number + 1
  | .finalized f => c.Stored env f
  | .reorg newChain oldChain b => c.Stored env b ∧ c.forkOf env b = some (newChain, oldChain)

variable {env : Env} {c : BlockChain}

theorem Intact.commit (h : c.Intact env) (s : StateDB) : (c.commit env s).Intact env := by
  refine ⟨h.wellFormed.commit s, fun hash b hb => ?_⟩
  by_cases hroot : b.header.stateRoot = env.stateRoot s
  · simp [BlockChain.commit, hroot]
  · simp only [BlockChain.commit, update_of_ne hroot]
    exact h.backed hash b hb

theorem Intact.written (h : c.Intact env) {w : Write} (hsafe : c.Safe env w) : (c.written env w).Intact env := by
  cases w with
  | commit s => exact h.commit s
  | block block receipts =>
    obtain ⟨hnew, hstate, parent, hparent, hnumber⟩ := hsafe
    refine ⟨(h.wellFormed.writeBlock hnew hparent hnumber).1, fun hash b hb => ?_⟩
    rcases writeBlock_blocks_cases hb with ⟨-, rfl⟩ | ⟨-, hold⟩
    · exact hstate
    · exact h.backed hash b hold
  | finalized f => exact ⟨h.wellFormed.setFinalized hsafe, h.backed⟩
  | reorg newChain oldChain block =>
    obtain ⟨hstored, hfork⟩ := hsafe
    obtain ⟨canonical, hreorg, hwf⟩ := h.wellFormed.reorgTo_spec hstored
    simp only [reorgTo, hfork] at hreorg
    rw [BlockChain.written, Option.some.inj hreorg]
    exact ⟨hwf, h.backed⟩

theorem Intact.run_take (h : c.Intact env) {writes : List Write}
    (hsafe : Steps (BlockChain.written env) (Safe env) c writes) (k : Nat) :
    (run (BlockChain.written env) c (writes.take k)).Intact env := by
  rw [← List.take_append_drop k writes, steps_append] at hsafe
  exact run_invariant (P := Intact env) (fun _ _ hw hc => hc.written hw) hsafe.1 h

theorem run_written_genesis (c : BlockChain) (writes : List Write) :
    (run (written env) c writes).genesis = c.genesis := by
  refine run_preserves (P := fun d : BlockChain => d.genesis = c.genesis) (fun d w h => ?_) writes rfl
  cases w <;> exact h

theorem reorgWrites_safe {block : Block} (hstored : c.Stored env block) :
    Steps (BlockChain.written env) (Safe env) c (c.reorgWrites env block) := by
  simp only [reorgWrites]
  split
  · trivial
  · rename_i hfork
    exact ⟨⟨hstored, hfork⟩, trivial⟩

section Writes

variable (hintact : c.Intact env)

include hintact

theorem Intact.justificationWrites_safe (block : Block) :
    Steps (BlockChain.written env) (Safe env) c (c.justificationWrites env block) := by
  simp only [justificationWrites]
  split
  · trivial
  split
  · trivial
  · rename_i f hfinalizable
    obtain ⟨hlookup, -, -⟩ := hintact.wellFormed.finalizable_eq_some.mp hfinalizable
    exact ⟨hintact.wellFormed.stored_of_blocks hlookup, trivial⟩

/-- An import writes safely: the state before the block, the block before what refers to it. -/
theorem Intact.insertWrites_safe (now : Nat) (block : Block) :
    Steps (BlockChain.written env) (Safe env) c (c.insertWrites env now block) := by
  simp only [insertWrites]
  split
  · trivial
  rename_i parent hcheck
  split
  · trivial
  rename_i receipts s hexecute
  refine ⟨trivial, ?_⟩
  split
  · trivial
  rename_i hroot
  obtain ⟨hnew, hparent, hverify, -⟩ := checkBlock_ok hcheck
  have hnumber : block.number = parent.number + 1 := (verifyHeader_ok (verifyBlock_ok hverify).1).1
  have hblock : (c.commit env s).Safe env (.block block receipts) := by
    refine ⟨hnew, ?_, parent, hparent, hnumber⟩
    simp [BlockChain.commit, ← not_not.mp hroot]
  have hstored := (hintact.commit s).written hblock
  refine ⟨hblock, steps_append.mpr ⟨hstored.justificationWrites_safe block, ?_⟩⟩
  have hrun := run_justificationWrites env ((c.commit env s).writeBlock env block) block
  change Steps _ _ (run (BlockChain.written env) ((c.commit env s).writeBlock env block) _) _
  rw [hrun]
  split
  · refine reorgWrites_safe ?_
    rw [Stored, applyJustification_blocks]
    exact writeBlock_blocks_self env _ block
  · trivial

theorem Intact.finalizeWrites_safe (qc : QuorumCert) :
    Steps (BlockChain.written env) (Safe env) c (c.finalizeWrites env qc) := by
  simp only [finalizeWrites]
  split
  · trivial
  split
  · trivial
  split
  · trivial
  split
  · trivial
  rename_i block hfinalizable
  obtain ⟨hlookup, -, -⟩ := hintact.wellFormed.finalizable_eq_some.mp hfinalizable
  have hstored := hintact.wellFormed.stored_of_blocks hlookup
  simp only [finalizeBlockWrites]
  split
  · exact ⟨hstored, trivial⟩
  split
  · trivial
  · rename_i hfork
    exact ⟨⟨hstored, hfork⟩, hstored, trivial⟩

end Writes

end BlockChain

section Calls

variable {env : Env} {c : BlockChain}

theorem Call.run_writes (env : Env) (c : BlockChain) (call : Call) :
    run (BlockChain.written env) c (call.writes env c) = call.apply env c := by
  cases call with
  | insertBlock now block => exact BlockChain.run_insertWrites env c now block
  | finalize qc => exact run_finalizeWrites env c qc

theorem Call.writes_safe (h : c.Intact env) (call : Call) :
    Steps (BlockChain.written env) (BlockChain.Safe env) c (call.writes env c) := by
  cases call with
  | insertBlock now block => exact h.insertWrites_safe now block
  | finalize qc => exact h.finalizeWrites_safe qc

theorem Call.intact_apply (h : c.Intact env) (call : Call) : (call.apply env c).Intact env := by
  have hall := h.run_take (call.writes_safe h) (call.writes env c).length
  rwa [List.take_length, call.run_writes env c] at hall

theorem Genesis.intact_of_commit {g : Genesis} (h : g.commit env = .ok c) : c.Intact env := by
  refine ⟨(Genesis.wellFormed_of_commit h).1, fun hash b hb => ?_⟩
  obtain ⟨s, rfl⟩ := Genesis.commit_eq_ok h
  rw [(Genesis.openChain_blocks hb).2]
  simp [Genesis.openChain, Genesis.toBlock]

end Calls

section Repetition

namespace BlockChain

variable {env : Env} {c : BlockChain}

variable {d : BlockChain} {now : Nat} {block : Block}

theorem unwind_congr (hblocks : c.blocks = d.blocks) (target fuel : Nat) (b : Block) :
    c.unwind target fuel b = d.unwind target fuel b := by
  induction fuel generalizing b with
  | zero => rfl
  | succ fuel ih => simp [unwind, hblocks, ih]

theorem isDescendant_congr (hblocks : c.blocks = d.blocks) (block ancestor : Block) :
    c.isDescendant env block ancestor = d.isDescendant env block ancestor := by
  simp [isDescendant, unwind_congr hblocks]

theorem checkFinality_commit (c : BlockChain) (s : StateDB) (block : Block) :
    c.checkFinality env block = (c.commit env s).checkFinality env block := by
  have hblocks : c.blocks = (c.commit env s).blocks := rfl
  simp only [checkFinality, isDescendant_congr hblocks block]
  rfl

theorem finalizable_congr (hblocks : c.blocks = d.blocks) (hfinal : c.finalized = d.finalized)
    (qc : QuorumCert) : c.finalizable env qc = d.finalizable env qc := by
  simp [finalizable, hblocks, hfinal, isDescendant_congr hblocks]

/-- A state under a root that no stored block has is not read by an import. -/
theorem Intact.insertBlock_commit (h : c.Intact env) {parent : Block} {receipts : List Receipt}
    {s : StateDB} (hexecute : c.executeBlock env block parent = .ok (receipts, s))
    (hcheck : c.checkBlock env now block = .ok parent) (hkeeps : ∀ t, c.states (env.stateRoot s) = some t → t = s) :
    (c.commit env s).insertBlock env now block = c.insertBlock env now block := by
  cases hroot : c.states (env.stateRoot s) with
  | some t =>
    rw [hkeeps t hroot] at hroot
    rw [commit_eq_self hroot]
  | none =>
    have hstates : ∀ b, c.Stored env b →
        c.states b.header.stateRoot = (c.commit env s).states b.header.stateRoot := by
      intro b hb
      have hne : b.header.stateRoot ≠ env.stateRoot s := by
        intro heq
        have hbacked := h.backed _ b hb
        rw [heq, hroot] at hbacked
        cases hbacked
      exact (update_of_ne hne _ _).symm
    have hnet : c.SameGenesis (c.commit env s) := ⟨rfl, hstates _ h.wellFormed.genesis_spec.2.1⟩
    have hboundary : ∀ number, c.SameBoundary (c.commit env s) number := by
      refine fun number _ => ⟨rfl, fun header hheader => ?_⟩
      obtain ⟨b, rfl, -, hancestor⟩ := h.wellFormed.ancestor_of_headerByNumber hheader
      exact hstates b (h.wellFormed.stored_of_ancestor hancestor fun _ => h.wellFormed.current_stored)
    obtain ⟨-, hparent, -, -⟩ := checkBlock_ok hcheck
    have hcheck' : (c.commit env s).checkBlock env now block = .ok parent := by
      have hverify : c.verifyBlock env now block parent = (c.commit env s).verifyBlock env now block parent :=
        hnet.verifyBlock_eq (hboundary block.number) fun qc _ _ => hboundary qc.number
      rw [← hcheck]
      simp only [checkBlock, hparent, hverify, checkFinality_commit c s block]
      simp [BlockChain.commit, hparent]
    have hexecute' : (c.commit env s).executeBlock env block parent = .ok (receipts, s) := by
      rw [← hexecute]
      refine (executeBlock_congr hnet (hstates parent (h.wellFormed.stored_of_blocks hparent)) fun t _ => ?_).symm
      exact ⟨Query.agree_of_forall (fun _ => rfl), fun _ => hboundary _, fun _ _ _ _ => rfl, fun _ => rfl⟩
    have htwice : (c.commit env s).commit env s = c.commit env s := by
      simp [BlockChain.commit]
    rw [insertBlock, insertBlock, hcheck, hcheck']
    dsimp only
    rw [hexecute, hexecute']
    dsimp only
    rw [htwice]

theorem insertBlock_of_stored (h : c.Stored env block) : c.insertBlock env now block = (.error .known, c) := by
  have hknown : (c.blocks (env.hash block.header)).isSome = true := by
    rw [h]
    rfl
  simp [insertBlock, checkBlock, hknown]

/-- Where an import can be interrupted before the block is stored or after the last write. -/
theorem insertWrites_take_cases {k : Nat} (hk : k ≤ 1 ∨ (c.insertWrites env now block).length ≤ k) :
    run (written env) c ((c.insertWrites env now block).take k) = c ∨
      run (written env) c ((c.insertWrites env now block).take k) = (c.insertBlock env now block).2 ∨
      ∃ parent receipts s, c.checkBlock env now block = .ok parent ∧
        c.executeBlock env block parent = .ok (receipts, s) ∧
        run (written env) c ((c.insertWrites env now block).take k) = c.commit env s := by
  rcases hk with hk | hk
  · rcases Nat.le_one_iff_eq_zero_or_eq_one.mp hk with rfl | rfl
    · exact .inl rfl
    · by_cases hexecuted : ∃ parent receipts s, c.checkBlock env now block = .ok parent ∧
          c.executeBlock env block parent = .ok (receipts, s)
      · obtain ⟨parent, receipts, s, hcheck, hexecute⟩ := hexecuted
        refine .inr (.inr ⟨parent, receipts, s, hcheck, hexecute, ?_⟩)
        simp only [insertWrites, hcheck, hexecute, List.take_succ_cons, List.take_zero]
        rfl
      · have hnone := (insertBlock_of_unexecuted fun parent receipts s hcheck hexecute =>
          hexecuted ⟨parent, receipts, s, hcheck, hexecute⟩).2
        rw [hnone]
        exact .inl rfl
  · rw [List.take_of_length_le hk, run_insertWrites]
    exact .inr (.inl rfl)

theorem Intact.insertBlock_twice (h : c.Intact env) (hkeeps : (Call.insertBlock now block).KeepsState env c) :
    ((c.insertBlock env now block).2.insertBlock env now block).2 = (c.insertBlock env now block).2 := by
  rcases insertBlock_cases env c now block with
    ⟨e, hsame⟩ | ⟨parent, receipts, s, hcheck, hexecute, hcommit | hadopt⟩
  · rw [hsame, hsame]
  · have hrepeat := h.insertBlock_commit hexecute hcheck fun t ht => hkeeps parent receipts s t hcheck hexecute ht
    rw [hcommit] at hrepeat ⊢
    rw [hrepeat]
  · have hstored : (c.insertBlock env now block).2.Stored env block := by
      rw [hadopt, Stored, adopt_blocks]
      exact writeBlock_blocks_self env _ block
    rw [insertBlock_of_stored hstored]

/-- A certificate verifies, and moves the head to its block. -/
structure MovesHead (env : Env) (c : BlockChain) (qc : QuorumCert) (newChain oldChain : List Block) (block : Block) :
    Prop where
  nonempty : ¬ qc.isEmpty = true
  verified : ∃ keys indices, c.blsKeysAt env qc.number = some keys ∧
    qc.verify env.cfg.bls env.cfg.chainID keys = .ok indices
  finalizable : c.finalizable env qc = some block
  fork : c.forkOf env block = some (newChain, oldChain)

theorem finalizeWrites_cases (env : Env) (c : BlockChain) (qc : QuorumCert) :
    (c.finalizeWrites env qc).length ≤ 1 ∨ ∃ newChain oldChain block, c.MovesHead env qc newChain oldChain block ∧
      c.finalizeWrites env qc = [.reorg newChain oldChain block, .finalized block] := by
  simp only [finalizeWrites]
  split
  · exact .inl (Nat.zero_le 1)
  rename_i hempty
  split
  · exact .inl (Nat.zero_le 1)
  rename_i keys hkeys
  split
  · exact .inl (Nat.zero_le 1)
  rename_i indices hverify
  split
  · exact .inl (Nat.zero_le 1)
  rename_i block hfinalizable
  simp only [finalizeBlockWrites]
  split
  · exact .inl le_rfl
  split
  · exact .inl (Nat.zero_le 1)
  · rename_i newChain oldChain hfork
    exact .inr ⟨newChain, oldChain, block, ⟨hempty, ⟨keys, indices, hkeys, hverify⟩, hfinalizable, hfork⟩, rfl⟩

theorem Intact.finalize_twice (h : c.Intact env) (qc : QuorumCert) :
    ((c.finalize env qc).2.finalize env qc).2 = (c.finalize env qc).2 := by
  rcases finalize_cases env c qc with hsame | ⟨block, hfinalizable, -, heq⟩
  · rw [hsame, hsame]
  obtain ⟨hlookup, -, -⟩ := h.wellFormed.finalizable_eq_some.mp hfinalizable
  obtain ⟨hwf, hblocks, hfinal, -⟩ := h.wellFormed.finalizeBlock (h.wellFormed.stored_of_blocks hlookup)
  rw [heq]
  rcases finalize_cases env (c.finalizeBlock env block).2 qc with hsame | ⟨again, hagain, -, -⟩
  · exact hsame
  · obtain ⟨hlookup', -, habove⟩ := hwf.finalizable_eq_some.mp hagain
    rw [hblocks, hlookup] at hlookup'
    cases hlookup'
    exact absurd (habove block hfinal).1 (lt_irrefl _)

/-- Once the head has moved to the block, the certificate verifies against the same keys and only the
finalized block is left to write. -/
theorem Intact.finalize_moved (h : c.Intact env) {qc : QuorumCert} (hshares : c.SharesBoundary qc)
    {newChain oldChain : List Block} (hmoves : c.MovesHead env qc newChain oldChain block) :
    ((c.written env (.reorg newChain oldChain block)).finalize env qc).2 =
      run (BlockChain.written env) c [.reorg newChain oldChain block, .finalized block] := by
  obtain ⟨hempty, ⟨keys, indices, hkeys, hverify⟩, hfinalizable, hfork⟩ := hmoves
  obtain ⟨hlookup, hheight, -⟩ := h.wellFormed.finalizable_eq_some.mp hfinalizable
  have hstored := h.wellFormed.stored_of_blocks hlookup
  have hmoved : (c.written env (.reorg newChain oldChain block)).Intact env := h.written ⟨hstored, hfork⟩
  obtain ⟨a, hboundary, hcurrent, hblock⟩ := hshares block hlookup
  have hsame : c.SameBoundary (c.written env (.reorg newChain oldChain block)) qc.number :=
    sameBoundary_of_ancestor h.wellFormed hmoved.wellFormed hboundary hcurrent hblock rfl
  have hnet : c.SameGenesis (c.written env (.reorg newChain oldChain block)) := ⟨rfl, rfl⟩
  have hfinalizable' : (c.written env (.reorg newChain oldChain block)).finalizable env qc = some block := by
    have hblocks : c.blocks = (c.written env (.reorg newChain oldChain block)).blocks := rfl
    rw [← hfinalizable]
    exact (finalizable_congr hblocks rfl qc).symm
  have hcanonical : (c.written env (.reorg newChain oldChain block)).canonical block.number =
      some (env.hash block.header) :=
    (hmoved.wellFormed.canonical_iff _ _).mpr ⟨block, hstored, rfl, Ancestor.refl block⟩
  have hwrites : (c.written env (.reorg newChain oldChain block)).finalizeWrites env qc = [.finalized block] := by
    rw [finalizeWrites, if_neg hempty]
    simp [← hnet.blsKeysAt_eq hsame, hkeys, hverify, hfinalizable', finalizeBlockWrites, hcanonical]
  rw [← run_finalizeWrites, hwrites]
  rfl

end BlockChain

/-- Where `Finalize` can be interrupted: before it, after it, or with the head moved. -/
theorem BlockChain.finalizeWrites_take_cases (env : Env) (c : BlockChain) (qc : QuorumCert) (k : Nat) :
    run (written env) c ((c.finalizeWrites env qc).take k) = c ∨
      run (written env) c ((c.finalizeWrites env qc).take k) = (c.finalize env qc).2 ∨
      k = 1 ∧ ∃ newChain oldChain block, c.MovesHead env qc newChain oldChain block ∧
        c.finalizeWrites env qc = [.reorg newChain oldChain block, .finalized block] := by
  have hdone : (c.finalizeWrites env qc).length ≤ k →
      run (written env) c ((c.finalizeWrites env qc).take k) = (c.finalize env qc).2 := by
    intro hlength
    rw [List.take_of_length_le hlength, run_finalizeWrites]
  rcases Nat.eq_zero_or_pos k with rfl | hpos
  · exact .inl rfl
  rcases finalizeWrites_cases env c qc with hshort | ⟨newChain, oldChain, block, h⟩
  · exact .inr (.inl (hdone (Nat.le_trans hshort hpos)))
  · by_cases hone : k = 1
    · exact .inr (.inr ⟨hone, newChain, oldChain, block, h⟩)
    · refine .inr (.inl (hdone ?_))
      rw [h.2]
      change 2 ≤ k
      omega

variable {env : Env} {c : BlockChain} {k : Nat}

/-- A call that is repeated after a recoverable crash ends where it would have ended without. -/
theorem Call.apply_run_take (h : c.Intact env) (call : Call)
    (hrecoverable : call.Recoverable env c k) (hkeeps : call.KeepsState env c) :
    call.apply env (run (BlockChain.written env) c ((call.writes env c).take k)) = call.apply env c := by
  cases call with
  | insertBlock now block =>
    rcases insertWrites_take_cases hrecoverable with
      hsame | hdone | ⟨parent, receipts, s, hcheck, hexecute, hcommit⟩
    · exact congrArg (Call.apply env · (.insertBlock now block)) hsame
    · refine (congrArg (Call.apply env · (.insertBlock now block)) hdone).trans ?_
      exact h.insertBlock_twice hkeeps
    · refine (congrArg (Call.apply env · (.insertBlock now block)) hcommit).trans ?_
      exact congrArg Prod.snd
        (h.insertBlock_commit hexecute hcheck fun t ht => hkeeps parent receipts s t hcheck hexecute ht)
  | finalize qc =>
    rcases finalizeWrites_take_cases env c qc k with hsame | hdone | ⟨rfl, newChain, oldChain, block, hmoves, hwrites⟩
    · exact congrArg (Call.apply env · (.finalize qc)) hsame
    · exact (congrArg (Call.apply env · (.finalize qc)) hdone).trans (h.finalize_twice qc)
    · have hshares : c.SharesBoundary qc := by
        rcases hrecoverable with hzero | hlength | hshares
        · cases hzero
        · rw [hwrites] at hlength
          exact absurd hlength (Nat.not_succ_le_self 1)
        · exact hshares
      have hmoved := h.finalize_moved hshares hmoves
      rw [← hwrites, run_finalizeWrites] at hmoved
      rw [Call.writes, hwrites]
      exact hmoved

/-- After a recoverable crash the finalized block is canonical if it was before. -/
theorem Call.finalizedCanonical_run_take (h : c.Intact env)
    (hcanonical : c.FinalizedCanonical env) (call : Call) (hbranch : call.JustifiesBranch env c)
    (hrecoverable : call.Recoverable env c k) :
    (run (BlockChain.written env) c ((call.writes env c).take k)).FinalizedCanonical env := by
  have hafter : (call.apply env c).FinalizedCanonical env :=
    call.op.apply_finalizedCanonical h.wellFormed hbranch hcanonical
  cases call with
  | insertBlock now block =>
    rw [Call.writes]
    rcases insertWrites_take_cases hrecoverable with
      hsame | hdone | ⟨parent, receipts, s, -, -, hcommit⟩
    · rw [hsame]
      exact hcanonical
    · rw [hdone]
      exact hafter
    · rw [hcommit]
      exact hcanonical
  | finalize qc =>
    rw [Call.writes]
    rcases finalizeWrites_take_cases env c qc k with hsame | hdone | ⟨rfl, newChain, oldChain, block, hmoves, hwrites⟩
    · rw [hsame]
      exact hcanonical
    · rw [hdone]
      exact hafter
    · -- the head is now the block, which descends from what was finalized before
      obtain ⟨hlookup, -, hdescends⟩ := h.wellFormed.finalizable_eq_some.mp hmoves.finalizable
      have hstored := h.wellFormed.stored_of_blocks hlookup
      have hmoved : (c.written env (.reorg newChain oldChain block)).Intact env := h.written ⟨hstored, hmoves.fork⟩
      rw [hwrites]
      exact hmoved.wellFormed.finalizedCanonical fun f hf => (hdescends f hf).2

end Repetition

section Crash

variable {env : Env} (txHash : Transaction → Hash)

theorem Session.run_spec {s : Session} (hholds : s.disk.Holds env s.chain) (hintact : s.chain.Intact env)
    (calls : List Call) :
    (run (Session.call env txHash) s calls).chain = run (Call.apply env) s.chain calls ∧
      (run (Session.call env txHash) s calls).disk.Holds env
        (run (Session.call env txHash) s calls).chain ∧ (run (Session.call env txHash) s calls).chain.Intact env := by
  induction calls generalizing s with
  | nil => exact ⟨rfl, hholds, hintact⟩
  | cons call calls ih =>
    have hwritten := hholds.writeAll txHash (call.writes env s.chain)
    rw [call.run_writes env s.chain] at hwritten
    exact ih hwritten (call.intact_apply hintact)

theorem Session.reopened_spec {s : Session} (hholds : s.disk.Holds env s.chain) (hintact : s.chain.Intact env)
    (call : Call) (k : Nat) :
    s.reopened env txHash call k =
        some (run (BlockChain.written env) s.chain ((call.writes env s.chain).take k)) ∧
      (run (BlockChain.written env) s.chain ((call.writes env s.chain).take k)).Intact env := by
  have hprefix := hintact.run_take (call.writes_safe hintact) k
  have hload := (hholds.writeAll txHash ((call.writes env s.chain).take k)).load_eq hprefix.wellFormed
  rw [BlockChain.run_written_genesis] at hload
  exact ⟨hload, hprefix⟩

/-- In every run from genesis with a crash after any number of the writes of a call, the node opens a chain
that is well formed and has the state of every stored block. If the crash is recoverable and the certificates
in imported blocks are for the branch that is canonical after the import, the finalized block is an ancestor
of the head, and the run that repeats the call and goes on ends with the head and the finalized block of the
run without the crash. -/
theorem crash_recovers {g : Genesis} {c₀ : BlockChain} (hgenesis : g.commit env = .ok c₀) {d₀ : Disk}
    (hholds : d₀.Holds env c₀) (before : List Call) (call : Call) (k : Nat) :
    ∃ c, (Transition.run (Session.call env txHash) ⟨c₀, d₀⟩ before).reopened env txHash call k = some c ∧
      c.Intact env ∧
      (Transition.Steps (Call.apply env) (Call.JustifiesBranch env) c₀ (before ++ [call]) →
        call.Recoverable env (Transition.run (Call.apply env) c₀ before) k →
        call.KeepsState env (Transition.run (Call.apply env) c₀ before) →
        c.FinalizedCanonical env ∧ ∀ after,
          (Transition.run (Call.apply env) c (call :: after)).current =
              (Transition.run (Call.apply env) c₀ (before ++ call :: after)).current ∧
            (Transition.run (Call.apply env) c (call :: after)).finalized =
              (Transition.run (Call.apply env) c₀ (before ++ call :: after)).finalized) := by
  obtain ⟨hchain, hholds', hintact⟩ := Session.run_spec txHash (s := ⟨c₀, d₀⟩) hholds
    (Genesis.intact_of_commit hgenesis) before
  obtain ⟨hload, hprefix⟩ := Session.reopened_spec txHash hholds' hintact call k
  refine ⟨_, hload, hprefix, fun hsteps hrecoverable hkeeps => ?_⟩
  rw [hchain] at hintact ⊢
  obtain ⟨hbefore, hbranch, -⟩ := Transition.steps_append.mp hsteps
  have hcanonical : (Transition.run (Call.apply env) c₀ before).FinalizedCanonical env := by
    refine (Transition.run_invariant (P := fun c => c.Intact env ∧ c.FinalizedCanonical env) ?_ hbefore
      ⟨Genesis.intact_of_commit hgenesis, fun f hf => ?_⟩).2
    · rintro c op hjustifies ⟨hc, hfinal⟩
      exact ⟨op.intact_apply hc, op.op.apply_finalizedCanonical hc.wellFormed hjustifies hfinal⟩
    · rw [(Genesis.wellFormed_of_commit hgenesis).2] at hf
      cases hf
  refine ⟨call.finalizedCanonical_run_take hintact hcanonical hbranch hrecoverable, fun after => ?_⟩
  rw [Transition.run_append, Transition.run_cons, Transition.run_cons,
    call.apply_run_take hintact hrecoverable hkeeps]
  exact ⟨rfl, rfl⟩

end Crash

/-! ### A crash before and after the block is stored -/

namespace RecoveryExample

def revealing : Block := { RejectionExample.forged with header.stateRoot := 2 ^ 65 }

theorem revealing_keepsState :
    (Call.insertBlock 100 revealing).KeepsState RejectionExample.env RejectionExample.chain := by
  intro parent receipts s t hcheck hexecute ht
  have hparent : RejectionExample.chain.blocks revealing.parentHash = some RejectionExample.chain.genesis := rfl
  rw [(BlockChain.checkBlock_ok hcheck).2.1] at hparent
  cases hparent
  have hfresh : ((RejectionExample.chain.executeBlock RejectionExample.env revealing
      RejectionExample.chain.genesis).toOption.bind fun result =>
        RejectionExample.chain.states (RejectionExample.env.stateRoot result.2)).isNone = true := by
    decide +kernel
  rw [hexecute] at hfresh
  change (RejectionExample.chain.states (RejectionExample.env.stateRoot s)).isNone = true at hfresh
  rw [ht] at hfresh
  cases hfresh

def session : Session := ⟨RejectionExample.chain, Disk.ofChain RejectionExample.env RejectionExample.chain⟩

end RecoveryExample

open RecoveryExample RejectionExample in
/-- A crash with the state committed and the block not yet stored is made good by the repeated import. -/
theorem crash_recovers_after_commit :
    ∃ c, session.reopened env (fun _ => 0) (.insertBlock 100 revealing) 1 = some c ∧ c.Intact env ∧
      c.FinalizedCanonical env ∧ ∀ after,
        (Transition.run (Call.apply env) c (.insertBlock 100 revealing :: after)).current =
            (Transition.run (Call.apply env) chain (.insertBlock 100 revealing :: after)).current ∧
          (Transition.run (Call.apply env) c (.insertBlock 100 revealing :: after)).finalized =
            (Transition.run (Call.apply env) chain (.insertBlock 100 revealing :: after)).finalized := by
  have hgenesis : (Genesis.plain [1]).commit env = .ok chain := rfl
  obtain ⟨c, hload, hintact, hrest⟩ := crash_recovers (fun _ => 0) hgenesis (Disk.ofChain_holds env chain) []
    (.insertBlock 100 revealing) 1
  refine ⟨c, hload, hintact, hrest ⟨fun qc f hqc => ?_, trivial⟩ (Or.inl le_rfl) revealing_keepsState⟩
  cases hqc

open FinalityExample in
/-- A crash after the block is stored: the repeated import takes it for known and the head stays behind. A
crash after its certificate is acted on: the finalized block is on one branch and the head on the other. -/
theorem crash_loses_import :
    ((⟨chain, Disk.ofChain env chain⟩ : Session).reopened env (fun _ => 0) (.insertBlock 100 a1) 2).map
        (fun c => (Transition.run (Call.apply env) c [.insertBlock 100 a1]).current) = some chain.genesis ∧
      (Transition.run (Call.apply env) chain [.insertBlock 100 a1]).current = a1 ∧ a1 ≠ chain.genesis ∧
      ((Transition.run (Session.call env fun _ => 0) ⟨chain, Disk.ofChain env chain⟩
          [.insertBlock 100 a1, .insertBlock 100 b1]).reopened env (fun _ => 0) (.insertBlock 100 b2) 3).map
        (fun c => (c.finalized, c.current)) = some (some b1, a1) := by
  decide +kernel

end PadiChain.Chain

import PadiChain.ChainRecovery

/-! The indexes of the canonical chain. A reorganisation drops the transactions of the blocks that leave the
canonical chain from the lookup table, and then writes those of the blocks that join it. A transaction that
occurs on both sides is found on the new side. One that occurs twice on one branch is lost when the
later block leaves: nothing in the table says that the earlier one is still canonical. -/

namespace PadiChain.Chain

open Core Staking Processor Ancestry Function BlockChain Transition List

namespace Session

variable (env : Env) (txHash : Transaction → Hash)

def opened (c : BlockChain) : Session := ⟨c, Disk.ofChain env c⟩

def insertChain (now : Nat) (s : Session) : List Block → Session
  | [] => s
  | block :: rest =>
    match (s.chain.insertBlock env now block).1 with
    | .ok () => insertChain now (s.call env txHash (.insertBlock now block)) rest
    | .error .known => insertChain now (s.call env txHash (.insertBlock now block)) rest
    | .error _ => s.call env txHash (.insertBlock now block)

def apply (s : Session) : Op → Session
  | .insertBlock now block => s.call env txHash (.insertBlock now block)
  | .insertChain now blocks => s.insertChain env txHash now blocks
  | .finalize qc => s.call env txHash (.finalize qc)

end Session

/-- A condition on the imports that `InsertChain` makes. -/
def BlockChain.EachImport (env : Env) (P : Nat → BlockChain → Block → Prop) (now : Nat) (c : BlockChain) :
    List Block → Prop
  | [] => True
  | block :: rest =>
    P now c block ∧
      match c.insertBlock env now block with
      | (.ok (), c') => EachImport env P now c' rest
      | (.error .known, c') => EachImport env P now c' rest
      | (.error _, _) => True

/-- A condition on the imports that a call makes, of the time, the chain before the import and the block. -/
def Op.EachImport (env : Env) (P : Nat → BlockChain → Block → Prop) (s : Session) : Op → Prop
  | insertBlock now block => P now s.chain block
  | insertChain now blocks => s.chain.EachImport env P now blocks
  | finalize _ => True

theorem Op.invariant {env : Env} {txHash : Transaction → Hash} {P : Nat → BlockChain → Block → Prop}
    {I : Session → Prop}
    (hinsert : ∀ s now block, P now s.chain block → I s → I (s.call env txHash (.insertBlock now block)))
    (hfinalize : ∀ s qc, I s → I (s.call env txHash (.finalize qc))) (s : Session) (op : Op)
    (hcond : op.EachImport env P s) (h : I s) : I (s.apply env txHash op) := by
  cases op with
  | insertBlock now block => exact hinsert s now block hcond h
  | finalize qc => exact hfinalize s qc h
  | insertChain now blocks =>
    rw [Session.apply]
    rw [EachImport] at hcond
    induction blocks generalizing s with
    | nil => exact h
    | cons block rest ih =>
      have hcall := hinsert s now block hcond.1 h
      have hrest := hcond.2
      have hchain : (s.call env txHash (.insertBlock now block)).chain = (s.chain.insertBlock env now block).2 := rfl
      rw [Session.insertChain]
      generalize s.chain.insertBlock env now block = result at hrest hchain
      obtain ⟨verdict, c'⟩ := result
      split
      · cases ‹verdict = _›
        exact ih _ hcall (hchain ▸ hrest)
      · cases ‹verdict = _›
        exact ih _ hcall (hchain ▸ hrest)
      · exact hcall

structure Indexed (env : Env) (txHash : Transaction → Hash) (c : BlockChain) (d : Disk) : Prop where
  height : ∀ n, n ≤ c.current.number → ∃ a, c.IsAncestor a c.current ∧ a.number = n
  canonical : ∀ a, c.IsAncestor a c.current → d.canonical a.number = some (env.hash a.header)
  above : ∀ n, c.current.number < n → d.canonical n = none
  found : ∀ b tx, c.IsAncestor b c.current → tx ∈ b.transactions → ∃ entry, d.txLookup (txHash tx) = some entry
  named : ∀ h entry, d.txLookup h = some entry → ∃ b tx, c.IsAncestor b c.current ∧
    entry.blockHash = env.hash b.header ∧ entry.blockIndex = b.number ∧
    b.transactions[entry.index]? = some tx ∧ txHash tx = h

section Lookups

variable {env : Env} {txHash : Transaction → Hash} {lookup : Hash → Option TxLookupEntry} {h : Hash}
  {entry : TxLookupEntry}

def Carries (txHash : Transaction → Hash) (h : Hash) (b : Block) : Prop := ∃ tx ∈ b.transactions, txHash tx = h

theorem foldl_update_none_eq_some {txs : List Transaction} :
    txs.foldl (fun lookup tx => update lookup (txHash tx) none) lookup h = some entry ↔
      (∀ tx ∈ txs, txHash tx ≠ h) ∧ lookup h = some entry := by
  induction txs generalizing lookup with
  | nil => simp
  | cons tx txs ih =>
    rw [foldl_cons, ih, forall_mem_cons]
    by_cases htx : h = txHash tx
    · subst htx
      simp
    · rw [update_of_ne htx]
      have hne : txHash tx ≠ h := fun heq => htx heq.symm
      simp [hne]

variable {b : Block} {hash : Hash} {number : Nat} {txs : List (Transaction × Nat)} {newChain : List Block}

theorem deleteTxLookups_eq_some :
    Disk.deleteTxLookups txHash lookup b h = some entry ↔ ¬ Carries txHash h b ∧ lookup h = some entry := by
  rw [Disk.deleteTxLookups, foldl_update_none_eq_some, Carries]
  simp

theorem foldl_deleteTxLookups_eq_some {oldChain : List Block} :
    oldChain.foldl (Disk.deleteTxLookups txHash) lookup h = some entry ↔
      (∀ b ∈ oldChain, ¬ Carries txHash h b) ∧ lookup h = some entry := by
  induction oldChain generalizing lookup with
  | nil => simp
  | cons b rest ih =>
    rw [foldl_cons, ih, deleteTxLookups_eq_some, forall_mem_cons]
    tauto

variable {found : Option TxLookupEntry}

/-- After a block's transactions are written the table names the block for them, and is as before for others. -/
theorem foldl_update_some_cases (hfound : txs.foldl (fun lookup tx =>
      update lookup (txHash tx.1) (some ⟨hash, number, tx.2⟩)) lookup h = found) :
    (∃ tx ∈ txs, txHash tx.1 = h ∧ found = some ⟨hash, number, tx.2⟩) ∨
      (∀ tx ∈ txs, txHash tx.1 ≠ h) ∧ lookup h = found := by
  induction txs generalizing lookup with
  | nil => exact .inr ⟨fun _ htx => (nomatch htx), hfound⟩
  | cons tx txs ih =>
    rw [foldl_cons] at hfound
    rcases ih hfound with ⟨other, hother, hrest⟩ | ⟨hnone, hold⟩
    · exact .inl ⟨other, mem_cons_of_mem tx hother, hrest⟩
    · rw [update_apply] at hold
      split_ifs at hold with htx
      · exact .inl ⟨tx, mem_cons_self, htx.symm, hold.symm⟩
      · exact .inr ⟨forall_mem_cons.mpr ⟨fun heq => htx heq.symm, hnone⟩, hold⟩

theorem writeTxLookups_cases (hfound : Disk.writeTxLookups env txHash lookup b h = found) :
    (∃ i tx, b.transactions[i]? = some tx ∧ txHash tx = h ∧ found = some ⟨env.hash b.header, b.number, i⟩) ∨
      ¬ Carries txHash h b ∧ lookup h = found := by
  rcases foldl_update_some_cases hfound with ⟨⟨tx, i⟩, hmem, hhash, hfound⟩ | ⟨hnone, hold⟩
  · exact .inl ⟨i, tx, mem_zipIdx_iff_getElem?.mp hmem, hhash, hfound⟩
  · refine .inr ⟨?_, hold⟩
    rintro ⟨tx, htx, hhash⟩
    obtain ⟨i, hi⟩ := mem_iff_getElem?.mp htx
    exact hnone (tx, i) (mem_zipIdx_iff_getElem?.mpr hi) hhash

/-- The table after the transactions of a chain are written, oldest block first. -/
theorem foldr_writeTxLookups_cases
    (hfound : newChain.foldr (fun b lookup => Disk.writeTxLookups env txHash lookup b) lookup h = found) :
    (∃ b ∈ newChain, ∃ i tx, b.transactions[i]? = some tx ∧ txHash tx = h ∧
      found = some ⟨env.hash b.header, b.number, i⟩) ∨
      (∀ b ∈ newChain, ¬ Carries txHash h b) ∧ lookup h = found := by
  induction newChain with
  | nil => exact .inr ⟨fun _ hb => (nomatch hb), hfound⟩
  | cons b rest ih =>
    rcases writeTxLookups_cases hfound with hwritten | ⟨hnone, hold⟩
    · exact .inl ⟨b, mem_cons_self, hwritten⟩
    · rcases ih hold with ⟨b', hb', hwritten⟩ | ⟨hrest, hold⟩
      · exact .inl ⟨b', mem_cons_of_mem b hb', hwritten⟩
      · exact .inr ⟨forall_mem_cons.mpr ⟨hnone, hrest⟩, hold⟩

end Lookups

namespace BlockChain

def Unrepeated (txHash : Transaction → Hash) (c : BlockChain) (block : Block) : Prop :=
  ∀ parent a h, c.blocks block.parentHash = some parent → c.IsAncestor a parent →
    Carries txHash h block → ¬ Carries txHash h a

def Unambiguous (env : Env) (txHash : Transaction → Hash) (c : BlockChain) : Prop :=
  ∀ b, c.Stored env b → ∀ a a' h, c.IsAncestor a b → c.IsAncestor a' b →
    Carries txHash h a → Carries txHash h a' → a = a'

variable {env : Env} {txHash : Transaction → Hash} {c : BlockChain}

variable {block : Block} {w : Write}

theorem Unambiguous.writeBlock (h : c.Unambiguous env txHash) (hwf : c.WellFormed env) {parent : Block}
    (hnew : c.blocks (env.hash block.header) = none) (hparent : c.blocks block.parentHash = some parent)
    (hnumber : block.number = parent.number + 1) (hfresh : c.Unrepeated txHash block) :
    (c.writeBlock env block).Unambiguous env txHash := by
  obtain ⟨hwf', hgrows, hstored⟩ := hwf.writeBlock hnew hparent hnumber
  have hparentStored := hwf.stored_of_blocks hparent
  have hparentOf : (c.writeBlock env block).parentOf block = some parent :=
    parentOf_eq_some.mpr ⟨hgrows _ _ hparent, hnumber⟩
  -- the ancestors of the new block other than itself are those of its parent
  have hancestors : ∀ a, (c.writeBlock env block).IsAncestor a block → a = block ∨ c.IsAncestor a parent := by
    intro a ha
    rcases Ancestor.eq_or_parent ha with rfl | ⟨p, hp, ha⟩
    · exact .inl rfl
    · rw [hparentOf] at hp
      cases hp
      exact .inr (hwf.isAncestor_of_grows hgrows (hwf.linked_of_stored hparentStored) ha)
  intro b hb a a' hash ha ha' hcarries hcarries'
  by_cases hsame : b = block
  · subst hsame
    rcases hancestors a ha with rfl | hbelow
    · rcases hancestors a' ha' with rfl | hbelow'
      · rfl
      · exact absurd hcarries' (hfresh parent a' hash hparent hbelow' hcarries)
    · rcases hancestors a' ha' with rfl | hbelow'
      · exact absurd hcarries (hfresh parent a hash hparent hbelow hcarries')
      · exact h parent hparentStored a a' hash hbelow hbelow' hcarries hcarries'
  · have hold : c.Stored env b := by
      rw [Stored, ← hb]
      refine (writeBlock_blocks_of_ne env c fun heq => hsame ?_).symm
      exact hb.eq_of_hash_eq hstored heq
    have hlinked := hwf.linked_of_stored hold
    exact h b hold a a' hash (hwf.isAncestor_of_grows hgrows hlinked ha) (hwf.isAncestor_of_grows hgrows hlinked ha')
      hcarries hcarries'

/-- A block that is written has no repeated transaction. -/
def Fresh (txHash : Transaction → Hash) (c : BlockChain) : Write → Prop
  | .block block _ => c.Unrepeated txHash block
  | _ => True

theorem steps_of_ne_block {Q : BlockChain → Write → Prop}
    (hother : ∀ c w, (∀ block receipts, w ≠ Write.block block receipts) → Q c w) {writes : List Write}
    (h : ∀ w ∈ writes, ∀ block receipts, w ≠ Write.block block receipts) :
    Steps (written env) Q c writes := by
  induction writes generalizing c with
  | nil => trivial
  | cons w writes ih =>
    exact ⟨hother c w (h w mem_cons_self), ih fun w' hw' => h w' (mem_cons_of_mem w hw')⟩

theorem ne_block_of_mem_reorgWrites (hw : w ∈ c.reorgWrites env block)
    (b : Block) (receipts : List Receipt) : w ≠ .block b receipts := by
  rintro rfl
  simp only [reorgWrites] at hw
  split at hw
  · cases hw
  · cases mem_singleton.mp hw

theorem ne_block_of_mem_justificationWrites (hw : w ∈ c.justificationWrites env block)
    (b : Block) (receipts : List Receipt) : w ≠ .block b receipts := by
  rintro rfl
  simp only [justificationWrites] at hw
  split at hw
  · cases hw
  split at hw
  · cases hw
  · cases mem_singleton.mp hw

structure Accepts (env : Env) (now : Nat) (c : BlockChain) (block : Block) (receipts : List Receipt) (s : StateDB) :
    Prop where
  checked : ∃ parent, c.checkBlock env now block = .ok parent ∧ c.executeBlock env block parent = .ok (receipts, s)
  root : env.stateRoot s = block.header.stateRoot

section Writes

variable {Q : BlockChain → Write → Prop} (hother : ∀ c w, (∀ block receipts, w ≠ Write.block block receipts) → Q c w)

include hother

theorem steps_insertWrites {now : Nat}
    (hblock : ∀ receipts s, c.Accepts env now block receipts s → Q (c.commit env s) (.block block receipts)) :
    Steps (written env) Q c (c.insertWrites env now block) := by
  simp only [insertWrites]
  split
  · trivial
  rename_i parent hcheck
  split
  · trivial
  rename_i receipts s hexecute
  refine ⟨hother _ _ (by simp), ?_⟩
  split
  · trivial
  rename_i hroot
  refine ⟨hblock receipts s ⟨⟨parent, hcheck, hexecute⟩, not_not.mp hroot⟩, steps_of_ne_block hother (fun w hw => ?_)⟩
  rcases mem_append.mp hw with hw | hw
  · exact ne_block_of_mem_justificationWrites hw
  · split at hw
    · exact ne_block_of_mem_reorgWrites hw
    · cases hw

theorem steps_finalizeWrites (c : BlockChain) (qc : QuorumCert) :
    Steps (written env) Q c (c.finalizeWrites env qc) := by
  refine steps_of_ne_block hother (fun w hw b receipts hsame => ?_)
  subst hsame
  simp only [finalizeWrites, finalizeBlockWrites] at hw
  iterate 4
    split at hw
    · cases hw
  split at hw
  · cases mem_singleton.mp hw
  split at hw
  · cases hw
  · simp at hw

end Writes

theorem fresh_of_ne_block (c : BlockChain) (w : Write) (h : ∀ block receipts, w ≠ Write.block block receipts) :
    c.Fresh txHash w := by
  cases w with
  | block block receipts => exact absurd rfl (h block receipts)
  | commit s | finalized block | reorg newChain oldChain block => trivial

end BlockChain

structure InStep (env : Env) (txHash : Transaction → Hash) (c : BlockChain) (d : Disk) : Prop where
  intact : c.Intact env
  holds : d.Holds env c
  unambiguous : c.Unambiguous env txHash
  found : ∀ b h, c.IsAncestor b c.current → Carries txHash h b → (d.txLookup h).isSome = true
  named : ∀ h entry, d.txLookup h = some entry → ∃ b tx, c.IsAncestor b c.current ∧
    entry.blockHash = env.hash b.header ∧ entry.blockIndex = b.number ∧
    b.transactions[entry.index]? = some tx ∧ txHash tx = h

namespace InStep

variable {env : Env} {txHash : Transaction → Hash} {c : BlockChain} {d : Disk}

variable (h : InStep env txHash c d)

include h

theorem reorg {block : Block} {newChain oldChain : List Block}
    (hstored : c.Stored env block) (hfork : c.forkOf env block = some (newChain, oldChain)) :
    InStep env txHash (c.written env (.reorg newChain oldChain block))
      (d.write env txHash (.reorg newChain oldChain block)) := by
  obtain ⟨newChain', oldChain', z, hfork', hzNew, hzOld, hnew, hold⟩ := h.intact.wellFormed.forkOf_spec hstored
  cases hfork.symm.trans hfork'
  refine ⟨h.intact.written ⟨hstored, hfork⟩, h.holds.write txHash _, h.unambiguous, ?_, ?_⟩
  · intro b hash hb hcarries
    refine Option.isSome_iff_exists.mpr ?_
    rcases foldr_writeTxLookups_cases rfl with ⟨_, _, i, _, _, _, hwritten⟩ | ⟨hnone, hkept⟩
    · exact ⟨_, hwritten⟩
    · -- the block is canonical before and after, and no block that leaves has the transaction
      have habove : ¬ z.number < b.number := fun hlt => hnone b ((hnew b).mpr ⟨hb, hlt⟩) hcarries
      have hb : c.IsAncestor b c.current := (hb.of_number_le hzNew (not_lt.mp habove)).trans hzOld
      obtain ⟨entry, hentry⟩ := Option.isSome_iff_exists.mp (h.found b hash hb hcarries)
      refine ⟨entry, hkept.symm.trans (foldl_deleteTxLookups_eq_some.mpr ⟨fun b' hb' hcarries' => ?_, hentry⟩)⟩
      obtain ⟨hancestor, hlt⟩ := (hold b').mp hb'
      have hsame := h.unambiguous _ h.intact.wellFormed.current_stored b b' hash hb hancestor hcarries hcarries'
      exact habove (hsame ▸ hlt)
  · intro hash entry hentry
    rcases foldr_writeTxLookups_cases hentry with ⟨b, hb, i, tx, hi, hhash, hwritten⟩ | ⟨-, hkept⟩
    · cases hwritten
      exact ⟨b, tx, ((hnew b).mp hb).1, rfl, rfl, hi, hhash⟩
    · obtain ⟨hdropped, hentry⟩ := foldl_deleteTxLookups_eq_some.mp hkept
      obtain ⟨b, tx, hb, hblock, hnumber, hi, hhash⟩ := h.named hash entry hentry
      have hlow : b.number ≤ z.number :=
        not_lt.mp fun hlt => hdropped b ((hold b).mpr ⟨hb, hlt⟩) ⟨tx, mem_of_getElem? hi, hhash⟩
      exact ⟨b, tx, (hb.of_number_le hzOld hlow).trans hzNew, hblock, hnumber, hi, hhash⟩

theorem write {w : Write} (hsafe : c.Safe env w) (hfresh : c.Fresh txHash w) :
    InStep env txHash (c.written env w) (d.write env txHash w) := by
  cases w with
  | commit s => exact ⟨h.intact.commit s, h.holds.write txHash _, h.unambiguous, h.found, h.named⟩
  | block block receipts =>
    have hwf := h.intact.wellFormed
    obtain ⟨hnew, -, parent, hparent, hnumber⟩ := id hsafe
    obtain ⟨-, hgrows, -⟩ := hwf.writeBlock hnew hparent hnumber
    have hcurrent := hwf.linked_of_stored hwf.current_stored
    refine ⟨h.intact.written hsafe, h.holds.write txHash _, h.unambiguous.writeBlock hwf hnew hparent hnumber hfresh,
      fun b hash hb hcarries => ?_, fun hash entry hentry => ?_⟩
    · exact h.found b hash (hwf.isAncestor_of_grows hgrows hcurrent hb) hcarries
    · obtain ⟨b, tx, hb, hrest⟩ := h.named hash entry hentry
      exact ⟨b, tx, hb.mono hgrows, hrest⟩
  | finalized block =>
    exact ⟨h.intact.written hsafe, h.holds.write txHash _, h.unambiguous, h.found, h.named⟩
  | reorg newChain oldChain block => exact h.reorg hsafe.1 hsafe.2

theorem writeAll {writes : List Write} (hsafe : Steps (written env) (Safe env) c writes)
    (hfresh : Steps (written env) (Fresh txHash) c writes) :
    InStep env txHash (Transition.run (written env) c writes) (d.writeAll env txHash writes) := by
  induction writes generalizing c d with
  | nil => exact h
  | cons w writes ih => exact ih (h.write hsafe.1 hfresh.1) hsafe.2 hfresh.2

theorem indexed : Indexed env txHash c d := by
  have hwf := h.intact.wellFormed
  refine ⟨fun n hn => ?_, fun a ha => ?_, fun n hn => ?_, fun b tx hb htx => ?_, h.named⟩
  · exact hwf.exists_ancestor (hwf.linked_of_stored hwf.current_stored) hn
  · rw [h.holds.canonical, hwf.canonical_iff]
    exact ⟨a, hwf.stored_of_ancestor ha fun _ => hwf.current_stored, rfl, ha⟩
  · rw [h.holds.canonical, Option.eq_none_iff_forall_ne_some]
    intro hash hcanonical
    obtain ⟨b, -, rfl, hb⟩ := (hwf.canonical_iff n hash).mp hcanonical
    exact absurd hb.number_le (not_le.mpr hn)
  · exact Option.isSome_iff_exists.mp (h.found b _ hb ⟨tx, htx, rfl⟩)

end InStep

namespace Call

def Unrepeated (txHash : Transaction → Hash) (c : BlockChain) : Call → Prop
  | insertBlock _ block => c.Unrepeated txHash block
  | finalize _ => True

variable {env : Env} {txHash : Transaction → Hash}

theorem inStep {s : Session} (h : InStep env txHash s.chain s.disk) {call : Call}
    (hfresh : call.Unrepeated txHash s.chain) :
    InStep env txHash (s.call env txHash call).chain (s.call env txHash call).disk := by
  have hsteps : Steps (written env) (Fresh txHash) s.chain (call.writes env s.chain) := by
    cases call with
    | insertBlock now block => exact steps_insertWrites fresh_of_ne_block fun _ _ _ => hfresh
    | finalize qc => exact steps_finalizeWrites fresh_of_ne_block s.chain qc
  have hrun := h.writeAll (call.writes_safe h.intact) hsteps
  rw [call.run_writes] at hrun
  exact hrun

end Call

theorem Genesis.inStep_of_commit {env : Env} {txHash : Transaction → Hash} {g : Genesis} {c : BlockChain}
    (h : g.commit env = .ok c) : InStep env txHash c (Disk.ofChain env c) := by
  have hempty : ∀ hash b, c.blocks hash = some b → b = c.genesis ∧ b.transactions = [] := by
    intro hash b hb
    have hgenesis := (Genesis.blocks_of_commit h hb).1
    refine ⟨hgenesis, ?_⟩
    rw [hgenesis]
    obtain ⟨s, rfl⟩ := Genesis.commit_eq_ok h
    rfl
  have hwf := (Genesis.wellFormed_of_commit h).1
  have hcarries : ∀ b a hash, c.Stored env b → c.IsAncestor a b → ¬ Carries txHash hash a := by
    rintro b a hash hb ha ⟨tx, htx, -⟩
    have hstored := hwf.stored_of_ancestor ha fun _ => hb
    rw [(hempty _ a hstored).2] at htx
    cases htx
  refine ⟨Genesis.intact_of_commit h, Disk.ofChain_holds env c, ?_, ?_, fun _ _ hentry => (nomatch hentry)⟩
  · intro b hb a a' hash ha _ hcarries' _
    exact absurd hcarries' (hcarries b a hash hb ha)
  · intro b hash hb hcarries'
    exact absurd hcarries' (hcarries _ b hash hwf.current_stored hb)

/-- In every run from genesis in which no block repeats a transaction of its own branch, the canonical index
names the ancestors of the head, and the lookup table the transactions in them. -/
theorem indexed_of_unrepeated {env : Env} (txHash : Transaction → Hash) {g : Genesis} {c₀ : BlockChain}
    (hgenesis : g.commit env = .ok c₀) {ops : List Op} (hsteps : Transition.Steps (Session.apply env txHash)
      (Op.EachImport env fun _ c block => c.Unrepeated txHash block) (Session.opened env c₀) ops) :
    Indexed env txHash (Transition.run (Session.apply env txHash) (Session.opened env c₀) ops).chain
      (Transition.run (Session.apply env txHash) (Session.opened env c₀) ops).disk := by
  refine InStep.indexed ?_
  refine Transition.run_invariant (P := fun s : Session => InStep env txHash s.chain s.disk) ?_ hsteps
    (Genesis.inStep_of_commit hgenesis)
  exact Op.invariant (fun _ _ _ hfresh h => Call.inStep h hfresh) fun _ _ h => Call.inStep h trivial

/-! ### A transaction that is not used up -/

namespace IndexExample

/-- A creation by an account with the last nonce: `Create` refuses it and leaves the nonce as it is. -/
def env : Env :=
  { Env.plain (fun s => BitVec.ofNat 256 (s.balance 5).toNat) with
    message _ _ := some ⟨5, none, 2 ^ 64 - 1, 0, 53000, minBaseFee, minBaseFee, minBaseFee, [], []⟩
    evmCreate _ msg gas s :=
      if s.nonce msg.sender + 1 < 2 ^ 64 then .done ⟨0, 0, true, [], s.setNonce msg.sender (s.nonce msg.sender + 1)⟩
      else .done ⟨gas, 0, true, [], s⟩ }

def genesis : Genesis := { Genesis.plain [1] with alloc := [⟨5, 10 ^ 15, 2 ^ 64 - 1, [], []⟩] }

def chain : BlockChain :=
  let s := genesis.toState.toOption.getD StateDB.empty
  Genesis.openChain env (genesis.toBlock env s) s

theorem chain_of_commit : genesis.commit env = .ok chain := rfl

def txHash (tx : Transaction) : Hash := BitVec.ofNat 256 tx.bytes.length

def creation : Transaction := ⟨[]⟩

def child (parent : Block) (tag : UInt8) (txs : List Transaction) : Block :=
  { emptyChild parent 1 tag [] with
    header.gasUsed := 53000 * txs.length
    header.stateRoot := parent.header.stateRoot - BitVec.ofNat 256 (53000 * minBaseFee * txs.length)
    transactions := txs }

def run (blocks : List Block) : Session :=
  Transition.run (Session.apply env txHash) (Session.opened env chain) (Op.imports 100 blocks)

/-- Two branches with the transaction at different heights. -/
def left : Block := child chain.genesis 1 [creation]

def right₁ : Block := child chain.genesis 2 []

def right₂ : Block := child right₁ 2 [creation]

def again : Block := child left 1 [creation]

def other₁ : Block := child left 2 []

def other₂ : Block := child other₁ 2 []

theorem not_carries_nil {h : Hash} {b : Block} (hb : b.transactions = []) : ¬ Carries txHash h b := by
  rintro ⟨tx, htx, -⟩
  rw [hb] at htx
  cases htx

theorem not_carries_of_isAncestor_genesis {c : BlockChain} {a : Block} {h : Hash} (ha : c.IsAncestor a chain.genesis) :
    ¬ Carries txHash h a := by
  rcases Ancestor.eq_or_parent ha with rfl | ⟨p, hp, -⟩
  · exact not_carries_nil rfl
  · exact nomatch (show 0 = p.number + 1 from number_of_parentOf c _ p hp)

theorem unrepeated_left : chain.Unrepeated txHash left := by
  intro parent a h hparent ha _
  have hgenesis : chain.blocks left.parentHash = some chain.genesis := by decide +kernel
  obtain rfl := Option.some.inj (hgenesis.symm.trans hparent)
  exact not_carries_of_isAncestor_genesis ha

theorem unrepeated_right₁ {c : BlockChain} : c.Unrepeated txHash right₁ :=
  fun _ _ _ _ _ hcarries => absurd hcarries (not_carries_nil rfl)

theorem unrepeated_right₂ : (run [left, right₁]).chain.Unrepeated txHash right₂ := by
  intro parent a h hparent ha _
  have hfirst : (run [left, right₁]).chain.blocks right₂.parentHash = some right₁ := by decide +kernel
  have hgenesis : (run [left, right₁]).chain.parentOf right₁ = some chain.genesis := by decide +kernel
  obtain rfl := Option.some.inj (hfirst.symm.trans hparent)
  rcases Ancestor.eq_or_parent ha with rfl | ⟨p, hp, ha⟩
  · exact not_carries_nil rfl
  · obtain rfl := Option.some.inj (hgenesis.symm.trans hp)
    exact not_carries_of_isAncestor_genesis ha

end IndexExample

open IndexExample in
/-- A transaction on both sides of a reorganisation is found on the side that has become canonical. -/
theorem indexed_both_sides :
    (run [left, right₁, right₂]).chain.current = right₂ ∧
      (run [left, right₁, right₂]).disk.txLookup (txHash creation) = some ⟨env.hash right₂.header, 2, 0⟩ ∧
      Indexed env txHash (run [left, right₁, right₂]).chain (run [left, right₁, right₂]).disk :=
  ⟨by decide +kernel, by decide +kernel, indexed_of_unrepeated txHash chain_of_commit
    ⟨unrepeated_left, unrepeated_right₁, unrepeated_right₂, trivial⟩⟩

open IndexExample in
/-- The block at height 2 repeats the transaction of the block at height 1. When another branch takes its place the
entry is deleted, though the first block is still canonical. -/
theorem lookup_lost_for_repeated : ¬ ∀ (env : Env) (txHash : Transaction → Hash) (g : Genesis) (c₀ : BlockChain)
    (ops : List Op), g.commit env = .ok c₀ →
      Indexed env txHash (Transition.run (Session.apply env txHash) (Session.opened env c₀) ops).chain
        (Transition.run (Session.apply env txHash) (Session.opened env c₀) ops).disk := by
  intro h
  have hindexed := h env txHash genesis chain (Op.imports 100 [left, again, other₁, other₂]) chain_of_commit
  have hsecond : (run [left, again, other₁, other₂]).chain.parentOf other₂ = some other₁ := by decide +kernel
  have hfirst : (run [left, again, other₁, other₂]).chain.parentOf other₁ = some left := by decide +kernel
  have hlost : (run [left, again, other₁, other₂]).disk.txLookup (txHash creation) = none := by decide +kernel
  have hancestor : (run [left, again, other₁, other₂]).chain.IsAncestor left
      (run [left, again, other₁, other₂]).chain.current := by
    exact Ancestor.of_parent hsecond (Ancestor.of_parent hfirst (Ancestor.refl left))
  obtain ⟨entry, hentry⟩ := hindexed.found left creation hancestor mem_cons_self
  exact nomatch hlost.symm.trans hentry

end PadiChain.Chain

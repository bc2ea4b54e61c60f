import PadiChain.ChainGenesis
import PadiChain.LibTransition

/-! Finality along a run of the chain. Blocks are finalized by a certificate given to `Finalize`,
which moves the head onto the finalized branch, and by a certificate carried in an imported block,
which does not. The finalized blocks of a run descend from one another in every case; the finalized
block stays canonical as long as the certificates in imported blocks are for the branch that is
canonical after the import. -/

namespace PadiChain.Chain

open Core Staking Processor Ancestry Transition

namespace BlockChain

def FinalizedCanonical (env : Env) (c : BlockChain) : Prop :=
  ∀ f, c.finalized = some f → c.canonical f.number = some (env.hash f.header) ∧ c.IsAncestor f c.current

/-- What is finalized in the later chain descends from what was finalized in the earlier one. -/
def FinalExtends (c c' : BlockChain) : Prop :=
  ∀ f, c.finalized = some f → ∃ f', c'.finalized = some f' ∧ c'.IsAncestor f f'

/-- The block whose branch is canonical after an import: the parent of a block higher than the head,
and otherwise the head. -/
def branchAfter (c : BlockChain) (block : Block) : Option Block :=
  if c.current.number < block.number then c.blocks block.parentHash else some c.current

/-- If the certificate in a block would finalize a stored block, that block is on the branch that is
canonical after the import. -/
def JustifiesBranch (env : Env) (c : BlockChain) (block : Block) : Prop :=
  ∀ qc f, certificateOf env block.header = some qc → c.finalizable env qc = some f →
    ∀ b, c.branchAfter block = some b → c.IsAncestor f b

/-- The same for the blocks `InsertChain` reaches. -/
def JustifiesBranches (env : Env) (now : Nat) (c : BlockChain) : List Block → Prop
  | [] => True
  | block :: rest =>
    c.JustifiesBranch env block ∧
      match c.insertBlock env now block with
      | (.ok (), c') => JustifiesBranches env now c' rest
      | (.error .known, c') => JustifiesBranches env now c' rest
      | (.error _, _) => True

/-- The later chain is well formed, keeps every block, and its finality extends the earlier one's. -/
structure Extends (env : Env) (c c' : BlockChain) : Prop where
  wellFormed : c'.WellFormed env
  grows : c.Grows c'
  finalExtends : c.FinalExtends c'

variable {env : Env} {c : BlockChain}

theorem FinalExtends.of_eq {c' : BlockChain} (h : c'.finalized = c.finalized) : c.FinalExtends c' :=
  fun f hf => ⟨f, h.trans hf, Ancestor.refl f⟩

theorem WellFormed.extends_self (hwf : c.WellFormed env) : c.Extends env c :=
  ⟨hwf, Grows.refl c, .of_eq rfl⟩

theorem Extends.trans {c₁ c₂ c₃ : BlockChain} (h₁ : c₁.Extends env c₂) (h₂ : c₂.Extends env c₃) :
    c₁.Extends env c₃ := by
  refine ⟨h₂.wellFormed, h₁.grows.trans h₂.grows, fun f hf => ?_⟩
  obtain ⟨f', hf', hancestor⟩ := h₁.finalExtends f hf
  obtain ⟨f'', hf'', hancestor'⟩ := h₂.finalExtends f' hf'
  exact ⟨f'', hf'', (hancestor.mono h₂.grows).trans hancestor'⟩

theorem WellFormed.finalizedCanonical (hwf : c.WellFormed env)
    (h : ∀ f, c.finalized = some f → c.IsAncestor f c.current) : c.FinalizedCanonical env := by
  intro f hf
  exact ⟨(hwf.canonical_iff _ _).mpr ⟨f, hwf.finalized_stored f hf, rfl, h f hf⟩, h f hf⟩

variable {qc : QuorumCert} {f block parent : Block} {now : Nat}

/-- What a certificate newly finalizes: a stored block at its height, above the finalized block and
descending from it. -/
theorem WellFormed.finalizable_eq_some (hwf : c.WellFormed env) :
    c.finalizable env qc = some f ↔ c.blocks qc.blockHash = some f ∧ f.number = qc.number ∧
      ∀ final, c.finalized = some final → final.number < f.number ∧ c.IsAncestor final f := by
  simp only [finalizable]
  cases hblock : c.blocks qc.blockHash with
  | none => simp
  | some block =>
    have hlinked := hwf.linked_of_stored (hwf.stored_of_blocks hblock)
    cases hfinal : c.finalized with
    | none =>
      simp only [Option.ite_none_left_eq_some, not_not, Option.some.injEq]
      constructor
      · rintro ⟨hnumber, rfl⟩
        exact ⟨rfl, hnumber, by simp⟩
      · rintro ⟨rfl, hnumber, -⟩
        exact ⟨hnumber, rfl⟩
    | some final =>
      have hdescends := hwf.isDescendant_iff hlinked (hwf.finalized_stored final hfinal)
      simp only [Option.ite_none_left_eq_some, Option.ite_none_right_eq_some, not_not, not_le, Option.some.injEq]
      constructor
      · rintro ⟨hnumber, hlt, hdesc, rfl⟩
        refine ⟨rfl, hnumber, ?_⟩
        rintro _ rfl
        exact ⟨hlt, (hdescends hlt).mp hdesc⟩
      · rintro ⟨rfl, hnumber, hbelow⟩
        obtain ⟨hlt, hancestor⟩ := hbelow final rfl
        exact ⟨hnumber, hlt, (hdescends hlt).mpr hancestor, rfl⟩

theorem WellFormed.finalizable_of_commit (hwf : c.WellFormed env) {s : StateDB}
    (h : (c.commit env s).finalizable env qc = some f) : c.finalizable env qc = some f :=
  hwf.finalizable_eq_some.mpr ((hwf.commit s).finalizable_eq_some.mp h)

theorem checkBlock_ok (h : c.checkBlock env now block = .ok parent) :
    c.blocks (env.hash block.header) = none ∧ c.blocks block.parentHash = some parent ∧
      c.verifyBlock env now block parent = .ok () ∧ c.checkFinality env block = .ok () := by
  simp only [checkBlock] at h
  split_ifs at h with hnew
  split at h
  · cases h
  rename_i hparent
  split at h
  · cases h
  rename_i hverify
  split at h
  · cases h
  rename_i hfinality
  cases h
  exact ⟨Option.not_isSome_iff_eq_none.mp hnew, hparent, hverify, hfinality⟩

/-- An import is refused with nothing changed, refused with the state of the block committed, or adopts
the block. -/
theorem insertBlock_cases (env : Env) (c : BlockChain) (now : Nat) (block : Block) :
    (∃ e, c.insertBlock env now block = (.error e, c)) ∨
      ∃ parent receipts s, c.checkBlock env now block = .ok parent ∧
        c.executeBlock env block parent = .ok (receipts, s) ∧
        (c.insertBlock env now block = (.error .stateRootMismatch, c.commit env s) ∨
          c.insertBlock env now block = (c.commit env s).adopt env block) := by
  simp only [insertBlock]
  split
  · exact .inl ⟨_, rfl⟩
  rename_i parent hcheck
  split
  · exact .inl ⟨_, rfl⟩
  rename_i receipts s hexecute
  refine .inr ⟨parent, receipts, s, hcheck, hexecute, ?_⟩
  split
  · exact .inl rfl
  · exact .inr rfl

theorem insertBlock_ok (h : (c.insertBlock env now block).1 = .ok ()) :
    ∃ parent receipts s, c.checkBlock env now block = .ok parent ∧
      c.executeBlock env block parent = .ok (receipts, s) ∧ env.stateRoot s = block.header.stateRoot ∧
      c.insertBlock env now block = (c.commit env s).adopt env block := by
  simp only [insertBlock] at h ⊢
  split at h
  · cases h
  rename_i parent hcheck
  split at h
  · cases h
  rename_i receipts s hexecute
  split_ifs at h with hroot
  refine ⟨parent, receipts, s, hcheck, hexecute, not_not.mp hroot, ?_⟩
  rw [if_neg hroot]

theorem number_of_verifyJustification {header : Header}
    (h : c.verifyJustification env header = .ok ()) (hqc : certificateOf env header = some qc) :
    qc.number < header.number := by
  simp only [certificateOf] at hqc
  split at hqc
  · rename_i qc' hdecode
    obtain ⟨-, hsame⟩ := Option.ite_none_left_eq_some.mp hqc
    cases hsame
    simp only [verifyJustification, hdecode] at h
    split at h
    · cases h
    · exact not_le.mp ‹_›
  · cases hqc

/-- The certificate verifies against the keys the chain reads for its height. -/
def Certified (env : Env) (c : BlockChain) (qc : QuorumCert) : Prop :=
  ∃ keys indices, c.blsKeysAt env qc.number = some keys ∧
    qc.verify env.cfg.bls env.cfg.chainID keys = .ok indices

theorem reorgTo_eq_some {d : BlockChain} (h : c.reorgTo env block = some d) :
    ∃ canonical, d = { c with canonical := canonical, current := block } := by
  simp only [reorgTo] at h
  split at h
  · cases h
  · cases h
    exact ⟨_, rfl⟩

section

variable (env c block)

theorem applyJustification_cases :
    c.applyJustification env block = c ∨ ∃ qc f, certificateOf env block.header = some qc ∧
      c.finalizable env qc = some f ∧ c.Certified env qc ∧
      c.applyJustification env block = { c with finalized := some f } := by
  simp only [applyJustification]
  cases hjust : c.verifiedJustification env block with
  | none => exact .inl rfl
  | some qc =>
    have hqc : certificateOf env block.header = some qc ∧ c.Certified env qc := by
      simp only [verifiedJustification] at hjust
      split at hjust
      · cases hjust
      rename_i hcert
      split at hjust
      · cases hjust
      rename_i keys hkeys
      split at hjust
      · cases hjust
      · rename_i indices hverify
        cases hjust
        exact ⟨hcert, keys, indices, hkeys, hverify⟩
    simp only [finalizeLocked]
    cases hfinal : c.finalizable env qc with
    | none => exact .inl rfl
    | some f => exact .inr ⟨qc, f, hqc.1, hfinal, hqc.2, rfl⟩

/-- What an adopted block can change: itself stored, the finalized block, the index and the head. -/
theorem adopt_eq :
    ∃ canonical current, (c.adopt env block).2 =
      { (c.writeBlock env block).applyJustification env block with
        canonical := canonical, current := current } := by
  simp only [adopt]
  split
  · split
    · exact ⟨_, _, rfl⟩
    · rename_i moved hmoved
      obtain ⟨canonical, hsame⟩ := reorgTo_eq_some hmoved
      exact ⟨canonical, block, hsame⟩
  · exact ⟨_, _, rfl⟩

theorem applyJustification_eq : ∃ final, c.applyJustification env block = { c with finalized := final } := by
  rcases applyJustification_cases env c block with hsame | ⟨qc, f, -, -, -, happly⟩
  · exact ⟨c.finalized, hsame⟩
  · exact ⟨some f, happly⟩

theorem adopt_current : (c.adopt env block).2.current = c.current ∨ (c.adopt env block).2.current = block := by
  have hjustified : ((c.writeBlock env block).applyJustification env block).current = c.current := by
    obtain ⟨final, heq⟩ := applyJustification_eq env (c.writeBlock env block) block
    rw [heq]
    rfl
  simp only [adopt]
  split
  · split
    · exact .inl hjustified
    · rename_i moved hmoved
      obtain ⟨canonical, hsame⟩ := reorgTo_eq_some hmoved
      rw [hsame]
      exact .inr rfl
  · exact .inl hjustified

theorem applyJustification_blocks : (c.applyJustification env block).blocks = c.blocks := by
  obtain ⟨final, heq⟩ := applyJustification_eq env c block
  rw [heq]

theorem adopt_blocks : (c.adopt env block).2.blocks = (c.writeBlock env block).blocks := by
  obtain ⟨canonical, current, heq⟩ := adopt_eq env c block
  rw [heq]
  exact applyJustification_blocks env _ block

theorem finalize_cases (qc : QuorumCert) :
    (c.finalize env qc).2 = c ∨
      ∃ block, c.finalizable env qc = some block ∧ c.Certified env qc ∧
        c.finalize env qc = c.finalizeBlock env block := by
  simp only [finalize, finalizable]
  split
  · exact .inl rfl
  split
  · exact .inl rfl
  rename_i keys hkeys
  split
  · exact .inl rfl
  rename_i indices hverify
  have hcertified : c.Certified env qc := ⟨keys, indices, hkeys, hverify⟩
  cases c.blocks qc.blockHash with
  | none => exact .inl rfl
  | some block =>
    dsimp only
    split
    · exact .inl rfl
    cases c.finalized with
    | none => exact .inr ⟨block, rfl, hcertified, rfl⟩
    | some final =>
      dsimp only
      split
      · exact .inl rfl
      split
      · exact .inr ⟨block, rfl, hcertified, rfl⟩
      · exact .inl rfl

theorem finalize_eq (qc : QuorumCert) :
    ∃ canonical current final, (c.finalize env qc).2 =
      { c with canonical := canonical, current := current, finalized := final } := by
  rcases finalize_cases env c qc with hsame | ⟨block, -, -, heq⟩
  · exact ⟨_, _, _, hsame⟩
  · rw [heq, finalizeBlock]
    split
    · exact ⟨_, _, _, rfl⟩
    · split
      · exact ⟨_, _, _, rfl⟩
      · rename_i moved hmoved
        obtain ⟨canonical, hsame⟩ := reorgTo_eq_some hmoved
        rw [hsame]
        exact ⟨_, _, _, rfl⟩

theorem finalize_blocks (qc : QuorumCert) : (c.finalize env qc).2.blocks = c.blocks := by
  obtain ⟨canonical, current, final, heq⟩ := finalize_eq env c qc
  rw [heq]

end

section

variable (hwf : c.WellFormed env)

include hwf

/-- Adopting a block: the head moves to it if it is higher, and its certificate may finalize a block
that was already stored. -/
theorem WellFormed.adopt (hnew : c.blocks (env.hash block.header) = none) (hparent : c.blocks block.parentHash = some parent)
    (hnumber : block.number = parent.number + 1)
    (hbelow : ∀ qc, certificateOf env block.header = some qc → qc.number < block.number) :
    (c.adopt env block).1 = .ok () ∧ (c.adopt env block).2.WellFormed env ∧ c.Grows (c.adopt env block).2 ∧
      (c.adopt env block).2.current = (if c.current.number < block.number then block else c.current) ∧
      ((c.adopt env block).2.finalized = c.finalized ∨ ∃ qc f, certificateOf env block.header = some qc ∧
        c.finalizable env qc = some f ∧ (c.adopt env block).2.finalized = some f) := by
  obtain ⟨hwf₁, hgrows, hstored⟩ := hwf.writeBlock hnew hparent hnumber
  -- what the certificate does to the finalized block, in terms of the chain before the import
  obtain ⟨final, happly, hwf₂, hfinal⟩ : ∃ final,
      (c.writeBlock env block).applyJustification env block =
        { c.writeBlock env block with finalized := final } ∧
      WellFormed env { c.writeBlock env block with finalized := final } ∧
      (final = c.finalized ∨ ∃ qc f, certificateOf env block.header = some qc ∧
        c.finalizable env qc = some f ∧ final = some f) := by
    rcases applyJustification_cases env (c.writeBlock env block) block with
      hsame | ⟨qc, f, hqc, hfinalizable, -, happly⟩
    · exact ⟨c.finalized, hsame, hwf₁, Or.inl rfl⟩
    · obtain ⟨hlookup, hheight, hdescends⟩ := hwf₁.finalizable_eq_some.mp hfinalizable
      have hlt := hbelow qc hqc
      have hold : c.blocks qc.blockHash = some f := by
        rcases writeBlock_blocks_cases hlookup with ⟨-, rfl⟩ | ⟨-, hold⟩
        · omega
        · exact hold
      refine ⟨some f, happly, hwf₁.setFinalized (hwf₁.stored_of_blocks hlookup), Or.inr ⟨qc, f, hqc, ?_, rfl⟩⟩
      refine hwf.finalizable_eq_some.mpr ⟨hold, hheight, fun final hfinal => ?_⟩
      obtain ⟨habove, hancestor⟩ := hdescends final hfinal
      exact ⟨habove, hwf.isAncestor_of_grows hgrows (hwf.linked _ f hold) hancestor⟩
  simp only [BlockChain.adopt, happly]
  by_cases hhigher : c.current.number < block.number
  · have hhigher' : (c.writeBlock env block).current.number < block.number := hhigher
    obtain ⟨canonical, hreorg, hwf₃⟩ := hwf₂.reorgTo_spec hstored
    rw [if_pos hhigher', if_pos hhigher, hreorg]
    exact ⟨rfl, hwf₃, hgrows, rfl, hfinal⟩
  · have hhigher' : ¬ (c.writeBlock env block).current.number < block.number := hhigher
    rw [if_neg hhigher', if_neg hhigher]
    exact ⟨rfl, hwf₂, hgrows, rfl, hfinal⟩

/-- A block that passes the finality check and is higher than the finalized block descends from it. -/
theorem WellFormed.isAncestor_of_checkFinality (h : c.checkFinality env block = .ok ()) (hlinked : c.Linked block)
    (hf : c.finalized = some f) (hlt : f.number < block.number) : c.IsAncestor f block := by
  simp only [checkFinality, hf] at h
  rw [if_neg (not_le.mpr hlt)] at h
  split at h
  · rename_i hdesc
    exact (hwf.isDescendant_iff hlinked (hwf.finalized_stored f hf) hlt).mp hdesc
  · cases h

/-- An import keeps the chain well formed and its finality, and keeps the finalized block canonical
when the block's certificate is for the branch that is canonical after it. -/
theorem WellFormed.insertBlock (now : Nat) (block : Block) :
    c.Extends env (c.insertBlock env now block).2 ∧
      (c.FinalizedCanonical env → c.JustifiesBranch env block →
        (c.insertBlock env now block).2.FinalizedCanonical env) := by
  rcases insertBlock_cases env c now block with ⟨e, hsame⟩ | ⟨parent, -, s, hcheck, -, hcommit | hadopt⟩
  · rw [hsame]
    exact ⟨hwf.extends_self, fun h _ => h⟩
  · rw [hcommit]
    exact ⟨⟨hwf.commit s, Grows.refl c, .of_eq rfl⟩, fun h _ => h⟩
  · obtain ⟨hnew, hparent, hverify, hfinality⟩ := checkBlock_ok hcheck
    obtain ⟨hheader, hjustification⟩ := verifyBlock_ok hverify
    have hnumber : block.number = parent.number + 1 := (verifyHeader_ok hheader).1
    have hlinked : c.Linked block := fun _ => ⟨parent, hparent, hnumber⟩
    obtain ⟨-, hwf', hgrows, hcurrent, hfinal⟩ := (hwf.commit s).adopt hnew hparent hnumber
      fun qc hqc => number_of_verifyJustification hjustification hqc
    have hgrows' : c.Grows ((c.commit env s).adopt env block).2 := hgrows
    rw [hadopt]
    refine ⟨⟨hwf', hgrows', ?_⟩, ?_⟩
    · rcases hfinal with hsame | ⟨qc, f, -, hfinalizable, hf⟩
      · exact .of_eq hsame
      · intro final hfinal
        obtain ⟨-, -, hdescends⟩ := hwf.finalizable_eq_some.mp (hwf.finalizable_of_commit hfinalizable)
        exact ⟨f, hf, (hdescends final hfinal).2.mono hgrows'⟩
    · intro hcanonical hbranch
      refine hwf'.finalizedCanonical fun f hf => ?_
      -- ancestry in the chain before the import: of the parent if the head moves, else of the head
      have hbefore : ∀ b, c.branchAfter block = some b → c.IsAncestor f b := by
        intro b hb
        rcases hfinal with hsame | ⟨qc, f', hqc, hfinalizable, hf'⟩
        · have hfinalized : c.finalized = some f := hsame.symm.trans hf
          have hancestor := (hcanonical f hfinalized).2
          have hle := hancestor.number_le
          simp only [branchAfter] at hb
          split at hb
          · rw [hparent] at hb
            cases hb
            have hdesc := hwf.isAncestor_of_checkFinality hfinality hlinked hfinalized (by omega)
            rcases Ancestor.eq_or_parent hdesc with heq | ⟨p, hp, hrest⟩
            · rw [heq] at hle
              omega
            · have hlookup := (parentOf_eq_some.mp hp).1
              rw [hparent] at hlookup
              cases hlookup
              exact hrest
          · cases hb
            exact hancestor
        · rw [hf'] at hf
          cases hf
          exact hbranch qc f hqc (hwf.finalizable_of_commit hfinalizable) b hb
      rw [hcurrent]
      by_cases hhigher : c.current.number < block.number
      · have hancestor := hbefore parent (by rw [branchAfter, if_pos hhigher, hparent])
        have hhigher' : (c.commit env s).current.number < block.number := hhigher
        rw [if_pos hhigher']
        exact Ancestor.of_parent (parentOf_eq_some.mpr ⟨hgrows' _ _ hparent, hnumber⟩) (hancestor.mono hgrows')
      · have hhigher' : ¬ (c.commit env s).current.number < block.number := hhigher
        rw [if_neg hhigher']
        exact (hbefore c.current (by rw [branchAfter, if_neg hhigher])).mono hgrows'

theorem WellFormed.insertChain (now : Nat) (blocks : List Block) :
    c.Extends env (insertChain env now c blocks) ∧
      (c.FinalizedCanonical env → c.JustifiesBranches env now blocks →
        (insertChain env now c blocks).FinalizedCanonical env) := by
  induction blocks generalizing c with
  | nil => exact ⟨hwf.extends_self, fun h _ => h⟩
  | cons block rest ih =>
    obtain ⟨hextends, hstep⟩ := hwf.insertBlock now block
    obtain ⟨hrest, hrun⟩ := ih hextends.wellFormed
    simp only [BlockChain.insertChain, JustifiesBranches]
    rcases hresult : c.insertBlock env now block with ⟨result, c'⟩
    rw [hresult] at hextends hstep hrest hrun
    cases result with
    | ok _ => exact ⟨hextends.trans hrest, fun h hbranch => hrun (hstep h hbranch.1) hbranch.2⟩
    | error e =>
      cases e <;>
        first
        | exact ⟨hextends.trans hrest, fun h hbranch => hrun (hstep h hbranch.1) hbranch.2⟩
        | exact ⟨hextends, fun h hbranch => hstep h hbranch.1⟩

/-- A stored block that is made final ends up on the canonical chain. -/
theorem WellFormed.finalizeBlock (hblock : c.Stored env block) :
    (c.finalizeBlock env block).2.WellFormed env ∧ (c.finalizeBlock env block).2.blocks = c.blocks ∧
      (c.finalizeBlock env block).2.finalized = some block ∧
      (c.finalizeBlock env block).2.IsAncestor block (c.finalizeBlock env block).2.current := by
  simp only [BlockChain.finalizeBlock]
  split
  · rename_i hcanonical
    obtain ⟨b, hb, -, hancestor⟩ := (hwf.canonical_iff _ _).mp hcanonical
    rw [hblock] at hb
    cases hb
    exact ⟨hwf.setFinalized hblock, rfl, rfl, hancestor⟩
  · obtain ⟨canonical, hreorg, hwf'⟩ := hwf.reorgTo_spec hblock
    rw [hreorg]
    exact ⟨hwf'.setFinalized hblock, rfl, rfl, Ancestor.refl block⟩

theorem WellFormed.finalize (qc : QuorumCert) :
    c.Extends env (c.finalize env qc).2 ∧
      (c.FinalizedCanonical env → (c.finalize env qc).2.FinalizedCanonical env) := by
  rcases finalize_cases env c qc with hsame | ⟨block, hfinalizable, -, heq⟩
  · rw [hsame]
    exact ⟨hwf.extends_self, fun h => h⟩
  · obtain ⟨hlookup, -, hdescends⟩ := hwf.finalizable_eq_some.mp hfinalizable
    obtain ⟨hwf', hblocks, hfinal, hancestor⟩ := hwf.finalizeBlock (hwf.stored_of_blocks hlookup)
    have hgrows : c.Grows (c.finalizeBlock env block).2 := by
      intro h b hb
      rw [hblocks]
      exact hb
    rw [heq]
    refine ⟨⟨hwf', hgrows, fun f hf => ⟨block, hfinal, (hdescends f hf).2.mono hgrows⟩⟩, fun _ => ?_⟩
    refine hwf'.finalizedCanonical fun f hf => ?_
    rw [hfinal] at hf
    cases hf
    exact hancestor

end

theorem insertBlock_stored {b : Block} {h : Hash} (hb : (c.insertBlock env now block).2.blocks h = some b) :
    c.blocks h = some b ∨ h = env.hash block.header ∧ b = block := by
  rcases insertBlock_cases env c now block with ⟨e, hsame⟩ | ⟨parent, -, s, -, -, hcommit | hadopt⟩
  · rw [hsame] at hb
    exact .inl hb
  · rw [hcommit] at hb
    exact .inl hb
  · rw [hadopt, adopt_blocks] at hb
    exact (writeBlock_blocks_cases hb).symm.imp_left And.right

theorem insertBlock_states (env : Env) (c : BlockChain) (now : Nat) (block : Block) :
    (c.insertBlock env now block).2.genesis = c.genesis ∧
      ((c.insertBlock env now block).2.states = c.states ∨
        ∃ parent receipts s, c.executeBlock env block parent = .ok (receipts, s) ∧
          (c.insertBlock env now block).2.states = Function.update c.states (env.stateRoot s) (some s)) := by
  rcases insertBlock_cases env c now block with ⟨e, hsame⟩ | ⟨parent, receipts, s, -, hexecute, hcommit | hadopt⟩
  · rw [hsame]
    exact ⟨rfl, Or.inl rfl⟩
  · rw [hcommit]
    exact ⟨rfl, Or.inr ⟨parent, receipts, s, hexecute, rfl⟩⟩
  · obtain ⟨canonical, current, heq⟩ := adopt_eq env (c.commit env s) block
    obtain ⟨final, happly⟩ := applyJustification_eq env ((c.commit env s).writeBlock env block) block
    rw [hadopt, heq, happly]
    exact ⟨rfl, Or.inr ⟨parent, receipts, s, hexecute, rfl⟩⟩

def FinalizedBy (env : Env) (c : BlockChain) (f : Block) : Prop :=
  ∃ (qc : QuorumCert) (seen : BlockChain), seen.states = c.states ∧ seen.genesis = c.genesis ∧
    seen.Certified env qc ∧ f.number = qc.number ∧ env.hash f.header = qc.blockHash

/-- An import is refused and keeps blocks and finality, or stores the block and may finalize one by a
certificate. -/
theorem WellFormed.insertBlock_result (hwf : c.WellFormed env) (now : Nat) (block : Block) :
    (∃ e, (c.insertBlock env now block).1 = .error e ∧ (c.insertBlock env now block).2.blocks = c.blocks ∧
        (c.insertBlock env now block).2.finalized = c.finalized) ∨
      ((c.insertBlock env now block).1 = .ok () ∧ (c.insertBlock env now block).2.Stored env block ∧
        ((c.insertBlock env now block).2.finalized = c.finalized ∨
          ∃ f, (c.insertBlock env now block).2.finalized = some f ∧
            (c.insertBlock env now block).2.FinalizedBy env f)) := by
  rcases insertBlock_cases env c now block with ⟨e, hsame⟩ | ⟨parent, -, s, hcheck, -, hcommit | hadopt⟩
  · rw [hsame]
    exact .inl ⟨e, rfl, rfl, rfl⟩
  · rw [hcommit]
    exact .inl ⟨_, rfl, rfl, rfl⟩
  · obtain ⟨hnew, hparent, hverify, -⟩ := checkBlock_ok hcheck
    obtain ⟨hheader, hjustification⟩ := verifyBlock_ok hverify
    have hnumber : block.number = parent.number + 1 := (verifyHeader_ok hheader).1
    have hadopted := (hwf.commit s).adopt hnew hparent hnumber
      fun qc hqc => number_of_verifyJustification hjustification hqc
    obtain ⟨hwritten, -, -⟩ := (hwf.commit s).writeBlock hnew hparent hnumber
    obtain ⟨canonical, current, heq⟩ := adopt_eq env (c.commit env s) block
    rw [hadopt]
    refine .inr ⟨hadopted.1, ?_, ?_⟩
    · rw [Stored, adopt_blocks]
      exact writeBlock_blocks_self env _ block
    · rw [heq]
      rcases applyJustification_cases env ((c.commit env s).writeBlock env block) block with
        hsame | ⟨qc, f, -, hfinalizable, hcertified, happly⟩
      · rw [hsame]
        exact .inl rfl
      · obtain ⟨hlookup, hheight, -⟩ := hwritten.finalizable_eq_some.mp hfinalizable
        rw [happly]
        exact .inr ⟨f, rfl, qc, (c.commit env s).writeBlock env block, rfl, rfl, hcertified, hheight,
          hwritten.hash_eq _ f hlookup⟩

theorem WellFormed.finalize_result (hwf : c.WellFormed env) (qc : QuorumCert) :
    (c.finalize env qc).2.finalized = c.finalized ∨
      ∃ f, (c.finalize env qc).2.finalized = some f ∧ c.FinalizedBy env f := by
  rcases finalize_cases env c qc with hsame | ⟨block, hfinalizable, hcertified, heq⟩
  · rw [hsame]
    exact .inl rfl
  · obtain ⟨hlookup, hheight, -⟩ := hwf.finalizable_eq_some.mp hfinalizable
    obtain ⟨-, -, hfinal, -⟩ := hwf.finalizeBlock (hwf.stored_of_blocks hlookup)
    rw [heq]
    exact .inr ⟨block, hfinal, qc, c, rfl, rfl, hcertified, hheight, hwf.hash_eq _ block hlookup⟩

end BlockChain

inductive Op where
  | insertBlock (now : Nat) (block : Block)
  | insertChain (now : Nat) (blocks : List Block)
  | finalize (qc : QuorumCert)

namespace Op

variable (env : Env)

def apply (c : BlockChain) : Op → BlockChain
  | insertBlock now block => (c.insertBlock env now block).2
  | insertChain now blocks => c.insertChain env now blocks
  | finalize qc => (c.finalize env qc).2

/-- The certificates in imported blocks are for the branch that is canonical after the import. -/
def JustifiesBranch (c : BlockChain) : Op → Prop
  | insertBlock _ block => c.JustifiesBranch env block
  | insertChain now blocks => c.JustifiesBranches env now blocks
  | finalize _ => True

variable {env}

variable {c : BlockChain}

theorem apply_extends (hwf : c.WellFormed env) (op : Op) : c.Extends env (op.apply env c) := by
  cases op with
  | insertBlock now block => exact (hwf.insertBlock now block).1
  | insertChain now blocks => exact (hwf.insertChain now blocks).1
  | finalize qc => exact (hwf.finalize qc).1

theorem apply_finalizedCanonical (hwf : c.WellFormed env) {op : Op}
    (hbranch : op.JustifiesBranch env c) (hcanonical : c.FinalizedCanonical env) :
    (op.apply env c).FinalizedCanonical env := by
  cases op with
  | insertBlock now block => exact (hwf.insertBlock now block).2 hcanonical hbranch
  | insertChain now blocks => exact (hwf.insertChain now blocks).2 hcanonical hbranch
  | finalize qc => exact (hwf.finalize qc).2 hcanonical

theorem run_extends (hwf : c.WellFormed env) (ops : List Op) : c.Extends env (run (Op.apply env) c ops) := by
  refine run_related (R := fun c c' => c.WellFormed env → c.Extends env c') ?_ ?_ ?_ c ops hwf
  · exact fun c hc => hc.extends_self
  · exact fun c₁ c₂ c₃ h₁ h₂ hc => (h₁ hc).trans (h₂ (h₁ hc).wellFormed)
  · exact fun c op hc => op.apply_extends hc

def imports (now : Nat) (blocks : List Block) : List Op := blocks.map (insertBlock now)

end Op

/-- In every run from genesis, what is finalized later descends from what was finalized before. If in
addition the certificates in imported blocks are for the branch that is canonical after the import,
the finalized block is canonical at its height and an ancestor of the head in the state reached. -/
theorem finalized_canonical_of_justifiesBranch {env : Env} {g : Genesis} {c₀ : BlockChain}
    (hgenesis : g.commit env = .ok c₀) (ops : List Op) :
    (∀ before after, ops = before ++ after →
      (run (Op.apply env) c₀ before).FinalExtends (run (Op.apply env) c₀ ops)) ∧
    (Steps (Op.apply env) (Op.JustifiesBranch env) c₀ ops →
      (run (Op.apply env) c₀ ops).FinalizedCanonical env) := by
  obtain ⟨hwf, hnone⟩ := Genesis.wellFormed_of_commit hgenesis
  constructor
  · rintro before after rfl
    rw [run_append]
    exact (Op.run_extends (Op.run_extends hwf before).wellFormed after).finalExtends
  · intro hsteps
    refine (run_invariant (P := fun c => c.WellFormed env ∧ c.FinalizedCanonical env) ?_ hsteps
      ⟨hwf, fun f hf => ?_⟩).2
    · rintro c op hbranch ⟨hc, hcanonical⟩
      exact ⟨(op.apply_extends hc).wellFormed, op.apply_finalizedCanonical hc hbranch hcanonical⟩
    · rw [hnone] at hf
      cases hf

/-! ### A certificate on a side branch -/

namespace FinalityExample

def env : Env := Env.plain fun s => BitVec.ofNat 256 s.registry.count

def chain : BlockChain := Genesis.plainChain env [1]

def a1 : Block := emptyChild chain.genesis 1 1 []

def a2 : Block := emptyChild a1 1 1 []

def a3 : Block := emptyChild a2 1 1 []

def b1 : Block := emptyChild chain.genesis 1 2 []

def certificate (block : Block) : Bytes :=
  [UInt8.ofNat block.number, UInt8.ofNat block.number, block.header.extra.headD 0, 1] ++
    List.replicate 48 1 ++ (SigningMessage.attestation 7 block.number (plainHash block.header)).spell

/-- The second block of the side branch justifies the first one. -/
def b2 : Block := emptyChild b1 1 2 (certificate b1)

def a2' : Block := emptyChild a1 1 1 (certificate a1)

theorem chain_of_commit : (Genesis.plain [1]).commit env = .ok chain := rfl

theorem justifiesBranch_parent : Steps (Op.apply env) (Op.JustifiesBranch env) chain (Op.imports 100 [a1, a2']) := by
  refine ⟨?_, ?_, trivial⟩
  · intro qc f hqc
    cases hqc
  · intro qc f hqc hfinal b hb
    have hcert : (certificateOf env a2'.header).bind (((Op.insertBlock 100 a1).apply env chain).finalizable env) =
        some a1 := by
      decide +kernel
    rw [hqc, Option.bind_some, hfinal] at hcert
    rw [Option.some.inj hcert, ← Option.some.inj hb]
    exact Ancestor.refl a1

end FinalityExample

open FinalityExample in
/-- A block that justifies its own parent finalizes it on the canonical chain. -/
theorem finalized_canonical_of_justified_parent :
    (run (Op.apply env) chain (Op.imports 100 [a1, a2'])).finalized = some a1 ∧
      (run (Op.apply env) chain (Op.imports 100 [a1, a2'])).FinalizedCanonical env :=
  ⟨by decide +kernel, (finalized_canonical_of_justifiesBranch chain_of_commit _).2 justifiesBranch_parent⟩

open FinalityExample in
/-- Three blocks are canonical when the second block of a side branch arrives with a certificate for
the first. The side block is finalized, and the canonical chain is left where it was. -/
theorem finalized_not_canonical_on_side_branch :
    (Genesis.plain [1]).commit env = .ok chain ∧
      (run (Op.apply env) chain (Op.imports 100 [a1, a2, a3, b1, b2])).finalized = some b1 ∧
      (run (Op.apply env) chain (Op.imports 100 [a1, a2, a3, b1, b2])).canonical 1 =
        some (plainHash a1.header) ∧
      ¬ (run (Op.apply env) chain (Op.imports 100 [a1, a2, a3, b1, b2])).FinalizedCanonical env := by
  have hfinal : (run (Op.apply env) chain (Op.imports 100 [a1, a2, a3, b1, b2])).finalized = some b1 := by
    decide +kernel
  have hcanonical : (run (Op.apply env) chain (Op.imports 100 [a1, a2, a3, b1, b2])).canonical 1 =
      some (plainHash a1.header) := by
    decide
  refine ⟨chain_of_commit, hfinal, hcanonical, fun h => ?_⟩
  have hb1 := (h b1 hfinal).1
  revert hb1
  decide

end PadiChain.Chain

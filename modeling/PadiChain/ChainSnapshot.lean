import PadiChain.ChainExecution

/-! A node that adopted a snapshot beside a node with the full history. The snapshot node has the
finalized block and nothing between it and genesis, so whatever is looked up by height below the
snapshot is answered from genesis or not at all. A snapshot in the first epoch needs nothing from
there except the block hashes that transactions ask for, and with that the two nodes run in step. -/

namespace PadiChain.Chain

open Core Staking Processor Ancestry Function Ancestor Transition

namespace BlockChain

/-- The snapshot node `d` tracks the full node `c` above the block `base`: it holds every block from
`base` on with its state, the same head, finality and canonical index there, and the same genesis. -/
structure Tracks (env : Env) (base : Block) (c d : BlockChain) : Prop where
  wellFormed : c.WellFormed env
  sameGenesis : c.SameGenesis d
  current_eq : d.current = c.current
  finalized_eq : d.finalized = c.finalized
  base_current : c.IsAncestor base c.current
  base_finalized : ∃ f, c.finalized = some f ∧ c.IsAncestor base f
  sub : d.Grows c
  above : ∀ h b, c.blocks h = some b → c.IsAncestor base b → d.blocks h = some b
  below : ∀ h b, d.blocks h = some b → c.IsAncestor base b ∨ b.number = 0
  zero_stored : ∀ h b, c.blocks h = some b → b.number = 0 → d.blocks h = some b
  canonical_eq : ∀ n, n = 0 ∨ base.number ≤ n → d.canonical n = c.canonical n
  states_eq : ∀ b, c.Stored env b → c.IsAncestor base b →
    d.states b.header.stateRoot = c.states b.header.stateRoot

/-- A block whose place in the tree, if it is known, is above the snapshot. -/
structure Descends (env : Env) (base : Block) (c : BlockChain) (block : Block) : Prop where
  known : ∀ b, c.blocks (env.hash block.header) = some b → c.IsAncestor base b
  parent : ∀ p, c.blocks block.parentHash = some p → c.IsAncestor base p

/-- The transactions of the block ask for no hash of a height strictly between genesis and the
snapshot. -/
def AsksAbove (env : Env) (base : Block) (c : BlockChain) (block : Block) : Prop :=
  ∀ p s, c.blocks block.parentHash = some p → c.states p.header.stateRoot = some s →
    (runTransactions env block s).Asks (blockHash env (c.view env) (newBlockContext env block.header))
      fun n => n = 0 ∨ base.number ≤ n

variable {env : Env} {c d : BlockChain} {base : Block}

variable {x : Block} {left right : Nat → Option Hash} {n : Nat} {qc : QuorumCert}

theorem IsAncestor.parent_of_lt (h : c.IsAncestor base x) (hlt : base.number < x.number) :
    ∃ p, c.blocks x.parentHash = some p ∧ x.number = p.number + 1 ∧ c.IsAncestor base p := by
  rcases eq_or_parent h with heq | ⟨p, hp, hrest⟩
  · rw [heq] at hlt
    exact absurd hlt (lt_irrefl _)
  · obtain ⟨hlookup, hnumber⟩ := parentOf_eq_some.mp hp
    exact ⟨p, hlookup, hnumber, hrest⟩

theorem IsAncestor.eq_of_number_le (h : c.IsAncestor base x) (hle : x.number ≤ base.number) :
    base = x := eq_of_height_le (number_of_parentOf c) h hle

theorem dropCanonical_congr (h : left n = right n)
    (oldChain : List Block) : dropCanonical left oldChain n = dropCanonical right oldChain n := by
  refine Option.ext fun hash => ?_
  rw [dropCanonical_eq_some, dropCanonical_eq_some, h]

theorem writeCanonical_congr (h : left n = right n)
    (newChain : List Block) : writeCanonical env left newChain n = writeCanonical env right newChain n := by
  induction newChain with
  | nil => exact h
  | cons b rest ih =>
    simp only [writeCanonical, List.foldr_cons] at ih ⊢
    rw [update_apply, update_apply, ih]

namespace Tracks

variable (h : Tracks env base c d)

include h

/-- The nodes look up a hash alike unless it names a block of the history the snapshot skips. -/
theorem blocks_eq {hash : Hash} (habove : ∀ b, c.blocks hash = some b → c.IsAncestor base b) :
    d.blocks hash = c.blocks hash := by
  cases hc : c.blocks hash with
  | some b => exact h.above hash b hc (habove b hc)
  | none =>
    cases hd : d.blocks hash with
    | none => rfl
    | some b =>
      rw [h.sub hash b hd] at hc
      cases hc

theorem headerByNumber_eq (hn : n = 0 ∨ base.number ≤ n) : d.headerByNumber n = c.headerByNumber n := by
  simp only [headerByNumber, h.canonical_eq n hn]
  cases hcanonical : c.canonical n with
  | none => rfl
  | some hash =>
    obtain ⟨b, hb, hnumber, hancestor⟩ := (h.wellFormed.canonical_iff n hash).mp hcanonical
    have hd : d.blocks hash = some b := by
      rcases hn with hzero | hle
      · exact h.zero_stored hash b hb (hnumber.trans hzero)
      · exact h.above hash b hb (h.base_current.of_number_le hancestor (by omega))
    simp [hb, hd]

/-- With the snapshot in the first epoch every later boundary is at or above it. -/
theorem sameBoundary (hbase : base.number < epochLength) (number : Nat) : c.SameBoundary d number := by
  intro hepoch
  have hle : base.number ≤ boundaryOf number := by
    simp only [boundaryOf, epochStart, epochOf, epochLength] at hepoch hbase ⊢
    omega
  refine ⟨(h.headerByNumber_eq (Or.inr hle)).symm, fun header hheader => ?_⟩
  simp only [headerByNumber] at hheader
  split at hheader
  · cases hheader
  rename_i hash hcanonical
  obtain ⟨b, hb, hnumber, hancestor⟩ := (h.wellFormed.canonical_iff _ hash).mp hcanonical
  rw [hb] at hheader
  dsimp only at hheader
  rw [if_pos hnumber] at hheader
  cases hheader
  exact (h.states_eq b (h.wellFormed.stored_of_blocks hb)
    (h.base_current.of_number_le hancestor (by omega))).symm

variable {x y block parent : Block}

theorem unwind_eq {target : Nat} (htarget : base.number ≤ target) (fuel : Nat)
    (hx : c.IsAncestor base x) : d.unwind target fuel x = c.unwind target fuel x := by
  induction fuel generalizing x with
  | zero => rfl
  | succ fuel ih =>
    simp only [unwind]
    by_cases hlt : target < x.number
    · obtain ⟨p, hlookup, -, hp⟩ := hx.parent_of_lt (by omega)
      rw [if_pos hlt, if_pos hlt, hlookup, h.above _ p hlookup hp]
      dsimp only
      rw [ih hp]
    · rw [if_neg hlt, if_neg hlt]

theorem meet_eq (fuel : Nat) (hx : c.IsAncestor base x) (hy : c.IsAncestor base y)
    (hlevel : x.number = y.number) : d.meet env fuel x y = c.meet env fuel x y := by
  induction fuel generalizing x y with
  | zero => rfl
  | succ fuel ih =>
    simp only [meet]
    by_cases hhash : env.hash x.header = env.hash y.header
    · rw [if_pos hhash, if_pos hhash]
    · have hlt : base.number < x.number := by
        refine lt_of_not_ge fun hle => hhash ?_
        rw [← hx.eq_of_number_le hle, ← hy.eq_of_number_le (by omega)]
      obtain ⟨p, hp, hpNumber, hpAbove⟩ := hx.parent_of_lt hlt
      obtain ⟨q, hq, hqNumber, hqAbove⟩ := hy.parent_of_lt (by omega)
      rw [if_neg hhash, if_neg hhash, hp, hq, h.above _ p hp hpAbove, h.above _ q hq hqAbove]
      dsimp only
      rw [ih hpAbove hqAbove (by omega)]

theorem isDescendant_eq (hx : c.IsAncestor base x) (hy : base.number ≤ y.number) :
    d.isDescendant env x y = c.isDescendant env x y := by
  simp [isDescendant, h.unwind_eq hy x.number hx]

theorem checkFinality_eq (hx : c.IsAncestor base x) : d.checkFinality env x = c.checkFinality env x := by
  obtain ⟨f, hf, hbase⟩ := h.base_finalized
  simp [checkFinality, h.finalized_eq, hf, h.isDescendant_eq hx hbase.number_le, h.canonical_eq x.number (Or.inr hx.number_le)]

theorem forkOf_eq (hx : c.Stored env x) (hbase : c.IsAncestor base x) : d.forkOf env x = c.forkOf env x := by
  have hwf := h.wellFormed
  obtain ⟨newHigh, n, hnewWalk, hn, hnNumber, -⟩ :=
    hwf.unwind_spec c.current.number (hwf.linked_of_stored hx) le_rfl
  obtain ⟨oldHigh, o, holdWalk, ho, hoNumber, -⟩ :=
    hwf.unwind_spec n.number (hwf.linked_of_stored hwf.current_stored) le_rfl
  have hheight := h.base_current.number_le
  have hheight' := hbase.number_le
  have hnBase : c.IsAncestor base n := hbase.of_number_le hn (by omega)
  have hoBase : c.IsAncestor base o := h.base_current.of_number_le ho (by omega)
  simp [forkOf, h.current_eq, h.unwind_eq hheight x.number hbase, hnewWalk,
    h.unwind_eq hnBase.number_le c.current.number h.base_current, holdWalk, h.meet_eq n.number hnBase hoBase (by omega)]

theorem finalizable_eq (qc : QuorumCert) : d.finalizable env qc = c.finalizable env qc := by
  have hwf := h.wellFormed
  obtain ⟨f, hf, hbase⟩ := h.base_finalized
  cases hc : c.blocks qc.blockHash with
  | none =>
    have hd : d.blocks qc.blockHash = none :=
      (h.blocks_eq fun b hb => nomatch hc.symm.trans hb).trans hc
    simp [finalizable, hc, hd]
  | some b =>
    by_cases hb : c.IsAncestor base b
    · simp [finalizable, hc, h.above _ b hc hb, h.finalized_eq, hf, h.isDescendant_eq hb hbase.number_le]
    · -- a block of the skipped history is never newly final
      have hnone : c.finalizable env qc = none := by
        refine Option.eq_none_iff_forall_ne_some.mpr fun b' hb' => hb ?_
        obtain ⟨hlookup, -, hdescends⟩ := hwf.finalizable_eq_some.mp hb'
        rw [hc] at hlookup
        cases hlookup
        exact hbase.trans (hdescends f hf).2
      rw [hnone]
      cases hd : d.blocks qc.blockHash with
      | none => simp [finalizable, hd]
      | some b' =>
        have hzero : b'.number = 0 := by
          refine (h.below _ b' hd).resolve_left fun habove => hb ?_
          rw [h.sub _ b' hd] at hc
          cases hc
          exact habove
        simp only [finalizable, hd, h.finalized_eq, hf, hzero, Nat.zero_le, if_true]
        split <;> rfl

theorem commit (s : StateDB) : Tracks env base (c.commit env s) (d.commit env s) where
  __ := h
  wellFormed := h.wellFormed.commit s
  sameGenesis := by
    refine ⟨h.sameGenesis.genesis, ?_⟩
    have hstate := h.sameGenesis.state
    simp only [BlockChain.commit, ← h.sameGenesis.genesis, update_apply, hstate]
  states_eq := by
    intro b hb hbase
    simp only [BlockChain.commit, update_apply, h.states_eq b hb hbase]

theorem setFinalized {f : Block} (hf : c.Stored env f) (hbase : c.IsAncestor base f) :
    Tracks env base { c with finalized := some f } { d with finalized := some f } where
  __ := h
  wellFormed := h.wellFormed.setFinalized hf
  sameGenesis := ⟨h.sameGenesis.genesis, h.sameGenesis.state⟩
  finalized_eq := rfl
  base_finalized := ⟨f, rfl, hbase⟩

theorem reorgTo (hblock : c.Stored env block) (hbase : c.IsAncestor base block) :
    ∃ c' d', c.reorgTo env block = some c' ∧ d.reorgTo env block = some d' ∧ Tracks env base c' d' := by
  obtain ⟨canonical, hreorg, hwf'⟩ := h.wellFormed.reorgTo_spec hblock
  obtain ⟨newChain, oldChain, z, hfork, -, -, -, -⟩ := h.wellFormed.forkOf_spec hblock
  have hforkD : d.forkOf env block = some (newChain, oldChain) := (h.forkOf_eq hblock hbase).trans hfork
  have hcanonical : canonical = writeCanonical env (dropCanonical c.canonical oldChain) newChain := by
    simp only [BlockChain.reorgTo, hfork, Option.some.injEq] at hreorg
    exact (congrArg BlockChain.canonical hreorg).symm
  refine ⟨_, { d with
    canonical := writeCanonical env (dropCanonical d.canonical oldChain) newChain
    current := block }, hreorg, by simp only [BlockChain.reorgTo, hforkD], ?_⟩
  exact { h with
    wellFormed := hwf'
    sameGenesis := ⟨h.sameGenesis.genesis, h.sameGenesis.state⟩
    current_eq := rfl
    base_current := hbase
    canonical_eq := by
      intro n hn
      rw [hcanonical]
      exact writeCanonical_congr (dropCanonical_congr (h.canonical_eq n hn) oldChain) newChain }

variable (hbase : base.number < epochLength)

include hbase

theorem applyJustification (block : Block) :
    Tracks env base (c.applyJustification env block) (d.applyJustification env block) := by
  have hverified : d.verifiedJustification env block = c.verifiedJustification env block := by
    simp only [verifiedJustification]
    split
    · rfl
    · rename_i qc _
      rw [h.sameGenesis.blsKeysAt_eq (h.sameBoundary hbase qc.number)]
  simp only [BlockChain.applyJustification, hverified]
  cases hjust : c.verifiedJustification env block with
  | none => exact h
  | some qc =>
    simp only [finalizeLocked, h.finalizable_eq qc]
    cases hfinal : c.finalizable env qc with
    | none => exact h
    | some f =>
      obtain ⟨hlookup, -, hdescends⟩ := h.wellFormed.finalizable_eq_some.mp hfinal
      obtain ⟨final, hf, hancestor⟩ := h.base_finalized
      exact h.setFinalized (h.wellFormed.stored_of_blocks hlookup)
        (hancestor.trans (hdescends final hf).2)

section

variable (hnew : c.blocks (env.hash block.header) = none) (hparent : c.blocks block.parentHash = some parent)
  (hnumber : block.number = parent.number + 1) (habove : c.IsAncestor base parent)
  (hstate : d.states block.header.stateRoot = c.states block.header.stateRoot)

include hnew hparent hnumber habove hstate

omit hbase in
theorem writeBlock : Tracks env base (c.writeBlock env block) (d.writeBlock env block) := by
  have hwf := h.wellFormed
  obtain ⟨hwf', hgrows, hstored⟩ := hwf.writeBlock hnew hparent hnumber
  have hblock : (c.writeBlock env block).IsAncestor base block :=
    of_parent (parentOf_eq_some.mpr ⟨hgrows _ _ hparent, hnumber⟩) (habove.mono hgrows)
  have hback : ∀ hash b, c.blocks hash = some b → (c.writeBlock env block).IsAncestor base b →
      c.IsAncestor base b := fun hash b hb => hwf.isAncestor_of_grows hgrows (hwf.linked hash b hb)
  constructor
  case wellFormed => exact hwf'
  case sameGenesis => exact ⟨h.sameGenesis.genesis, h.sameGenesis.state⟩
  case current_eq => exact h.current_eq
  case finalized_eq => exact h.finalized_eq
  case base_current => exact h.base_current.mono hgrows
  case base_finalized =>
    obtain ⟨f, hf, hancestor⟩ := h.base_finalized
    exact ⟨f, hf, hancestor.mono hgrows⟩
  case sub =>
    intro hash b hb
    rcases writeBlock_blocks_cases hb with ⟨rfl, rfl⟩ | ⟨hsame, hb⟩
    · exact writeBlock_blocks_self ..
    · rw [writeBlock_blocks_of_ne env _ hsame]
      exact h.sub hash b hb
  case above =>
    intro hash b hb hancestor
    rcases writeBlock_blocks_cases hb with ⟨rfl, rfl⟩ | ⟨hsame, hb⟩
    · exact writeBlock_blocks_self ..
    · rw [writeBlock_blocks_of_ne env _ hsame]
      exact h.above hash b hb (hback hash b hb hancestor)
  case below =>
    intro hash b hb
    rcases writeBlock_blocks_cases hb with ⟨-, rfl⟩ | ⟨-, hb⟩
    · exact .inl hblock
    · exact (h.below hash b hb).imp_left (·.mono hgrows)
  case zero_stored =>
    intro hash b hb hzero
    rcases writeBlock_blocks_cases hb with ⟨rfl, rfl⟩ | ⟨hsame, hb⟩
    · exact writeBlock_blocks_self ..
    · rw [writeBlock_blocks_of_ne env _ hsame]
      exact h.zero_stored hash b hb hzero
  case canonical_eq => exact h.canonical_eq
  case states_eq =>
    intro b hb hancestor
    rcases writeBlock_blocks_cases hb with ⟨-, rfl⟩ | ⟨-, hb⟩
    · exact hstate
    · exact h.states_eq b hb (hback _ b hb hancestor)

theorem adopt :
    (c.adopt env block).1 = (d.adopt env block).1 ∧ Tracks env base (c.adopt env block).2 (d.adopt env block).2 := by
  have hwritten := h.writeBlock hnew hparent hnumber habove hstate
  have hjustified := hwritten.applyJustification hbase block
  obtain ⟨-, hgrows, hstored⟩ := h.wellFormed.writeBlock hnew hparent hnumber
  have hblocks := applyJustification_blocks env (c.writeBlock env block) block
  have hstored' : ((c.writeBlock env block).applyJustification env block).Stored env block := by
    rw [Stored, hblocks]
    exact hstored
  have hgrows' : c.Grows ((c.writeBlock env block).applyJustification env block) := by
    rw [Grows, hblocks]
    exact hgrows
  have hblock : ((c.writeBlock env block).applyJustification env block).IsAncestor base block :=
    of_parent (parentOf_eq_some.mpr ⟨hgrows' _ _ hparent, hnumber⟩) (habove.mono hgrows')
  simp only [BlockChain.adopt, hjustified.current_eq]
  by_cases hhigher : ((c.writeBlock env block).applyJustification env block).current.number < block.number
  · obtain ⟨c', d', hc', hd', htracks⟩ := hjustified.reorgTo hstored' hblock
    rw [if_pos hhigher, if_pos hhigher, hc', hd']
    exact ⟨rfl, htracks⟩
  · rw [if_neg hhigher, if_neg hhigher]
    exact ⟨rfl, hjustified⟩

end

theorem checkBlock_eq (hdescends : Descends env base c block) (now : Nat) :
    d.checkBlock env now block = c.checkBlock env now block := by
  simp only [checkBlock, h.blocks_eq hdescends.known, h.blocks_eq hdescends.parent]
  cases hparent : c.blocks block.parentHash with
  | none => rfl
  | some parent =>
    have hverify : c.verifyBlock env now block parent = d.verifyBlock env now block parent :=
      h.sameGenesis.verifyBlock_eq (h.sameBoundary hbase block.number)
        fun qc _ _ => h.sameBoundary hbase qc.number
    simp only [← hverify]
    cases hok : c.verifyBlock env now block parent with
    | error e => rfl
    | ok _ =>
      have hnumber : block.number = parent.number + 1 := (verifyHeader_ok (verifyBlock_ok hok).1).1
      have hblock : c.IsAncestor base block :=
        of_parent (parentOf_eq_some.mpr ⟨hparent, hnumber⟩) (hdescends.parent parent hparent)
      simp [h.checkFinality_eq hblock]

theorem sameReads {s : StateDB} (hasks : (runTransactions env block s).Asks
      (blockHash env (c.view env) (newBlockContext env block.header)) fun n => n = 0 ∨ base.number ≤ n) :
    c.SameReads env d block s where
  hashes := by
    refine Query.agree_of_asks (fun n hn => ?_) hasks
    have hheader : (d.view env).headerByNumber n = (c.view env).headerByNumber n := h.headerByNumber_eq hn
    simp [blockHash, hheader]
  boundary := fun _ => h.sameBoundary hbase _
  headers := by
    intro _ n hepoch _
    have hle : base.number ≤ n := by
      simp only [epochOf, epochLength] at hepoch hbase
      omega
    exact (h.headerByNumber_eq (Or.inr hle)).symm
  finalized := by
    intro _
    simp [finalizedNumber, h.finalized_eq]

/-- Importing a descendant of the snapshot has the same verdict on both nodes and keeps them in step. -/
theorem insertBlock (hdescends : Descends env base c block) (hasks : AsksAbove env base c block) (now : Nat) :
    (c.insertBlock env now block).1 = (d.insertBlock env now block).1 ∧
      Tracks env base (c.insertBlock env now block).2 (d.insertBlock env now block).2 := by
  simp only [BlockChain.insertBlock, h.checkBlock_eq hbase hdescends now]
  cases hcheck : c.checkBlock env now block with
  | error e => exact ⟨rfl, h⟩
  | ok parent =>
    obtain ⟨hnew, hparent, hverify, -⟩ := checkBlock_ok hcheck
    have hnumber : block.number = parent.number + 1 := (verifyHeader_ok (verifyBlock_ok hverify).1).1
    have habove := hdescends.parent parent hparent
    have hexecute : c.executeBlock env block parent = d.executeBlock env block parent :=
      executeBlock_congr h.sameGenesis
        (h.states_eq parent (h.wellFormed.stored_of_blocks hparent) habove).symm
        fun s hs => h.sameReads hbase (hasks parent s hparent hs)
    simp only [← hexecute]
    cases c.executeBlock env block parent with
    | error e => exact ⟨rfl, h⟩
    | ok result =>
      obtain ⟨receipts, s⟩ := result
      have hcommitted := h.commit s
      dsimp only
      by_cases hroot : env.stateRoot s = block.header.stateRoot
      · rw [if_neg (not_not.mpr hroot), if_neg (not_not.mpr hroot)]
        refine hcommitted.adopt hbase hnew hparent hnumber habove ?_
        simp [BlockChain.commit, hroot]
      · rw [if_pos hroot, if_pos hroot]
        exact ⟨rfl, hcommitted⟩

end Tracks

def fresh (env : Env) (c : BlockChain) (states : Hash → Option StateDB) : BlockChain where
  blocks := fun h => if h = env.hash c.genesis.header then some c.genesis else none
  canonical := fun n => if n = 0 then some (env.hash c.genesis.header) else none
  states := states
  genesis := c.genesis
  current := c.genesis
  finalized := none

theorem importSnapshot_ok {block : Block} (hpos : 0 < block.number) (h : c.importSnapshot env block qc = (.ok (), d)) :
    d = { c with
      blocks := update c.blocks (env.hash block.header) (some block)
      canonical := update c.canonical block.number (some (env.hash block.header))
      current := block
      finalized := some block } := by
  simp only [importSnapshot] at h
  iterate 5
    split at h
    · cases h
  rw [if_neg hpos.ne'] at h
  split at h
  · cases h
  · exact (congrArg Prod.snd h).symm

theorem WellFormed.tracks_snapshot (hwf : c.WellFormed env) (hfinal : c.finalized = some c.current)
    (hhighest : ∀ h b, c.blocks h = some b → b.number ≤ c.current.number) {states : Hash → Option StateDB}
    (hgenesis : states c.genesis.header.stateRoot = c.states c.genesis.header.stateRoot)
    (hstate : states c.current.header.stateRoot = c.states c.current.header.stateRoot) (hpos : 0 < c.current.number)
    (hsnapshot : (c.fresh env states).importSnapshot env c.current qc = (.ok (), d)) : Tracks env c.current c d := by
  obtain ⟨hzero, hstored, hroot⟩ := hwf.genesis_spec
  have htop : ∀ h b, c.blocks h = some b → c.IsAncestor c.current b → c.current = b := fun h b hb habove =>
    habove.eq_of_number_le (hhighest h b hb)
  have hne : env.hash c.genesis.header ≠ env.hash c.current.header := by
    intro heq
    rw [← hstored.eq_of_hash_eq hwf.current_stored heq] at hpos
    omega
  have hblocks : ∀ h b, d.blocks h = some b ↔
      (h = env.hash c.current.header ∧ b = c.current) ∨ (h = env.hash c.genesis.header ∧ b = c.genesis) := by
    intro h b
    rw [importSnapshot_ok hpos hsnapshot]
    by_cases heq : h = env.hash c.current.header
    · subst heq
      simp [hne.symm, eq_comm]
    · simp [fresh, heq, eq_comm]
  constructor
  case wellFormed => exact hwf
  case sameGenesis =>
    rw [importSnapshot_ok hpos hsnapshot]
    exact ⟨rfl, hgenesis.symm⟩
  case current_eq => rw [importSnapshot_ok hpos hsnapshot]
  case finalized_eq => rw [importSnapshot_ok hpos hsnapshot, hfinal]
  case base_current => exact refl _
  case base_finalized => exact ⟨c.current, hfinal, refl _⟩
  case sub =>
    intro h b hb
    rcases (hblocks h b).mp hb with ⟨rfl, rfl⟩ | ⟨rfl, rfl⟩
    · exact hwf.current_stored
    · exact hstored
  case above =>
    intro h b hb habove
    have heq := htop h b hb habove
    exact (hblocks h b).mpr (Or.inl ⟨by rw [heq, hwf.hash_eq h b hb], heq.symm⟩)
  case below =>
    intro h b hb
    rcases (hblocks h b).mp hb with ⟨-, rfl⟩ | ⟨-, rfl⟩
    · exact .inl (refl _)
    · exact .inr hzero
  case zero_stored =>
    intro h b hb hbzero
    have heq := hwf.root h b hb hbzero
    exact (hblocks h b).mpr (Or.inr ⟨by rw [← heq, hwf.hash_eq h b hb], heq⟩)
  case canonical_eq =>
    intro n hn
    rw [importSnapshot_ok hpos hsnapshot]
    refine Option.ext fun h => ?_
    rw [hwf.canonical_iff]
    dsimp only
    by_cases heq : n = c.current.number
    · subst heq
      rw [update_self]
      constructor
      · intro hsome
        rw [← Option.some.inj hsome]
        exact ⟨c.current, hwf.current_stored, rfl, refl _⟩
      · rintro ⟨b, hb, hnumber, hancestor⟩
        rw [← hwf.hash_eq h b hb, hancestor.eq_of_number_le hnumber.ge]
    · rw [update_of_ne heq]
      constructor
      · intro hsome
        obtain ⟨rfl, hhash⟩ := Option.ite_none_right_eq_some.mp hsome
        rw [← Option.some.inj hhash]
        exact ⟨c.genesis, hstored, hzero, hroot⟩
      · rintro ⟨b, hb, hnumber, hancestor⟩
        have hle := hancestor.number_le
        have hbzero : b.number = 0 := by omega
        have hgenesis := hwf.root h b hb hbzero
        refine Option.ite_none_right_eq_some.mpr ⟨by omega, ?_⟩
        rw [← hgenesis, hwf.hash_eq h b hb]
  case states_eq =>
    intro b hb habove
    rw [← htop _ b hb habove, importSnapshot_ok hpos hsnapshot]
    exact hstate

def importAt (env : Env) (c : BlockChain) (op : Nat × Block) : BlockChain := (c.insertBlock env op.1 op.2).2

def verdict (env : Env) (c : BlockChain) (op : Nat × Block) : List (Except BlockError Unit) :=
  [(c.insertBlock env op.1 op.2).1]

end BlockChain

/-- A node that adopts a snapshot in the first epoch gives the same verdict on every descendant as the
full node the snapshot is taken from, as long as no transaction asks for a block hash from before the
snapshot, and both end with the same head and the same state of it. -/
theorem snapshot_follows_full_node (env : Env) {c d : BlockChain} (hwf : c.WellFormed env)
    (hfinal : c.finalized = some c.current) (hhighest : ∀ h b, c.blocks h = some b → b.number ≤ c.current.number)
    (states : Hash → Option StateDB)
    (hgenesis : states c.genesis.header.stateRoot = c.states c.genesis.header.stateRoot)
    (hstate : states c.current.header.stateRoot = c.states c.current.header.stateRoot) (qc : QuorumCert)
    (hsnapshot : (c.fresh env states).importSnapshot env c.current qc = (.ok (), d))
    (hpos : 0 < c.current.number) (hepoch : c.current.number < epochLength) (ops : List (Nat × Block))
    (hops : Steps (BlockChain.importAt env)
      (fun c' op => BlockChain.Descends env c.current c' op.2 ∧ BlockChain.AsksAbove env c.current c' op.2) c ops) :
    log (BlockChain.importAt env) (BlockChain.verdict env) c ops =
        log (BlockChain.importAt env) (BlockChain.verdict env) d ops ∧
      (run (BlockChain.importAt env) d ops).current =
        (run (BlockChain.importAt env) c ops).current ∧
      (run (BlockChain.importAt env) d ops).states
          (run (BlockChain.importAt env) c ops).current.header.stateRoot =
        (run (BlockChain.importAt env) c ops).states
          (run (BlockChain.importAt env) c ops).current.header.stateRoot := by
  have hstart := hwf.tracks_snapshot hfinal hhighest hgenesis hstate hpos hsnapshot
  have hrun : log (BlockChain.importAt env) (BlockChain.verdict env) c ops =
        log (BlockChain.importAt env) (BlockChain.verdict env) d ops ∧
      BlockChain.Tracks env c.current (run (BlockChain.importAt env) c ops)
        (run (BlockChain.importAt env) d ops) := by
    refine simulation (fun c' d' op hop htracks => ?_) hops hstart
    obtain ⟨hverdict, hnext⟩ := htracks.insertBlock hepoch hop.1 hop.2 op.1
    exact ⟨congrArg (fun v => [v]) hverdict, hnext⟩
  obtain ⟨hlog, hend⟩ := hrun
  exact ⟨hlog, hend.current_eq, hend.states_eq _ hend.wellFormed.current_stored hend.base_current⟩

/-! ### Snapshots in the first and in the second epoch -/

namespace SnapshotExample

def env : Env := HeaderExample.env

def chain : BlockChain := Genesis.plainChain env [1, 2]

def turn (number : Nat) : Address := if 32 ≤ number then 1 else HeaderExample.turn number

def blocks (height : Nat) : List Block := emptyBranch 1 turn 1 height chain.genesis

def blockAt (height : Nat) : Block := (blocks height).getLastD chain.genesis

def certificate (height : Nat) : QuorumCert :=
  let message := (SigningMessage.attestation 7 height (plainHash (blockAt height).header)).spell
  ⟨height, plainHash (blockAt height).header, [3],
    List.replicate 48 1 ++ message ++ (List.replicate 48 2 ++ message)⟩

def full (height : Nat) : BlockChain :=
  run (Op.apply env) chain (Op.imports 100 (blocks height) ++ [.finalize (certificate height)])

def snapshot (height : Nat) : BlockChain :=
  (((full height).fresh env (full height).states).importSnapshot env (full height).current (certificate height)).2

theorem full_wellFormed (height : Nat) : (full height).WellFormed env :=
  (Op.run_extends (Genesis.wellFormed_openChain rfl) _).wellFormed

theorem full_highest (h : Hash) (b : Block) (hb : (full 1).blocks h = some b) : b.number ≤ (full 1).current.number := by
  have himport : (full 1).blocks = (chain.insertBlock env 100 (blockAt 1)).2.blocks :=
    BlockChain.finalize_blocks env _ _
  rw [himport] at hb
  rcases BlockChain.insertBlock_stored hb with hgenesis | ⟨-, rfl⟩
  · obtain ⟨-, hsome⟩ := Option.ite_none_right_eq_some.mp hgenesis
    rw [← Option.some.inj hsome]
    exact Nat.zero_le 1
  · exact le_rfl

theorem blockAt_two_descends : BlockChain.Descends env (full 1).current (full 1) (blockAt 2) := by
  have hnew : (full 1).blocks (env.hash (blockAt 2).header) = none := by decide
  have hparent : (full 1).blocks (blockAt 2).parentHash = some (full 1).current := by decide +kernel
  refine ⟨fun b hb => ?_, fun p hp => ?_⟩
  · rw [hnew] at hb
    cases hb
  · rw [← Option.some.inj (hparent.symm.trans hp)]
    exact refl _

theorem blockAt_two_asksAbove : BlockChain.AsksAbove env (full 1).current (full 1) (blockAt 2) :=
  fun _ _ _ _ => trivial

end SnapshotExample

open SnapshotExample in
/-- With the snapshot at height 1 the next block is accepted by both nodes. -/
theorem snapshot_follows_in_first_epoch :
    log (BlockChain.importAt env) (BlockChain.verdict env) (full 1) [(100, blockAt 2)] = [.ok ()] ∧
      log (BlockChain.importAt env) (BlockChain.verdict env) (snapshot 1) [(100, blockAt 2)] =
        [.ok ()] := by
  have hfull : log (BlockChain.importAt env) (BlockChain.verdict env) (full 1) [(100, blockAt 2)] =
      [.ok ()] := by
    decide
  have hadopted : ((full 1).fresh env (full 1).states).importSnapshot env (full 1).current (certificate 1) =
      (.ok (), snapshot 1) :=
    Prod.ext (by decide) rfl
  have hfollows := snapshot_follows_full_node env (full_wellFormed 1) (by decide +kernel) full_highest
    (full 1).states rfl rfl (certificate 1) hadopted (by decide) (by decide) [(100, blockAt 2)]
    ⟨⟨blockAt_two_descends, blockAt_two_asksAbove⟩, trivial⟩
  exact ⟨hfull, hfollows.1.symm.trans hfull⟩

open SnapshotExample in
/-- With the snapshot at height 40, in the second epoch, the full node accepts the next block and the
snapshot node refuses it: it has no canonical header at height 31 and falls back to the rotation of the
genesis validators. -/
theorem snapshot_diverges_in_second_epoch :
    (full 40).current = blockAt 40 ∧ (full 40).finalized = some (blockAt 40) ∧
      (((full 40).fresh env (full 40).states).importSnapshot env (full 40).current (certificate 40)).1 = .ok () ∧
      (full 40).headerByNumber 31 = some (blockAt 31).header ∧ (snapshot 40).headerByNumber 31 = none ∧
      BlockChain.verdict env (full 40) (100, blockAt 41) = [.ok ()] ∧
      BlockChain.verdict env (snapshot 40) (100, blockAt 41) = [.error .wrongProposerTurn] := by
  decide +kernel

end PadiChain.Chain

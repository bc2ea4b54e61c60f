import PadiChain.NodeSystem

/-! Accountable safety of finality. Behind every finalized block stands a quorum of signatures. A node
votes for every block it imports, and it has imported all ancestors of it, so its vote for a block
comes after its votes for the ancestors; if every signature is made in that order, two conflicting
finalized blocks leave more than a third of the set with signatures for two hashes at one height. A
key that skips the ancestors can take part in both quorums without such a pair. -/

namespace PadiChain

open Core Staking Processor Chain Consensus Ancestry Function Genesis SigningMessage Transition List

structure BlockTree (env : Env) where
  block : Hash → Option Block
  genesis : Block
  hash_eq : ∀ h b, block h = some b → env.hash b.header = h
  root : ∀ h b, block h = some b → b.number = 0 → b = genesis

namespace BlockTree

variable {env : Env} (tree : BlockTree env)

def Contains (b : Block) : Prop := tree.block (env.hash b.header) = some b

def parentOf (b : Block) : Option Block := parentIn tree.block b

def IsAncestor (a b : Block) : Prop := Ancestor tree.parentOf a b

variable {tree}

theorem contains_of_block {h : Hash} {b : Block} (hb : tree.block h = some b) : tree.Contains b := by
  rw [Contains, tree.hash_eq h b hb]
  exact hb

theorem number_of_parentOf (b p : Block) (h : tree.parentOf b = some p) : b.number = p.number + 1 :=
  (parentIn_eq_some.mp h).2

theorem contains_of_parentOf {b p : Block} (h : tree.parentOf b = some p) : tree.Contains p :=
  contains_of_block (parentIn_eq_some.mp h).1

theorem IsAncestor.contains {a b : Block} (h : tree.IsAncestor a b) (hb : tree.Contains b) : tree.Contains a := by
  induction h using Relation.ReflTransGen.head_induction_on with
  | refl => exact hb
  | head hp _ ih => exact ih (contains_of_parentOf hp)

theorem IsAncestor.number_le {a b : Block} (h : tree.IsAncestor a b) : a.number ≤ b.number :=
  Ancestor.height_le number_of_parentOf h

end BlockTree

/-- Every state in the store has the same active validators with the same keys in every epoch. -/
structure FixedSet (validators : List Address) (encoded : List Bytes) (c : BlockChain) : Prop where
  genesis : ∃ s, c.states c.genesis.header.stateRoot = some s
  states : ∀ root s, c.states root = some s → ∀ epoch,
    s.registry.activeAddressesAt epoch = validators ∧ s.registry.activeBLSKeysAt epoch = encoded

namespace FixedSet

variable {validators : List Address} {encoded : List Bytes} {c : BlockChain}

theorem congr {c' : BlockChain} (h : FixedSet validators encoded c) (hstates : c'.states = c.states)
    (hgenesis : c'.genesis = c.genesis) : FixedSet validators encoded c' := by
  refine ⟨?_, ?_⟩
  · rw [hstates, hgenesis]
    exact h.genesis
  · rw [hstates]
    exact h.states

variable {number : Nat} {env : Env}

theorem settledState {s : StateDB} (hs : c.settledState number = .state s) : ∃ root, c.states root = some s := by
  simp only [BlockChain.settledState] at hs
  split at hs
  · cases hs
  split at hs
  · cases hs
  split at hs
  · cases hs
  · rename_i hstate
    cases hs
    exact ⟨_, hstate⟩

variable (h : FixedSet validators encoded c)

include h

theorem validatorsAt_eq (hne : validators ≠ [])
    {set : List Address} (hset : c.validatorsAt env number = some set) : set = validators := by
  have hnonempty : validators.isEmpty = false := isEmpty_eq_false_iff.mpr hne
  obtain ⟨s₀, hs₀⟩ := h.genesis
  have hgenesis : c.genesisValidators env = validators := by
    simp only [BlockChain.genesisValidators, hs₀, (h.states _ s₀ hs₀ 0).1, hnonempty]
    rfl
  simp only [BlockChain.validatorsAt] at hset
  split at hset
  · rw [hgenesis] at hset
    exact (Option.some.inj hset).symm
  · cases hset
  · rename_i s hs
    obtain ⟨root, hroot⟩ := settledState hs
    simp only [(h.states root s hroot _).1, hnonempty] at hset
    exact (Option.some.inj hset).symm

theorem blsKeysAt_eq {keys : List (Option PublicKey)} (hkeys : c.blsKeysAt env number = some keys) :
    decodeKeys env.cfg.bls encoded = some keys := by
  obtain ⟨s₀, hs₀⟩ := h.genesis
  have hgenesis : c.genesisBLSKeys = some encoded := by
    simp [BlockChain.genesisBLSKeys, hs₀, (h.states _ s₀ hs₀ 0).2]
  have hraw : ∀ raw, c.rawBLSKeysAt number = some raw → raw = encoded := by
    intro raw hraw
    simp only [BlockChain.rawBLSKeysAt] at hraw
    split at hraw
    · rw [hgenesis] at hraw
      exact (Option.some.inj hraw).symm
    · cases hraw
    · rename_i s hs
      obtain ⟨root, hroot⟩ := settledState hs
      rw [hgenesis, (h.states root s hroot _).2] at hraw
      split at hraw <;> exact (Option.some.inj hraw).symm
  simp only [BlockChain.blsKeysAt] at hkeys
  split at hkeys
  · cases hkeys
  · rename_i raw hlookup
    rw [← hraw raw hlookup]
    exact hkeys

theorem length_eq : encoded.length = validators.length := by
  obtain ⟨s₀, hs₀⟩ := h.genesis
  obtain ⟨haddresses, hkeys⟩ := h.states _ s₀ hs₀ 0
  rw [← haddresses, ← hkeys, Registry.activeAddressesAt, Registry.activeBLSKeysAt, length_map,
    length_map]

end FixedSet

variable {keys : List (Option PublicKey)} {log : SignedLog} {a b : Block}

theorem decodeKeys_length {bls : Bls} {encoded : List Bytes}
    (h : decodeKeys bls encoded = some keys) : keys.length = encoded.length := by
  induction encoded generalizing keys with
  | nil =>
    cases h
    rfl
  | cons first rest ih =>
    rw [decodeKeys] at h
    split at h
    · obtain ⟨tail, htail, rfl⟩ := Option.map_eq_some_iff.mp h
      rw [length_cons, length_cons, ih htail]
    · split at h
      · cases h
      · obtain ⟨tail, htail, rfl⟩ := Option.map_eq_some_iff.mp h
        rw [length_cons, length_cons, ih htail]

theorem decodeKeys_bls (signing : Signing) (log : SignedLog) (encoded : List Bytes) :
    decodeKeys (signing.bls log) encoded = decodeKeys signing.base encoded := by
  induction encoded with
  | nil => rfl
  | cons first rest ih =>
    rw [decodeKeys, decodeKeys, ih]
    rfl

/-- Every vote comes with the votes of the same key for the parent and so for all ancestors. -/
def VotesParentFirst (w : Setup) (tree : BlockTree w.env) (log : SignedLog) : Prop :=
  ∀ key b p, tree.Contains b → (key, w.vote b) ∈ log → tree.parentOf b = some p → 0 < p.number →
    (key, w.vote p) ∈ log

theorem VotesParentFirst.ancestor {w : Setup} {tree : BlockTree w.env}
    (h : VotesParentFirst w tree log) {key : PublicKey} (hancestor : tree.IsAncestor a b)
    (hpos : 0 < a.number) (hb : tree.Contains b) (hvote : (key, w.vote b) ∈ log) : (key, w.vote a) ∈ log := by
  induction hancestor using Relation.ReflTransGen.head_induction_on with
  | refl => exact hvote
  | head hp hrest ih =>
    have hle := Ancestor.height_le BlockTree.number_of_parentOf hrest
    exact ih (BlockTree.contains_of_parentOf hp) (h key _ _ hb hvote hp (by omega))

/-- The key has signed two hashes at one height. -/
def Equivocates (w : Setup) (log : SignedLog) (key : PublicKey) : Prop :=
  ∃ number first second, first ≠ second ∧
    (key, attestation w.env.cfg.chainID number first) ∈ log ∧
    (key, attestation w.env.cfg.chainID number second) ∈ log

def signedVote (w : Setup) (key : PublicKey) (index number : Nat) (blockHash : Hash) : Attestation :=
  ⟨number, blockHash, index, w.signing.sign key (.attestation w.env.cfg.chainID number blockHash)⟩

/-- `DetectEquivocation` returns a proof against the position from two of its votes. -/
def Caught (w : Setup) (log : SignedLog) (index : Nat) (key : PublicKey) : Prop :=
  ∃ number first second proof,
    detectEquivocation (w.signing.bls log) w.env.cfg.chainID (some key) (signedVote w key index number first)
      (signedVote w key index number second) = .ok (some proof) ∧ proof.index = index ∧ proof.number = number

theorem verify_signedVote {w : Setup} {key : PublicKey} {number : Nat} {blockHash : Hash}
    (h : (key, attestation w.env.cfg.chainID number blockHash) ∈ log) (index : Nat) :
    (signedVote w key index number blockHash).verify (w.signing.bls log) w.env.cfg.chainID (some key) = .ok () := by
  obtain ⟨sig, hdecode, hok⟩ := w.signing.verify_sign h
  have hdecode' : (w.signing.bls log).signatureFromBytes (signedVote w key index number blockHash).signature =
      some sig := hdecode
  have hok' : (w.signing.bls log).verify key (.attestation w.env.cfg.chainID number blockHash) sig = true := hok
  simp only [Attestation.verify, hdecode']
  exact if_pos hok'

theorem Equivocates.caught {w : Setup} {key : PublicKey} (h : Equivocates w log key)
    (index : Nat) : Caught w log index key := by
  obtain ⟨number, first, second, hne, hfirst, hsecond⟩ := h
  have hdetect := detectEquivocation_eq_some (a := signedVote w key index number first)
    (b := signedVote w key index number second) rfl rfl hne (verify_signedVote hfirst index)
    (verify_signedVote hsecond index)
  exact ⟨number, first, second, _, hdetect, rfl, rfl⟩

/-- Two quorums for blocks of which neither is an ancestor of the other share more than a third of the
set, and each key they share has signed two hashes at one height. -/
theorem conflicting_quorums {w : Setup} {tree : BlockTree w.env}
    (hpos : 0 < keys.length) (hfirst : VotesParentFirst w tree log) (ha : tree.Contains a) (hb : tree.Contains b)
    (hrooted : ∃ b', tree.IsAncestor b' b ∧ b'.number = a.number) (hconflict : ¬ tree.IsAncestor a b)
    (hqa : QuorumSigned keys log (w.vote a)) (hqb : QuorumSigned keys log (w.vote b)) :
    ∃ offenders : Finset Nat, keys.length < 3 * offenders.card ∧
      ∀ i ∈ offenders, ∃ key, keys[i]? = some (some key) ∧ Equivocates w log key := by
  obtain ⟨b', hb', hheight⟩ := hrooted
  have hb'tree := hb'.contains hb
  have hne : a ≠ b' := fun heq => hconflict (heq ▸ hb')
  have hhash : w.env.hash a.header ≠ w.env.hash b'.header := by
    intro heq
    refine hne (Option.some.inj ?_)
    rw [← ha, ← hb'tree, heq]
  have hanumber : 0 < a.number := by
    refine Nat.pos_of_ne_zero fun hzero => hne ?_
    rw [tree.root _ a ha hzero, tree.root _ b' hb'tree (hheight.trans hzero)]
  obtain ⟨left, hleftCard, hleft⟩ := hqa
  obtain ⟨right, hrightCard, hright⟩ := hqb
  have hbound : ∀ {signers : Finset Nat} {msg}, (∀ i ∈ signers, ∃ key, keys[i]? = some (some key) ∧ (key, msg) ∈ log) →
      ∀ i ∈ signers, i < keys.length := by
    intro signers msg h i hi
    obtain ⟨key, hkey, -⟩ := h i hi
    exact (List.getElem?_eq_some_iff.mp hkey).1
  refine ⟨left ∩ right, lt_three_mul_card_inter hpos (hbound hleft) (hbound hright) hleftCard hrightCard, ?_⟩
  intro i hi
  obtain ⟨hil, hir⟩ := Finset.mem_inter.mp hi
  obtain ⟨key, hkey, hvoteA⟩ := hleft i hil
  obtain ⟨key', hkey', hvoteB⟩ := hright i hir
  have hsame : key' = key := by
    rw [hkey] at hkey'
    exact (Option.some.inj (Option.some.inj hkey')).symm
  subst hsame
  have hvoteB' := hfirst.ancestor hb' (by omega) hb hvoteB
  have hvote : w.vote b' = .attestation w.env.cfg.chainID a.number (w.env.hash b'.header) := by
    rw [Setup.vote, hheight]
  rw [hvote] at hvoteB'
  exact ⟨key', hkey, a.number, _, _, hhash, hvoteA, hvoteB'⟩

section Run

variable (w : Setup) (tree : BlockTree w.env) (validators : List Address) (keys : List (Option PublicKey))

theorem Node.subset_attest (w : Setup) (log : SignedLog) (n : Node) (block : Block) : log ⊆ (n.attest w log block).2 := by
  rcases (n.attest_spec w log block).2.1 with hsame | ⟨addr, key, -, -, hgrown⟩
  · rw [hsame]
    exact fun _ hx => hx
  · rw [hgrown]
    exact subset_append_left _ _

/-- What holds of a node in every reached state: its chain is well formed and within the tree, its pool
knows the set, it has voted for every block it stored, and a quorum has voted for what it finalized. -/
structure Node.Sound (log : SignedLog) (n : Node) : Prop where
  wellFormed : n.chain.WellFormed w.env
  inTree : ∀ h b, n.chain.blocks h = some b → tree.block h = some b
  addresses : n.pool.addresses = validators
  voted : ∀ addr key, n.validator = some (addr, some key) → addr ∈ validators →
    ∀ h b, n.chain.blocks h = some b → 0 < b.number → (key, w.vote b) ∈ log
  certified : ∀ f, n.chain.finalized = some f → QuorumSigned keys log (w.vote f)

variable {w tree validators keys}

variable {c : BlockChain} {log : SignedLog} {n : Node}

theorem wellFormed_envAt (log : SignedLog) (h : c.WellFormed w.env) : c.WellFormed (w.envAt log) :=
  { h with }

theorem wellFormed_of_envAt (h : c.WellFormed (w.envAt log)) : c.WellFormed w.env :=
  { h with }

theorem Node.Sound.mono {log' : SignedLog} (hlog : log ⊆ log')
    (h : n.Sound w tree validators keys log) : n.Sound w tree validators keys log' where
  __ := h
  voted := fun addr key hv ha hash b hb hpos => hlog (h.voted addr key hv ha hash b hb hpos)
  certified := fun f hf => (h.certified f hf).mono hlog

variable {encoded : List Bytes} (hkeys : decodeKeys w.signing.base encoded = some keys)

include hkeys

theorem quorumSigned_of_finalizedBy {f : Block}
    (hfixed : FixedSet validators encoded c) (h : c.FinalizedBy (w.envAt log) f) :
    QuorumSigned keys log (w.vote f) := by
  obtain ⟨qc, seen, hstates, hgenesis, ⟨keys', indices, hlookup, hverify⟩, hnumber, hhash⟩ := h
  have hdecode := (hfixed.congr hstates hgenesis).blsKeysAt_eq hlookup
  have hsame : keys' = keys := by
    rw [show (w.envAt log).cfg.bls = w.signing.bls log from rfl, decodeKeys_bls, hkeys] at hdecode
    exact (Option.some.inj hdecode).symm
  subst hsame
  have hvote : w.vote f = .attestation w.env.cfg.chainID qc.number qc.blockHash := by
    rw [Setup.vote, hnumber, show w.env.hash f.header = qc.blockHash from hhash]
  rw [hvote]
  exact quorumSigned_of_verify hverify

theorem Node.Sound.finalizes {n' : Node} (h : n.Sound w tree validators keys log)
    (hfixed : FixedSet validators encoded n.chain) (hstep : n.Finalizes (w.envAt log) n') :
    n'.Sound w tree validators keys log ∧ FixedSet validators encoded n'.chain := by
  have hwf := wellFormed_envAt log h.wellFormed
  obtain ⟨hwf', hblocks, hcertified⟩ : n'.chain.WellFormed w.env ∧ n'.chain.blocks = n.chain.blocks ∧
      ∀ f, n'.chain.finalized = some f → QuorumSigned keys log (w.vote f) := by
    rcases hstep.chain with hsame | ⟨qc, hfinalize⟩
    · rw [hsame]
      exact ⟨h.wellFormed, rfl, h.certified⟩
    · rw [hfinalize]
      refine ⟨wellFormed_of_envAt (hwf.finalize qc).1.wellFormed, BlockChain.finalize_blocks .., fun f hf => ?_⟩
      rcases hwf.finalize_result qc with hkept | ⟨f', hf', hby⟩
      · rw [hkept] at hf
        exact h.certified f hf
      · rw [hf'] at hf
        cases hf
        exact quorumSigned_of_finalizedBy hkeys hfixed hby
  refine ⟨⟨hwf', ?_, hstep.addresses.trans h.addresses, ?_, hcertified⟩,
    hfixed.congr hstep.states_eq.1 hstep.states_eq.2⟩
  · rw [hblocks]
    exact h.inTree
  · rw [hblocks, hstep.validator]
    exact h.voted

theorem Node.Sound.handleAttestations (h : n.Sound w tree validators keys log)
    (hfixed : FixedSet validators encoded n.chain) (votes : List Attestation) :
    (n.handleAttestations (w.envAt log) votes).Sound w tree validators keys log ∧
      FixedSet validators encoded (n.handleAttestations (w.envAt log) votes).chain := by
  refine run_preserves (P := fun n : Node => n.Sound w tree validators keys log ∧
    FixedSet validators encoded n.chain) (fun n vote h => ?_) votes ⟨h, hfixed⟩
  exact h.1.finalizes hkeys h.2 (n.handleAttestation_finalizes (w.envAt log) vote)

omit hkeys in
theorem Node.Finalizes.fixedSet {env : Env} {n' : Node} (h : n.Finalizes env n')
    (hfixed : FixedSet validators encoded n'.chain) : FixedSet validators encoded n.chain :=
  hfixed.congr h.states_eq.1.symm h.states_eq.2.symm

omit hkeys in
theorem eq_of_vote_eq (ha : tree.Contains a) (hb : tree.Contains b) (h : w.vote a = w.vote b) : a = b := by
  have hhash : w.env.hash a.header = w.env.hash b.header := by
    simp only [Setup.vote, attestation.injEq] at h
    exact h.2.2
  refine Option.some.inj ?_
  rw [← ha, ← hb, hhash]

/-- Importing a block and voting for it. The parent of the block was stored before, so the node's vote
for it is in the log already. -/
theorem Node.Sound.handleBlock (h : n.Sound w tree validators keys log)
    (hne : validators ≠ []) (hfirst : VotesParentFirst w tree log) (now : Nat) {block : Block}
    (hblock : tree.Contains block) (hfixed : FixedSet validators encoded (n.handleBlock w log now block).1.chain) :
    (n.handleBlock w log now block).1.Sound w tree validators keys (n.handleBlock w log now block).2 ∧
      VotesParentFirst w tree (n.handleBlock w log now block).2 ∧ log ⊆ (n.handleBlock w log now block).2 := by
  have hwf := wellFormed_envAt log h.wellFormed
  have hresult := hwf.insertBlock_result now block
  have hwf' := (hwf.insertBlock now block).1.wellFormed
  have hstored : ∀ hash b, (n.chain.insertBlock (w.envAt log) now block).2.blocks hash = some b →
      n.chain.blocks hash = some b ∨ b = block :=
    fun hash b hb => (BlockChain.insertBlock_stored hb).imp_right And.right
  simp only [Node.handleBlock] at hfixed ⊢
  rcases hinsert : n.chain.insertBlock (w.envAt log) now block with ⟨result, c⟩
  rw [hinsert] at hresult hwf' hstored
  simp only [hinsert] at hfixed
  cases result with
  | error e =>
    rcases hresult with ⟨-, -, hblocks, hfinal⟩ | ⟨hok, -⟩
    · refine ⟨⟨wellFormed_of_envAt hwf', ?_, h.addresses, ?_, ?_⟩, hfirst, fun _ hx => hx⟩
      · rw [hblocks]
        exact h.inTree
      · rw [hblocks]
        exact h.voted
      · rw [hfinal]
        exact h.certified
    · cases hok
  | ok u =>
    have hsync := Node.syncValidatorSet_spec (w.envAt log) { n with chain := c }
    dsimp only at hfixed hsync ⊢
    generalize Node.syncValidatorSet (w.envAt log) { n with chain := c } = aligned at hfixed hsync ⊢
    obtain ⟨hchain, hvalidator, haddresses⟩ := hsync
    obtain ⟨hfinalizes, hlog, hvoted⟩ := aligned.attest_spec w log block
    have hsub := aligned.subset_attest w log block
    have hfixedC : FixedSet validators encoded c := hchain ▸ hfinalizes.fixedSet hfixed
    have hset : aligned.pool.addresses = validators := by
      rcases haddresses with hsame | hread
      · exact hsame.trans h.addresses
      · exact hfixedC.validatorsAt_eq hne hread
    -- what the import alone gives, with the new log
    have hsound : aligned.Sound w tree validators keys (aligned.attest w log block).2 := by
      refine ⟨?_, ?_, hset, ?_, ?_⟩
      · rw [hchain]
        exact wellFormed_of_envAt hwf'
      · rw [hchain]
        intro hash b hb
        rcases hstored hash b hb with hold | rfl
        · exact h.inTree hash b hold
        · rw [← hwf'.hash_eq hash b hb]
          exact hblock
      · intro addr key hv ha hash b hb hpos
        rw [hchain] at hb
        rcases hstored hash b hb with hold | rfl
        · exact hsub (h.voted addr key (hvalidator.symm.trans hv) ha hash b hold hpos)
        · exact hvoted addr key hv (hset.symm ▸ ha)
      · intro f hf
        rw [hchain] at hf
        rcases hresult with ⟨e, herror, -⟩ | ⟨-, -, hkept | ⟨f', hf', hby⟩⟩
        · cases herror
        · rw [hkept] at hf
          exact (h.certified f hf).mono hsub
        · rw [hf'] at hf
          cases hf
          exact (quorumSigned_of_finalizedBy hkeys hfixedC hby).mono hsub
    refine ⟨(hsound.finalizes hkeys (hchain.symm ▸ hfixedC) hfinalizes).1, ?_, hsub⟩
    rcases hlog with hsame | ⟨addr, key, hkey, haddr, hgrown⟩
    · rw [hsame]
      exact hfirst
    · intro key' b p hb hvote hp hpos
      rw [hgrown] at hvote ⊢
      rcases mem_append.mp hvote with hold | hnew
      · exact mem_append_left _ (hfirst key' b p hb hold hp hpos)
      · obtain ⟨rfl, hsame⟩ := Prod.mk.inj (mem_singleton.mp hnew)
        cases eq_of_vote_eq hb hblock hsame
        refine mem_append_left _ ?_
        -- the parent is stored on the node and is not the new block
        rcases hresult with ⟨e, herror, -⟩ | ⟨-, hstoredBlock, -⟩
        · cases herror
        obtain ⟨htree, hnumber⟩ := parentIn_eq_some.mp hp
        obtain ⟨p', hp', hnumber'⟩ := hwf'.linked_of_stored hstoredBlock (by omega)
        rcases hstored _ p' hp' with hold | rfl
        · have hsame : p' = p := Option.some.inj ((h.inTree _ p' hold).symm.trans htree)
          subst hsame
          exact h.voted addr key' (hvalidator.symm.trans hkey) (hset ▸ haddr) _ p' hold hpos
        · omega

omit hkeys in
/-- A block stored on a sound node is in the tree, with an ancestor there at every lower height. -/
theorem Node.Sound.rooted (h : n.Sound w tree validators keys log) (hb : n.chain.Stored w.env b) :
    tree.Contains b ∧ ∀ height ≤ b.number, ∃ a, tree.IsAncestor a b ∧ a.number = height := by
  refine ⟨h.inTree _ b hb, fun height hle => ?_⟩
  obtain ⟨a, hancestor, hnumber⟩ := h.wellFormed.exists_ancestor (h.wellFormed.linked_of_stored hb) hle
  refine ⟨a, Ancestor.mono (fun x y hxy => ?_) hancestor, hnumber⟩
  obtain ⟨hlookup, hfit⟩ := parentIn_eq_some.mp hxy
  exact parentIn_eq_some.mpr ⟨h.inTree _ y hlookup, hfit⟩

end Run

section System

variable {ι : Type} [DecidableEq ι]

/-- All nodes start from one genesis chain with the set in their pools, and nothing is signed. -/
structure System.Initial (w : Setup) (tree : BlockTree w.env) (validators : List Address)
    (encoded : List Bytes) (c₀ : BlockChain) (s : System ι) : Prop where
  chain : ∀ i, (s.nodes i).chain = c₀
  addresses : ∀ i, (s.nodes i).pool.addresses = validators
  signed : s.signed = []
  fixed : FixedSet validators encoded c₀
  genesis : tree.Contains c₀.genesis

def System.Delivers (w : Setup) (tree : BlockTree w.env) (validators : List Address) (encoded : List Bytes)
    (s : System ι) (action : Action ι) : Prop :=
  (∀ i now block, action = .handleBlock i now block → tree.Contains block) ∧
    ∀ i, FixedSet validators encoded ((s.step w action).nodes i).chain

/-- A key that signs a vote outside the node code has signed the vote for the parent before. -/
def System.SignsParentFirst (w : Setup) (tree : BlockTree w.env) (s : System ι) : Action ι → Prop
  | .sign key message => ∀ b p, tree.Contains b → message = w.vote b → tree.parentOf b = some p →
      0 < p.number → (key, w.vote p) ∈ s.signed
  | _ => True

structure System.Sound (w : Setup) (tree : BlockTree w.env) (validators : List Address) (encoded : List Bytes)
    (keys : List (Option PublicKey)) (s : System ι) : Prop where
  nodes : ∀ i, (s.nodes i).Sound w tree validators keys s.signed
  fixed : ∀ i, FixedSet validators encoded (s.nodes i).chain
  votes : VotesParentFirst w tree s.signed

variable {w : Setup} {tree : BlockTree w.env} {validators : List Address} {encoded : List Bytes}
  {keys : List (Option PublicKey)}

omit [DecidableEq ι] in
theorem System.Initial.sound {g : Genesis} {c₀ : BlockChain} (hgenesis : g.commit w.env = .ok c₀)
    {s : System ι} (h : s.Initial w tree validators encoded c₀) : s.Sound w tree validators encoded keys := by
  obtain ⟨hwf, hnone⟩ := wellFormed_of_commit hgenesis
  refine ⟨fun i => ⟨?_, ?_, h.addresses i, ?_, ?_⟩, fun i => ?_, ?_⟩
  · rw [h.chain i]
    exact hwf
  · intro hash b hb
    rw [h.chain i] at hb
    rw [← hwf.hash_eq hash b hb, (blocks_of_commit hgenesis hb).1]
    exact h.genesis
  · intro addr key _ _ hash b hb hpos
    rw [h.chain i] at hb
    rw [(blocks_of_commit hgenesis hb).2] at hpos
    exact absurd hpos (lt_irrefl 0)
  · intro f hf
    rw [h.chain i, hnone] at hf
    cases hf
  · rw [h.chain i]
    exact h.fixed
  · intro key b p _ hvote
    rw [h.signed] at hvote
    cases hvote

theorem System.step_signed (s : System ι) (action : Action ι) : s.signed ⊆ (s.step w action).signed := by
  cases action with
  | handleBlock i now block =>
    simp only [System.step, Node.handleBlock]
    split
    · exact fun _ hx => hx
    · exact Node.subset_attest w s.signed _ block
  | handleAttestations _ _ | handleEvidence _ _ => exact fun _ hx => hx
  | sign key message => exact subset_append_left _ _

theorem System.run_signed {s : System ι} (actions : List (Action ι)) :
    s.signed ⊆ (run (System.step w) s actions).signed :=
  run_related (R := fun s t : System ι => s.signed ⊆ t.signed) (fun _ _ hx => hx)
    (fun _ _ _ h₁ h₂ _ hx => h₂ (h₁ hx)) (fun s action => s.step_signed action) s actions

theorem System.Sound.step (hkeys : decodeKeys w.signing.base encoded = some keys) (hne : validators ≠ [])
    {s : System ι} (h : s.Sound w tree validators encoded keys) {action : Action ι}
    (hdeliver : s.Delivers w tree validators encoded action) (hsign : s.SignsParentFirst w tree action) :
    (s.step w action).Sound w tree validators encoded keys := by
  have hsub := s.step_signed (w := w) action
  -- the nodes that do not act only see the log grow
  have hothers : ∀ {j : ι} {n : Node}, n.Sound w tree validators keys (s.step w action).signed →
      ∀ i, (update s.nodes j n i).Sound w tree validators keys (s.step w action).signed :=
    fun hn => (forall_update_iff s.nodes fun _ (n : Node) => n.Sound w tree validators keys _).mpr
      ⟨hn, fun i _ => (h.nodes i).mono hsub⟩
  cases action with
  | handleBlock j now block =>
    have hfixed := hdeliver.2 j
    simp only [System.step, update_self] at hfixed
    obtain ⟨hnode, hvotes, -⟩ := (h.nodes j).handleBlock hkeys hne h.votes now
      (hdeliver.1 j now block rfl) hfixed
    exact ⟨hothers hnode, hdeliver.2, hvotes⟩
  | handleAttestations j votes =>
    exact ⟨hothers ((h.nodes j).handleAttestations hkeys (h.fixed j) votes).1, hdeliver.2, h.votes⟩
  | handleEvidence j proofs =>
    obtain ⟨hchain, haddresses, hvalidator⟩ :=
      (s.nodes j).handleEvidence_finalizes (w.envAt s.signed) proofs
    refine ⟨hothers ?_, hdeliver.2, h.votes⟩
    exact ((h.nodes j).finalizes hkeys (h.fixed j) ⟨Or.inl hchain, haddresses, hvalidator⟩).1
  | sign key message =>
    refine ⟨fun i => (h.nodes i).mono hsub, hdeliver.2, fun key' b p hb hvote hp hpos => hsub ?_⟩
    rcases mem_append.mp hvote with hold | hnew
    · exact h.votes key' b p hb hold hp hpos
    · obtain ⟨rfl, hsame⟩ := Prod.mk.inj (mem_singleton.mp hnew)
      exact hsign b p hb hsame.symm hp hpos

/-- If two nodes finalize, at any two moments of a run, blocks of which neither is an ancestor of the
other, then more than a third of the validators have signed two hashes at one height and are caught,
provided that no key signs a vote outside the node code before its vote for the parent. -/
theorem finality_accountable {g : Genesis} {c₀ : BlockChain} (hgenesis : g.commit w.env = .ok c₀)
    (hkeys : decodeKeys w.signing.base encoded = some keys) (hne : validators ≠ []) (s₀ : System ι)
    (hinitial : s₀.Initial w tree validators encoded c₀) (before after : List (Action ι))
    (hdeliver : Steps (System.step w) (System.Delivers w tree validators encoded) s₀ (before ++ after))
    (hsign : Steps (System.step w) (System.SignsParentFirst w tree) s₀ (before ++ after)) (i j : ι) (a b : Block)
    (ha : ((run (System.step w) s₀ before).nodes i).chain.finalized = some a)
    (hb : ((run (System.step w) s₀ (before ++ after)).nodes j).chain.finalized = some b)
    (hab : ¬ tree.IsAncestor a b) (hba : ¬ tree.IsAncestor b a) :
    ∃ offenders : Finset Nat, keys.length < 3 * offenders.card ∧
      ∀ k ∈ offenders, ∃ key, keys[k]? = some (some key) ∧
        Equivocates w (run (System.step w) s₀ (before ++ after)).signed key ∧
        Caught w (run (System.step w) s₀ (before ++ after)).signed k key := by
  have hsteps := hdeliver.and hsign
  have hsound : ∀ {actions}, Steps (System.step w)
      (fun s action => System.Delivers w tree validators encoded s action ∧ s.SignsParentFirst w tree action)
      s₀ actions → (run (System.step w) s₀ actions).Sound w tree validators encoded keys :=
    fun h => run_invariant (fun s action hcond hs => hs.step hkeys hne hcond.1 hcond.2) h
      (hinitial.sound hgenesis)
  have hbefore := hsound (steps_append.mp hsteps).1
  have hend := hsound hsteps
  have hgrows : (run (System.step w) s₀ before).signed ⊆
      (run (System.step w) s₀ (before ++ after)).signed := by
    rw [run_append]
    exact System.run_signed after
  have hpos : 0 < keys.length := by
    rw [decodeKeys_length hkeys, hinitial.fixed.length_eq]
    exact length_pos_iff.mpr hne
  obtain ⟨haTree, haRooted⟩ := (hbefore.nodes i).rooted ((hbefore.nodes i).wellFormed.finalized_stored a ha)
  obtain ⟨hbTree, hbRooted⟩ := (hend.nodes j).rooted ((hend.nodes j).wellFormed.finalized_stored b hb)
  have haQuorum := ((hbefore.nodes i).certified a ha).mono hgrows
  have hbQuorum := (hend.nodes j).certified b hb
  have hoffenders : ∃ offenders : Finset Nat, keys.length < 3 * offenders.card ∧
      ∀ k ∈ offenders, ∃ key, keys[k]? = some (some key) ∧
        Equivocates w (run (System.step w) s₀ (before ++ after)).signed key := by
    rcases le_total a.number b.number with hle | hle
    · exact conflicting_quorums hpos hend.votes haTree hbTree (hbRooted a.number hle) hab haQuorum hbQuorum
    · exact conflicting_quorums hpos hend.votes hbTree haTree (haRooted b.number hle) hba hbQuorum haQuorum
  obtain ⟨offenders, hcard, hall⟩ := hoffenders
  refine ⟨offenders, hcard, fun k hk => ?_⟩
  obtain ⟨key, hkey, hequivocates⟩ := hall k hk
  exact ⟨key, hkey, hequivocates, hequivocates.caught k⟩

end System

/-! ### Conflicting votes at one height and across heights -/

namespace SafetyExample

def w : Setup := ⟨Env.plain fun s => BitVec.ofNat 256 s.registry.count, Signing.plain⟩

def chain : BlockChain := plainChain w.env [1]

def key : PublicKey := ⟨List.replicate 48 1⟩

def a1 : Block := emptyChild chain.genesis 1 1 []

def b1 : Block := emptyChild chain.genesis 1 2 []

def b2 : Block := emptyChild b1 1 2 []

def blocks : List Block := [chain.genesis, a1, b1, b2]

def tree : BlockTree w.env where
  block h := blocks.find? fun b => w.env.hash b.header = h
  genesis := chain.genesis
  hash_eq h b hb := by
    have hfound := List.find?_some hb
    exact of_decide_eq_true hfound
  root h b hb hzero := by
    have hall : ∀ b ∈ blocks, b.number = 0 → b = chain.genesis := by decide +kernel
    exact hall b (List.mem_of_find?_eq_some hb) hzero

def start : System Bool :=
  ⟨fun _ => ⟨chain, AttestationPool.new Bls.plain 7 [1] [key.bytes], none⟩, []⟩

def voteFor (b : Block) : Attestation := signedVote w key 0 b.number (w.env.hash b.header)

def firstNode : List (Action Bool) :=
  [.sign key (w.vote a1), .sign key (w.vote b1), .handleBlock false 100 a1, .handleAttestations false [voteFor a1]]

def secondNode : List (Action Bool) := [.handleBlock true 100 b1, .handleAttestations true [voteFor b1]]

def acrossHeights : List (Action Bool) :=
  [.sign key (w.vote a1), .sign key (w.vote b2), .handleBlock false 100 a1, .handleAttestations false [voteFor a1],
    .handleBlock true 100 b1, .handleBlock true 100 b2, .handleAttestations true [voteFor b2]]

def registry : Registry := (plainState [1]).registry

theorem active_registry (epoch : Nat) :
    registry.activeAddressesAt epoch = [1] ∧ registry.activeBLSKeysAt epoch = [key.bytes] := by
  exact ⟨rfl, rfl⟩

structure Quiet (c : BlockChain) : Prop where
  genesis : ∃ s, c.states c.genesis.header.stateRoot = some s
  states : ∀ root s, c.states root = some s → s.registry = registry ∧ s.balance stakingAddress ≠ 0

variable {c : BlockChain} {block : Block} {s : System Bool}

theorem Quiet.fixedSet (h : Quiet c) : FixedSet [1] [key.bytes] c := by
  refine ⟨h.genesis, fun root s hs epoch => ?_⟩
  rw [(h.states root s hs).1]
  exact active_registry epoch

theorem Quiet.congr {c' : BlockChain} (h : Quiet c) (hstates : c'.states = c.states)
    (hgenesis : c'.genesis = c.genesis) : Quiet c' := by
  refine ⟨?_, ?_⟩
  · rw [hstates, hgenesis]
    exact h.genesis
  · rw [hstates]
    exact h.states

def Idle (block : Block) : Prop :=
  block.transactions = [] ∧ block.header.randaoReveal = [] ∧ isEpochBoundary block.number = false

instance (block : Block) : Decidable (Idle block) := inferInstanceAs (Decidable (_ ∧ _))

theorem Idle.executeBlock {env : Env} {parent : Block} (h : Idle block)
    {receipts : List Receipt} {s : StateDB} (hs : c.executeBlock env block parent = .ok (receipts, s)) :
    ∃ s₀, c.states parent.header.stateRoot = some s₀ ∧ s = s₀.finalise := by
  obtain ⟨htransactions, hreveal, hboundary⟩ := h
  simp only [BlockChain.executeBlock] at hs
  split at hs
  · cases hs
  · rename_i s₀ hs₀
    have hprocess : process env (c.view env) block s₀ c.finalizedNumber =
        if 0 ≠ block.header.gasUsed then .error (.gasUsed block.header.gasUsed 0) else .ok ([], s₀) := by
      simp [process, runTransactions, htransactions, applyTransactions, applyRandao, hreveal,
        processEpochBoundary, hboundary]
    rw [hprocess] at hs
    split at hs
    · cases hs
    · rename_i heq
      split at heq
      · cases heq
      · cases heq
        split at hs <;> cases hs
        exact ⟨s₀, hs₀, rfl⟩

theorem Quiet.insertBlock (h : Quiet c) (env : Env) (now : Nat)
    (hidle : Idle block) : Quiet (c.insertBlock env now block).2 := by
  obtain ⟨hgenesis, hsame | ⟨parent, receipts, s, hexecute, hstates⟩⟩ :=
    BlockChain.insertBlock_states env c now block
  · exact h.congr hsame hgenesis
  · obtain ⟨s₀, hs₀, rfl⟩ := hidle.executeBlock hexecute
    obtain ⟨hregistry, hbalance⟩ := h.states _ s₀ hs₀
    have hnew : s₀.finalise.registry = registry ∧ s₀.finalise.balance stakingAddress ≠ 0 :=
      ⟨(StateDB.finalise_registry_of_ne hbalance).trans hregistry, hbalance⟩
    refine ⟨?_, fun root s hs => ?_⟩
    · rw [hgenesis, hstates, update_apply]
      split_ifs
      · exact ⟨_, rfl⟩
      · exact h.genesis
    · rw [hstates, update_apply] at hs
      split_ifs at hs
      · rw [← Option.some.inj hs]
        exact hnew
      · exact h.states root s hs

def delivered : Action Bool → List Block
  | .handleBlock _ _ block => [block]
  | _ => []

theorem quiet_step (h : ∀ i, Quiet (s.nodes i).chain) (action : Action Bool)
    (hidle : ∀ b ∈ delivered action, Idle b) : ∀ i, Quiet ((s.step w action).nodes i).chain := by
  have hothers : ∀ {i j : Bool} {n : Node}, Quiet n.chain → Quiet (update s.nodes j n i).chain :=
    fun hn => (forall_update_iff s.nodes fun _ n => Quiet n.chain).mpr ⟨hn, fun i _ => h i⟩ _
  intro i
  cases action with
  | handleBlock j now block =>
    obtain ⟨hstates, hgenesis⟩ := (s.nodes j).handleBlock_states w s.signed now block
    have himport := (h j).insertBlock (w.envAt s.signed) now (hidle block (mem_singleton_self block))
    exact hothers (himport.congr hstates hgenesis)
  | handleAttestations j votes =>
    obtain ⟨hstates, hgenesis⟩ := (s.nodes j).handleAttestations_states (w.envAt s.signed) votes
    exact hothers ((h j).congr hstates hgenesis)
  | handleEvidence j proofs =>
    have hchain := ((s.nodes j).handleEvidence_finalizes (w.envAt s.signed) proofs).1
    exact hothers (by rw [hchain]; exact h j)
  | sign key message => exact h i

theorem delivers_of_idle (h : ∀ i, Quiet (s.nodes i).chain) (actions : List (Action Bool))
    (hidle : ∀ b ∈ actions.flatMap delivered, tree.Contains b ∧ Idle b) :
    Steps (System.step w) (System.Delivers w tree [1] [key.bytes]) s actions := by
  induction actions generalizing s with
  | nil => trivial
  | cons action rest ih =>
    have hhead : ∀ b ∈ delivered action, tree.Contains b ∧ Idle b :=
      fun b hb => hidle b (mem_flatMap.mpr ⟨action, mem_cons_self, hb⟩)
    have hstep := quiet_step h action fun b hb => (hhead b hb).2
    refine ⟨⟨?_, fun i => (hstep i).fixedSet⟩, ih hstep fun b hb => hidle b ?_⟩
    · rintro i now block rfl
      exact (hhead block (mem_singleton_self block)).1
    · exact mem_append_right _ hb

theorem quiet_chain : Quiet chain := by
  have hgenesis : ∀ s, (openChain w.env ((plain [1]).toBlock w.env s) s).states
      ((plain [1]).toBlock w.env s).header.stateRoot = some s := fun s => if_pos rfl
  refine ⟨⟨plainState [1], hgenesis _⟩, fun root s hs => ?_⟩
  obtain ⟨-, hsome⟩ := Option.ite_none_right_eq_some.mp hs
  rw [← Option.some.inj hsome]
  exact ⟨rfl, by decide⟩

theorem commit_plain : (plain [1]).commit w.env = .ok chain := rfl

theorem contains_blocks : ∀ b ∈ blocks, tree.block (w.env.hash b.header) = some b := by decide +kernel

theorem initial_start : start.Initial w tree [1] [key.bytes] chain where
  chain _ := rfl
  addresses _ := rfl
  signed := rfl
  fixed := quiet_chain.fixedSet
  genesis := contains_blocks chain.genesis mem_cons_self

theorem delivers_start {actions : List (Action Bool)} (h : ∀ b ∈ actions.flatMap delivered, b ∈ blocks ∧ Idle b) :
    Steps (System.step w) (System.Delivers w tree [1] [key.bytes]) start actions :=
  delivers_of_idle (fun _ => quiet_chain) actions fun b hb => ⟨contains_blocks b (h b hb).1, (h b hb).2⟩

theorem signsParentFirst_of_number_one (k : PublicKey) (hb : b.number = 1) :
    s.SignsParentFirst w tree (.sign k (w.vote b)) := by
  intro b' p _ hvote hp hpos
  have hnumber : b.number = b'.number := (attestation.inj hvote).2.1
  have hparent := BlockTree.number_of_parentOf b' p hp
  omega

theorem siblings_conflict : ¬ tree.IsAncestor a1 b1 ∧ ¬ tree.IsAncestor b1 a1 := by
  have hne : a1 ≠ b1 := by decide +kernel
  have hheight : a1.number = 1 ∧ b1.number = 1 := by decide
  refine ⟨fun h => hne ?_, fun h => hne ?_⟩
  · exact Ancestor.eq_of_height_le BlockTree.number_of_parentOf h (by omega)
  · exact (Ancestor.eq_of_height_le BlockTree.number_of_parentOf h (by omega)).symm

end SafetyExample

section

open SafetyExample

/-- One key, two hashes at one height, two finalized blocks: the validator is caught. -/
theorem finality_accountable_one_height :
    ∃ offenders : Finset Nat, [some key].length < 3 * offenders.card ∧
      ∀ k ∈ offenders, ∃ key', [some key][k]? = some (some key') ∧
        Equivocates w (run (System.step w) start (firstNode ++ secondNode)).signed key' ∧
        Caught w (run (System.step w) start (firstNode ++ secondNode)).signed k key' := by
  have hfinalized : ((run (System.step w) start firstNode).nodes false).chain.finalized = some a1 ∧
      ((run (System.step w) start (firstNode ++ secondNode)).nodes true).chain.finalized = some b1 := by
    decide +kernel
  refine finality_accountable commit_plain (by decide) (by decide) start initial_start firstNode
    secondNode (delivers_start (by decide +kernel)) ?_ false true a1 b1 hfinalized.1 hfinalized.2
    siblings_conflict.1 siblings_conflict.2
  exact ⟨signsParentFirst_of_number_one key rfl, signsParentFirst_of_number_one key rfl, trivial, trivial,
    trivial, trivial, trivial⟩

/-- One key signs a block at height 1 and one at height 2 of the other branch. Two nodes finalize them,
and nobody has signed two hashes at one height. -/
theorem finality_unaccountable_across_heights :
    (Genesis.plain [1]).commit w.env = .ok chain ∧ decodeKeys w.signing.base [key.bytes] = some [some key] ∧
      start.Initial w tree [1] [key.bytes] chain ∧
      Steps (System.step w) (System.Delivers w tree [1] [key.bytes]) start acrossHeights ∧
      ((run (System.step w) start acrossHeights).nodes false).chain.finalized = some a1 ∧
      ((run (System.step w) start acrossHeights).nodes true).chain.finalized = some b2 ∧
      ¬ tree.IsAncestor a1 b2 ∧ ¬ tree.IsAncestor b2 a1 ∧
      ¬ ∃ offenders : Finset Nat, [some key].length < 3 * offenders.card ∧
        ∀ k ∈ offenders, ∃ key', [some key][k]? = some (some key') ∧
          Equivocates w (run (System.step w) start acrossHeights).signed key' := by
  have hrun : ((run (System.step w) start acrossHeights).nodes false).chain.finalized = some a1 ∧
      ((run (System.step w) start acrossHeights).nodes true).chain.finalized = some b2 ∧
      (run (System.step w) start acrossHeights).signed = [(key, w.vote a1), (key, w.vote b2)] ∧
      tree.parentOf b2 = some b1 ∧ a1 ≠ b2 ∧ a1.number = 1 ∧ b2.number = 2 := by
    decide +kernel
  obtain ⟨hfirst, hsecond, hsigned, hparent, hne, hone, htwo⟩ := hrun
  refine ⟨commit_plain, by decide +kernel, initial_start, delivers_start (by decide +kernel), hfirst, hsecond,
    ?_, ?_, ?_⟩
  · intro h
    rcases Ancestor.eq_or_parent h with heq | ⟨p, hp, hab⟩
    · exact hne heq
    · rw [BlockTree.parentOf] at hparent hp
      rw [← Option.some.inj hp] at hab
      exact siblings_conflict.1 hab
  · intro h
    have hle := h.number_le
    omega
  · rintro ⟨offenders, hcard, hall⟩
    obtain ⟨k, hk⟩ : offenders.Nonempty := by
      rw [← Finset.card_pos]
      omega
    obtain ⟨key', -, number, first, second, hdiffer, hvote, hvote'⟩ := hall k hk
    rw [hsigned] at hvote hvote'
    simp only [mem_cons, not_mem_nil, or_false, Prod.mk.injEq] at hvote hvote'
    have hread : ∀ {b : Block} {h : Hash}, SigningMessage.attestation w.env.cfg.chainID number h = w.vote b →
        number = b.number ∧ h = w.env.hash b.header := fun heq => (SigningMessage.attestation.inj heq).2
    rcases hvote with ⟨-, ha⟩ | ⟨-, hb⟩ <;> rcases hvote' with ⟨-, ha'⟩ | ⟨-, hb'⟩
    · exact hdiffer ((hread ha).2.trans (hread ha').2.symm)
    · have := (hread ha).1.symm.trans (hread hb').1
      omega
    · have := (hread hb).1.symm.trans (hread ha').1
      omega
    · exact hdiffer ((hread hb).2.trans (hread hb').2.symm)

end

end PadiChain

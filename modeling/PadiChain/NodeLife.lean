import PadiChain.NodeSafety

/-! A network whose nodes are also restarted. A restart keeps the chain, which is on disk, and loses the
attestation pool. A node votes for every block it imports, on whichever branch, so what it has signed at
a height is as unique as the block it has stored there. -/

namespace PadiChain

open Core Staking Processor Chain Consensus Function SigningMessage Transition

/-- `Validators`: the set of the next height, or the genesis set if it cannot be read. -/
def Chain.BlockChain.validators (env : Env) (c : BlockChain) : List Address :=
  (c.validatorsAt env (c.current.number + 1)).getD (c.genesisValidators env)

def encodeKeys (keys : List (Option PublicKey)) : List Bytes :=
  keys.map fun key =>
    match key with
    | none => []
    | some key => key.bytes

/-- The part of `New` that makes a pool: the addresses are those of the next height, the keys those of
height 0. Without the latter the node does not start. -/
def Node.restart (env : Env) (n : Node) : Option Node :=
  match n.chain.blsKeysAt env 0 with
  | none => none
  | some keys =>
    some { n with
      pool := AttestationPool.new env.cfg.bls env.cfg.chainID (n.chain.validators env) (encodeKeys keys) }

/-- What can happen to a network, restarts included. -/
inductive Event (ι : Type) where
  | act (action : Action ι)
  | restart (node : ι)

section Live

variable {ι : Type} [DecidableEq ι] (w : Setup)

def System.live (s : System ι) : Event ι → System ι
  | .act action => s.step w action
  | .restart i =>
    match (s.nodes i).restart (w.envAt s.signed) with
    | none => s
    | some n => { s with nodes := update s.nodes i n }

/-- The key signs votes in the node code only. -/
def System.VotesInCode (key : PublicKey) (_ : System ι) : Event ι → Prop
  | .act (.sign k message) => ∀ number hash, message = .attestation w.env.cfg.chainID number hash → k ≠ key
  | _ => True

/-- The condition on the blocks handed to a node: it stores no other block at the height. -/
def System.SoleAtHeight (i : ι) (s : System ι) : Event ι → Prop
  | .act (.handleBlock j _ block) => j = i → ∀ h b, (s.nodes i).chain.blocks h = some b →
      b.number = block.number → h = w.env.hash block.header
  | _ => True

end Live

namespace Node

variable {w : Setup}

theorem Finalizes.wellFormed {log : SignedLog} {n n' : Node} (h : n.Finalizes (w.envAt log) n')
    (hwf : n.chain.WellFormed w.env) : n'.chain.WellFormed w.env ∧ n'.chain.blocks = n.chain.blocks := by
  rcases h.chain with hsame | ⟨qc, hfinalize⟩
  · rw [hsame]
    exact ⟨hwf, rfl⟩
  · rw [hfinalize]
    exact ⟨wellFormed_of_envAt ((wellFormed_envAt log hwf).finalize qc).1.wellFormed,
      BlockChain.finalize_blocks _ _ _⟩

theorem handleAttestations_spec (log : SignedLog) (n : Node) (votes : List Attestation) :
    (n.handleAttestations (w.envAt log) votes).validator = n.validator ∧
      (n.chain.WellFormed w.env → (n.handleAttestations (w.envAt log) votes).chain.WellFormed w.env ∧
        (n.handleAttestations (w.envAt log) votes).chain.blocks = n.chain.blocks) := by
  induction votes generalizing n with
  | nil => exact ⟨rfl, fun hwf => ⟨hwf, rfl⟩⟩
  | cons vote rest ih =>
    have hstep := n.handleAttestation_finalizes (w.envAt log) vote
    obtain ⟨hvalidator, hrest⟩ := ih (n.handleAttestation (w.envAt log) vote)
    refine ⟨hvalidator.trans hstep.validator, fun hwf => ?_⟩
    obtain ⟨hwf', hblocks⟩ := hstep.wellFormed hwf
    obtain ⟨hwf'', hblocks'⟩ := hrest hwf'
    exact ⟨hwf'', hblocks'.trans hblocks⟩

theorem handleBlock_signs (log : SignedLog) (n : Node) (now : Nat) (block : Block) :
    (n.handleBlock w log now block).1.validator = n.validator ∧
      ((n.handleBlock w log now block).2 = log ∨
        (n.chain.insertBlock (w.envAt log) now block).1 = .ok () ∧
        ∃ addr key, n.validator = some (addr, some key) ∧
          (n.handleBlock w log now block).2 = log ++ [(key, w.vote block)]) := by
  simp only [handleBlock]
  split
  · exact ⟨rfl, .inl rfl⟩
  · rename_i u c heq
    obtain ⟨-, hvalidator, -⟩ := syncValidatorSet_spec (w.envAt log) { n with chain := c }
    obtain ⟨hfinalizes, hlog, -⟩ := (syncValidatorSet (w.envAt log) { n with chain := c }).attest_spec w log block
    refine ⟨hfinalizes.validator.trans hvalidator, hlog.imp_right ?_⟩
    rintro ⟨addr, key, hkey, -, hgrown⟩
    exact ⟨by rw [heq], addr, key, hvalidator.symm.trans hkey, hgrown⟩

theorem handleBlock_stores (log : SignedLog) (n : Node) (now : Nat) (block : Block) (hwf : n.chain.WellFormed w.env) :
    (n.handleBlock w log now block).1.chain.WellFormed w.env ∧
      (∀ h b, n.chain.blocks h = some b → (n.handleBlock w log now block).1.chain.blocks h = some b) ∧
      ((n.chain.insertBlock (w.envAt log) now block).1 = .ok () →
        (n.handleBlock w log now block).1.chain.Stored w.env block) := by
  have hwfAt := wellFormed_envAt log hwf
  have hextends := (hwfAt.insertBlock now block).1
  have hresult := hwfAt.insertBlock_result now block
  have hblocks := hextends.grows
  simp only [handleBlock]
  split
  · rename_i e c heq
    rw [heq] at hextends
    refine ⟨wellFormed_of_envAt hextends.wellFormed, fun h b hb => ?_, fun hok => ?_⟩
    · rw [heq] at hblocks
      exact hblocks h b hb
    · rw [heq] at hok
      cases hok
  · rename_i u c heq
    rw [heq] at hextends hblocks hresult
    obtain ⟨hchain, -, -⟩ := syncValidatorSet_spec (w.envAt log) { n with chain := c }
    obtain ⟨hfinalizes, -, -⟩ := (syncValidatorSet (w.envAt log) { n with chain := c }).attest_spec w log block
    obtain ⟨hwf', hkept⟩ := hfinalizes.wellFormed (hchain.symm ▸ wellFormed_of_envAt hextends.wellFormed)
    rw [hchain] at hkept
    refine ⟨hwf', fun h b hb => ?_, fun _ => ?_⟩
    · rw [hkept]
      exact hblocks h b hb
    · rcases hresult with ⟨e, herror, -⟩ | ⟨-, hstored, -⟩
      · cases herror
      · rw [BlockChain.Stored, hkept]
        exact hstored

end Node

theorem Equivocates.of_verify {w : Setup} {log : SignedLog} {key : PublicKey}
    (hunforgeable : ∀ msg sig, w.signing.verify log key msg sig = true → (key, msg) ∈ log) {proof : Equivocation}
    (h : proof.verify (w.envAt log).cfg.bls w.env.cfg.chainID (some key) = .ok ()) : Equivocates w log key := by
  have hsigned : ∀ {a : Attestation}, a.verify (w.envAt log).cfg.bls w.env.cfg.chainID (some key) = .ok () →
      (key, attestation w.env.cfg.chainID a.number a.blockHash) ∈ log := by
    intro a ha
    simp only [Attestation.verify] at ha
    split at ha
    · cases ha
    split at ha
    · rename_i sig _ hverify
      exact hunforgeable _ sig hverify
    · cases ha
  simp only [Equivocation.verify] at h
  split at h
  · rename_i first second _ _
    split at h
    · cases h
    · cases h
    rename_i hdetect
    simp only [detectEquivocation] at hdetect
    split at hdetect
    · cases hdetect
    rename_i hsame
    split at hdetect
    · cases hdetect
    rename_i hhash
    split at hdetect
    · cases hdetect
    rename_i hfirst
    split at hdetect
    · cases hdetect
    rename_i hsecond
    have hnumber : first.number = second.number := not_not.mp (not_or.mp hsame).1
    exact ⟨first.number, first.blockHash, second.blockHash, hhash, hsigned hfirst, hnumber ▸ hsigned hsecond⟩
  · cases h

section Honest

variable {ι : Type} [DecidableEq ι]

/-- The invariant of an honest validator: it alone has the key, every vote of the key is for a block the
node stores, and no two are for different hashes at one height. -/
structure System.Honest (w : Setup) (i : ι) (key : PublicKey) (s : System ι) : Prop where
  wellFormed : (s.nodes i).chain.WellFormed w.env
  sole : ∀ j addr, (s.nodes j).validator = some (addr, some key) → j = i
  stored : ∀ number hash, (key, attestation w.env.cfg.chainID number hash) ∈ s.signed →
    ∃ b, (s.nodes i).chain.blocks hash = some b ∧ b.number = number
  once : ¬ Equivocates w s.signed key

variable {w : Setup} {i : ι} {key : PublicKey} {s : System ι}

namespace System.Honest

variable (h : s.Honest w i key)

include h

theorem keep {j : ι} {n : Node} (hvalidator : n.validator = (s.nodes j).validator)
    (hchain : j = i → n.chain.WellFormed w.env ∧
      ∀ hash b, (s.nodes i).chain.blocks hash = some b → n.chain.blocks hash = some b) :
    System.Honest w i key { s with nodes := update s.nodes j n } := by
  have hnode : ∀ k, (update s.nodes j n k).validator = (s.nodes k).validator := by
    intro k
    rw [update_apply]
    split_ifs with hk
    · rw [hvalidator, hk]
    · rfl
  have hown : (update s.nodes j n i).chain.WellFormed w.env ∧ ∀ hash b,
      (s.nodes i).chain.blocks hash = some b → (update s.nodes j n i).chain.blocks hash = some b := by
    rw [update_apply]
    split_ifs with hj
    · exact hchain hj.symm
    · exact ⟨h.wellFormed, fun _ _ hb => hb⟩
  refine ⟨hown.1, fun k addr hk => h.sole k addr ((hnode k).symm.trans hk), fun number hash hvote => ?_, h.once⟩
  obtain ⟨b, hb, hnumber⟩ := h.stored number hash hvote
  exact ⟨b, hown.2 hash b hb, hnumber⟩

omit [DecidableEq ι] in
theorem sign {k : PublicKey} {message : SigningMessage}
    (hother : ∀ number hash, message = .attestation w.env.cfg.chainID number hash → k ≠ key) :
    System.Honest w i key { s with signed := s.signed ++ [(k, message)] } := by
  have hold : ∀ {number hash}, (key, attestation w.env.cfg.chainID number hash) ∈
      s.signed ++ [(k, message)] → (key, attestation w.env.cfg.chainID number hash) ∈ s.signed := by
    intro number hash hmem
    rcases List.mem_append.mp hmem with hmem | hmem
    · exact hmem
    · obtain ⟨rfl, rfl⟩ := Prod.mk.inj (List.mem_singleton.mp hmem)
      exact absurd rfl (hother number hash rfl)
  refine ⟨h.wellFormed, h.sole, fun number hash hvote => h.stored number hash (hold hvote), ?_⟩
  rintro ⟨number, first, second, hne, hfirst, hsecond⟩
  exact h.once ⟨number, first, second, hne, hold hfirst, hold hsecond⟩

omit [DecidableEq ι] in
theorem vote {block : Block} (hstored : (s.nodes i).chain.Stored w.env block)
    (hsole : ∀ number hash, (key, attestation w.env.cfg.chainID number hash) ∈ s.signed →
      number = block.number → hash = w.env.hash block.header) :
    System.Honest w i key { s with signed := s.signed ++ [(key, w.vote block)] } := by
  have hcases : ∀ {number hash}, (key, attestation w.env.cfg.chainID number hash) ∈
      s.signed ++ [(key, w.vote block)] →
        (key, attestation w.env.cfg.chainID number hash) ∈ s.signed ∨
          number = block.number ∧ hash = w.env.hash block.header := by
    intro number hash hmem
    rcases List.mem_append.mp hmem with hmem | hmem
    · exact .inl hmem
    · obtain ⟨-, heq⟩ := Prod.mk.inj (List.mem_singleton.mp hmem)
      obtain ⟨-, hnumber, hhash⟩ := attestation.inj heq
      exact .inr ⟨hnumber, hhash⟩
  refine ⟨h.wellFormed, h.sole, fun number hash hvote => ?_, ?_⟩
  · rcases hcases hvote with hold | ⟨rfl, rfl⟩
    · exact h.stored number hash hold
    · exact ⟨block, hstored, rfl⟩
  · rintro ⟨number, first, second, hne, hfirst, hsecond⟩
    rcases hcases hfirst with hfirst | ⟨hnumber, rfl⟩ <;> rcases hcases hsecond with hsecond | ⟨hnumber', rfl⟩
    · exact h.once ⟨number, first, second, hne, hfirst, hsecond⟩
    · exact hne (hsole number first hfirst hnumber')
    · exact hne (hsole number second hsecond hnumber).symm
    · exact hne rfl

theorem handleBlock {j : ι} {now : Nat} {block : Block}
    (hsole : s.SoleAtHeight w i (.act (.handleBlock j now block))) :
    (s.step w (.handleBlock j now block)).Honest w i key := by
  obtain ⟨hvalidator, hlog⟩ := (s.nodes j).handleBlock_signs (w := w) s.signed now block
  have hkeep := h.keep (n := ((s.nodes j).handleBlock w s.signed now block).1) hvalidator (by
    rintro rfl
    obtain ⟨hwf, hgrows, -⟩ := (s.nodes j).handleBlock_stores s.signed now block h.wellFormed
    exact ⟨hwf, hgrows⟩)
  simp only [System.step]
  rcases hlog with hsame | ⟨hok, addr, k, hk, hgrown⟩
  · rw [hsame]
    exact hkeep
  · rw [hgrown]
    by_cases hkey : k = key
    · subst hkey
      obtain rfl := h.sole j addr hk
      obtain ⟨-, -, hstored⟩ := (s.nodes j).handleBlock_stores s.signed now block h.wellFormed
      refine hkeep.vote ?_ fun number hash hvote hnumber => ?_
      · dsimp only
        rw [update_self]
        exact hstored hok
      · obtain ⟨b, hb, hbnumber⟩ := h.stored number hash hvote
        exact hsole rfl hash b hb (hbnumber.trans hnumber)
    · exact hkeep.sign fun _ _ _ => hkey

theorem live {event : Event ι} (hcode : s.VotesInCode w key event)
    (hsole : s.SoleAtHeight w i event) : (s.live w event).Honest w i key := by
  cases event with
  | act action =>
    cases action with
    | handleBlock j now block => exact h.handleBlock hsole
    | handleAttestations j votes =>
      obtain ⟨hvalidator, hchain⟩ := (s.nodes j).handleAttestations_spec (w := w) s.signed votes
      refine h.keep hvalidator ?_
      rintro rfl
      obtain ⟨hwf, hblocks⟩ := hchain h.wellFormed
      exact ⟨hwf, fun hash b hb => hblocks ▸ hb⟩
    | handleEvidence j proofs =>
      obtain ⟨hchain, -, hvalidator⟩ := (s.nodes j).handleEvidence_finalizes (w.envAt s.signed) proofs
      refine h.keep hvalidator ?_
      rintro rfl
      rw [hchain]
      exact ⟨h.wellFormed, fun _ _ hb => hb⟩
    | sign k message => exact h.sign hcode
  | restart j =>
    simp only [System.live, Node.restart]
    split
    · exact h
    · rename_i n hn
      split at hn
      · cases hn
      · cases hn
        refine h.keep rfl ?_
        rintro rfl
        exact ⟨h.wellFormed, fun _ _ hb => hb⟩

end System.Honest

/-- In every run, with restarts, in which a validator's node is never handed a second block of a height,
the key signs no two hashes at one height, and the pool holds no proof that verifies under it. -/
theorem honest_never_equivocates (w : Setup) (i : ι) (key : PublicKey)
    (hunforgeable : ∀ log msg sig, w.signing.verify log key msg sig = true → (key, msg) ∈ log) (s : System ι)
    (hwf : (s.nodes i).chain.WellFormed w.env)
    (hothers : ∀ j addr, (s.nodes j).validator = some (addr, some key) → j = i)
    (hfresh : ∀ number hash, (key, SigningMessage.attestation w.env.cfg.chainID number hash) ∉ s.signed)
    (events : List (Event ι)) (hcode : Steps (System.live w) (System.VotesInCode w key) s events)
    (hsole : Steps (System.live w) (System.SoleAtHeight w i) s events) :
    ¬ Equivocates w (run (System.live w) s events).signed key ∧
      ∀ proof ∈ ((run (System.live w) s events).nodes i).pool.evidence,
        proof.verify (w.envAt (run (System.live w) s events).signed).cfg.bls w.env.cfg.chainID
          (some key) ≠ .ok () := by
  have hstart : s.Honest w i key := by
    refine ⟨hwf, hothers, fun number hash hvote => absurd hvote (hfresh number hash), ?_⟩
    rintro ⟨number, first, -, -, hfirst, -⟩
    exact hfresh number first hfirst
  have hend : (run (System.live w) s events).Honest w i key :=
    run_invariant (P := System.Honest w i key) (fun _ _ hcond hs => hs.live hcond.1 hcond.2)
      (hcode.and hsole) hstart
  exact ⟨hend.once, fun proof _ hverify => hend.once (.of_verify (hunforgeable _) hverify)⟩

end Honest

/-! ### Two blocks of one height -/

namespace LifeExample

def w : Setup := ⟨Env.plain fun s => BitVec.ofNat 256 s.registry.count, Signing.plain⟩

def chain : BlockChain := Genesis.plainChain w.env [1, 2]

def key : PublicKey := ⟨List.replicate 48 1⟩

def start : System Unit :=
  ⟨fun _ => ⟨chain, AttestationPool.new Bls.plain 7 [1, 2] [key.bytes, List.replicate 48 2], some (1, some key)⟩, []⟩

def first : Block := emptyChild chain.genesis 2 1 []

def second : Block := emptyChild chain.genesis 2 2 []

def deliver (block : Block) : Event Unit := .act (.handleBlock () 100 block)

theorem plain_unforgeable (log : SignedLog) (msg : SigningMessage) (sig : Signature)
    (h : w.signing.verify log key msg sig = true) : (key, msg) ∈ log :=
  List.contains_iff_mem.mp (Bool.and_eq_true_iff.mp h).2

end LifeExample

open LifeExample in
theorem honest_never_equivocates_one_block :
    ¬ Equivocates w (run (System.live w) start [deliver first, .restart ()]).signed key :=
  (honest_never_equivocates w () key plain_unforgeable start (Genesis.wellFormed_openChain rfl) (fun _ _ _ => rfl)
    (fun _ _ => List.not_mem_nil) [deliver first, .restart ()] ⟨trivial, trivial, trivial⟩ (by
      refine ⟨fun _ h b hb hnumber => ?_, trivial, trivial⟩
      obtain ⟨-, hsome⟩ := Option.ite_none_right_eq_some.mp hb
      rw [← Option.some.inj hsome] at hnumber
      cases hnumber)).1

open LifeExample in
/-- A node that is handed both blocks votes for both, and its pool holds the proof, or with a restart in
between the votes alone. -/
theorem honest_equivocates_two_blocks :
    (run (System.live w) start [deliver first, deliver second]).signed =
        [(key, w.vote first), (key, w.vote second)] ∧
      (run (System.live w) start [deliver first, .restart (), deliver second]).signed =
        [(key, w.vote first), (key, w.vote second)] ∧
      first.number = second.number ∧ w.env.hash first.header ≠ w.env.hash second.header ∧
      ∃ proof ∈ ((run (System.live w) start [deliver first, deliver second]).nodes ()).pool.evidence,
        proof.validator = 1 ∧ proof.index = 0 ∧
        proof.verify (w.envAt [(key, w.vote first), (key, w.vote second)]).cfg.bls 7 (some key) = .ok () := by
  decide

end PadiChain

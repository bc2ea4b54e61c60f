import PadiChain.NodeLife
import PadiChain.ChainLinear

/-! Which validator set a vote is counted under. The pool holds one set, the one of the height after the
head, while the chain checks a certificate against the set of the certified height. The two are the same
for the heights of the epoch the next block is in, on a chain without forks. -/

namespace PadiChain

open Core Staking Processor Chain Consensus Function BlockChain System Transition List

/-- The keys that govern a height, decoded by the scheme. -/
def Setup.keysAt (w : Setup) (c : BlockChain) (number : Nat) : Option (List (Option PublicKey)) :=
  (c.rawBLSKeysAt number).bind (decodeKeys w.signing.base)

theorem blsKeysAt_envAt (w : Setup) (log : SignedLog) (c : BlockChain) (number : Nat) :
    c.blsKeysAt (w.envAt log) number = w.keysAt c number := by
  rw [blsKeysAt, Setup.keysAt]
  cases c.rawBLSKeysAt number with
  | none => rfl
  | some raw => exact decodeKeys_bls w.signing log raw

variable {c : BlockChain} {raw : List Bytes} {keys : List (Option PublicKey)}

theorem linear_envAt {w : Setup} (log : SignedLog) (h : c.Linear w.env) : c.Linear (w.envAt log) :=
  { h with }

theorem linear_of_envAt {w : Setup} {log : SignedLog} (h : c.Linear (w.envAt log)) : c.Linear w.env :=
  { h with }

theorem mem_of_decodeKeys {bls : Bls} {key : PublicKey}
    (h : decodeKeys bls raw = some keys) (hkey : some key ∈ keys) : ∃ b, bls.publicKeyFromBytes b = some key := by
  induction raw generalizing keys with
  | nil =>
    cases h
    cases hkey
  | cons first rest ih =>
    rw [decodeKeys] at h
    split at h
    · obtain ⟨tail, htail, rfl⟩ := Option.map_eq_some_iff.mp h
      rcases mem_cons.mp hkey with hnone | hmem
      · cases hnone
      · exact ih htail hmem
    · split at h
      · cases h
      · rename_i decoded hdecoded
        obtain ⟨tail, htail, rfl⟩ := Option.map_eq_some_iff.mp h
        rcases mem_cons.mp hkey with hsame | hmem
        · cases hsame
          exact ⟨first, hdecoded⟩
        · exact ih htail hmem

/-- A key that was decoded is decoded again from its own encoding. -/
def Bls.Reencodes (bls : Bls) : Prop :=
  ∀ {b key}, bls.publicKeyFromBytes b = some key → bls.publicKeyFromBytes key.bytes = some key

theorem setValidators_encodeKeys {bls base : Bls} (hsame : bls.publicKeyFromBytes = base.publicKeyFromBytes)
    (hcodec : base.Reencodes) (h : decodeKeys base raw = some keys) (p : AttestationPool) (addresses : List Address) :
    (p.setValidators bls addresses (encodeKeys keys)).keys = keys := by
  change map _ (map _ keys) = keys
  rw [map_map]
  refine (map_congr_left fun key hkey => ?_).trans (map_id keys)
  cases key with
  | none => rfl
  | some key =>
    obtain ⟨b, hb⟩ := mem_of_decodeKeys h hkey
    have hdecoded := hcodec hb
    have hne : ¬ key.bytes.isEmpty = true := by
      intro hempty
      have hlength := base.length_of_publicKeyFromBytes hdecoded
      rw [isEmpty_iff.mp hempty] at hlength
      cases hlength
    change (if key.bytes.isEmpty then none else bls.publicKeyFromBytes key.bytes) = some key
    rw [if_neg hne, hsame]
    exact hdecoded

theorem validatorsAt_of_rawBLSKeysAt (env : Env) (hvalidators : env.validators ≠ []) {number : Nat}
    (h : c.rawBLSKeysAt number = some raw) : ∃ set, c.validatorsAt env number = some set ∧ ¬ set.isEmpty = true := by
  have hgenesis : ¬ (c.genesisValidators env).isEmpty = true := by
    rw [List.isEmpty_iff, genesisValidators]
    split
    · exact hvalidators
    · dsimp only
      split
      · exact hvalidators
      · rename_i hne
        exact fun hnil => hne (List.isEmpty_iff.mpr hnil)
  simp only [rawBLSKeysAt] at h
  simp only [validatorsAt]
  cases hsettled : c.settledState number with
  | genesis => exact ⟨_, rfl, hgenesis⟩
  | unavailable =>
    rw [hsettled] at h
    cases h
  | state s =>
    dsimp only
    split_ifs with hempty
    · exact ⟨_, rfl, hgenesis⟩
    · exact ⟨_, rfl, hempty⟩

namespace Node

variable {w : Setup} {log : SignedLog}

theorem syncValidatorSet_keys (hvalidators : w.env.validators ≠ []) (hcodec : w.signing.base.Reencodes) {n : Node}
    (h : w.keysAt n.chain (n.chain.current.number + 1) = some keys) :
    (n.syncValidatorSet (w.envAt log)).pool.keys = keys := by
  obtain ⟨raw, hraw, hdecode⟩ := Option.bind_eq_some_iff.mp h
  obtain ⟨set, hset, hne⟩ := validatorsAt_of_rawBLSKeysAt (w.envAt log) hvalidators hraw
  have hkeys := blsKeysAt_envAt w log n.chain (n.chain.current.number + 1)
  rw [h] at hkeys
  simp only [syncValidatorSet, hset, if_neg hne, hkeys]
  exact setValidators_encodeKeys rfl hcodec hdecode n.pool set

theorem syncValidatorSet_chainID {n : Node} : (n.syncValidatorSet (w.envAt log)).pool.chainID = n.pool.chainID := by
  simp only [syncValidatorSet]
  split
  · rfl
  split
  · rfl
  split <;> rfl

/-- The chain is on one branch, and the pool holds the keys of the next height. -/
structure Aligned (w : Setup) (n : Node) : Prop where
  linear : n.chain.Linear w.env
  keys : ∀ {keys}, w.keysAt n.chain (n.chain.current.number + 1) = some keys → n.pool.keys = keys
  chainID : n.pool.chainID = w.env.cfg.chainID

theorem keysAt_of_continues {c' : BlockChain} (h : c.Continues c') (hlinear : c.Linear w.env) {number : Nat}
    (hnumber : boundaryOf number ≤ c.current.number) : w.keysAt c' number = w.keysAt c number := by
  rw [Setup.keysAt, Setup.keysAt, h.rawBLSKeysAt_eq hlinear hnumber]

theorem keysAt_congr {m n : Nat} (hepoch : epochOf m = epochOf n) : w.keysAt c m = w.keysAt c n := by
  rw [Setup.keysAt, Setup.keysAt, rawBLSKeysAt_congr hepoch]

variable {n n' : Node}

theorem Aligned.keep (h : n.Aligned w) (hlinear : n'.chain.Linear w.env)
    (hcontinues : n.chain.Continues n'.chain) (hcurrent : n'.chain.current = n.chain.current)
    (hset : n.pool.SameSet n'.pool) : n'.Aligned w := by
  refine ⟨hlinear, fun {keys} hkeys => ?_, hset.chainID.trans h.chainID⟩
  rw [hcurrent, keysAt_of_continues hcontinues h.linear (boundaryOf_le rfl)] at hkeys
  rw [hset.keys]
  exact h.keys hkeys

theorem tryFinalize_linear (log : SignedLog) (n : Node) (h : n.chain.Linear w.env) (number : Nat) (blockHash : Hash) :
    (∃ final, (n.tryFinalize (w.envAt log) number blockHash).chain = { n.chain with finalized := final }) ∧
      n.pool.SameSet (n.tryFinalize (w.envAt log) number blockHash).pool := by
  have hset := n.pool.certificate_sameSet (w.envAt log).cfg.bls number blockHash
  simp only [tryFinalize]
  split
  · exact ⟨⟨n.chain.finalized, rfl⟩, hset⟩
  rename_i qc _
  split
  · exact ⟨⟨n.chain.finalized, rfl⟩, hset⟩
  obtain ⟨final, hfinal⟩ := (linear_envAt log h).finalize_eq qc
  split
  · rename_i hfinalize
    rw [hfinalize] at hfinal
    exact ⟨⟨final, hfinal⟩, hset⟩
  · rename_i hfinalize
    rw [hfinalize] at hfinal
    exact ⟨⟨final, hfinal⟩, hset.trans AttestationPool.markFinalized_sameSet⟩

section

variable (h : n.Aligned w)

include h

theorem Aligned.tryFinalize (log : SignedLog) (n' : Node) (hchain : n'.chain = n.chain)
    (hset : n.pool.SameSet n'.pool) (number : Nat) (blockHash : Hash) :
    (n'.tryFinalize (w.envAt log) number blockHash).Aligned w ∧
      n.chain.Continues (n'.tryFinalize (w.envAt log) number blockHash).chain ∧
      n.pool.SameSet (n'.tryFinalize (w.envAt log) number blockHash).pool := by
  obtain ⟨⟨final, hfinal⟩, hset'⟩ := n'.tryFinalize_linear log (hchain.symm ▸ h.linear) number blockHash
  rw [hchain] at hfinal
  have hblocks : { n.chain with finalized := final }.blocks = n.chain.blocks := rfl
  obtain ⟨hlinear, hcontinues⟩ := h.linear.congr hblocks rfl rfl rfl fun hs => hs
  rw [← hfinal] at hlinear hcontinues
  exact ⟨h.keep hlinear hcontinues (by rw [hfinal]) (hset.trans hset'), hcontinues, hset.trans hset'⟩

theorem Aligned.handleAttestation (log : SignedLog) (vote : Attestation) :
    (n.handleAttestation (w.envAt log) vote).Aligned w ∧
      n.chain.Continues (n.handleAttestation (w.envAt log) vote).chain ∧
      n.pool.SameSet (n.handleAttestation (w.envAt log) vote).pool := by
  have hset := n.pool.add_sameSet (w.envAt log).cfg.bls vote
  have hkept : ∀ pool, n.pool.SameSet pool → ({ n with pool := pool } : Node).Aligned w :=
    fun pool hpool => h.keep h.linear (.refl n.chain) rfl hpool
  simp only [Node.handleAttestation]
  split
  · rename_i heq
    rw [heq] at hset
    exact ⟨hkept _ hset, .refl _, hset⟩
  · rename_i heq
    rw [heq] at hset
    exact ⟨hkept _ hset, .refl _, hset⟩
  · rename_i pool heq
    rw [heq] at hset
    exact h.tryFinalize log { n with pool := pool } rfl hset vote.number vote.blockHash

theorem Aligned.handleAttestations (log : SignedLog) (votes : List Attestation) :
    (n.handleAttestations (w.envAt log) votes).Aligned w ∧
      n.chain.Continues (n.handleAttestations (w.envAt log) votes).chain := by
  refine run_preserves (P := fun n' : Node => n'.Aligned w ∧ n.chain.Continues n'.chain)
    (fun n' vote hn' => ?_) votes ⟨h, .refl n.chain⟩
  obtain ⟨hfirst, hcontinues, -⟩ := hn'.1.handleAttestation log vote
  exact ⟨hfirst, hn'.2.trans hcontinues⟩

theorem Aligned.handleEvidence (log : SignedLog) (proofs : List Equivocation) :
    (n.handleEvidence (w.envAt log) proofs).Aligned w ∧
      n.chain.Continues (n.handleEvidence (w.envAt log) proofs).chain := by
  induction proofs generalizing n with
  | nil => exact ⟨h, .refl _⟩
  | cons proof rest ih =>
    have hnext : ({ n with pool := n.pool.addEvidence (w.envAt log).cfg.bls proof } : Node).Aligned w :=
      h.keep h.linear (.refl n.chain) rfl (n.pool.addEvidence_sameSet proof)
    exact ih hnext

theorem Aligned.attest (log : SignedLog) (block : Block) :
    (n.attest w log block).1.Aligned w ∧ n.chain.Continues (n.attest w log block).1.chain := by
  simp only [Node.attest]
  split
  · rename_i addr key _
    split
    · exact ⟨h, .refl _⟩
    · rename_i index _
      have hset := n.pool.add_sameSet (w.envAt (log ++ [(key, w.vote block)])).cfg.bls
        ⟨block.number, w.env.hash block.header, index, w.signing.sign key (w.vote block)⟩
      simp only [castVote]
      split
      · rename_i heq
        rw [heq] at hset
        exact ⟨h.keep h.linear (.refl n.chain) rfl hset, .refl _⟩
      · rename_i pool heq
        rw [heq] at hset
        obtain ⟨haligned, hcontinues, -⟩ := h.tryFinalize (log ++ [(key, w.vote block)])
          { n with pool := pool } rfl hset block.number (w.env.hash block.header)
        exact ⟨haligned, hcontinues⟩
  · exact ⟨h, .refl _⟩

end

def hasKey (n : Node) : Bool :=
  match n.validator with
  | some (_, some _) => true
  | _ => false

/-- The height and the keys a node's own vote for an imported block is recorded under. -/
def ownVote (w : Setup) (log : SignedLog) (n : Node) (now : Nat) (block : Block) : List (Nat × List (Option PublicKey)) :=
  match n.chain.insertBlock (w.envAt log) now block with
  | (.error _, _) => []
  | (.ok _, c) =>
    if n.hasKey then [(block.number, (syncValidatorSet (w.envAt log) { n with chain := c }).pool.keys)] else []

/-- Handling a child of the head. The own vote is recorded under the keys of its height unless the block is
the last of its epoch. -/
theorem Aligned.handleBlock (hvalidators : w.env.validators ≠ []) (hcodec : w.signing.base.Reencodes)
    (h : n.Aligned w) {block : Block} (hparent : block.parentHash = w.env.hash n.chain.current.header)
    (hepoch : n.hasKey = true → epochOf block.number = epochOf (block.number + 1)) (now : Nat)
    (hstates : ∀ {root t}, n.chain.states root = some t →
      (n.handleBlock w log now block).1.chain.states root = some t) :
    (n.handleBlock w log now block).1.Aligned w ∧ n.chain.Continues (n.handleBlock w log now block).1.chain ∧
      ∀ item ∈ n.ownVote w log now block,
        boundaryOf item.1 ≤ (n.handleBlock w log now block).1.chain.current.number ∧
        ∀ keys, w.keysAt (n.handleBlock w log now block).1.chain item.1 = some keys → item.2 = keys := by
  have himport := (linear_envAt log h.linear).insertBlock hparent now fun {root t} ht => by
    rw [← (n.handleBlock_states w log now block).1]
    exact hstates ht
  simp only [Node.handleBlock, ownVote]
  rcases hinsert : n.chain.insertBlock (w.envAt log) now block with ⟨result, c⟩
  rw [hinsert] at himport
  obtain ⟨hlinear, hcontinues, hcurrent⟩ := himport
  cases result with
  | error e =>
    have hsame : c.current = n.chain.current := by
      rcases (linear_envAt log h.linear).insertBlock_cases hparent now with
        ⟨e', -, hchain | ⟨s, hchain⟩⟩ | ⟨s, final, hok, -⟩
      · rw [hinsert] at hchain
        exact congrArg current hchain
      · rw [hinsert] at hchain
        change c = n.chain.commit (w.envAt log) s at hchain
        rw [hchain]
        rfl
      · rw [hinsert] at hok
        cases hok
    refine ⟨h.keep (linear_of_envAt hlinear) hcontinues hsame (.refl _), hcontinues, fun item hitem => ?_⟩
    cases hitem
  | ok u =>
    have hblock : c.current = block := hcurrent rfl
    obtain ⟨hchain, -, -⟩ := syncValidatorSet_spec (w.envAt log) { n with chain := c }
    have haligned : (syncValidatorSet (w.envAt log) { n with chain := c }).Aligned w := by
      refine ⟨hchain.symm ▸ linear_of_envAt hlinear, fun {keys} hkeys => ?_, ?_⟩
      · rw [hchain] at hkeys
        exact syncValidatorSet_keys hvalidators hcodec hkeys
      · exact syncValidatorSet_chainID.trans h.chainID
    obtain ⟨hvoted, hcontinues'⟩ := haligned.attest log block
    rw [hchain] at hcontinues'
    refine ⟨hvoted, hcontinues.trans hcontinues', fun item hitem => ?_⟩
    dsimp only at hitem ⊢
    split at hitem
    · rename_i hkey
      obtain rfl := mem_singleton.mp hitem
      have hsettled : boundaryOf block.number ≤ c.current.number := by
        rw [hblock]
        exact boundaryOf_le (hepoch hkey)
      refine ⟨hsettled.trans hcontinues'.number_le, fun keys hkeys => haligned.keys ?_⟩
      rw [keysAt_of_continues hcontinues' (linear_of_envAt hlinear) hsettled] at hkeys
      rw [hchain, hblock, ← keysAt_congr (hepoch hkey)]
      exact hkeys
    · cases hitem

theorem Aligned.restart (hcodec : w.signing.base.Reencodes) (h : n.Aligned w)
    (hepoch : epochOf (n.chain.current.number + 1) = 0) (hrestart : n.restart (w.envAt log) = some n') :
    n'.Aligned w ∧ n.chain.Continues n'.chain := by
  simp only [Node.restart] at hrestart
  split at hrestart
  · cases hrestart
  rename_i keys₀ hkeys₀
  cases hrestart
  refine ⟨⟨h.linear, fun {keys} hkeys => ?_, rfl⟩, .refl _⟩
  rw [blsKeysAt_envAt] at hkeys₀
  rw [keysAt_congr (show epochOf (n.chain.current.number + 1) = epochOf 0 from hepoch), hkeys₀] at hkeys
  cases hkeys
  obtain ⟨raw, -, hdecode⟩ := Option.bind_eq_some_iff.mp hkeys₀
  exact setValidators_encodeKeys rfl hcodec hdecode _ _

end Node

section Electorate

variable {ι : Type} [DecidableEq ι] (w : Setup) (i : ι)

/-- The votes a node's pool takes in a step: their heights, and the keys they are recorded under. -/
def System.collects (s : System ι) : Event ι → List (Nat × List (Option PublicKey))
  | .act (.handleBlock j now block) => if j = i then (s.nodes i).ownVote w s.signed now block else []
  | .act (.handleAttestations j votes) =>
    if j = i then votes.map fun vote => (vote.number, (s.nodes i).pool.keys) else []
  | _ => []

/-- The condition on a node's steps: blocks extend the head, and the node itself does not vote for the last
block of an epoch; votes are for heights of the epoch the next block is in; restarts are in the first epoch. -/
def System.Steady (s : System ι) : Event ι → Prop
  | .act (.handleBlock j _ block) => j = i →
      block.parentHash = w.env.hash (s.nodes i).chain.current.header ∧
        ((s.nodes i).hasKey = true → epochOf block.number = epochOf (block.number + 1))
  | .act (.handleAttestations j votes) => j = i →
      ∀ vote ∈ votes, epochOf vote.number = epochOf ((s.nodes i).chain.current.number + 1)
  | .restart j => j = i → epochOf ((s.nodes i).chain.current.number + 1) = 0
  | _ => True

/-- No state in the node's store is replaced by another under the same root. -/
def System.KeepsStates (s : System ι) (event : Event ι) : Prop :=
  ∀ root t, (s.nodes i).chain.states root = some t → ((s.live w event).nodes i).chain.states root = some t

/-- The invariant: the pool is aligned, and what was collected was collected under the keys of its height. -/
structure System.Counted (collected : List (Nat × List (Option PublicKey))) (s : System ι) : Prop where
  aligned : (s.nodes i).Aligned w
  settled : ∀ item ∈ collected, boundaryOf item.1 ≤ (s.nodes i).chain.current.number
  governed : ∀ item ∈ collected, ∀ keys, w.keysAt (s.nodes i).chain item.1 = some keys → item.2 = keys

variable {w i} {s : System ι} {collected : List (Nat × List (Option PublicKey))}

variable {new : List (Nat × List (Option PublicKey))}

omit [DecidableEq ι] in
theorem System.Counted.next (h : s.Counted w i collected) {s' : System ι}
    (haligned : (s'.nodes i).Aligned w) (hcontinues : (s.nodes i).chain.Continues (s'.nodes i).chain)
    (hnew : ∀ item ∈ new, boundaryOf item.1 ≤ (s'.nodes i).chain.current.number ∧
      ∀ keys, w.keysAt (s'.nodes i).chain item.1 = some keys → item.2 = keys) : s'.Counted w i (collected ++ new) := by
  have hall : ∀ item ∈ collected ++ new, boundaryOf item.1 ≤ (s'.nodes i).chain.current.number ∧
      ∀ keys, w.keysAt (s'.nodes i).chain item.1 = some keys → item.2 = keys := by
    refine forall_mem_append.mpr ⟨fun item hitem => ⟨(h.settled item hitem).trans hcontinues.number_le, ?_⟩, hnew⟩
    rw [Node.keysAt_of_continues hcontinues h.aligned.linear (h.settled item hitem)]
    exact h.governed item hitem
  exact ⟨haligned, fun item hitem => (hall item hitem).1, fun item hitem => (hall item hitem).2⟩

theorem System.Counted.act (h : s.Counted w i collected) {j : ι} {n : Node} (log : SignedLog)
    (hown : j = i → n.Aligned w ∧ (s.nodes i).chain.Continues n.chain ∧
      ∀ item ∈ new, boundaryOf item.1 ≤ n.chain.current.number ∧
        ∀ keys, w.keysAt n.chain item.1 = some keys → item.2 = keys) (hother : j ≠ i → new = []) :
    Counted w i (collected ++ new) ⟨update s.nodes j n, log⟩ := by
  by_cases hj : j = i
  · obtain ⟨haligned, hcontinues, hnew⟩ := hown hj
    have hself : update s.nodes j n i = n := hj ▸ update_self _ _ _
    rw [← hself] at haligned hcontinues hnew
    exact h.next haligned hcontinues hnew
  · have hsame : update s.nodes j n i = s.nodes i := update_of_ne (Ne.symm hj) _ _
    rw [hother hj]
    refine h.next ?_ ?_ (forall_mem_nil _)
    · dsimp only
      rw [hsame]
      exact h.aligned
    · dsimp only
      rw [hsame]
      exact .refl _

theorem System.Counted.live (hvalidators : w.env.validators ≠ []) (hcodec : w.signing.base.Reencodes)
    (h : s.Counted w i collected) {event : Event ι} (hsteady : s.Steady w i event)
    (hkeeps : s.KeepsStates w i event) : (s.live w event).Counted w i (collected ++ s.collects w i event) := by
  cases event with
  | act action =>
    cases action with
    | handleBlock j now block =>
      simp only [System.live, step, collects]
      refine h.act _ (fun hj => ?_) fun hj => if_neg hj
      subst hj
      rw [if_pos rfl]
      obtain ⟨hparent, hepoch⟩ := hsteady rfl
      refine h.aligned.handleBlock hvalidators hcodec hparent hepoch now fun {root t} ht => ?_
      have hkept := hkeeps root t ht
      simp only [System.live, step, update_self] at hkept
      exact hkept
    | handleAttestations j votes =>
      simp only [System.live, step, collects]
      refine h.act _ (fun hj => ?_) fun hj => if_neg hj
      subst hj
      rw [if_pos rfl]
      obtain ⟨haligned, hcontinues⟩ := h.aligned.handleAttestations s.signed votes
      refine ⟨haligned, hcontinues, fun item hitem => ?_⟩
      obtain ⟨vote, hvote, rfl⟩ := mem_map.mp hitem
      have hepoch := hsteady rfl vote hvote
      have hsettled := boundaryOf_le hepoch
      refine ⟨hsettled.trans hcontinues.number_le, fun keys hkeys => h.aligned.keys ?_⟩
      rw [Node.keysAt_of_continues hcontinues h.aligned.linear hsettled] at hkeys
      rw [← Node.keysAt_congr hepoch]
      exact hkeys
    | handleEvidence j proofs =>
      refine h.act _ (fun hj => ?_) fun _ => rfl
      subst hj
      obtain ⟨haligned, hcontinues⟩ := h.aligned.handleEvidence s.signed proofs
      exact ⟨haligned, hcontinues, forall_mem_nil _⟩
    | sign key message => exact h.next h.aligned (.refl _) (forall_mem_nil _)
  | restart j =>
    simp only [System.live, collects]
    split
    · exact h.next h.aligned (.refl _) (forall_mem_nil _)
    · rename_i n hrestart
      refine h.act _ (fun hj => ?_) fun _ => rfl
      subst hj
      obtain ⟨haligned, hcontinues⟩ := h.aligned.restart hcodec (hsteady rfl) hrestart
      exact ⟨haligned, hcontinues, forall_mem_nil _⟩

theorem System.keepsStates_handleBlock (hlinear : (s.nodes i).chain.Linear w.env) {block : Block}
    (hparent : block.parentHash = w.env.hash (s.nodes i).chain.current.header) {now : Nat}
    (hok : ((s.nodes i).chain.insertBlock (w.envAt s.signed) now block).1 = .ok ())
    (hfresh : (s.nodes i).chain.states block.header.stateRoot = none) :
    s.KeepsStates w i (.act (.handleBlock i now block)) := by
  intro root t ht
  simp only [System.live, step, update_self]
  rw [(Node.handleBlock_states w s.signed (s.nodes i) now block).1]
  exact (linear_envAt s.signed hlinear).states_of_insertBlock hparent hok hfresh ht

theorem System.keepsStates_handleAttestations {votes : List Attestation} :
    s.KeepsStates w i (.act (.handleAttestations i votes)) := by
  intro root t ht
  simp only [System.live, step, update_self]
  rw [(Node.handleAttestations_states (w.envAt s.signed) (s.nodes i) votes).1]
  exact ht

/-- In every run whose steps all meet the condition, at the end of which the keys of a height in the epoch
of the next block can be read: the pool holds these keys, every vote for the height was recorded under them,
and a certificate the pool makes for the height carries signatures that verify under them. -/
theorem pool_counts_under_governing_keys (w : Setup) (i : ι) (hvalidators : w.env.validators ≠ [])
    (hcodec : w.signing.base.Reencodes) (s : System ι) (haligned : (s.nodes i).Aligned w) (events : List (Event ι))
    (hsteady : Steps (System.live w) (System.Steady w i) s events)
    (hkeeps : Steps (System.live w) (System.KeepsStates w i) s events) (number : Nat) (hepoch : epochOf number =
      epochOf (((run (System.live w) s events).nodes i).chain.current.number + 1)) (keys : List (Option PublicKey))
    (hkeys : ((run (System.live w) s events).nodes i).chain.blsKeysAt
      (w.envAt (run (System.live w) s events).signed) number = some keys) :
    ((run (System.live w) s events).nodes i).pool.keys = keys ∧
      (∀ used, (number, used) ∈ log (System.live w) (System.collects w i) s events → used = keys) ∧
      ∀ hash qc, (((run (System.live w) s events).nodes i).pool.certificate
          (w.envAt (run (System.live w) s events).signed).cfg.bls number hash).1 = some qc →
        ∃ indices, qc.verifySignature (w.envAt (run (System.live w) s events).signed).cfg.bls
          w.env.cfg.chainID keys = .ok indices := by
  have hstart : s.Counted w i [] := ⟨haligned, forall_mem_nil _, forall_mem_nil _⟩
  have hend : System.Counted w i ([] ++ log (System.live w) (System.collects w i) s events)
      (run (System.live w) s events) :=
    log_invariant (fun _ _ _ hcond hs => hs.live hvalidators hcodec hcond.1 hcond.2)
      (hsteady.and hkeeps) hstart
  rw [blsKeysAt_envAt] at hkeys
  have hpool : ((run (System.live w) s events).nodes i).pool.keys = keys := by
    apply hend.aligned.keys
    rw [← Node.keysAt_congr hepoch]
    exact hkeys
  refine ⟨hpool, fun used hused => hend.governed _ hused keys hkeys, fun hash qc hqc => ?_⟩
  obtain ⟨indices, hverify⟩ := AttestationPool.verifySignature_of_certificate hqc
  rw [hpool, hend.aligned.chainID] at hverify
  exact ⟨indices, hverify⟩

end Electorate

/-! ### The last block of an epoch after which the set changes -/

namespace ElectorateExample

def bls : Bls := { Bls.plain with verifyPossession := fun _ _ => true }

def keyOf (b : UInt8) : PublicKey := ⟨List.replicate 48 b⟩

def deposit : Message :=
  ⟨3, some stakingAddress, 0, 32 * ether, 1000000, gwei, gwei, 0,
    opDeposit :: List.replicate 20 3 ++ (keyOf 3).bytes ++ List.replicate 96 0, []⟩

def w : Setup where
  env :=
    { Env.plain fun s => BitVec.ofNat 256 (s.registry.count * 256 + s.registry.epochState.lastProcessedEpoch) with
      cfg := ⟨7, bls, fun _ => none⟩
      message := fun _ _ => some deposit
      validators := [1] }
  signing := { Signing.plain with base := bls }

def genesis : Genesis := { Genesis.plain [1] with alloc := [⟨3, 100 * ether, 0, [], []⟩] }

def state : StateDB := genesis.toState.toOption.getD StateDB.empty

def chain : BlockChain := Genesis.openChain w.env (genesis.toBlock w.env state) state

def first : Block :=
  { emptyChild chain.genesis 1 1 [] with
    header.stateRoot := 2 * 256
    header.gasUsed := 272488
    transactions := [⟨[]⟩] }

def second : Block := { emptyChild first 1 1 [] with header.gasUsed := 0 }

def blocks : List Block := first :: second :: emptyBranch 1 (fun _ => 1) 1 60 second

def before : BlockChain := run (Op.apply w.env) chain (Op.imports 100 blocks)

def last : Block := emptyChild before.current 1 1 []

def node (c : BlockChain) : System Unit :=
  ⟨fun _ => ⟨c, AttestationPool.new bls 7 [1] [(keyOf 1).bytes], some (1, some (keyOf 1))⟩, []⟩

def crossing : List (Event Unit) :=
  [.act (.handleBlock () 100 last), .act (.sign (keyOf 3) (w.vote last)),
    .act (.handleAttestations () [signedVote w (keyOf 3) 1 63 (w.env.hash last.header)])]

def inside : List (Event Unit) :=
  [.act (.handleBlock () 100 first),
    .act (.handleAttestations () [signedVote w (keyOf 1) 0 1 (w.env.hash first.header)])]

theorem reencodes : w.signing.base.Reencodes := by
  intro b key h
  obtain ⟨hlength, hkey⟩ := Option.ite_none_right_eq_some.mp h
  cases hkey
  exact if_pos hlength

theorem aligned_node : ((node chain).nodes ()).Aligned w := by
  have hlinear : chain.Linear w.env := Genesis.linear_openChain rfl rfl
  refine ⟨hlinear, fun {keys} hkeys => ?_, rfl⟩
  cases hkeys
  rfl

theorem first_parentHash : first.parentHash = w.env.hash ((node chain).nodes ()).chain.current.header := by
  decide

theorem keepsStates_inside : Steps (System.live w) (KeepsStates w ()) (node chain) inside := by
  have hok : (((node chain).nodes ()).chain.insertBlock (w.envAt (node chain).signed) 100 first).1 = .ok () := by
    decide +kernel
  have hfresh : ((node chain).nodes ()).chain.states first.header.stateRoot = none :=
    Option.isNone_iff_eq_none.mp (by decide)
  exact ⟨keepsStates_handleBlock aligned_node.linear first_parentHash hok hfresh,
    keepsStates_handleAttestations, trivial⟩

end ElectorateExample

open ElectorateExample in
theorem pool_counts_inside_first_epoch :
    ((run (System.live w) (node chain) inside).nodes ()).pool.keys = [some (keyOf 1)] ∧
      (1, [some (keyOf 1)]) ∈ log (System.live w) (System.collects w ()) (node chain) inside := by
  refine ⟨(pool_counts_under_governing_keys w () (by decide) reencodes (node chain) aligned_node inside ?_
    keepsStates_inside 1 (by decide +kernel) [some (keyOf 1)] (by decide +kernel)).1, by decide +kernel⟩
  exact ⟨fun _ => ⟨first_parentHash, fun _ => by decide +kernel⟩, fun _ => by decide +kernel, trivial⟩

open ElectorateExample in
/-- The keys of height 63 are validator 1's. When the node imports the block, its pool moves to the set of
height 64 before the node votes; the two votes are counted under that set, and the chain refuses the
certificate the pool makes of them. -/
theorem pool_counts_last_block_under_next_keys :
    let s := run (System.live w) (node before) crossing
    (s.nodes ()).chain.blsKeysAt (w.envAt s.signed) 63 = some [some (keyOf 1)] ∧
      (s.nodes ()).pool.keys = [some (keyOf 1), some (keyOf 3)] ∧
      log (System.live w) (System.collects w ()) (node before) crossing =
        [(63, [some (keyOf 1), some (keyOf 3)]), (63, [some (keyOf 1), some (keyOf 3)])] ∧
      ((s.nodes ()).pool.certificate (w.envAt s.signed).cfg.bls 63 (w.env.hash last.header)).1.map
          (fun qc => ((s.nodes ()).chain.finalize (w.envAt s.signed) qc).1) =
        some (.error (.invalidJustification (.bitfieldLength 1 1))) := by
  decide +kernel

end PadiChain

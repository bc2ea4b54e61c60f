import PadiChain.CoreAttestation

/-! The attestation pool of a node. It collects votes until they form a quorum and notices a second,
different vote of one validator at a height. A signature is checked when a certificate is built from
it or when it would prove an equivocation, not on arrival. -/

namespace PadiChain.Consensus

open Core Function

inductive PoolError where
  | unknownIndex (index size : Nat)
  | noAttestationKey (index : Nat)
  | equivocation (index number : Nat)
  | attestation (e : AttestationError)
  deriving DecidableEq, Repr

structure AttestationPool where
  chainID : Nat
  keys : List (Option PublicKey)
  addresses : List Address
  /-- The votes for a hash at a height, by validator position. -/
  votes : Nat → Hash → List (Nat × Bytes)
  /-- The vote a validator position cast at a height. -/
  byIndex : Nat → Nat → Option Attestation
  evidence : List Equivocation
  finalized : Nat

/-- How many heights below the finalized one keep their votes. -/
def retain : Nat := 256

namespace AttestationPool

/-- `setValidators`: a validator without a usable key cannot attest. -/
def setValidators (bls : Bls) (p : AttestationPool) (addresses : List Address) (keys : List Bytes) :
    AttestationPool :=
  { p with
    addresses := addresses
    keys := keys.map fun raw => if raw.isEmpty then none else bls.publicKeyFromBytes raw }

def new (bls : Bls) (chainID : Nat) (addresses : List Address) (keys : List Bytes) : AttestationPool :=
  setValidators bls ⟨chainID, [], [], fun _ _ => [], fun _ _ => none, [], 0⟩ addresses keys

def indexOf (p : AttestationPool) (addr : Address) : Option Nat := p.addresses.findIdx? (· = addr)

def record (p : AttestationPool) (a : Attestation) : AttestationPool :=
  { p with
    byIndex := update p.byIndex a.number (update (p.byIndex a.number) a.index (some a))
    votes := update p.votes a.number (update (p.votes a.number) a.blockHash
      ((p.votes a.number a.blockHash).filter (fun vote => vote.1 ≠ a.index) ++ [(a.index, a.signature)])) }

/-- `Add`: record a vote and report whether it was new. A vote that conflicts with an earlier one of
the same validator becomes evidence and does not count. -/
def add (bls : Bls) (p : AttestationPool) (a : Attestation) : Except PoolError Bool × AttestationPool :=
  match p.keys[a.index]? with
  | none => (.error (.unknownIndex a.index p.keys.length), p)
  | some none => (.error (.noAttestationKey a.index), p)
  | some (some key) =>
    if 0 < p.finalized ∧ a.number ≤ p.finalized then (.ok false, p)
    else
      match p.byIndex a.number a.index with
      | none => (.ok true, p.record a)
      | some previous =>
        if previous.blockHash = a.blockHash then (.ok false, p)
        else
          match detectEquivocation bls p.chainID (some key) previous a with
          | .error e => (.error (.attestation e), p)
          | .ok none => (.ok false, p)
          | .ok (some proof) =>
            let proof :=
              match p.addresses[a.index]? with
              | none => proof
              | some addr => { proof with validator := addr }
            (.error (.equivocation a.index a.number), { p with evidence := p.evidence ++ [proof] })

def voteValid (bls : Bls) (p : AttestationPool) (number : Nat) (blockHash : Hash) (vote : Nat × Bytes) : Bool :=
  match p.keys[vote.1]? with
  | some (some key) =>
    match Attestation.verify bls p.chainID (some key) ⟨number, blockHash, vote.1, vote.2⟩ with
    | .ok () => true
    | .error _ => false
  | _ => false

/-- `evictInvalidLocked`: drop the votes that fail on their own, and report whether there were any. A
vote of a position that has a key is also forgotten, so that the validator can vote again. -/
def evictInvalid (bls : Bls) (p : AttestationPool) (number : Nat) (blockHash : Hash) : Bool × AttestationPool :=
  let votes := p.votes number blockHash
  let invalid := votes.filter fun vote => !p.voteValid bls number blockHash vote
  let forgotten := invalid.filter fun vote => (p.keys[vote.1]?).join.isSome
  (!invalid.isEmpty,
    { p with
      votes := update p.votes number (update (p.votes number) blockHash
        (votes.filter (p.voteValid bls number blockHash)))
      byIndex := update p.byIndex number fun index =>
        if forgotten.any (fun vote => vote.1 = index) then none else p.byIndex number index })

/-- The loop of `Certificate`: aggregate, verify, and evict what does not verify. -/
def certificateLoop (bls : Bls) (number : Nat) (blockHash : Hash) :
    Nat → AttestationPool → Option QuorumCert × AttestationPool
  | 0, p => (none, p)
  | fuel + 1, p =>
    if (p.votes number blockHash).length < quorum p.keys.length then (none, p)
    else
      match AggregateAttestation.newQuorumCert bls number blockHash p.keys.length (p.votes number blockHash) with
      | .error _ => (none, p)
      | .ok qc =>
        match qc.verifySignature bls p.chainID p.keys with
        | .ok _ => (some qc, p)
        | .error _ =>
          let evicted := p.evictInvalid bls number blockHash
          if evicted.1 then certificateLoop bls number blockHash fuel evicted.2 else (none, evicted.2)

/-- `Certificate`: a quorum certificate for a block, if the votes collected so far make one. Every
round of the loop that is not the last drops a vote. -/
def certificate (bls : Bls) (p : AttestationPool) (number : Nat) (blockHash : Hash) :
    Option QuorumCert × AttestationPool :=
  certificateLoop bls number blockHash ((p.votes number blockHash).length + 1) p

def markFinalized (p : AttestationPool) (number : Nat) : AttestationPool :=
  if number ≤ p.finalized then p
  else if number ≤ retain then { p with finalized := number }
  else
    { p with
      finalized := number
      votes := fun height => if height < number - retain then fun _ => [] else p.votes height
      byIndex := fun height => if height < number - retain then fun _ => none else p.byIndex height }

def addEvidence (bls : Bls) (p : AttestationPool) (proof : Equivocation) : AttestationPool :=
  match (p.keys[proof.index]?).join with
  | none => p
  | some key =>
    match proof.verify bls p.chainID (some key) with
    | .error _ => p
    | .ok () =>
      if p.evidence.any fun e => e.index = proof.index ∧ e.number = proof.number then p
      else
        { p with evidence := p.evidence ++ [{ proof with validator := (p.addresses[proof.index]?).getD proof.validator }] }

variable {bls : Bls} {p : AttestationPool} {number : Nat} {blockHash : Hash} {addr : Address}

theorem evictInvalid_length_lt (h : (p.evictInvalid bls number blockHash).1 = true) :
    ((p.evictInvalid bls number blockHash).2.votes number blockHash).length <
      (p.votes number blockHash).length := by
  have hsome : ∃ vote ∈ p.votes number blockHash, ¬ p.voteValid bls number blockHash vote = true := by
    have hne : (p.votes number blockHash).filter (fun vote => !p.voteValid bls number blockHash vote) ≠ [] := by
      simpa [evictInvalid] using h
    obtain ⟨vote, hvote⟩ := List.exists_mem_of_ne_nil _ hne
    obtain ⟨hmem, hinvalid⟩ := List.mem_filter.mp hvote
    exact ⟨vote, hmem, by simpa using hinvalid⟩
  obtain ⟨vote, hmem, hinvalid⟩ := hsome
  simp only [evictInvalid, update_self]
  exact List.length_filter_lt_length_iff_exists.mpr ⟨vote, hmem, hinvalid⟩

def Taking (p : AttestationPool) (height : Nat) : Prop := ¬ (0 < p.finalized ∧ height ≤ p.finalized)

instance (p : AttestationPool) (height : Nat) : Decidable (p.Taking height) := instDecidableNot

/-- What `Add` does to a pool: nothing, a first vote of a position recorded, or a proof added that holds
two verified votes. -/
theorem add_cases (bls : Bls) (p : AttestationPool) (a : Attestation) :
    (p.add bls a).2 = p ∨
    (∃ key, p.keys[a.index]? = some (some key) ∧ p.Taking a.number ∧ p.byIndex a.number a.index = none ∧
      (p.add bls a).2 = p.record a) ∨
    ∃ key previous proof, p.keys[a.index]? = some (some key) ∧ p.byIndex a.number a.index = some previous ∧
      detectEquivocation bls p.chainID (some key) previous a = .ok (some proof) ∧
      (p.add bls a).2 = { p with
        evidence := p.evidence ++
          [{ proof with validator := (p.addresses[a.index]?).getD proof.validator }] } := by
  simp only [add]
  split
  · exact .inl rfl
  · exact .inl rfl
  rename_i key hkey
  split
  · exact .inl rfl
  rename_i htaking
  split
  · rename_i hnone
    exact .inr (.inl ⟨key, hkey, htaking, hnone, rfl⟩)
  rename_i previous hprevious
  split
  · exact .inl rfl
  split
  · exact .inl rfl
  · exact .inl rfl
  rename_i proof hproof
  refine .inr (.inr ⟨key, previous, proof, hkey, hprevious, hproof, ?_⟩)
  split
  · rename_i hnone
    rw [hnone]
    rfl
  · rename_i addr haddr
    rw [haddr]
    rfl

theorem add_of_byIndex_eq_none {a : Attestation} {key : PublicKey}
    (hkey : p.keys[a.index]? = some (some key)) (htaking : p.Taking a.number)
    (hnone : p.byIndex a.number a.index = none) : (p.add bls a).2 = p.record a := by
  simp only [add, hkey]
  rw [if_neg htaking, hnone]

structure SameSet (p q : AttestationPool) : Prop where
  keys : q.keys = p.keys
  addresses : q.addresses = p.addresses
  chainID : q.chainID = p.chainID

theorem SameSet.refl (p : AttestationPool) : p.SameSet p := ⟨rfl, rfl, rfl⟩

theorem SameSet.trans {q r : AttestationPool} (h : p.SameSet q) (h' : q.SameSet r) : p.SameSet r :=
  ⟨h'.keys.trans h.keys, h'.addresses.trans h.addresses, h'.chainID.trans h.chainID⟩

theorem add_sameSet (bls : Bls) (p : AttestationPool) (a : Attestation) : p.SameSet (p.add bls a).2 := by
  obtain h | ⟨_, _, _, _, h⟩ | ⟨_, _, _, _, _, _, h⟩ := add_cases bls p a
  · rw [h]
    exact .refl p
  all_goals
    rw [h]
    exact ⟨rfl, rfl, rfl⟩

/-- What evictions keep, `Certificate` keeps: it changes the pool in no other way. -/
theorem certificate_rule {P : AttestationPool → Prop}
    (hevict : ∀ q, P q → P (q.evictInvalid bls number blockHash).2) (hp : P p) :
    P (p.certificate bls number blockHash).2 := by
  rw [certificate]
  generalize (p.votes number blockHash).length + 1 = fuel
  induction fuel generalizing p with
  | zero => exact hp
  | succ fuel ih =>
    simp only [certificateLoop]
    split
    · exact hp
    split
    · exact hp
    split
    · exact hp
    split
    · exact ih (hevict p hp)
    · exact hevict p hp

theorem certificate_sameSet (bls : Bls) (p : AttestationPool) (number : Nat) (blockHash : Hash) :
    p.SameSet (p.certificate bls number blockHash).2 :=
  certificate_rule (P := p.SameSet) (fun _ h => ⟨h.keys, h.addresses, h.chainID⟩) (.refl p)

theorem verifySignature_of_certificate {qc : QuorumCert} (h : (p.certificate bls number blockHash).1 = some qc) :
    ∃ indices, qc.verifySignature bls p.chainID p.keys = .ok indices := by
  rw [certificate] at h
  generalize (p.votes number blockHash).length + 1 = fuel at h
  induction fuel generalizing p with
  | zero => cases h
  | succ fuel ih =>
    simp only [certificateLoop] at h
    split at h
    · cases h
    split at h
    · cases h
    split at h
    · rename_i indices hverify
      cases h
      exact ⟨indices, hverify⟩
    split at h
    · exact ih (p := (p.evictInvalid bls number blockHash).2) h
    · cases h

theorem markFinalized_sameSet : p.SameSet (p.markFinalized number) := by
  simp only [markFinalized]
  split
  · exact .refl p
  · split <;> exact ⟨rfl, rfl, rfl⟩

theorem addEvidence_sameSet (p : AttestationPool) (proof : Equivocation) :
    p.SameSet (p.addEvidence bls proof) := by
  simp only [addEvidence]
  split
  · exact .refl p
  split
  · exact .refl p
  split <;> exact ⟨rfl, rfl, rfl⟩

theorem indexOf_isSome (h : addr ∈ p.addresses) : ∃ index, p.indexOf addr = some index := by
  refine Option.isSome_iff_exists.mp ?_
  rw [indexOf, List.findIdx?_isSome, List.any_eq_true]
  exact ⟨addr, h, decide_eq_true rfl⟩

theorem mem_of_indexOf {index : Nat} (h : p.indexOf addr = some index) : addr ∈ p.addresses := by
  obtain ⟨hlt, hfound, -⟩ := List.findIdx?_eq_some_iff_getElem.mp h
  exact of_decide_eq_true hfound ▸ List.getElem_mem hlt

end AttestationPool

end PadiChain.Consensus

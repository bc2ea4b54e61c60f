import PadiChain.CryptoBls

/-! Attestations, the aggregates that certify a quorum of them, and equivocation proofs. A vote
names its signer by the position in the ordered validator set, which is also what an aggregate's
bitfield records. -/

namespace PadiChain.Core

inductive AttestationError where
  | unknownAttester (index : Nat)
  | attestationInvalid
  | noSigners
  | bitfieldLength (bytes validators : Nat)
  | aggregateInvalid
  | quorumNotMet (signers validators need : Nat)
  | incompleteEvidence
  | noConflict
  | evidenceMismatch (index number : Nat)
  deriving DecidableEq, Repr

structure Attestation where
  number : Nat
  blockHash : Hash
  index : Nat
  signature : Bytes
  deriving DecidableEq, Repr

/-- `Quorum`: more than two thirds of a set. -/
def quorum (validators : Nat) : Nat :=
  if validators = 0 then 0 else validators * 2 / 3 + 1

def Attestation.verify (bls : Bls) (chainID : Nat) (key : Option PublicKey) (a : Attestation) :
    Except AttestationError Unit :=
  match key with
  | none => .error (.unknownAttester a.index)
  | some key =>
    match bls.signatureFromBytes a.signature with
    | none => .error .attestationInvalid
    | some sig =>
      if bls.verify key (.attestation chainID a.number a.blockHash) sig then .ok ()
      else .error .attestationInvalid

/-- Which validators, by position in the ordered set, contributed. -/
abbrev Bitfield := Bytes

namespace Bitfield

def new (validators : Nat) : Bitfield := List.replicate ((validators + 7) / 8) 0

def has (b : Bitfield) (index : Nat) : Bool := (b.getD (index / 8) 0).toNat.testBit (index % 8)

def set (b : Bitfield) (index : Nat) : Bitfield :=
  b.modify (index / 8) fun x => x ||| UInt8.ofNat (2 ^ (index % 8))

def count (b : Bitfield) : Nat :=
  (b.map fun x => ((List.range 8).filter fun i => x.toNat.testBit i).length).sum

def indices (b : Bitfield) (limit : Nat) : List Nat := (List.range limit).filter (has b)

/-- Sized for a set, and marking nothing past its end. -/
def fits (b : Bitfield) (validators : Nat) : Bool :=
  b.length == (validators + 7) / 8 &&
    ((List.range' validators (b.length * 8 - validators)).all fun i => !has b i)

theorem nodup_indices (b : Bitfield) (limit : Nat) : (indices b limit).Nodup :=
  List.nodup_range.filter _

end Bitfield

structure AggregateAttestation where
  number : Nat
  blockHash : Hash
  signers : Bitfield
  signature : Bytes
  deriving DecidableEq, Repr

abbrev QuorumCert := AggregateAttestation

namespace AggregateAttestation

def new (number : Nat) (blockHash : Hash) (validators : Nat) : AggregateAttestation :=
  ⟨number, blockHash, Bitfield.new validators, []⟩

def isEmpty (a : AggregateAttestation) : Bool := a.signature.isEmpty || Bitfield.count a.signers == 0

/-- `Add`: fold one validator's signature into the aggregate; a repeat is ignored. -/
def add (bls : Bls) (a : AggregateAttestation) (index : Nat) (signature : Bytes) :
    Except AttestationError AggregateAttestation :=
  if Bitfield.has a.signers index then .ok a
  else
    match bls.signatureFromBytes signature with
    | none => .error .aggregateInvalid
    | some sig =>
      if a.signature.isEmpty then
        .ok { a with signature := signature, signers := Bitfield.set a.signers index }
      else
        match bls.signatureFromBytes a.signature with
        | none => .error .aggregateInvalid
        | some existing =>
          match bls.aggregateSignatures existing sig with
          | none => .error .aggregateInvalid
          | some combined =>
            .ok { a with signature := combined.bytes, signers := Bitfield.set a.signers index }

/-- `NewQuorumCert`: the aggregate of a set of votes, folded in the order of their positions. -/
def newQuorumCert (bls : Bls) (number : Nat) (blockHash : Hash) (validators : Nat)
    (votes : List (Nat × Bytes)) : Except AttestationError QuorumCert :=
  (votes.insertionSort fun a b => a.1 ≤ b.1).foldlM (fun aggregate vote => aggregate.add bls vote.1 vote.2)
    (new number blockHash validators)

/-- The keys of the marked positions, unless one of them has none. -/
def signerKeys (keys : List (Option PublicKey)) (indices : List Nat) : Option (List PublicKey) :=
  indices.mapM fun i => (keys[i]?).join

def verifySignature (bls : Bls) (chainID : Nat) (keys : List (Option PublicKey))
    (a : AggregateAttestation) : Except AttestationError (List Nat) :=
  if a.isEmpty then .error .noSigners
  else if !Bitfield.fits a.signers keys.length then
    .error (.bitfieldLength a.signers.length keys.length)
  else
    let indices := Bitfield.indices a.signers keys.length
    if indices.isEmpty then .error .noSigners
    else
      match signerKeys keys indices with
      | none => .error .aggregateInvalid
      | some signers =>
        match bls.signatureFromBytes a.signature with
        | none => .error .aggregateInvalid
        | some sig =>
          if bls.fastAggregateVerify signers (.attestation chainID a.number a.blockHash) sig then
            .ok indices
          else .error .aggregateInvalid

/-- `Verify`: signed by a quorum of the validator set; the result lists the signers. -/
def verify (bls : Bls) (chainID : Nat) (keys : List (Option PublicKey)) (a : AggregateAttestation) :
    Except AttestationError (List Nat) :=
  match verifySignature bls chainID keys a with
  | .error e => .error e
  | .ok indices =>
    if indices.length < quorum keys.length then
      .error (.quorumNotMet indices.length keys.length (quorum keys.length))
    else .ok indices

variable {keys : List (Option PublicKey)} {bls : Bls} {chainID : Nat} {a : AggregateAttestation}

theorem signerKeys_mem {indices : List Nat} {signers : List PublicKey}
    (h : signerKeys keys indices = some signers) {i : Nat} (hi : i ∈ indices) :
    ∃ key ∈ signers, keys[i]? = some (some key) := by
  unfold signerKeys at h
  induction indices generalizing signers with
  | nil => cases hi
  | cons first rest ih =>
    cases hfirst : (keys[first]?).join with
    | none => simp [hfirst] at h
    | some key =>
      cases hrest : rest.mapM fun i => (keys[i]?).join with
      | none => simp [hfirst, hrest] at h
      | some tail =>
        have hsigners : signers = key :: tail := by
          simpa [hfirst, hrest] using h.symm
        rcases List.mem_cons.mp hi with rfl | hmem
        · refine ⟨key, by rw [hsigners]; exact List.mem_cons_self, ?_⟩
          exact Option.join_eq_some_iff.mp hfirst
        · obtain ⟨key', hkey', hget⟩ := ih hrest hmem
          exact ⟨key', by rw [hsigners]; exact List.mem_cons_of_mem _ hkey', hget⟩

/-- What an accepted aggregate signature says: the marked positions, in order, have keys, and the
signature verifies for them on the named height and hash. -/
theorem verifySignature_ok {indices : List Nat} (h : verifySignature bls chainID keys a = .ok indices) :
    indices = Bitfield.indices a.signers keys.length ∧ indices ≠ [] ∧ Bitfield.fits a.signers keys.length = true ∧
      ∃ signers sig, signerKeys keys indices = some signers ∧
        bls.fastAggregateVerify signers (.attestation chainID a.number a.blockHash) sig = true := by
  unfold verifySignature at h
  split at h
  · cases h
  split_ifs at h with hfits
  dsimp only at h
  split_ifs at h with hsome
  split at h
  · cases h
  rename_i signers hsigners
  split at h
  · cases h
  rename_i sig hsig
  split at h
  · rename_i hverify
    cases h
    exact ⟨rfl, by simpa using hsome, by simpa using hfits, signers, sig, hsigners, hverify⟩
  · cases h

theorem verify_ok {indices : List Nat} (h : verify bls chainID keys a = .ok indices) :
    verifySignature bls chainID keys a = .ok indices ∧ quorum keys.length ≤ indices.length := by
  unfold verify at h
  split at h
  · cases h
  · rename_i indices' hindices
    split at h
    · cases h
    · rename_i hquorum
      cases h
      exact ⟨hindices, not_lt.mp hquorum⟩

end AggregateAttestation

def QuorumSigned (keys : List (Option PublicKey)) (log : SignedLog) (msg : SigningMessage) : Prop :=
  ∃ signers : Finset Nat, quorum keys.length ≤ signers.card ∧
    ∀ i ∈ signers, ∃ key, keys[i]? = some (some key) ∧ (key, msg) ∈ log

variable {keys : List (Option PublicKey)} {chainID : Nat}

theorem QuorumSigned.mono {log log' : SignedLog} {msg : SigningMessage}
    (hlog : log ⊆ log') (h : QuorumSigned keys log msg) : QuorumSigned keys log' msg := by
  obtain ⟨signers, hcard, hsigned⟩ := h
  refine ⟨signers, hcard, fun i hi => ?_⟩
  obtain ⟨key, hkey, hmem⟩ := hsigned i hi
  exact ⟨key, hkey, hlog hmem⟩

/-- Behind a certificate that verifies stands a quorum of signatures. -/
theorem quorumSigned_of_verify {signing : Signing} {log : SignedLog} {qc : QuorumCert} {indices : List Nat}
    (h : qc.verify (signing.bls log) chainID keys = .ok indices) :
    QuorumSigned keys log (.attestation chainID qc.number qc.blockHash) := by
  obtain ⟨hsignature, hquorum⟩ := AggregateAttestation.verify_ok h
  obtain ⟨hindices, -, -, signers, sig, hsigners, hverify⟩ := AggregateAttestation.verifySignature_ok hsignature
  refine ⟨indices.toFinset, ?_, fun i hi => ?_⟩
  · rw [List.toFinset_card_of_nodup (hindices ▸ Bitfield.nodup_indices _ _)]
    exact hquorum
  · obtain ⟨key, hmem, hkey⟩ := AggregateAttestation.signerKeys_mem hsigners (List.mem_toFinset.mp hi)
    exact ⟨key, hkey, signing.signed_of_fastAggregateVerify hverify key hmem⟩

theorem lt_three_mul_card_inter {n : Nat} (hn : 0 < n) {left right : Finset Nat}
    (hleft : ∀ i ∈ left, i < n) (hright : ∀ i ∈ right, i < n) (hleftCard : quorum n ≤ left.card)
    (hrightCard : quorum n ≤ right.card) : n < 3 * (left ∩ right).card := by
  have hunion : (left ∪ right).card ≤ n := by
    have hsub : left ∪ right ⊆ Finset.range n := by
      intro i hi
      rcases Finset.mem_union.mp hi with h | h
      · exact Finset.mem_range.mpr (hleft i h)
      · exact Finset.mem_range.mpr (hright i h)
    exact (Finset.card_le_card hsub).trans_eq (Finset.card_range n)
  have hcount := Finset.card_union_add_card_inter left right
  rw [quorum, if_neg hn.ne'] at hleftCard hrightCard
  omega

structure Equivocation where
  validator : Address
  number : Nat
  index : Nat
  first : Option Attestation
  second : Option Attestation
  deriving DecidableEq, Repr

def detectEquivocation (bls : Bls) (chainID : Nat) (key : Option PublicKey) (a b : Attestation) :
    Except AttestationError (Option Equivocation) :=
  if a.number ≠ b.number ∨ a.index ≠ b.index then .ok none
  else if a.blockHash = b.blockHash then .ok none
  else
    match a.verify bls chainID key with
    | .error e => .error e
    | .ok () =>
      match b.verify bls chainID key with
      | .error e => .error e
      | .ok () => .ok (some ⟨0, a.number, a.index, some a, some b⟩)

def Equivocation.verify (bls : Bls) (chainID : Nat) (key : Option PublicKey) (e : Equivocation) :
    Except AttestationError Unit :=
  match e.first, e.second with
  | some first, some second =>
    match detectEquivocation bls chainID key first second with
    | .error err => .error err
    | .ok none => .error .noConflict
    | .ok (some proof) =>
      if proof.number ≠ e.number ∨ proof.index ≠ e.index then
        .error (.evidenceMismatch proof.index proof.number)
      else .ok ()
  | _, _ => .error .incompleteEvidence

theorem detectEquivocation_eq_some {bls : Bls} {key : Option PublicKey}
    {a b : Attestation} (hnumber : a.number = b.number) (hindex : a.index = b.index)
    (hhash : a.blockHash ≠ b.blockHash) (ha : a.verify bls chainID key = .ok ())
    (hb : b.verify bls chainID key = .ok ()) :
    detectEquivocation bls chainID key a b = .ok (some ⟨0, a.number, a.index, some a, some b⟩) := by
  unfold detectEquivocation
  rw [if_neg (by simp [hnumber, hindex]), if_neg hhash, ha, hb]

end PadiChain.Core

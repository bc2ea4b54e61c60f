import PadiChain.Common

/-! The signature scheme as the rest of the node uses it. A public key and a signature are known by
their compressed encodings. What a validator signs is the RLP encoding of a labelled list; the
encoding is injective and the labels differ, so a message is that list. -/

namespace PadiChain

structure PublicKey where
  bytes : Bytes
  deriving DecidableEq, Repr

structure Signature where
  bytes : Bytes
  deriving DecidableEq, Repr

/-- The messages of `AttestationMessage` and `RandaoMessage`. -/
inductive SigningMessage where
  | attestation (chainID number : Nat) (blockHash : Hash)
  | randao (chainID epoch : Nat)
  deriving DecidableEq

/-- The operations of the BLS12-381 package that consensus calls. A key is decoded from 48 bytes
only. -/
structure Bls where
  publicKeyFromBytes : Bytes → Option PublicKey
  signatureFromBytes : Bytes → Option Signature
  verify : PublicKey → SigningMessage → Signature → Bool
  fastAggregateVerify : List PublicKey → SigningMessage → Signature → Bool
  aggregateSignatures : Signature → Signature → Option Signature
  verifyPossession : PublicKey → Signature → Bool
  length_of_publicKeyFromBytes : ∀ {b key}, publicKeyFromBytes b = some key → b.length = 48

def SigningMessage.spell : SigningMessage → Bytes
  | .attestation chainID number blockHash =>
    [0, UInt8.ofNat chainID, UInt8.ofNat number, UInt8.ofNat blockHash.toNat]
  | .randao chainID epoch => [1, UInt8.ofNat chainID, UInt8.ofNat epoch]

/-- A scheme to evaluate the model with: a signature spells out its keys and its message. -/
def Bls.plain : Bls where
  publicKeyFromBytes b := if b.length = 48 then some ⟨b⟩ else none
  signatureFromBytes b := some ⟨b⟩
  verify key msg sig := sig.bytes == key.bytes ++ msg.spell
  fastAggregateVerify keys msg sig :=
    !keys.isEmpty && sig.bytes == (keys.map fun key => key.bytes ++ msg.spell).flatten
  aggregateSignatures a b := some ⟨a.bytes ++ b.bytes⟩
  verifyPossession key proof := proof.bytes == key.bytes
  length_of_publicKeyFromBytes := by
    intro b key h
    split at h
    · assumption
    · cases h

abbrev SignedLog := List (PublicKey × SigningMessage)

/-- Unforgeable signatures: whether a signature verifies depends on what has been signed so far. An
aggregate verifies only if every key in it has signed the message, and what a key has signed verifies
under it. -/
structure Signing where
  base : Bls
  sign : PublicKey → SigningMessage → Bytes
  verify : SignedLog → PublicKey → SigningMessage → Signature → Bool
  fastAggregateVerify : SignedLog → List PublicKey → SigningMessage → Signature → Bool
  signed_of_fastAggregateVerify : ∀ {log keys msg sig}, fastAggregateVerify log keys msg sig = true →
    ∀ key ∈ keys, (key, msg) ∈ log
  verify_sign : ∀ {log key msg}, (key, msg) ∈ log →
    ∃ sig, base.signatureFromBytes (sign key msg) = some sig ∧ verify log key msg sig = true

/-- The scheme as it answers after a log of signatures. -/
def Signing.bls (signing : Signing) (log : SignedLog) : Bls :=
  { signing.base with
    verify := signing.verify log
    fastAggregateVerify := signing.fastAggregateVerify log }

def Signing.plain : Signing where
  base := Bls.plain
  sign key msg := key.bytes ++ msg.spell
  verify log key msg sig := Bls.plain.verify key msg sig && log.contains (key, msg)
  fastAggregateVerify log keys msg sig :=
    Bls.plain.fastAggregateVerify keys msg sig && keys.all fun key => log.contains (key, msg)
  signed_of_fastAggregateVerify := by
    intro log keys msg sig h key hkey
    have hall := (Bool.and_eq_true_iff.mp h).2
    exact List.contains_iff_mem.mp (List.all_eq_true.mp hall key hkey)
  verify_sign := by
    intro log key msg h
    refine ⟨⟨key.bytes ++ msg.spell⟩, rfl, ?_⟩
    exact Bool.and_eq_true_iff.mpr ⟨beq_self_eq_true _, List.contains_iff_mem.mpr h⟩

end PadiChain

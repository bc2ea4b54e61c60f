import PadiChain.CoreAggregate

/-! What a certificate that verifies says: who signed it, how many they are and what they signed. Its bitfield
is the only one that names these signers. -/

namespace PadiChain.Core

open List

namespace Bitfield

variable {b b' : Bitfield} {validators : Nat}

theorem ext_has (hlength : b.length = b'.length) (hhas : ∀ i, has b i = has b' i) : b = b' := by
  refine ext_getElem hlength fun k hk hk' => UInt8.toNat_inj.mp (Nat.eq_of_testBit_eq fun j => ?_)
  by_cases hj : j < 8
  · have hbit := hhas (8 * k + j)
    have hbyte : (8 * k + j) / 8 = k := by omega
    have hposition : (8 * k + j) % 8 = j := by omega
    rw [has, has, hbyte, hposition, getD_eq_getElem _ _ hk, getD_eq_getElem _ _ hk'] at hbit
    exact hbit
  · have hlarge : 2 ^ 8 ≤ 2 ^ j := Nat.pow_le_pow_right (by decide) (not_lt.mp hj)
    rw [Nat.testBit_lt_two_pow ((UInt8.toNat_lt _).trans_le hlarge),
      Nat.testBit_lt_two_pow ((UInt8.toNat_lt _).trans_le hlarge)]

theorem lt_of_fits (h : fits b validators = true) {i : Nat} (hi : has b i = true) : i < validators := by
  by_contra hge
  have hbyte := lt_length_of_has hi
  rw [fits, Bool.and_eq_true, all_eq_true] at h
  have hclear := h.2 i (mem_range'_1.mpr ⟨not_lt.mp hge, by omega⟩)
  rw [hi] at hclear
  cases hclear

theorem mem_indices_of_fits (h : fits b validators = true) (i : Nat) : i ∈ indices b validators ↔ has b i = true := by
  rw [indices, mem_filter, mem_range]
  exact ⟨And.right, fun hi => ⟨lt_of_fits h hi, hi⟩⟩

end Bitfield

namespace AggregateAttestation

/-- Two certificates that verify under one list of keys. The positions marked in one are distinct, lie in the
set, number a quorum, and have signed its height and hash; the two have more than a third of the set in common,
whatever they certify; and if they have the same signers, their bitfields are the same. -/
theorem certificates_sound (signing : Signing) (log : SignedLog) (chainID : Nat) (keys : List (Option PublicKey))
    (a b : QuorumCert) (signers signers' : List Nat) (ha : a.verify (signing.bls log) chainID keys = .ok signers)
    (hb : b.verify (signing.bls log) chainID keys = .ok signers') :
    ((∀ i, i ∈ signers ↔ Bitfield.has a.signers i = true) ∧ signers.Nodup ∧ quorum keys.length ≤ signers.length ∧
      ∀ i ∈ signers, i < keys.length ∧
        ∃ key, keys[i]? = some (some key) ∧ (key, .attestation chainID a.number a.blockHash) ∈ log) ∧
    keys.length < 3 * (signers.toFinset ∩ signers'.toFinset).card ∧
    (signers.toFinset = signers'.toFinset → a.signers = b.signers) := by
  obtain ⟨hsignature, hquorum⟩ := verify_ok ha
  obtain ⟨hsignature', hquorum'⟩ := verify_ok hb
  obtain ⟨rfl, hsome, hfits, signed, sig, hkeys, hverify⟩ := verifySignature_ok hsignature
  obtain ⟨rfl, -, hfits', -⟩ := verifySignature_ok hsignature'
  have hmem := Bitfield.mem_indices_of_fits hfits
  have hmem' := Bitfield.mem_indices_of_fits hfits'
  have hnodup := Bitfield.nodup_indices a.signers keys.length
  have hnodup' := Bitfield.nodup_indices b.signers keys.length
  refine ⟨⟨hmem, hnodup, hquorum, fun i hi => ?_⟩, ?_, fun hsame => ?_⟩
  · obtain ⟨key, hkey, hget⟩ := signerKeys_mem hkeys hi
    exact ⟨Bitfield.lt_of_fits hfits ((hmem i).mp hi), key, hget,
      signing.signed_of_fastAggregateVerify hverify key hkey⟩
  · obtain ⟨first, hfirst⟩ := exists_mem_of_ne_nil _ hsome
    have hpos : 0 < keys.length := Nat.zero_lt_of_lt (Bitfield.lt_of_fits hfits ((hmem first).mp hfirst))
    refine lt_three_mul_card_inter hpos (fun i hi => ?_) (fun i hi => ?_) ?_ ?_
    · exact Bitfield.lt_of_fits hfits ((hmem i).mp (mem_toFinset.mp hi))
    · exact Bitfield.lt_of_fits hfits' ((hmem' i).mp (mem_toFinset.mp hi))
    · rw [toFinset_card_of_nodup hnodup]
      exact hquorum
    · rw [toFinset_card_of_nodup hnodup']
      exact hquorum'
  · refine Bitfield.ext_has ?_ fun i => ?_
    · rw [Bitfield.fits, Bool.and_eq_true, beq_iff_eq] at hfits hfits'
      rw [hfits.1, hfits'.1]
    · rw [Bool.eq_iff_iff, ← hmem, ← hmem', ← mem_toFinset, hsame, mem_toFinset]

namespace CertificateExample

def keys : List (Option PublicKey) := [some ⟨[0]⟩, some ⟨[1]⟩, some ⟨[2]⟩, some ⟨[3]⟩]

def log : SignedLog :=
  [0, 1, 2].map (fun k => (⟨[k]⟩, .attestation 7 5 1)) ++ [1, 2, 3].map fun k => (⟨[k]⟩, .attestation 7 5 2)

def cert (field : UInt8) (signers : List UInt8) (hash : Hash) : QuorumCert :=
  ⟨5, hash, [field], (signers.map fun k => k :: SigningMessage.spell (.attestation 7 5 hash)).flatten⟩

end CertificateExample

open CertificateExample in
/-- Three of four validators for one hash, and three for another. -/
theorem certificates_sound_conflicting :
    (cert 7 [0, 1, 2] 1).verify (Signing.plain.bls log) 7 keys = .ok [0, 1, 2] ∧
      (cert 14 [1, 2, 3] 2).verify (Signing.plain.bls log) 7 keys = .ok [1, 2, 3] ∧
      keys.length < 3 * ([0, 1, 2].toFinset ∩ [1, 2, 3].toFinset : Finset Nat).card :=
  ⟨rfl, rfl, (certificates_sound Signing.plain log 7 keys (cert 7 [0, 1, 2] 1) (cert 14 [1, 2, 3] 2) [0, 1, 2]
    [1, 2, 3] rfl rfl).2.1⟩

end AggregateAttestation

end PadiChain.Core

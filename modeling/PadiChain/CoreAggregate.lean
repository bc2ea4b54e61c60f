import PadiChain.CoreAttestation
import Mathlib.Algebra.Order.BigOperators.Group.List
import Mathlib.Algebra.Order.Ring.Nat
import Mathlib.Data.List.GetD

/-! Building a certificate. Folding a set of decodable votes into an aggregate marks exactly their
positions, and the aggregate verifies if every vote does on its own. -/

namespace PadiChain

open Core List

/-- Aggregation as the scheme promises it, for one message and the keys of one set: the sum of two
signatures is a signature, and a sum of signatures verifies for the sum of their keys. The second holds
for every group of keys that does not add up to the identity. -/
structure Bls.Aggregates (bls : Bls) (msg : SigningMessage) (set : List (Option PublicKey)) : Prop where
  bytes_ne_nil : ∀ {b sig}, bls.signatureFromBytes b = some sig → b ≠ []
  total : ∀ {b b' sig sig'}, bls.signatureFromBytes b = some sig → bls.signatureFromBytes b' = some sig' →
    ∃ sum, bls.aggregateSignatures sig sig' = some sum ∧ bls.signatureFromBytes sum.bytes = some sum
  single : ∀ {i : Nat} {key sig}, set[i]? = some (some key) → bls.verify key msg sig = true →
    bls.fastAggregateVerify [key] msg sig = true
  sum : ∀ {indices : List Nat} {i : Nat} {keys key sig sig' sum}, (indices ++ [i]).Nodup →
    AggregateAttestation.signerKeys set indices = some keys → set[i]? = some (some key) →
    bls.fastAggregateVerify keys msg sig = true → bls.verify key msg sig' = true →
    bls.aggregateSignatures sig sig' = some sum → bls.fastAggregateVerify (keys ++ [key]) msg sum = true

namespace Core

namespace Bitfield

@[simp] theorem length_new {validators : Nat} : (new validators).length = (validators + 7) / 8 :=
  length_replicate

theorem has_replicate (n i : Nat) : has (List.replicate n 0) i = false := by
  have hzero : (replicate n (0 : UInt8)).getD (i / 8) 0 = 0 := by
    rw [getD_eq_getElem?_getD, getElem?_replicate]
    split <;> rfl
  rw [has, hzero]
  exact Nat.zero_testBit _

theorem has_new (validators i : Nat) : has (new validators) i = false := has_replicate _ i

@[simp] theorem length_set (b : Bitfield) (i : Nat) : (set b i).length = b.length := length_modify ..

variable {b : Bitfield} {i : Nat}

theorem has_set (hi : i / 8 < b.length) (j : Nat) : has (set b i) j = (has b j || decide (i = j)) := by
  have hbit : (UInt8.ofNat (2 ^ (i % 8))).toNat = 2 ^ (i % 8) := by
    exact Nat.mod_eq_of_lt (Nat.pow_lt_pow_right (by decide) (Nat.mod_lt i (by decide)))
  rw [has, has, set, getD_eq_getElem?_getD, getD_eq_getElem?_getD, getElem?_modify]
  by_cases hbyte : i / 8 = j / 8
  · rw [← hbyte, getElem?_eq_getElem hi]
    simp only [Functor.map, Option.map_some, Option.getD_some, if_true, UInt8.toNat_or, hbit,
      Nat.testBit_or, Nat.testBit_two_pow]
    congr 1
    rw [decide_eq_decide]
    omega
  · have hne : i ≠ j := fun h => hbyte (by rw [h])
    simp only [if_neg hbyte, decide_eq_false hne, Bool.or_false, Functor.map, Option.map_id']

theorem lt_length_of_has (h : has b i = true) : i / 8 < b.length := by
  by_contra hge
  rw [has, getD_eq_default _ _ (not_lt.mp hge)] at h
  rw [show (0 : UInt8).toNat = 0 from rfl, Nat.zero_testBit] at h
  cases h

theorem count_pos (h : has b i = true) : 0 < count b := by
  have hlt := lt_length_of_has h
  rw [has, getD_eq_getElem _ _ hlt] at h
  have hbits : i % 8 ∈ (range 8).filter fun k => b[i / 8].toNat.testBit k :=
    mem_filter.mpr ⟨mem_range.mpr (Nat.mod_lt i (by decide)), h⟩
  exact Nat.lt_of_lt_of_le (length_pos_of_mem hbits)
    (single_le_sum (fun _ _ => Nat.zero_le _) _ (mem_map.mpr ⟨b[i / 8], getElem_mem hlt, rfl⟩))

/-- A field that marks the positions of an increasing list reads back as the list. -/
theorem indices_eq {limit : Nat} {positions : List Nat} (hsorted : positions.Pairwise (· < ·))
    (hlt : ∀ i ∈ positions, i < limit) (hhas : ∀ i, has b i = true ↔ i ∈ positions) : indices b limit = positions := by
  apply List.Pairwise.eq_of_mem_iff (pairwise_lt_range.filter _) hsorted
  intro i
  rw [mem_filter, mem_range, hhas]
  exact ⟨And.right, fun h => ⟨hlt i h, h⟩⟩

end Bitfield

def VoteVerifies (bls : Bls) (msg : SigningMessage) (set : List (Option PublicKey)) (vote : Nat × Bytes) : Prop :=
  ∃ key sig, set[vote.1]? = some (some key) ∧ bls.signatureFromBytes vote.2 = some sig ∧
    bls.verify key msg sig = true

namespace AggregateAttestation

variable {set : List (Option PublicKey)} {bls : Bls} {msg : SigningMessage} {validators : Nat}
  {votes : List (Nat × Bytes)}

theorem signerKeys_append {indices : List Nat} {i : Nat}
    {keys : List PublicKey} {key : PublicKey} (h : signerKeys set indices = some keys)
    (hi : set[i]? = some (some key)) : signerKeys set (indices ++ [i]) = some (keys ++ [key]) := by
  rw [signerKeys] at h ⊢
  simp [mapM_append, h, hi]

/-- What folding a list of votes leaves: their positions marked, and the sum of their signatures, which
verifies if every vote does. -/
structure Folded (bls : Bls) (msg : SigningMessage) (set : List (Option PublicKey)) (validators : Nat)
    (votes : List (Nat × Bytes)) (a : AggregateAttestation) : Prop where
  length : a.signers.length = (validators + 7) / 8
  has : ∀ i, Bitfield.has a.signers i = true ↔ i ∈ votes.map Prod.fst
  empty : votes = [] → a.signature = []
  sum : votes ≠ [] → ∃ sig, bls.signatureFromBytes a.signature = some sig ∧
    ((∀ vote ∈ votes, VoteVerifies bls msg set vote) →
      ∃ keys, signerKeys set (votes.map Prod.fst) = some keys ∧ bls.fastAggregateVerify keys msg sig = true)

theorem Folded.add {a : AggregateAttestation} (hbls : bls.Aggregates msg set)
    (h : Folded bls msg set validators votes a) {vote : Nat × Bytes} {sig : Signature}
    (hsig : bls.signatureFromBytes vote.2 = some sig) (hlt : vote.1 < validators)
    (hnodup : ((votes ++ [vote]).map Prod.fst).Nodup) :
    ∃ a', AggregateAttestation.add bls a vote.1 vote.2 = .ok a' ∧ a'.number = a.number ∧
      a'.blockHash = a.blockHash ∧ Folded bls msg set validators (votes ++ [vote]) a' := by
  rw [List.map_append, List.map_singleton] at hnodup
  have hnew : vote.1 ∉ votes.map Prod.fst := fun hmem =>
    (List.nodup_append.mp hnodup).2.2 _ hmem _ (List.mem_singleton_self _) rfl
  have hunmarked : ¬ Bitfield.has a.signers vote.1 = true := fun hhas => hnew ((h.has _).mp hhas)
  have hroom : vote.1 / 8 < a.signers.length := by
    rw [h.length]
    omega
  have hmarked : ∀ i, Bitfield.has (Bitfield.set a.signers vote.1) i = true ↔
      i ∈ (votes ++ [vote]).map Prod.fst := by
    intro i
    rw [Bitfield.has_set hroom, Bool.or_eq_true, h.has, decide_eq_true_eq, List.map_append, List.mem_append,
      List.map_singleton, List.mem_singleton, eq_comm]
  have hlength : (Bitfield.set a.signers vote.1).length = (validators + 7) / 8 := by
    rw [Bitfield.length_set, h.length]
  rw [AggregateAttestation.add, if_neg hunmarked, hsig]
  dsimp only
  by_cases hvotes : votes = []
  · subst hvotes
    rw [h.empty rfl, List.isEmpty_nil, if_pos rfl]
    refine ⟨_, rfl, rfl, rfl, hlength, hmarked, fun hnil => absurd hnil (by simp), fun _ => ⟨sig, hsig, ?_⟩⟩
    intro hall
    obtain ⟨key, sig', hkey, hsig', hverify⟩ := hall vote (List.mem_singleton_self _)
    obtain rfl : sig = sig' := Option.some.inj (hsig.symm.trans hsig')
    have hkeys : signerKeys set ([] ++ [vote.1]) = some ([] ++ [key]) := signerKeys_append rfl hkey
    exact ⟨[key], hkeys, hbls.single hkey hverify⟩
  · obtain ⟨total, htotal, hverifies⟩ := h.sum hvotes
    have hne : ¬ a.signature.isEmpty = true := by
      rw [List.isEmpty_iff]
      exact hbls.bytes_ne_nil htotal
    obtain ⟨sum, hsum, hbytes⟩ := hbls.total htotal hsig
    rw [if_neg hne, htotal]
    dsimp only
    rw [hsum]
    refine ⟨_, rfl, rfl, rfl, hlength, hmarked, fun hnil => absurd hnil (by simp), fun _ => ⟨sum, hbytes, ?_⟩⟩
    intro hall
    obtain ⟨keys, hkeys, hfast⟩ := hverifies fun v hv => hall v (List.mem_append_left _ hv)
    obtain ⟨key, sig', hkey, hsig', hverify⟩ := hall vote (List.mem_append_right _ (List.mem_singleton_self _))
    obtain rfl : sig = sig' := Option.some.inj (hsig.symm.trans hsig')
    refine ⟨keys ++ [key], ?_, hbls.sum hnodup hkeys hkey hfast hverify hsum⟩
    rw [List.map_append]
    exact signerKeys_append hkeys hkey

theorem folded_of_foldlM (hbls : bls.Aggregates msg set) (number : Nat) (blockHash : Hash)
    (hnodup : (votes.map Prod.fst).Nodup) (hlt : ∀ vote ∈ votes, vote.1 < validators)
    (hsig : ∀ vote ∈ votes, ∃ sig, bls.signatureFromBytes vote.2 = some sig) :
    ∃ a, votes.foldlM (fun aggregate vote => AggregateAttestation.add bls aggregate vote.1 vote.2)
        (new number blockHash validators) = .ok a ∧
      a.number = number ∧ a.blockHash = blockHash ∧ Folded bls msg set validators votes a := by
  induction votes using reverseRecOn with
  | nil =>
    refine ⟨_, rfl, rfl, rfl, Bitfield.length_new, fun i => ?_, fun _ => rfl, fun h => absurd rfl h⟩
    rw [show (new number blockHash validators).signers = Bitfield.new validators from rfl, Bitfield.has_new]
    simp
  | append_singleton votes vote ih =>
    have hprefix : (votes.map Prod.fst).Nodup := by
      rw [map_append] at hnodup
      exact (nodup_append.mp hnodup).1
    obtain ⟨a, hfold, hnumber, hhash, hfolded⟩ := ih hprefix
      (fun v hv => hlt v (mem_append_left _ hv)) (fun v hv => hsig v (mem_append_left _ hv))
    have hlast := mem_append_right votes (mem_singleton_self vote)
    obtain ⟨sig, hdecoded⟩ := hsig vote hlast
    obtain ⟨a', hadd, hnumber', hhash', hfolded'⟩ :=
      hfolded.add hbls hdecoded (hlt vote hlast) hnodup
    refine ⟨a', ?_, hnumber'.trans hnumber, hhash'.trans hhash, hfolded'⟩
    rw [foldlM_append, hfold]
    simp only [bind, Except.bind, foldlM_cons, hadd, foldlM_nil, pure, Except.pure]

theorem pairwise_positions (hnodup : (votes.map Prod.fst).Nodup) :
    ((votes.insertionSort fun a b => a.1 ≤ b.1).map Prod.fst).Pairwise (· < ·) := by
  have hsorted := pairwise_map.mpr (pairwise_insertionSort (fun a b : Nat × Bytes => a.1 ≤ b.1) votes)
  have hdistinct := ((perm_insertionSort (fun a b : Nat × Bytes => a.1 ≤ b.1) votes).map Prod.fst).nodup_iff.mpr
    hnodup
  exact hsorted.imp₂ (fun _ _ hle hne => lt_of_le_of_ne hle hne) hdistinct

/-- The certificate of votes that decode, one for each of their positions. If they all verify, so does
it, and it lists every voter. -/
theorem newQuorumCert_spec {chainID number : Nat} {blockHash : Hash}
    (hbls : bls.Aggregates (.attestation chainID number blockHash) set)
    (hne : votes ≠ []) (hnodup : (votes.map Prod.fst).Nodup) (hlt : ∀ vote ∈ votes, vote.1 < set.length)
    (hsig : ∀ vote ∈ votes, ∃ sig, bls.signatureFromBytes vote.2 = some sig) :
    ∃ qc, newQuorumCert bls number blockHash set.length votes = .ok qc ∧
      (∀ indices, qc.verifySignature bls chainID set = .ok indices → indices.length = votes.length) ∧
      ((∀ vote ∈ votes, VoteVerifies bls (.attestation chainID number blockHash) set vote) →
        ∃ indices, qc.verifySignature bls chainID set = .ok indices) := by
  let sorted := votes.insertionSort fun a b => a.1 ≤ b.1
  have hperm : sorted.Perm votes := List.perm_insertionSort _ votes
  have hpositions := pairwise_positions hnodup
  obtain ⟨qc, hqc, hnumber, hhash, hfolded⟩ := folded_of_foldlM hbls number blockHash
    (hpositions.imp ne_of_lt) (fun v hv => hlt v (hperm.mem_iff.mp hv)) (fun v hv => hsig v (hperm.mem_iff.mp hv))
  have hsortedLt : ∀ i ∈ sorted.map Prod.fst, i < set.length := by
    intro i hi
    obtain ⟨vote, hvote, rfl⟩ := List.mem_map.mp hi
    exact hlt vote (hperm.mem_iff.mp hvote)
  have hindices : Bitfield.indices qc.signers set.length = sorted.map Prod.fst :=
    Bitfield.indices_eq hpositions hsortedLt hfolded.has
  have hsortedNe : sorted ≠ [] := fun hnil => hne (List.Perm.eq_nil (hnil ▸ hperm.symm))
  refine ⟨qc, hqc, fun indices hindices' => ?_, fun hall => ?_⟩
  · rw [(verifySignature_ok hindices').1, hindices, List.length_map, hperm.length_eq]
  · obtain ⟨sig, hdecoded, hverifies⟩ := hfolded.sum hsortedNe
    obtain ⟨keys, hkeys, hfast⟩ := hverifies fun v hv => hall v (hperm.mem_iff.mp hv)
    obtain ⟨first, hfirst⟩ := List.exists_mem_of_ne_nil _ hsortedNe
    have hmarked : Bitfield.has qc.signers first.1 = true := (hfolded.has _).mpr (List.mem_map_of_mem hfirst)
    have hempty : ¬ qc.isEmpty = true := by
      rw [isEmpty, Bool.or_eq_true, List.isEmpty_iff, beq_iff_eq]
      exact not_or.mpr ⟨hbls.bytes_ne_nil hdecoded, (Bitfield.count_pos hmarked).ne'⟩
    have hfits : Bitfield.fits qc.signers set.length = true := by
      rw [Bitfield.fits, Bool.and_eq_true, beq_iff_eq, List.all_eq_true]
      refine ⟨hfolded.length, fun i hi => ?_⟩
      obtain ⟨hle, -⟩ := List.mem_range'_1.mp hi
      rw [Bool.not_eq_true', ← Bool.not_eq_true, hfolded.has]
      exact fun hmem => absurd (hsortedLt i hmem) (not_lt.mpr hle)
    refine ⟨sorted.map Prod.fst, ?_⟩
    simp only [verifySignature, if_neg hempty, hfits, Bool.not_true, Bool.false_eq_true, if_false, hindices]
    rw [if_neg (by simpa using hsortedNe), hkeys, hdecoded, hnumber, hhash]
    dsimp only
    rw [if_pos hfast]

end AggregateAttestation

end Core

end PadiChain

import PadiChain.ConsensusPool
import PadiChain.CoreAggregate
import PadiChain.LibTransition
import Mathlib.Tactic.IntervalCases

/-! When the votes of a quorum make a certificate. A pool stores the first vote it is handed for a
position at a height without checking it, so what matters is which vote of a position came first. -/

namespace PadiChain.Consensus.AttestationPool

open Core Function AttestationPool Transition List

/-- The calls on a pool while its validator set stays the same. -/
inductive Call where
  | add (a : Attestation)
  | certificate (number : Nat) (blockHash : Hash)
  | markFinalized (number : Nat)
  | addEvidence (proof : Equivocation)

def Call.apply (bls : Bls) (p : AttestationPool) : Call → AttestationPool
  | add a => (p.add bls a).2
  | certificate number blockHash => (p.certificate bls number blockHash).2
  | markFinalized number => p.markFinalized number
  | addEvidence proof => p.addEvidence bls proof

theorem voteValid_congr {bls : Bls} {p q : AttestationPool} (hkeys : q.keys = p.keys) (hchain : q.chainID = p.chainID)
    (number : Nat) (blockHash : Hash) (vote : Nat × Bytes) :
    q.voteValid bls number blockHash vote = p.voteValid bls number blockHash vote := by
  rw [voteValid, voteValid, hkeys, hchain]

theorem voteVerifies_of_voteValid {bls : Bls} {p : AttestationPool} {number : Nat} {blockHash : Hash}
    {vote : Nat × Bytes} (h : p.voteValid bls number blockHash vote = true) :
    VoteVerifies bls (.attestation p.chainID number blockHash) p.keys vote := by
  rw [voteValid] at h
  split at h
  · rename_i key hkey
    simp only [Attestation.verify] at h
    cases hsig : bls.signatureFromBytes vote.2 with
    | none =>
      rw [hsig] at h
      cases h
    | some sig =>
      rw [hsig] at h
      dsimp only at h
      split_ifs at h with hverify
      exact ⟨key, sig, hkey, hsig, hverify⟩
  · cases h

/-- The two records of the votes of a height agree: a position has one vote, for one hash, and a key. -/
structure Recorded (p : AttestationPool) (height : Nat) : Prop where
  nodup : ∀ h, ((p.votes height h).map Prod.fst).Nodup
  cast : ∀ {h vote}, vote ∈ p.votes height h → p.byIndex height vote.1 = some ⟨height, h, vote.1, vote.2⟩
  key : ∀ {h vote}, vote ∈ p.votes height h → ∃ key, p.keys[vote.1]? = some (some key)

section Voters

variable (bls : Bls) (height : Nat) (hash : Hash) (voters : Finset Nat)

/-- Nothing stands between the voters and a certificate for the hash: a vote recorded for one of them is
for the hash and valid, and every vote for the hash at least decodes. -/
structure Unblocked (p : AttestationPool) : Prop extends Recorded p height where
  decodes : ∀ {vote}, vote ∈ p.votes height hash → ∃ sig, bls.signatureFromBytes vote.2 = some sig
  genuine : ∀ {i a}, i ∈ voters → p.byIndex height i = some a →
    (i, a.signature) ∈ p.votes height hash ∧ p.voteValid bls height hash (i, a.signature) = true

structure Keeps (p q : AttestationPool) : Prop where
  keys : q.keys = p.keys
  chainID : q.chainID = p.chainID
  byIndex : ∀ {i a}, i ∈ voters → p.byIndex height i = some a → q.byIndex height i = some a

/-- The condition on a call: the first vote that reaches a voter's position is its valid vote for the
hash, a first vote for the hash has a signature that decodes, and the height is not trimmed. -/
def Unhindered (p : AttestationPool) : Call → Prop
  | .add a => a.number = height → p.byIndex height a.index = none →
      (a.index ∈ voters → a.blockHash = hash ∧ p.voteValid bls height hash (a.index, a.signature) = true) ∧
        (a.blockHash = hash → ∃ sig, bls.signatureFromBytes a.signature = some sig)
  | .markFinalized number => number ≤ height + retain
  | _ => True

variable {bls height hash voters} {p q r : AttestationPool}

theorem Keeps.refl : Keeps height voters p p := ⟨rfl, rfl, fun _ h => h⟩

theorem Keeps.trans (hpq : Keeps height voters p q) (hqr : Keeps height voters q r) : Keeps height voters p r :=
  ⟨hqr.keys.trans hpq.keys, hqr.chainID.trans hpq.chainID, fun hi h => hqr.byIndex hi (hpq.byIndex hi h)⟩

theorem Unblocked.congr (h : Unblocked bls height hash voters p) (hkeys : q.keys = p.keys)
    (hchain : q.chainID = p.chainID) (hvotes : q.votes height = p.votes height)
    (hbyIndex : q.byIndex height = p.byIndex height) :
    Unblocked bls height hash voters q ∧ Keeps height voters p q := by
  refine ⟨⟨⟨?_, ?_, ?_⟩, ?_, ?_⟩, hkeys, hchain, fun _ h => hbyIndex ▸ h⟩
  · rw [hvotes]
    exact h.nodup
  · rw [hvotes, hbyIndex]
    exact h.cast
  · rw [hvotes, hkeys]
    exact h.key
  · rw [hvotes]
    exact h.decodes
  · intro i a hi ha
    rw [hvotes, voteValid_congr hkeys hchain]
    exact h.genuine hi (hbyIndex ▸ ha)

theorem mem_votes_record {a : Attestation} (h : Recorded p a.number) (hnone : p.byIndex a.number a.index = none)
    {blockHash : Hash} {vote : Nat × Bytes} :
    vote ∈ (p.record a).votes a.number blockHash ↔
      vote ∈ p.votes a.number blockHash ∨ blockHash = a.blockHash ∧ vote = (a.index, a.signature) := by
  simp only [record, update_self]
  by_cases hhash : blockHash = a.blockHash
  · subst hhash
    rw [update_self, mem_append, mem_filter, mem_singleton]
    constructor
    · rintro (hold | hnew)
      · exact .inl hold.1
      · exact .inr ⟨rfl, hnew⟩
    · rintro (hold | ⟨-, hnew⟩)
      · refine .inl ⟨hold, decide_eq_true fun hindex => ?_⟩
        have hcast := h.cast hold
        rw [hindex, hnone] at hcast
        cases hcast
      · exact .inr hnew
  · rw [update_of_ne hhash]
    exact ⟨Or.inl, fun hor => hor.resolve_right fun hnew => hhash hnew.1⟩

variable {a : Attestation} {i number : Nat} {blockHash : Hash}

theorem nodup_votes_record (h : Recorded p a.number) (blockHash : Hash) :
    (((p.record a).votes a.number blockHash).map Prod.fst).Nodup := by
  simp only [record, update_self]
  by_cases hhash : blockHash = a.blockHash
  · subst hhash
    rw [update_self, map_append, map_singleton]
    refine List.Nodup.append ((h.nodup _).sublist (filter_sublist.map _)) (nodup_singleton _) ?_
    rw [disjoint_singleton]
    intro hmem
    obtain ⟨vote, hvote, hindex⟩ := mem_map.mp hmem
    exact of_decide_eq_true (mem_filter.mp hvote).2 hindex
  · rw [update_of_ne hhash]
    exact h.nodup blockHash

theorem byIndex_record_of_ne (hi : i ≠ a.index) : (p.record a).byIndex a.number i = p.byIndex a.number i := by
  simp [record, update_of_ne hi]

theorem byIndex_record_self (a : Attestation) : (p.record a).byIndex a.number a.index = some a := by
  simp [record]

theorem Unblocked.record (h : Unblocked bls height hash voters p) {key : PublicKey}
    (hkey : p.keys[a.index]? = some (some key)) (hnone : p.byIndex a.number a.index = none)
    (hcond : Unhindered bls height hash voters p (.add a)) :
    Unblocked bls height hash voters (p.record a) ∧ Keeps height voters p (p.record a) := by
  by_cases hnumber : a.number = height
  · subst hnumber
    obtain ⟨hvoter, hdecodes⟩ := hcond rfl hnone
    have hmem := @mem_votes_record p a h.toRecorded hnone
    have hold : ∀ {i b}, p.byIndex a.number i = some b → (p.record a).byIndex a.number i = some b := by
      intro i b hb
      have hi : i ≠ a.index := by
        rintro rfl
        rw [hnone] at hb
        cases hb
      rw [byIndex_record_of_ne hi, hb]
    refine ⟨⟨⟨nodup_votes_record h.toRecorded, ?_, ?_⟩, ?_, ?_⟩, rfl, rfl, fun _ hb => hold hb⟩
    · intro blockHash vote hvote
      rcases hmem.mp hvote with hvote | ⟨rfl, rfl⟩
      · exact hold (h.cast hvote)
      · exact byIndex_record_self a
    · intro blockHash vote hvote
      rcases hmem.mp hvote with hvote | ⟨rfl, rfl⟩
      · exact h.key hvote
      · exact ⟨key, hkey⟩
    · intro vote hvote
      rcases hmem.mp hvote with hvote | ⟨hhash, rfl⟩
      · exact h.decodes hvote
      · exact hdecodes hhash.symm
    · intro i b hi hb
      rw [hmem, voteValid_congr (p := p) (q := p.record a) rfl rfl]
      by_cases hindex : i = a.index
      · subst hindex
        rw [byIndex_record_self] at hb
        cases hb
        obtain ⟨hhash, hvalid⟩ := hvoter hi
        exact ⟨.inr ⟨hhash.symm, rfl⟩, hvalid⟩
      · rw [byIndex_record_of_ne hindex] at hb
        obtain ⟨hvote, hvalid⟩ := h.genuine hi hb
        exact ⟨.inl hvote, hvalid⟩
  · exact h.congr rfl rfl (update_of_ne (Ne.symm hnumber) _ _) (update_of_ne (Ne.symm hnumber) _ _)

theorem byIndex_of_evictInvalid
    (h : (p.evictInvalid bls number blockHash).2.byIndex number i = some a) : p.byIndex number i = some a := by
  simp only [evictInvalid, update_self] at h
  split at h
  · cases h
  · exact h

theorem byIndex_evictInvalid (h : Recorded p number) (ha : p.byIndex number i = some a)
    (hvalid : a.blockHash = blockHash → p.voteValid bls number blockHash (i, a.signature) = true) :
    (p.evictInvalid bls number blockHash).2.byIndex number i = some a := by
  simp only [evictInvalid, update_self]
  rw [if_neg, ha]
  intro hany
  obtain ⟨vote, hvote, hindex⟩ := any_eq_true.mp hany
  obtain ⟨hinvalid, -⟩ := mem_filter.mp hvote
  obtain ⟨hmem, hnot⟩ := mem_filter.mp hinvalid
  have hcast := h.cast hmem
  obtain rfl : vote.1 = i := of_decide_eq_true hindex
  rw [ha] at hcast
  cases hcast
  rw [hvalid rfl] at hnot
  cases hnot

variable (h : Unblocked bls height hash voters p)

include h

theorem Unblocked.evictInvalid (number : Nat) (blockHash : Hash) :
    Unblocked bls height hash voters (p.evictInvalid bls number blockHash).2 ∧
      Keeps height voters p (p.evictInvalid bls number blockHash).2 := by
  by_cases hnumber : number = height
  · subst hnumber
    have hvotes : ∀ {h'}, ((p.evictInvalid bls number blockHash).2.votes number h').Sublist (p.votes number h') := by
      intro h'
      simp only [AttestationPool.evictInvalid, update_self]
      rw [update_apply]
      split_ifs with hhash
      · exact hhash ▸ filter_sublist
      · rfl
    have hstays : ∀ {i a}, i ∈ voters → p.byIndex number i = some a →
        (p.evictInvalid bls number blockHash).2.byIndex number i = some a := by
      intro i a hi ha
      refine byIndex_evictInvalid h.toRecorded ha fun hhash => ?_
      obtain ⟨hvote, hvalid⟩ := h.genuine hi ha
      have hcast : a.blockHash = hash := congrArg Attestation.blockHash (Option.some.inj (ha.symm.trans (h.cast hvote)))
      rw [← hhash, hcast]
      exact hvalid
    refine ⟨⟨⟨?_, ?_, ?_⟩, ?_, ?_⟩, rfl, rfl, hstays⟩
    · exact fun h' => (h.nodup h').sublist (hvotes.map _)
    · intro h' vote hvote
      refine byIndex_evictInvalid h.toRecorded (h.cast (hvotes.subset hvote)) ?_
      rintro rfl
      simp only [AttestationPool.evictInvalid, update_self] at hvote
      exact (mem_filter.mp hvote).2
    · exact fun hvote => h.key (hvotes.subset hvote)
    · exact fun hvote => h.decodes (hvotes.subset hvote)
    · intro i a hi ha
      obtain ⟨hvote, hvalid⟩ := h.genuine hi (byIndex_of_evictInvalid ha)
      refine ⟨?_, hvalid⟩
      simp only [AttestationPool.evictInvalid, update_self]
      rw [update_apply]
      split_ifs with hhash
      · exact mem_filter.mpr ⟨hhash ▸ hvote, hhash ▸ hvalid⟩
      · exact hvote
  · exact h.congr rfl rfl (update_of_ne (Ne.symm hnumber) _ _) (update_of_ne (Ne.symm hnumber) _ _)

theorem Unblocked.apply {call : Call} (hcond : Unhindered bls height hash voters p call) :
    Unblocked bls height hash voters (call.apply bls p) ∧ Keeps height voters p (call.apply bls p) := by
  cases call with
  | add a =>
    rw [Call.apply]
    obtain hadd | ⟨key, hkey, -, hnone, hadd⟩ | ⟨_, _, _, -, -, -, hadd⟩ := add_cases bls p a
    · rw [hadd]
      exact ⟨h, .refl⟩
    · rw [hadd]
      exact h.record hkey hnone hcond
    · rw [hadd]
      exact h.congr rfl rfl rfl rfl
  | certificate number blockHash =>
    refine certificate_rule (P := fun q => Unblocked bls height hash voters q ∧ Keeps height voters p q) ?_ ⟨h, .refl⟩
    rintro q ⟨hq, hkeeps⟩
    obtain ⟨hnext, hstep⟩ := hq.evictInvalid number blockHash
    exact ⟨hnext, hkeeps.trans hstep⟩
  | markFinalized number =>
    have hheight : ¬ height < number - retain := by
      have hle : number ≤ height + retain := hcond
      omega
    simp only [Call.apply, markFinalized]
    split
    · exact ⟨h, .refl⟩
    split
    · exact h.congr rfl rfl rfl rfl
    · exact h.congr rfl rfl (by simp only [if_neg hheight]) (by simp only [if_neg hheight])
  | addEvidence proof =>
    simp only [Call.apply, addEvidence]
    split
    · exact ⟨h, .refl⟩
    split
    · exact ⟨h, .refl⟩
    split
    · exact ⟨h, .refl⟩
    · exact h.congr rfl rfl rfl rfl

theorem Unblocked.run {calls : List Call}
    (hcalls : Steps (Call.apply bls) (Unhindered bls height hash voters) p calls) :
    Unblocked bls height hash voters (run (Call.apply bls) p calls) ∧
      Keeps height voters p (run (Call.apply bls) p calls) := by
  refine run_invariant (P := fun q => Unblocked bls height hash voters q ∧ Keeps height voters p q)
    ?_ hcalls ⟨h, .refl⟩
  rintro q call hcall ⟨hq, hkeeps⟩
  obtain ⟨hnext, hstep⟩ := hq.apply hcall
  exact ⟨hnext, hkeeps.trans hstep⟩

theorem Unblocked.card_le
    (hvoted : ∀ i ∈ voters, ∃ a, p.byIndex height i = some a) : voters.card ≤ (p.votes height hash).length := by
  have hsub : voters ⊆ ((p.votes height hash).map Prod.fst).toFinset := by
    intro i hi
    obtain ⟨a, ha⟩ := hvoted i hi
    rw [mem_toFinset, mem_map]
    exact ⟨_, (h.genuine hi ha).1, rfl⟩
  calc voters.card ≤ ((p.votes height hash).map Prod.fst).toFinset.card := Finset.card_le_card hsub
    _ ≤ ((p.votes height hash).map Prod.fst).length := toFinset_card_le _
    _ = (p.votes height hash).length := length_map _

/-- With the votes of a quorum recorded, the loop of `Certificate` ends in a certificate that verifies. -/
theorem Unblocked.certificateLoop (hset : p.keys ≠ [])
    (hbls : bls.Aggregates (.attestation p.chainID height hash) p.keys)
    (hquorum : quorum p.keys.length ≤ voters.card) (hvoted : ∀ i ∈ voters, ∃ a, p.byIndex height i = some a)
    {fuel : Nat} (hfuel : (p.votes height hash).length < fuel) :
    ∃ qc indices, (certificateLoop bls height hash fuel p).1 = some qc ∧
      qc.verify bls p.chainID p.keys = .ok indices := by
  -- A round that does not end the loop evicts a vote, so the number of votes bounds the rounds.
  induction fuel generalizing p with
  | zero => omega
  | succ fuel ih =>
    have henough : quorum p.keys.length ≤ (p.votes height hash).length := hquorum.trans (h.card_le hvoted)
    have hpos : 0 < quorum p.keys.length := by
      rw [quorum, if_neg (List.length_pos_iff.mpr hset).ne']
      exact Nat.succ_pos _
    have hlt : ∀ vote ∈ p.votes height hash, vote.1 < p.keys.length := by
      intro vote hvote
      obtain ⟨key, hkey⟩ := h.key hvote
      exact (List.getElem?_eq_some_iff.mp hkey).1
    obtain ⟨qc, hqc, hlength, hverifies⟩ := AggregateAttestation.newQuorumCert_spec hbls
      (List.ne_nil_of_length_pos (hpos.trans_le henough)) (h.nodup hash) hlt (fun _ hvote => h.decodes hvote)
    simp only [certificateLoop]
    rw [if_neg (not_lt.mpr henough), hqc]
    dsimp only
    cases hsignature : qc.verifySignature bls p.chainID p.keys with
    | ok indices =>
      refine ⟨qc, indices, rfl, ?_⟩
      have hcount := hlength indices hsignature
      rw [AggregateAttestation.verify, hsignature]
      dsimp only
      rw [if_neg (by omega)]
    | error e =>
      have hevicted : (p.evictInvalid bls height hash).1 = true := by
        by_contra hnone
        have hall : ∀ vote ∈ p.votes height hash, p.voteValid bls height hash vote = true := by
          simpa [AttestationPool.evictInvalid] using hnone
        obtain ⟨indices, hok⟩ := hverifies fun vote hvote => voteVerifies_of_voteValid (hall vote hvote)
        rw [hsignature] at hok
        cases hok
      obtain ⟨hnext, hkeeps⟩ := h.evictInvalid height hash
      have hfewer := evictInvalid_length_lt hevicted
      rw [if_pos hevicted]
      refine ih hnext hset hbls hquorum (fun i hi => ?_) (by omega)
      obtain ⟨a, ha⟩ := hvoted i hi
      exact ⟨a, hkeeps.byIndex hi ha⟩

theorem exists_byIndex_of_add {signature : Bytes} (hi : i ∈ voters)
    (htaking : p.Taking height) (hvalid : p.voteValid bls height hash (i, signature) = true)
    (hcond : Unhindered bls height hash voters p (.add ⟨height, hash, i, signature⟩)) :
    ∃ a, ((Call.add ⟨height, hash, i, signature⟩).apply bls p).byIndex height i = some a := by
  cases hbefore : p.byIndex height i with
  | none =>
    obtain ⟨key, -, hkey, -⟩ := voteVerifies_of_voteValid hvalid
    have hrecord : (p.add bls ⟨height, hash, i, signature⟩).2 = p.record ⟨height, hash, i, signature⟩ :=
      add_of_byIndex_eq_none hkey htaking hbefore
    rw [Call.apply, hrecord]
    exact ⟨_, byIndex_record_self (p := p) ⟨height, hash, i, signature⟩⟩
  | some a => exact ⟨a, (h.apply hcond).2.byIndex hi hbefore⟩

end Voters

/-- In a run whose calls all meet the condition, the valid votes of a quorum for one hash, handed over
while the height is open, make a certificate that verifies. -/
theorem certificate_of_quorum (bls : Bls) (p : AttestationPool) (height : Nat) (hash : Hash) (voters : Finset Nat)
    (calls : List Call) (hset : p.keys ≠ []) (hbls : bls.Aggregates (.attestation p.chainID height hash) p.keys)
    (hvotes : ∀ h, p.votes height h = []) (hbyIndex : ∀ i, p.byIndex height i = none)
    (hquorum : quorum p.keys.length ≤ voters.card) (hcast : ∀ i ∈ voters, ∃ before signature after,
      calls = before ++ .add ⟨height, hash, i, signature⟩ :: after ∧
      (run (Call.apply bls) p before).Taking height ∧
      p.voteValid bls height hash (i, signature) = true)
    (hcalls : Steps (Call.apply bls) (Unhindered bls height hash voters) p calls) :
    ∃ qc indices, ((run (Call.apply bls) p calls).certificate bls height hash).1 = some qc ∧
      qc.verify bls p.chainID p.keys = .ok indices := by
  have hstart : Unblocked bls height hash voters p := by
    refine ⟨⟨fun h => ?_, fun {h} _ hvote => ?_, fun {h} _ hvote => ?_⟩, fun hvote => ?_, fun _ ha => ?_⟩
    · rw [hvotes]
      exact nodup_nil
    · exact absurd hvote (by simp [hvotes h])
    · exact absurd hvote (by simp [hvotes h])
    · exact absurd hvote (by simp [hvotes hash])
    · exact absurd ha (by simp [hbyIndex])
  have hvoted : ∀ i ∈ voters, ∃ a, (run (Call.apply bls) p calls).byIndex height i = some a := by
    intro i hi
    obtain ⟨before, signature, after, rfl, htaking, hvalid⟩ := hcast i hi
    obtain ⟨hbefore, hadd, hafter⟩ := steps_append.mp hcalls
    obtain ⟨hopen, hkeeps⟩ := hstart.run hbefore
    rw [← voteValid_congr hkeeps.keys hkeeps.chainID] at hvalid
    obtain ⟨a, ha⟩ := exists_byIndex_of_add hopen hi htaking hvalid hadd
    refine ⟨a, ?_⟩
    rw [run_append, run_cons]
    exact ((hopen.apply hadd).1.run hafter).2.byIndex hi ha
  obtain ⟨hend, hkeeps⟩ := hstart.run hcalls
  rw [← hkeeps.keys] at hset hquorum hbls ⊢
  rw [← hkeeps.chainID] at hbls ⊢
  exact hend.certificateLoop hset hbls hquorum hvoted (Nat.lt_succ_self _)

namespace QuorumExample

def strict : Bls := { Bls.plain with signatureFromBytes := fun b => if b.isEmpty then none else some ⟨b⟩ }

theorem strict_decodes {b : Bytes} {sig : Signature} : strict.signatureFromBytes b = some sig ↔ b ≠ [] ∧ sig = ⟨b⟩ := by
  simp only [strict, List.isEmpty_iff]
  split
  · simp [*]
  · simp [*, eq_comm]

theorem strict_aggregates {msg : SigningMessage} {set : List (Option PublicKey)} : strict.Aggregates msg set where
  bytes_ne_nil h := (strict_decodes.mp h).1
  total h h' := by
    obtain ⟨hne, rfl⟩ := strict_decodes.mp h
    exact ⟨_, rfl, strict_decodes.mpr ⟨by simp [hne], rfl⟩⟩
  single _ h := by
    rw [strict, Bls.plain] at h ⊢
    simpa using h
  sum _ _ _ h h' hsum := by
    obtain rfl := Option.some.inj hsum
    rw [strict, Bls.plain] at h h' ⊢
    simp only [Bool.and_eq_true, beq_iff_eq] at h h' ⊢
    refine ⟨by simp, ?_⟩
    rw [h.2, h', map_append, flatten_append]
    simp

def key (i : Nat) : Bytes := List.replicate 48 (UInt8.ofNat (i + 1))

def pool (validators : Nat) : AttestationPool :=
  new strict 7 ((List.range validators).map fun i => BitVec.ofNat 160 i)
    ((List.range validators).map key)

def vote (i : Nat) : Attestation := ⟨5, 1, i, key i ++ SigningMessage.spell (.attestation 7 5 1)⟩

def honest (voters : Nat) : List Call := (List.range voters).map fun i => .add (vote i)

def forged (i : Nat) (blockHash : Hash) (signature : Bytes) : Call := .add ⟨5, blockHash, i, signature⟩

end QuorumExample

open QuorumExample in
theorem certificate_despite_forged_vote :
    ∃ qc indices, ((run (Call.apply strict) (pool 4) (forged 3 1 [9] :: honest 3)).certificate
        strict 5 1).1 = some qc ∧
      qc.verify strict 7 (pool 4).keys = .ok indices := by
  refine certificate_of_quorum strict (pool 4) 5 1 (Finset.range 3) (forged 3 1 [9] :: honest 3) (by decide)
    strict_aggregates (fun _ => rfl) (fun _ => rfl) (by decide) ?_ ?_
  · intro i hi
    have hlt := Finset.mem_range.mp hi
    interval_cases i
    · exact ⟨[forged 3 1 [9]], (vote 0).signature, [.add (vote 1), .add (vote 2)], rfl, by decide,
        by decide⟩
    · exact ⟨[forged 3 1 [9], .add (vote 0)], (vote 1).signature, [.add (vote 2)], rfl, by decide,
        by decide⟩
    · exact ⟨[forged 3 1 [9], .add (vote 0), .add (vote 1)], (vote 2).signature, [], rfl, by decide,
        by decide⟩
  · refine ⟨fun _ _ => ⟨fun h => absurd h (by decide), fun _ => ⟨⟨[9]⟩, rfl⟩⟩,
      fun _ _ => ⟨fun _ => ⟨rfl, by decide⟩, fun _ => ⟨_, rfl⟩⟩,
      fun _ _ => ⟨fun _ => ⟨rfl, by decide⟩, fun _ => ⟨_, rfl⟩⟩,
      fun _ _ => ⟨fun _ => ⟨rfl, by decide⟩, fun _ => ⟨_, rfl⟩⟩, trivial⟩

open QuorumExample in
/-- One forged vote that comes first is enough. Under an honest position for another hash, it makes the
pool refuse the valid vote as unproven equivocation. Under an honest position for the same hash, it makes
the valid vote a repeat and is evicted afterwards. Under any position with a signature that does not
decode, it stops every certificate for the hash. -/
theorem forged_vote_blocks_quorum :
    (quorum 1 = 1 ∧ (pool 1).voteValid strict 5 1 (0, (vote 0).signature) = true ∧
      ((run (Call.apply strict) (pool 1) (forged 0 2 [9] :: honest 1)).certificate strict 5 1).1 = none ∧
      ((run (Call.apply strict) (pool 1) (forged 0 1 [9] :: honest 1)).certificate strict 5 1).1 = none) ∧
    (quorum 4 = 3 ∧ (∀ i < 3, (pool 4).voteValid strict 5 1 (i, (vote i).signature) = true) ∧
      ((run (Call.apply strict) (pool 4) (forged 3 1 [] :: honest 3)).certificate strict 5 1).1 = none) := by
  decide

end PadiChain.Consensus.AttestationPool

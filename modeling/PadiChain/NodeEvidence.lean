import PadiChain.ConsensusPool
import PadiChain.CoreTransaction
import PadiChain.StakingSlash

/-! From a vote that conflicts with an earlier one to the stake behind it. The pool names the signer by
its position in the active set, and evidence carries that position. The staking call reads the same
number as an index of the registry, which counts every validator ever registered, so the two name the
same validator only as long as no entry below it is inactive. -/

namespace PadiChain

open Core Staking Processor Consensus Transition List

namespace Staking.Registry

/-- Position `i` of the active set is what index `i` of the registry would be: every validator up to it
is active. -/
def ActiveUpTo (r : Registry) (epoch i : Nat) : Prop :=
  ∀ j ≤ i, ∃ v, r.get j = some v ∧ v.isActiveAt epoch = true

variable {keep : Nat → Bool} {n i : Nat}

/-- If the number at a position is the position, nothing before it was dropped. -/
theorem keep_of_getElem?_filter_range (h : ((List.range n).filter keep)[i]? = some i) : ∀ j < i, keep j = true := by
  induction n with
  | zero => cases h
  | succ n ih =>
    rw [List.range_succ, List.filter_append] at h
    by_cases hlt : i < ((List.range n).filter keep).length
    · rw [List.getElem?_append_left hlt] at h
      exact ih h
    · rw [List.getElem?_append_right (not_lt.mp hlt)] at h
      have hmem := List.mem_filter.mp (List.mem_of_getElem? h)
      obtain rfl := List.mem_singleton.mp hmem.1
      have hlast := (List.getElem?_eq_some_iff.mp h).1
      have hone := List.length_filter_le keep [i]
      rw [List.length_singleton] at hone
      have hlength : ((List.range i).filter keep).length = (List.range i).length := by
        refine le_antisymm (List.length_filter_le _ _) ?_
        rw [List.length_range]
        omega
      exact fun j hj => List.length_filter_eq_length_iff.mp hlength j (List.mem_range.mpr hj)

theorem getElem?_filter_range (hi : i < n) (h : ∀ j ≤ i, keep j = true) :
    ((List.range n).filter keep)[i]? = some i := by
  obtain ⟨rest, rfl⟩ := Nat.exists_eq_add_of_lt hi
  have hfirst : (range (i + 1)).filter keep = range (i + 1) :=
    filter_eq_self.mpr fun j hj => h j (Nat.lt_succ_iff.mp (mem_range.mp hj))
  rw [show i + rest + 1 = i + 1 + rest by omega, range_add, filter_append, hfirst,
    getElem?_append_left (by rw [length_range]; exact Nat.lt_succ_self i), getElem?_range]
  exact Nat.lt_succ_self i

/-- The validator at a position of the active set has the position as its index exactly if every entry
up to the position is active. -/
theorem index_eq_iff_activeUpTo {r : Registry} {epoch : Nat} {v : Validator} (h : (r.activeAt epoch)[i]? = some v) :
    r.get v.index = some v ∧ (v.index = i ↔ r.ActiveUpTo epoch i) := by
  let entry (j : Nat) : Validator := { r.records j with index := j }
  let keep (j : Nat) : Bool := (entry j).isActiveAt epoch
  have hlist : r.activeAt epoch = ((range r.count).filter keep).map entry := by
    rw [activeAt, all, filter_map]
    rfl
  have hread : ∀ j < r.count, r.get j = some (entry j) := fun j hj => if_pos hj
  refine ⟨(mem_activeAt.mp (mem_of_getElem? h)).1, ?_⟩
  rw [hlist, getElem?_map, Option.map_eq_some_iff] at h
  obtain ⟨k, hk, rfl⟩ := h
  have hkept := mem_filter.mp (mem_of_getElem? hk)
  constructor
  · intro hindex j hj
    subst hindex
    refine ⟨_, hread j (lt_of_le_of_lt hj (mem_range.mp hkept.1)), ?_⟩
    rcases Nat.lt_or_eq_of_le hj with hlt | rfl
    · exact keep_of_getElem?_filter_range hk j hlt
    · exact hkept.2
  · intro hall
    have hkeep : ∀ j ≤ i, keep j = true := by
      intro j hj
      obtain ⟨w, hw, hactive⟩ := hall j hj
      rw [hread j (get_lt hw)] at hw
      change (entry j).isActiveAt epoch = true
      rw [Option.some.inj hw]
      exact hactive
    obtain ⟨u, hu, -⟩ := hall i le_rfl
    rw [getElem?_filter_range (get_lt hu) hkeep] at hk
    exact (Option.some.inj hk).symm

end Staking.Registry

namespace Consensus.AttestationPool

/-- A vote, or a proof sent by a peer, that makes the pool hold a new proof. -/
def Records (bls : Bls) (p : AttestationPool) (proof : Equivocation) : Prop :=
  (∃ vote, (p.add bls vote).2.evidence = p.evidence ++ [proof]) ∨
    ∃ sent, (p.addEvidence bls sent).evidence = p.evidence ++ [proof]

variable {bls : Bls} {p : AttestationPool}

theorem index_eq_of_detectEquivocation {chainID : Nat} {key : Option PublicKey} {a b : Attestation}
    {proof : Equivocation} (h : detectEquivocation bls chainID key a b = .ok (some proof)) : a.index = b.index := by
  rw [detectEquivocation] at h
  split at h
  · cases h
  · rename_i hsame
    exact not_not.mp (not_or.mp hsame).2

theorem Records.verify {proof : Equivocation} (h : p.Records bls proof) :
    ∃ key, p.keys[proof.index]? = some (some key) ∧ proof.verify bls p.chainID (some key) = .ok () := by
  have hnothing : ¬ p.evidence = p.evidence ++ [proof] := by
    intro heq
    have := congrArg length heq
    rw [length_append, length_singleton] at this
    omega
  rcases h with ⟨vote, h⟩ | ⟨sent, h⟩
  · obtain hadd | ⟨_, _, _, _, hadd⟩ | ⟨key, previous, detected, hkey, _, hdetected, hadd⟩ := add_cases bls p vote
    · rw [hadd] at h
      exact absurd h hnothing
    · rw [hadd] at h
      exact absurd h hnothing
    obtain ⟨hverify, hindex⟩ := Processor.verify_of_detectEquivocation hdetected
    rw [index_eq_of_detectEquivocation hdetected] at hindex
    rw [hadd] at h
    have hproof := singleton_inj.mp (append_cancel_left h)
    rw [← hproof]
    exact ⟨key, hindex ▸ hkey, hverify⟩
  · simp only [addEvidence] at h
    split at h
    · exact absurd h hnothing
    rename_i key hkey
    split at h
    · exact absurd h hnothing
    rename_i hverify
    split at h
    · exact absurd h hnothing
    · have hproof := singleton_inj.mp (append_cancel_left h)
      refine ⟨key, ?_, ?_⟩
      · rw [← hproof]
        exact Option.join_eq_some_iff.mp hkey
      · rw [← hproof]
        exact hverify

theorem activeAt_of_setValidators {r : Registry} {epoch i : Nat} {key : PublicKey}
    (h : (p.setValidators bls (r.activeAddressesAt epoch) (r.activeBLSKeysAt epoch)).keys[i]? = some (some key)) :
    ∃ v, (r.activeAt epoch)[i]? = some v ∧ bls.publicKeyFromBytes v.blsPublicKey = some key := by
  simp only [setValidators, Registry.activeBLSKeysAt, getElem?_map, Option.map_eq_some_iff] at h
  obtain ⟨raw, ⟨v, hv, rfl⟩, hkey⟩ := h
  split at hkey
  · cases hkey
  · exact ⟨v, hv, hkey⟩

end Consensus.AttestationPool

/-- `MessageFromTx` for a typed transaction whose signature recovers to the sender. -/
def Core.DynamicFeeTx.message (tx : DynamicFeeTx) (sender : Address) (baseFee : Nat) : Message where
  sender := sender
  toAddress := tx.toAddress
  nonce := tx.nonce
  value := tx.value
  gasLimit := tx.gas
  gasPrice := min (tx.gasFeeCap - baseFee) tx.gasTipCap + baseFee
  gasFeeCap := tx.gasFeeCap
  gasTipCap := tx.gasTipCap
  data := tx.data
  accessList := tx.accessList

namespace Node

/-- `reportEquivocation`, up to the signature: the slashing transaction a node makes of a proof, on the
state of its head and with its next nonce. -/
def reportEquivocation (cfg : ChainConfig) (encode : Equivocation → Bytes) (validator : Option Address)
    (s : StateDB) (nonce baseFee : Nat) (proof : Equivocation) : Option DynamicFeeTx :=
  match validator with
  | none => none
  | some reporter =>
    match s.registry.get proof.index with
    | none => none
    | some accused =>
      match cfg.bls.publicKeyFromBytes accused.blsPublicKey with
      | none => none
      | some key =>
        match proof.verify cfg.bls cfg.chainID (some key) with
        | .error _ => none
        | .ok () =>
          -- reporting must not be what puts the node out of funds
          if s.balance reporter = 0 then none
          else
            some
              { chainID := cfg.chainID
                nonce := nonce
                gasTipCap := 1000000000
                gasFeeCap := baseFee * 2 + 1000000000
                gas := gasSlash + 100000
                toAddress := some stakingAddress
                value := 0
                data := opSlash :: encode proof
                accessList := []
                v := 0, r := 0, s := 0 }

end Node

namespace Processor

def SlashesOnly (cfg : ChainConfig) (s : StateDB) (msg : Message) (epoch : Nat) (v : Validator) : Prop :=
  ∃ gas s', applyStakingCall cfg msg epoch s = .ok (gas, s') ∧
    (∃ v', s'.registry.get v.index = some v' ∧ v'.status = .slashed) ∧
    ∀ i ≠ v.index, s'.registry.get i = s.registry.get i

/-- A report of evidence that names index `i` slashes a validator and nobody else exactly if `i` is that
validator's index, and it has neither been slashed nor left. -/
theorem slashesOnly_iff {cfg : ChainConfig} {s : StateDB} (msg : Message) {encoded : Bytes}
    {proof : Equivocation} {v u : Validator} {key : PublicKey} (hconsistent : s.registry.Consistent)
    (hdata : msg.data = opSlash :: encoded) (hencoded : encoded ≠ [])
    (hdecode : cfg.decodeEquivocation encoded = some proof) (hu : s.registry.get v.index = some u)
    (hkey : cfg.bls.publicKeyFromBytes u.blsPublicKey = some key)
    (hverify : proof.verify cfg.bls cfg.chainID (some key) = .ok ()) (epoch : Nat) :
    SlashesOnly cfg s msg epoch v ↔
      v.index = proof.index ∧ u.status ≠ .slashed ∧ u.status ≠ .exited ∧ u.status ≠ .withdrawn := by
  have hindex : u.index = v.index := Registry.get_index hu
  constructor
  · rintro ⟨gas, s', hcall, -, hframe⟩
    rw [applyStakingCall_slash hdata hencoded hdecode] at hcall
    obtain ⟨accused, v', penalty, haccused, hslash⟩ := applySlash_ok hcall
    have haddress := hconsistent.byAddress haccused
    have hstatus := slash_status hslash haddress
    have hself : s.registry.get accused.index = some accused := by
      rw [Registry.get_index haccused]
      exact haccused
    -- the accused is marked slashed, which it was not before
    have hsame : accused.index = v.index := by
      by_contra hne
      rw [slash_eq_ok haddress hstatus.1 hstatus.2.1 hstatus.2.2] at hslash
      cases hslash
      have hkept := hframe accused.index hne
      rw [StateDB.subBalance_registry, StateDB.setRegistry_registry, slash_get hself, hself] at hkept
      exact hstatus.1 (congrArg Validator.status (Option.some.inj hkept)).symm
    rw [hsame, hu] at hself
    cases hself
    exact ⟨hsame ▸ Registry.get_index haccused, hstatus⟩
  · rintro ⟨hnamed, hslashed, hexited, hwithdrawn⟩
    have hself : s.registry.get u.index = some u := by
      rw [hindex]
      exact hu
    have hcall := applyStakingCall_of_evidence hdata hencoded hdecode (hnamed ▸ hu) hkey hverify epoch
    rw [slash_eq_ok (hconsistent.byAddress hu) hslashed hexited hwithdrawn] at hcall
    refine ⟨_, _, hcall, ⟨(slashedRecord u epoch).packed, ?_, rfl⟩, fun i hi => ?_⟩
    · rw [StateDB.subBalance_registry, StateDB.setRegistry_registry, ← hindex]
      exact slash_get hself
    · rw [StateDB.subBalance_registry, StateDB.setRegistry_registry]
      exact Registry.get_put_of_ne (r := s.registry) (slashedRecord u epoch) (by rw [← hindex] at hi; exact hi)

end Processor

namespace Node

theorem reportEquivocation_data {cfg : ChainConfig} {encode : Equivocation → Bytes} {validator : Option Address}
    {s : StateDB} {nonce baseFee : Nat} {proof : Equivocation} {tx : DynamicFeeTx}
    (h : reportEquivocation cfg encode validator s nonce baseFee proof = some tx) :
    tx.data = opSlash :: encode proof := by
  simp only [reportEquivocation] at h
  iterate 5
    split at h
    · cases h
  rw [← Option.some.inj h]

theorem reportEquivocation_isSome {cfg : ChainConfig} (encode : Equivocation → Bytes) {reporter : Address}
    {s : StateDB} (nonce baseFee : Nat) {proof : Equivocation} {u : Validator} {key : PublicKey}
    (hu : s.registry.get proof.index = some u) (hkey : cfg.bls.publicKeyFromBytes u.blsPublicKey = some key)
    (hverify : proof.verify cfg.bls cfg.chainID (some key) = .ok ()) (hfunded : s.balance reporter ≠ 0) :
    ∃ tx, reportEquivocation cfg encode (some reporter) s nonce baseFee proof = some tx := by
  simp only [reportEquivocation, hu, hkey, hverify, if_neg hfunded]
  exact ⟨_, rfl⟩

/-- Take any registry history up to the set a pool collects votes under, and from there to the state a
node reports on and on to the state the report runs in. Of every equivocation the pool records against a
position of that set, the slashing transaction is built, accepted, and slashes the validator that cast
the votes and nobody else, exactly if every registry entry up to the position was active in the set's
epoch, and the validator has neither been slashed nor left by then. -/
theorem evidence_reaches_signer_iff (cfg : ChainConfig) (encode : Equivocation → Bytes) (s : StateDB)
    (hs : s.registry.Consistent) (epoch : Nat) (p : AttestationPool) (hchain : p.chainID = cfg.chainID)
    (proof : Equivocation) (hrecorded : (p.setValidators cfg.bls (s.registry.activeAddressesAt epoch)
      (s.registry.activeBLSKeysAt epoch)).Records cfg.bls proof)
    (v : Validator) (hv : (s.registry.activeAt epoch)[proof.index]? = some v) (before after : List Op)
    (reporter : Address) (hfunded : (run (step cfg.bls) s before).balance reporter ≠ 0)
    (hencode : encode proof ≠ []) (hdecode : cfg.decodeEquivocation (encode proof) = some proof)
    (nonce baseFee fee callEpoch : Nat) (u : Validator)
    (hu : (run (step cfg.bls) s (before ++ after)).registry.get v.index = some u) :
    (∃ tx, reportEquivocation cfg encode (some reporter) (run (step cfg.bls) s before) nonce
          baseFee proof = some tx ∧
        SlashesOnly cfg (run (step cfg.bls) s (before ++ after)) (tx.message reporter fee)
          callEpoch v) ↔
      s.registry.ActiveUpTo epoch proof.index ∧
        u.status ≠ .slashed ∧ u.status ≠ .exited ∧ u.status ≠ .withdrawn := by
  obtain ⟨key, hposition, hverify⟩ := hrecorded.verify
  obtain ⟨v', hv', hkey⟩ := AttestationPool.activeAt_of_setValidators hposition
  obtain rfl : v = v' := Option.some.inj (hv.symm.trans hv')
  obtain ⟨hget, hactive⟩ := Registry.index_eq_iff_activeUpTo hv
  replace hverify : proof.verify cfg.bls cfg.chainID (some key) = .ok () := hchain ▸ hverify
  have hregistered : v.blsPublicKey ≠ [] := by
    intro hnil
    have hlength := cfg.bls.length_of_publicKeyFromBytes hkey
    rw [hnil] at hlength
    cases hlength
  -- the key stays in the record along both parts of the history
  obtain ⟨u₁, hu₁, hfollows₁⟩ := (run_extends cfg.bls s before).records _ _ hget
  obtain ⟨u₂, hu₂, hfollows⟩ := (run_extends cfg.bls s (before ++ after)).records _ _ hget
  obtain rfl : u = u₂ := Option.some.inj (hu.symm.trans hu₂)
  have hkey₁ : cfg.bls.publicKeyFromBytes u₁.blsPublicKey = some key := by
    rw [hfollows₁.key hregistered]
    exact hkey
  have hkey₂ : cfg.bls.publicKeyFromBytes u.blsPublicKey = some key := by
    rw [hfollows.key hregistered]
    exact hkey
  have hconsistent := (run_extends cfg.bls s (before ++ after)).consistent hs
  have hiff : ∀ {tx : DynamicFeeTx}, tx.data = opSlash :: encode proof → _ := fun {tx} hdata =>
    slashesOnly_iff (tx.message reporter fee) hconsistent hdata hencode hdecode hu hkey₂ hverify callEpoch
  rw [← hactive]
  constructor
  · rintro ⟨tx, htx, hslashes⟩
    exact (hiff (reportEquivocation_data htx)).mp hslashes
  · rintro ⟨hindex, hstatus⟩
    rw [hindex] at hu₁
    obtain ⟨tx, htx⟩ := reportEquivocation_isSome encode nonce baseFee hu₁ hkey₁ hverify hfunded
    exact ⟨tx, htx, (hiff (reportEquivocation_data htx)).mpr ⟨hindex, hstatus⟩⟩

/-! ### A validator behind one that has left -/

namespace EvidenceExample

def key (b : UInt8) : Bytes := List.replicate 48 b

def addressOf (b : UInt8) : Address := BitVec.ofNat 160 b.toNat

def vote (b : UInt8) (blockHash : Hash) : Attestation :=
  ⟨70, blockHash, 0, key b ++ (SigningMessage.attestation 7 70 blockHash).spell⟩

def proof (b : UInt8) : Equivocation := ⟨addressOf b, 70, 0, some (vote b 1), some (vote b 2)⟩

def cfg (b : UInt8) : ChainConfig := ⟨7, Bls.plain, fun _ => some (proof b)⟩

def encode (_ : Equivocation) : Bytes := [0]

def pool (b : UInt8) : AttestationPool := (AttestationPool.new Bls.plain 7 [] []).record (vote b 1)

def funded : StateDB := StateDB.empty.addBalance 9 1

def joining : List Op :=
  [.depositWithKey 1 5 (key 1) (key 1) (32 * ether), .depositWithKey 2 6 (key 2) (key 2) (32 * ether),
    .processEpoch 1 none 0]

/-- Validators 1 and 2 are active from epoch 2 on. -/
def joined : StateDB := run (step Bls.plain) funded joining

/-- Validator 1 has left; validator 2 moves to position 0 of the active set. -/
def departed : StateDB := run (step Bls.plain) joined [.requestExit 1 2, .processEpoch 3 none 0]

def validator (b : UInt8) (index : Nat) : Validator :=
  ⟨index, addressOf b, addressOf (b + 4), key b, 32 * ether, .active, 2, farFutureEpoch, farFutureEpoch, 0⟩

def serving (b : UInt8) (s : StateDB) (epoch : Nat) : AttestationPool :=
  (pool b).setValidators Bls.plain (s.registry.activeAddressesAt epoch) (s.registry.activeBLSKeysAt epoch)

theorem joined_consistent : joined.registry.Consistent :=
  (run_extends Bls.plain funded joining).consistent Registry.empty_consistent

theorem joined_active : (joined.registry.activeAt 2)[0]? = some (validator 1 0) := by
  decide

theorem joined_get : joined.registry.get 0 = some (validator 1 0) := by
  decide

theorem joined_records : (serving 1 joined 2).Records Bls.plain (proof 1) :=
  Or.inl ⟨vote 1 2, by decide⟩

theorem departed_records : (serving 2 departed 3).Records Bls.plain (proof 2) :=
  Or.inl ⟨vote 2 2, by decide⟩

def report : Message := ⟨9, some stakingAddress, 0, 0, 0, 0, 0, 0, opSlash :: encode (proof 2), []⟩

end EvidenceExample

open EvidenceExample in
/-- The first validator of the registry is slashed for its votes. -/
theorem evidence_reaches_first_signer :
    ∃ tx, reportEquivocation (EvidenceExample.cfg 1) encode (some 9) joined 0 0 (proof 1) = some tx ∧
      SlashesOnly (EvidenceExample.cfg 1) joined (tx.message 9 0) 2 (EvidenceExample.validator 1 0) :=
  (evidence_reaches_signer_iff (EvidenceExample.cfg 1) encode joined joined_consistent 2 (EvidenceExample.pool 1) rfl
    (proof 1) joined_records (EvidenceExample.validator 1 0) joined_active [] [] 9 (by decide) (by decide) rfl 0 0 0 2
    (EvidenceExample.validator 1 0) joined_get).mpr
    ⟨fun j hj => ⟨EvidenceExample.validator 1 0, by rw [Nat.le_zero.mp hj]; exact joined_get, by decide⟩,
      by decide, by decide, by decide⟩

open EvidenceExample in
/-- Validator 2 signed both votes and is active at position 0 of the set. No report is built from the
recorded proof, and the staking call refuses it: it is checked against validator 1, who has left. -/
theorem evidence_misses_signer :
    (serving 2 departed 3).Records (EvidenceExample.cfg 2).bls (proof 2) ∧
      (departed.registry.activeAt 3)[(proof 2).index]? = some (EvidenceExample.validator 2 1) ∧
      reportEquivocation (EvidenceExample.cfg 2) encode (some 9) departed 0 0 (proof 2) = none ∧
      ¬ SlashesOnly (EvidenceExample.cfg 2) departed report 3 (EvidenceExample.validator 2 1) := by
  refine ⟨departed_records, by decide, by decide, ?_⟩
  rintro ⟨gas, s', hcall, -⟩
  have hrefused : (applyStakingCall (EvidenceExample.cfg 2) report 3 departed).isOk = false := by
    decide
  rw [hcall] at hrefused
  cases hrefused

end Node

end PadiChain

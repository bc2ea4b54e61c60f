import PadiChain.StakingMachine
import PadiChain.ProcessorTransition

/-! Reporting an equivocation. A validator that signed two conflicting votes keeps its index and its
key along every later run, so the evidence stays verifiable for as long as its record exists. Whether
a report still has an effect depends on the status and the balance the record has by then: `Slash`
refuses a validator that has exited, and its first penalty is a share of the effective balance, which
counts whole ether. -/

namespace PadiChain.Processor

open Core Staking Transition

/-- What it means for a report to hit: the call succeeds, and the record of the accused is marked
slashed with less balance than before. -/
def ReportHits (cfg : ChainConfig) (s : StateDB) (msg : Message) (epoch : Nat) (v : Validator) : Prop :=
  ∃ gas s' v', applyStakingCall cfg msg epoch s = .ok (gas, s') ∧
    s'.registry.get v.index = some v' ∧ v'.status = .slashed ∧ v'.balance < v.balance

/-- Evidence that detection returned verifies against the key it was detected with. -/
theorem verify_of_detectEquivocation {bls : Bls} {chainID : Nat} {key : PublicKey} {a b : Attestation}
    {evidence : Equivocation} (h : detectEquivocation bls chainID (some key) a b = .ok (some evidence)) :
    evidence.verify bls chainID (some key) = .ok () ∧ evidence.index = a.index := by
  have hproof := h
  unfold detectEquivocation at hproof
  iterate 4
    split at hproof
    · cases hproof
  cases hproof
  refine ⟨?_, rfl⟩
  unfold Equivocation.verify
  dsimp only
  rw [h]
  dsimp only
  rw [if_neg (by simp)]

variable {msg : Message} {encoded : Bytes} {s : StateDB} {v : Validator}

theorem slashPenalty_pos : 0 < slashPenalty v ↔ ether ≤ v.balance := by
  unfold slashPenalty Validator.effectiveBalance
  rw [lt_min_iff]
  constructor
  · rintro ⟨heffective, -⟩
    by_contra hlt
    have hzero : computeEffectiveBalance v.balance = 0 := by
      unfold computeEffectiveBalance
      rw [if_neg (by intro h; exact hlt ((by decide : ether ≤ maxEffectiveBalance).trans h)),
        Nat.div_eq_of_lt (show v.balance < effectiveBalanceIncrement from not_le.mp hlt), Nat.zero_mul]
    rw [hzero] at heffective
    exact absurd heffective (by decide)
  · intro h
    have hunit : effectiveBalanceIncrement ≤ computeEffectiveBalance v.balance :=
      effectiveBalanceIncrement_le_computeEffectiveBalance.mpr h
    refine ⟨Nat.div_pos ((by decide : slashPenaltyQuotient ≤ effectiveBalanceIncrement).trans hunit)
      (by decide), lt_of_lt_of_le (by decide) h⟩

theorem slash_get {epoch : Nat} (hget : s.registry.get v.index = some v) :
    ((s.registry.put (slashedRecord v epoch)).addSlashedStake epoch
        (slashedRecord v epoch).effectiveBalance).get v.index = some (slashedRecord v epoch).packed :=
  Registry.get_put_self (v := slashedRecord v epoch) (Registry.get_lt hget)

section

variable {cfg : ChainConfig} {evidence : Equivocation} (hdata : msg.data = opSlash :: encoded) (hencoded : encoded ≠ [])
  (hdecode : cfg.decodeEquivocation encoded = some evidence)

include hdata hencoded hdecode

theorem applyStakingCall_slash (epoch : Nat) (s : StateDB) :
    applyStakingCall cfg msg epoch s = applySlash cfg s evidence epoch := by
  unfold applyStakingCall
  rw [hdata]
  dsimp only
  rw [if_neg (by decide), if_neg (by decide), if_neg (by decide), if_pos rfl,
    if_neg (by simpa using hencoded), hdecode]

variable {key : PublicKey} (hget : s.registry.get evidence.index = some v)
  (hkey : cfg.bls.publicKeyFromBytes v.blsPublicKey = some key)
  (hverify : evidence.verify cfg.bls cfg.chainID (some key) = .ok ())

include hget hkey hverify

/-- A report whose evidence verifies against the registered key of the accused is a `Slash` call. -/
theorem applyStakingCall_of_evidence (epoch : Nat) :
    applyStakingCall cfg msg epoch s
      = liftStaking (slash s v.address epoch) fun r => (gasSlash, r.2.2) := by
  rw [applyStakingCall_slash hdata hencoded hdecode]
  unfold applySlash
  rw [hget]
  dsimp only
  rw [hkey]
  dsimp only
  rw [hverify]

/-- A report of a verified offence hits exactly when the accused has not exited and has at least one
ether left. -/
theorem reportHits_iff (hconsistent : s.registry.Consistent) (epoch : Nat)
    (hslashed : v.status ≠ .slashed) (hwithdrawn : v.status ≠ .withdrawn) :
    ReportHits cfg s msg epoch v ↔ v.status ≠ .exited ∧ ether ≤ v.balance := by
  have hindex : v.index = evidence.index := Registry.get_index hget
  have hself : s.registry.get v.index = some v := by rw [hindex]; exact hget
  have haddress := hconsistent.byAddress hself
  have hcall := applyStakingCall_of_evidence hdata hencoded hdecode hget hkey hverify epoch
  have hbound : v.balance < 2 ^ 256 := by
    rw [← (Registry.get_eq_some.mp hself).2]
    exact Registry.records_balance_lt _
  unfold ReportHits
  rw [hcall]
  constructor
  · rintro ⟨gas, s', v', hok, hv', -, hless⟩
    have hexited : v.status ≠ .exited := by
      intro hexited
      rw [slash_of_exited haddress hexited] at hok
      cases hok
    refine ⟨hexited, ?_⟩
    rw [slash_eq_ok haddress hslashed hexited hwithdrawn] at hok
    cases hok
    rw [StateDB.subBalance_registry, StateDB.setRegistry_registry, slash_get hself] at hv'
    cases hv'
    by_contra hpoor
    have hnone : slashPenalty v = 0 := Nat.eq_zero_of_not_pos fun h => hpoor (slashPenalty_pos.mp h)
    have hsame : (slashedRecord v epoch).packed.balance = v.balance := by
      have hbalance : (slashedRecord v epoch).balance = v.balance := by
        unfold slashedRecord
        rw [hnone]
        rfl
      rw [Validator.packed_balance_of_lt (by rw [hbalance]; exact hbound), hbalance]
    exact absurd hless (by rw [hsame]; exact lt_irrefl _)
  · rintro ⟨hexited, hrich⟩
    rw [slash_eq_ok haddress hslashed hexited hwithdrawn]
    refine ⟨gasSlash, _, (slashedRecord v epoch).packed, rfl, ?_, rfl, ?_⟩
    · rw [StateDB.subBalance_registry, StateDB.setRegistry_registry, slash_get hself]
    · have hpenalty := slashPenalty_pos.mpr hrich
      have hless : (slashedRecord v epoch).balance < v.balance :=
        Nat.sub_lt (lt_of_lt_of_le (by decide) hrich) hpenalty
      rw [Validator.packed_balance_of_lt (hless.trans hbound)]
      exact hless

end

/-- Take any offence: two votes that detection catches, signed with the key validator `v₀` had in
some state. In every state a run of staking calls reaches from there, as long as the validator is
neither slashed nor withdrawn, the report hits exactly when the validator has not exited and still
has one ether. -/
theorem offence_reportHits_iff (cfg : ChainConfig) (s₀ : StateDB) (hs₀ : s₀.registry.Consistent)
    (v₀ : Validator) (hv₀ : s₀.registry.get v₀.index = some v₀) (key : PublicKey)
    (hkey : cfg.bls.publicKeyFromBytes v₀.blsPublicKey = some key) (a b : Attestation)
    (hindex : a.index = v₀.index) (evidence : Equivocation)
    (hoffence : detectEquivocation cfg.bls cfg.chainID (some key) a b = .ok (some evidence))
    (ops : List Op) (v : Validator) (hv : (run (step cfg.bls) s₀ ops).registry.get v₀.index = some v)
    (hslashed : v.status ≠ .slashed) (hwithdrawn : v.status ≠ .withdrawn)
    (msg : Message) (encoded : Bytes) (hdata : msg.data = opSlash :: encoded) (hencoded : encoded ≠ [])
    (hdecode : cfg.decodeEquivocation encoded = some evidence) (epoch : Nat) :
    ReportHits cfg (run (step cfg.bls) s₀ ops) msg epoch v ↔
      v.status ≠ .exited ∧ ether ≤ v.balance := by
  obtain ⟨hverify, hnamed⟩ := verify_of_detectEquivocation hoffence
  have hextends := run_extends cfg.bls s₀ ops
  have hregistered : v₀.blsPublicKey ≠ [] := by
    intro h
    have hlength := cfg.bls.length_of_publicKeyFromBytes hkey
    rw [h] at hlength
    cases hlength
  obtain ⟨v', hv', hfollows⟩ := hextends.records v₀.index v₀ hv₀
  have hsame : v' = v := by
    rw [hv] at hv'
    exact (Option.some.inj hv').symm
  subst hsame
  exact reportHits_iff hdata hencoded hdecode (by rw [hnamed, hindex]; exact hv)
    (by rw [hfollows.key hregistered]; exact hkey) hverify (hextends.consistent hs₀) epoch hslashed hwithdrawn

/-! ### A validator that leaves before it is reported -/

namespace SlashExample

def key : Bytes := List.replicate 48 1

def vote (blockHash : Hash) : Attestation :=
  ⟨70, blockHash, 0, key ++ (SigningMessage.attestation 7 70 blockHash).spell⟩

def evidence : Equivocation := ⟨0, 70, 0, some (vote 1), some (vote 2)⟩

def cfg : ChainConfig := ⟨7, Bls.plain, fun _ => some evidence⟩

def report : Message := ⟨9, some stakingAddress, 0, 0, 0, 0, 0, 0, [opSlash, 0], []⟩

def active : StateDB :=
  run (step Bls.plain) StateDB.empty [.depositWithKey 1 5 key key (32 * ether), .processEpoch 1 none 0]

/-- It asks to leave and the exit is finished; its stake stays locked for another 256 epochs. -/
def departure : List Op := [.requestExit 1 2, .processEpoch 3 none 0]

def validator (status : Status) (activation exit withdrawable : Nat) : Validator :=
  ⟨0, 1, 5, key, 32 * ether, status, activation, exit, withdrawable, 0⟩

theorem active_get : active.registry.get 0
    = some (validator .active 2 farFutureEpoch farFutureEpoch) := by
  decide

theorem departed_get : (run (step Bls.plain) active departure).registry.get 0
    = some (validator .exited 2 3 259) := by
  decide

theorem active_consistent : active.registry.Consistent :=
  (run_extends Bls.plain StateDB.empty _).consistent Registry.empty_consistent

theorem offence : detectEquivocation Bls.plain 7 (some ⟨key⟩) (vote 1) (vote 2) = .ok (some evidence) := by
  decide

end SlashExample

open SlashExample in
/-- While the validator is active the report hits. -/
theorem offence_reportHits_active :
    ReportHits cfg active report 2 (validator .active 2 farFutureEpoch farFutureEpoch) :=
  (offence_reportHits_iff cfg active active_consistent
    (validator .active 2 farFutureEpoch farFutureEpoch) active_get ⟨key⟩ (by decide) (vote 1) (vote 2) rfl
    evidence offence [] (validator .active 2 farFutureEpoch farFutureEpoch) active_get
    (by decide) (by decide) report [0] rfl (by decide) rfl 2).mpr ⟨by decide, by decide⟩

open SlashExample in
/-- The validator equivocated while it was active. Once its exit has finished the same evidence is
refused, with all of its 32 ether still in the registry. -/
theorem offence_reportHits_fails_after_exit :
    (validator .active 2 farFutureEpoch farFutureEpoch).isActiveAt 2 = true ∧
      detectEquivocation cfg.bls cfg.chainID (some ⟨key⟩) (vote 1) (vote 2) = .ok (some evidence) ∧
      (run (step cfg.bls) active departure).registry.get 0 = some (validator .exited 2 3 259) ∧
      ¬ ReportHits cfg (run (step cfg.bls) active departure) report 3
        (validator .exited 2 3 259) := by
  refine ⟨by decide, offence, departed_get, ?_⟩
  have hconsistent := (run_extends Bls.plain active departure).consistent active_consistent
  have hdata : report.data = opSlash :: [0] := rfl
  have hdecode : cfg.decodeEquivocation [0] = some evidence := rfl
  intro h
  exact ((reportHits_iff hdata (by decide) hdecode departed_get (by decide) (verify_of_detectEquivocation offence).1
    hconsistent 3 (by decide) (by decide)).mp h).1 rfl

end PadiChain.Processor

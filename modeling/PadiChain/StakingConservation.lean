import PadiChain.StakingMachine
import PadiChain.ProcessorTransition

/-! The staking account holds exactly what the registry owes: its balance is the sum of the
validators' balances. Every staking operation moves both sides by the same amount as long as the
value of a transaction is one the operation records, no stake is paid out to the staking account
itself, and no balance outgrows its storage slot. -/

namespace PadiChain.Staking

open Validator Registry StateDB List

/-- The balance of the staking account is the sum of all validator balances. -/
def Backed (s : StateDB) : Prop := s.balance stakingAddress = s.registry.totalStaked

instance (s : StateDB) : Decidable (Backed s) := inferInstanceAs (Decidable (_ = _))

variable {r : Registry} {v : Validator} {s : StateDB} {epoch finalizedEpoch : Nat}
  {participation : Option Participation} {acc : StateDB × EpochReport}

theorem Registry.totalStaked_put_of_get (hget : r.get v.index = some v)
    (v' : Validator) (hindex : v'.index = v.index) : (r.put v').totalStaked + v.balance = r.totalStaked + v'.packed.balance := by
  have hlt : v'.index < r.count := by
    rw [hindex]
    exact get_lt hget
  have hmove := totalStaked_put hlt
  rw [hindex] at hmove
  rw [← hmove, ← (get_eq_some.mp hget).2]

theorem get_balance_lt {i : Nat} (h : r.get i = some v) : v.balance < 2 ^ 256 := by
  rw [← (get_eq_some.mp h).2]
  exact Registry.records_balance_lt i

theorem Registry.totalStaked_put_of_balance (hget : r.get v.index = some v) {v' : Validator} (hindex : v'.index = v.index)
    (hbalance : v'.balance = v.balance) : (r.put v').totalStaked = r.totalStaked := by
  have hmove := totalStaked_put_of_get hget v' hindex
  rw [packed_balance_of_lt (hbalance ▸ get_balance_lt hget), hbalance] at hmove
  exact Nat.add_right_cancel hmove

theorem Backed.congr {s' : StateDB} (h : Backed s) (htotal : s'.registry.totalStaked = s.registry.totalStaked)
    (hbalance : s'.balance = s.balance) : Backed s' := by
  rw [Backed, hbalance, htotal]
  exact h

/-! ### The operations -/

section Operations

variable {s s' : StateDB} {validator withdrawal : Address} {v' : Validator}

variable {amount epoch : Nat}

theorem deposit_totalStaked (h : deposit s validator withdrawal amount = .ok (v', s'))
    (hroom : s.registry.totalStaked + amount < 2 ^ 256) :
    s'.registry.totalStaked = s.registry.totalStaked + amount ∧ s'.balance = s.balance := by
  rcases deposit_ok h with ⟨v, hv, rfl, rfl⟩ | ⟨-, -, rfl⟩
  · have hget := (byAddress_eq_some.mp hv).2
    have hbalance : v.balance ≤ s.registry.totalStaked := by
      rw [← (get_eq_some.mp hget).2]
      exact Registry.balance_le_totalStaked (Registry.get_lt hget)
    have hmove := totalStaked_put_of_get hget (v.setBalance (v.balance + amount)) rfl
    have hpacked : (v.setBalance (v.balance + amount)).packed.balance = v.balance + amount :=
      packed_balance_of_lt (show v.balance + amount < 2 ^ 256 by omega)
    exact ⟨by rw [setRegistry_registry]; omega, rfl⟩
  · have hpacked : (newValidator validator withdrawal amount).packed.balance = amount :=
      packed_balance_of_lt (show amount < 2 ^ 256 by omega)
    refine ⟨?_, rfl⟩
    rw [setRegistry_registry, Registry.totalStaked_append, hpacked]

theorem depositWithKey_totalStaked {bls : Bls} {blsKey possession : Bytes}
    (h : depositWithKey bls s validator withdrawal blsKey possession amount = .ok (v', s'))
    (hroom : s.registry.totalStaked + amount < 2 ^ 256) :
    s'.registry.totalStaked = s.registry.totalStaked + amount ∧ s'.balance = s.balance := by
  obtain ⟨v, s₁, hdeposit, ⟨rfl, rfl⟩ | ⟨-, rfl, rfl⟩⟩ := depositWithKey_ok h
  · exact deposit_totalStaked hdeposit hroom
  · obtain ⟨htotal, hbalance⟩ := deposit_totalStaked hdeposit hroom
    have hget := (deposit_extends hdeposit).2
    have hmove := totalStaked_put_of_get (v := v.packed) hget
      { v with blsPublicKey := blsKey } rfl
    have hsame : ({ v with blsPublicKey := blsKey } : Validator).packed.balance = v.packed.balance := rfl
    exact ⟨by rw [setRegistry_registry]; omega, hbalance⟩

theorem requestExit_totalStaked (h : requestExit s validator epoch = .ok (v', s')) :
    s'.registry.totalStaked = s.registry.totalStaked ∧ s'.balance = s.balance := by
  obtain ⟨v, hv, ⟨-, rfl, rfl⟩ | ⟨-, rfl, rfl⟩⟩ := requestExit_ok h
  · have hget : (scheduleExit s.registry epoch).2.get v.index = some v := (byAddress_eq_some.mp hv).2
    exact ⟨totalStaked_put_of_balance hget rfl rfl, rfl⟩
  · exact ⟨totalStaked_put_of_balance (byAddress_eq_some.mp hv).2 rfl rfl, rfl⟩

theorem slash_backed {penalty : Nat} (h : slash s validator epoch = .ok (v', penalty, s'))
    (hs : Backed s) : Backed s' := by
  obtain ⟨v, hv, rfl, rfl, rfl⟩ := slash_ok h
  have hget := (byAddress_eq_some.mp hv).2
  have hmove := totalStaked_put_of_get hget (slashedRecord v epoch) rfl
  have hle : slashPenalty v ≤ v.balance := min_le_right _ _
  have hless : (slashedRecord v epoch).balance = v.balance - slashPenalty v := rfl
  have hpacked : (slashedRecord v epoch).packed.balance = v.balance - slashPenalty v := by
    rw [packed_balance_of_lt (by rw [hless]; exact (Nat.sub_le _ _).trans_lt (get_balance_lt hget)),
      hless]
  have htotal : ((s.registry.put (slashedRecord v epoch)).addSlashedStake epoch
      (slashedRecord v epoch).effectiveBalance).totalStaked
      = (s.registry.put (slashedRecord v epoch)).totalStaked := rfl
  unfold Backed at hs ⊢
  rw [subBalance_balance_self, subBalance_registry, setRegistry_registry,
    setRegistry_balance, htotal, hs]
  omega

theorem withdraw_backed (h : withdraw s validator epoch = .ok (amount, s'))
    (haway : ∀ v, s.registry.byAddress validator = some v → v.withdrawalAddress ≠ stakingAddress)
    (hs : Backed s) : Backed s' := by
  obtain ⟨v, hv, -, -, rfl, rfl⟩ := withdraw_ok h
  have hget := (byAddress_eq_some.mp hv).2
  have hmove := totalStaked_put_of_get hget ((v.setBalance 0).setStatus .withdrawn) rfl
  have hpacked : ((v.setBalance 0).setStatus .withdrawn).packed.balance = 0 := rfl
  unfold Backed at hs ⊢
  rw [StateDB.addBalance_balance_of_ne _ _ (haway v hv).symm, subBalance_balance_self,
    StateDB.addBalance_registry, subBalance_registry, setRegistry_registry,
    setRegistry_balance, hs]
  omega

end Operations

/-! ### The epoch transition -/

theorem finishExits_totalStaked (epoch : Nat) {acc : Registry × EpochReport} :
    (finishExits epoch acc).1.totalStaked = acc.1.totalStaked := by
  rw [finishExits_registry]
  have hmove := totalStaked_updateWhere (r := acc.1) (c := exitDue epoch)
    (f := (·.setStatus .exited)) (by intro v; rfl)
  have hsame : ((acc.1.all.filter (exitDue epoch)).map fun v => (v.setStatus .exited).packed.balance)
      = (acc.1.all.filter (exitDue epoch)).map (·.balance) := by
    refine map_congr_left fun v hv => ?_
    have hlt : v.balance < 2 ^ 256 := get_balance_lt (mem_all.mp (mem_filter.mp hv).1)
    exact packed_balance_of_lt (show (v.setStatus .exited).balance < 2 ^ 256 from hlt)
  rw [hsame] at hmove
  exact Nat.add_right_cancel hmove

theorem finishExits_report (epoch : Nat) (acc : Registry × EpochReport) :
    (finishExits epoch acc).2.issued = acc.2.issued ∧ (finishExits epoch acc).2.burned = acc.2.burned := by
  refine foldlRecOn (motive := fun res : Registry × EpochReport =>
    res.2.issued = acc.2.issued ∧ res.2.burned = acc.2.burned) _ (finishExit epoch) ⟨rfl, rfl⟩ ?_
  intro res hres v _
  unfold finishExit
  split
  · exact hres
  · exact hres

theorem settle_report (totalStake delay : Nat) (p : Participation) (vs : List Validator)
    (acc : Registry × EpochReport) :
    (vs.foldl (settle totalStake delay p) acc).2.issued + acc.2.burned + (vs.map (·.balance)).sum
      = acc.2.issued + (vs.foldl (settle totalStake delay p) acc).2.burned
        + (vs.map (settledBalance totalStake delay p)).sum := by
  induction vs generalizing acc with
  | nil => rfl
  | cons v vs ih =>
    have hrest := ih (settle totalStake delay p acc v)
    have hone : (settle totalStake delay p acc v).2.issued + acc.2.burned + v.balance
        = acc.2.issued + (settle totalStake delay p acc v).2.burned + settledBalance totalStake delay p v := by
      have hle : absencePenalty totalStake delay v ≤ v.balance := min_le_right _ _
      unfold settle settledBalance
      split
      · dsimp only
        omega
      · dsimp only
        omega
    rw [foldl_cons, map_cons, map_cons, sum_cons, sum_cons]
    omega

theorem settleAll_report (totalStake delay : Nat) (participation : Option Participation)
    (vs : List Validator) (acc : Registry × EpochReport) :
    (settleAll totalStake delay participation vs acc).2.issued + acc.2.burned + (vs.map (·.balance)).sum
      = acc.2.issued + (settleAll totalStake delay participation vs acc).2.burned
        + (vs.map (epochBalance totalStake delay participation)).sum := by
  by_cases hzero : totalStake = 0
  · obtain ⟨hsame, hbalance⟩ := settleAll_of_zero hzero delay participation vs acc
    rw [hsame, hbalance]
  cases participation with
  | none => rfl
  | some p =>
    obtain ⟨hfold, hbalance⟩ := settleAll_of_pos hzero delay p vs acc
    rw [hfold, hbalance]
    exact settle_report totalStake delay p vs acc

theorem settleAll_totalStaked (totalStake delay epoch : Nat) (participation : Option Participation)
    (acc : Registry × EpochReport)
    (hroom : ∀ v ∈ acc.1.activeAt epoch, epochBalance totalStake delay participation v < 2 ^ 256) :
    (settleAll totalStake delay participation (acc.1.activeAt epoch) acc).1.totalStaked
        + ((acc.1.activeAt epoch).map (·.balance)).sum
      = acc.1.totalStaked
        + ((acc.1.activeAt epoch).map (epochBalance totalStake delay participation)).sum := by
  rcases settleAll_registry totalStake delay epoch participation acc with ⟨hsame, hbalance⟩ | hwrite
  · rw [hsame, map_congr_left fun v _ => hbalance v]
  · have hpacked : ((acc.1.activeAt epoch).map fun v =>
        (v.setBalance (epochBalance totalStake delay participation v)).packed.balance)
        = (acc.1.activeAt epoch).map (epochBalance totalStake delay participation) :=
      map_congr_left fun v hv => packed_balance_of_lt (hroom v hv)
    rw [hwrite, ← hpacked]
    exact totalStaked_updateWhere (by intro v; rfl)

theorem payStakingAccount_balance (s : StateDB) (report : EpochReport) :
    (payStakingAccount s report).balance stakingAddress
      = s.balance stakingAddress + report.issued - report.burned := by
  unfold payStakingAccount
  dsimp only
  split_ifs
  · rw [subBalance_balance_self, StateDB.addBalance_balance_self]
  · rw [subBalance_balance_self]
    omega
  · rw [StateDB.addBalance_balance_self]
    omega
  · omega

theorem correlate_balance (epoch correlated totalStake : Nat) (vs : List Validator) (acc : StateDB × EpochReport) :
    (vs.foldl (correlate epoch correlated totalStake) acc).1.balance stakingAddress
      = acc.1.balance stakingAddress - (((vs.filter (correlationDue epoch correlated totalStake)).map
          (correlationPenalty correlated totalStake)).sum : Nat) := by
  induction vs generalizing acc with
  | nil => simp
  | cons v vs ih =>
    rw [foldl_cons, ih]
    by_cases hdue : correlationDue epoch correlated totalStake v = true
    · rw [correlate_of_due hdue, filter_cons_of_pos hdue, map_cons, sum_cons]
      rw [subBalance_balance_self, setRegistry_balance]
      omega
    · rw [correlate_of_not_due hdue, filter_cons_of_neg hdue]

theorem applyCorrelationPenalties_backed (epoch : Nat) (acc : StateDB × EpochReport) (h : Backed acc.1) :
    Backed (applyCorrelationPenalties epoch acc).1 := by
  unfold applyCorrelationPenalties
  by_cases hzero : acc.1.registry.totalActiveStake epoch = 0
  · rw [if_pos hzero]
    exact h
  rw [if_neg hzero]
  set totalStake := acc.1.registry.totalActiveStake epoch
  set correlated := min (acc.1.registry.correlatedSlashedStake epoch) totalStake
  set due := acc.1.registry.all.filter (correlationDue epoch correlated totalStake) with hdue
  have hregistry := Registry.foldl_eq_updateWhere (fun acc : StateDB × EpochReport => acc.1.registry) _
    (correlate_registry epoch correlated totalStake) acc
  have hmove := totalStaked_updateWhere (r := acc.1.registry)
    (c := correlationDue epoch correlated totalStake)
    (f := fun v => v.setBalance (v.balance - correlationPenalty correlated totalStake v)) (by intro v; rfl)
  have hsum : (due.map fun v => (v.setBalance
        (v.balance - correlationPenalty correlated totalStake v)).packed.balance).sum
      + (due.map (correlationPenalty correlated totalStake)).sum = (due.map (·.balance)).sum := by
    rw [← sum_map_add]
    refine congrArg sum (map_congr_left fun v hv => ?_)
    have hlt : v.balance < 2 ^ 256 := get_balance_lt (mem_all.mp (mem_filter.mp hv).1)
    have hle : correlationPenalty correlated totalStake v ≤ v.balance := min_le_right _ _
    have hpacked : (v.setBalance (v.balance - correlationPenalty correlated totalStake v)).packed.balance
        = v.balance - correlationPenalty correlated totalStake v :=
      packed_balance_of_lt ((Nat.sub_le _ _).trans_lt hlt)
    rw [hpacked, Nat.sub_add_cancel hle]
  unfold Backed at h ⊢
  rw [correlate_balance, h]
  rw [hregistry, ← hdue]
  rw [← hdue] at hmove
  omega

theorem Backed.resetSlashedStake (h : Backed s) (epoch : Nat) :
    Backed (s.setRegistry (s.registry.resetSlashedStake epoch)) := h

/-- No balance of the active set outgrows its slot when its reward is added. -/
def EpochRoom (s : StateDB) (epoch : Nat) (participation : Option Participation)
    (finalizedEpoch : Nat) : Prop :=
  ∀ v ∈ s.registry.activeAt epoch, epochBalance (s.registry.totalActiveStake epoch)
    (finalityDelay epoch finalizedEpoch) participation v < 2 ^ 256

theorem chargeEpoch_backed (hroom : EpochRoom s epoch participation finalizedEpoch) (h : Backed s) :
    Backed (chargeEpoch s epoch participation finalizedEpoch).2.1 := by
  set finished := finishExits epoch (s.registry, newReport epoch finalizedEpoch) with hfinished
  have hset : finished.1.activeAt epoch = s.registry.activeAt epoch := finishExits_activeAt epoch _
  have htotal : finished.1.totalStaked = s.registry.totalStaked := finishExits_totalStaked epoch
  obtain ⟨hissued, hburned⟩ := finishExits_report epoch (s.registry, newReport epoch finalizedEpoch)
  rw [← hfinished] at hissued hburned
  set totalStake := ((finished.1.activeAt epoch).map (·.effectiveBalance)).sum with htotalStake
  set delay := finalityDelay epoch finalizedEpoch
  have hstake : totalStake = s.registry.totalActiveStake epoch := by
    rw [htotalStake, hset]
    rfl
  have hreport := settleAll_report totalStake delay participation (finished.1.activeAt epoch) finished
  have hregistry := settleAll_totalStaked totalStake delay epoch participation finished (by
    intro v hv
    rw [hstake]
    exact hroom v (hset ▸ hv))
  set settled := settleAll totalStake delay participation (finished.1.activeAt epoch) finished
  have hpaid : Backed (payStakingAccount (s.setRegistry settled.1) settled.2) := by
    unfold Backed at h ⊢
    have hnew : (newReport epoch finalizedEpoch).issued = 0 ∧ (newReport epoch finalizedEpoch).burned = 0 :=
      ⟨rfl, rfl⟩
    dsimp only at hissued hburned
    rw [payStakingAccount_balance, payStakingAccount_registry, setRegistry_balance,
      setRegistry_registry, h]
    omega
  have hcharged := applyCorrelationPenalties_backed epoch
    (payStakingAccount (s.setRegistry settled.1) settled.2, settled.2) hpaid
  exact hcharged.resetSlashedStake (epoch + 1)

theorem eject_backed (h : Backed acc.1) (v : Validator) : Backed (eject epoch acc v).1 := by
  refine eject_rule v h fun _ _ _ hexit => ?_
  obtain ⟨htotal, hbalance⟩ := requestExit_totalStaked hexit
  exact h.congr htotal hbalance

theorem activatePending_backed (epoch : Nat) (h : Backed acc.1) : Backed (activatePending epoch acc).1 :=
  activatePending_rule (P := fun acc => Backed acc.1)
    (fun _ _ hv h => h.congr (totalStaked_put_of_balance hv rfl rfl) rfl) h

theorem processEpoch_backed {s' : StateDB} {report : EpochReport}
    (h : processEpoch s epoch participation finalizedEpoch = .ok (report, s'))
    (hroom : EpochRoom s epoch participation finalizedEpoch) (hs : Backed s) : Backed s' := by
  unfold processEpoch at h
  dsimp only at h
  split at h
  · cases h
  · cases h
    have hcharged := chargeEpoch_backed hroom hs
    have hejected : Backed ((chargeEpoch s epoch participation finalizedEpoch).1.foldl (eject epoch)
        (chargeEpoch s epoch participation finalizedEpoch).2).1 :=
      foldlRecOn (motive := fun acc : StateDB × EpochReport => Backed acc.1) _ (eject epoch) hcharged
        fun acc hacc v _ => eject_backed hacc v
    exact activatePending_backed epoch hejected

end PadiChain.Staking

namespace PadiChain.Processor

open Core Staking

/-- A signed transaction to the staking account in the block of a proposer. Nobody holds a key for
the staking account, so it is neither the sender nor the proposer. -/
structure StakingTx where
  ctx : BlockContext
  msg : Message
  gasPool : Nat
  toStaking : msg.toAddress = some stakingAddress
  sender_ne : msg.sender ≠ stakingAddress
  coinbase_ne : ctx.coinbase ≠ stakingAddress

inductive StakingStep where
  | transaction (tx : StakingTx)
  | epoch (epoch : Nat) (participation : Option Participation) (finalizedEpoch : Nat)

/-- One step: a transaction, included or refused, or an epoch transition. An accepted change is
finalised, which deletes an account left empty. -/
def stakingStep (cfg : ChainConfig) (s : StateDB) : StakingStep → StateDB
  | .transaction tx =>
    match applyStakingMessage cfg tx.ctx tx.msg tx.gasPool s with
    | .error _ => s
    | .ok result => result.state.finalise
  | .epoch epoch participation finalizedEpoch =>
    (afterCall s (processEpoch s epoch participation finalizedEpoch) (·.2)).finalise

/-- What each operation needs: a deposit has room for its amount, an exit, a withdrawal and a report
carry no value, and a withdrawal is not paid to the staking account. -/
def OperationRoom (s : StateDB) (msg : Message) : Prop :=
  (msg.data.head? = some opDeposit → s.registry.totalStaked + msg.value < 2 ^ 256) ∧
    (msg.data.head? = some opExit ∨ msg.data.head? = some opWithdraw ∨ msg.data.head? = some opSlash →
      msg.value = 0) ∧
    (msg.data.head? = some opWithdraw → ∀ v, s.registry.byAddress msg.sender = some v →
      v.withdrawalAddress ≠ stakingAddress)

def StepRoom (s : StateDB) : StakingStep → Prop
  | .transaction tx => OperationRoom s tx.msg
  | .epoch epoch participation finalizedEpoch => EpochRoom s epoch participation finalizedEpoch

variable {s s' : StateDB} {msg : Message} {gas epoch : Nat}

theorem applyDeposit_ok {cfg : ChainConfig}
    (h : applyDeposit cfg s msg = .ok (gas, s')) (hroom : s.registry.totalStaked + msg.value < 2 ^ 256) :
    s'.registry.totalStaked = s.registry.totalStaked + msg.value ∧ s'.balance = s.balance := by
  unfold applyDeposit at h
  split at h
  · cases h
  split at h
  · obtain ⟨⟨v, s₁⟩, hdeposit, hresult⟩ := liftStaking_ok h
    cases hresult
    exact depositWithKey_totalStaked hdeposit hroom
  split at h
  · obtain ⟨⟨v, s₁⟩, hdeposit, hresult⟩ := liftStaking_ok h
    cases hresult
    exact deposit_totalStaked hdeposit hroom
  · cases h

theorem applySlash_backed {cfg : ChainConfig} {evidence : Equivocation}
    (h : applySlash cfg s evidence epoch = .ok (gas, s')) (hs : Backed s) : Backed s' := by
  obtain ⟨accused, v', penalty, -, hslash⟩ := applySlash_ok h
  exact slash_backed hslash hs

theorem stakingOperation_backed {cfg : ChainConfig} {used : Nat}
    (h : stakingOperation cfg msg epoch s = .ok (used, s')) (hsender : msg.sender ≠ stakingAddress)
    (hroom : OperationRoom s msg) (hs : Backed s) : Backed s' := by
  obtain ⟨hdeposit, hvalue, haway⟩ := hroom
  unfold stakingOperation at h
  cases hmove : moveValue msg s with
  | none =>
    rw [hmove] at h
    cases h
  | some s₁ =>
    rw [hmove] at h
    dsimp only at h
    obtain ⟨hregistry, hbalance⟩ : s₁.registry = s.registry ∧
        s₁.balance stakingAddress = s.balance stakingAddress + msg.value := by
      unfold moveValue at hmove
      split_ifs at hmove with hzero
      · cases hmove
        simp [hzero]
      · cases hmove
        refine ⟨rfl, ?_⟩
        rw [StateDB.addBalance_balance_self, StateDB.subBalance_balance_of_ne _ _ hsender.symm]
    have hunmoved : msg.value = 0 → Backed s₁ := by
      intro hzero
      unfold Backed at hs ⊢
      rw [hbalance, hregistry, hs, hzero]
      simp
    unfold applyStakingCall at h
    split at h
    · cases h
    rename_i selector arguments hdata
    have hhead : msg.data.head? = some selector := by rw [hdata]; rfl
    split at h
    · rename_i hop
      obtain ⟨htotal, hsame⟩ := applyDeposit_ok h
        (by rw [hregistry]; exact hdeposit (by rw [hhead, hop]))
      unfold Backed at hs ⊢
      rw [hsame, htotal, hbalance, hregistry, hs]
      rfl
    split at h
    · rename_i hop
      obtain ⟨⟨v, s₂⟩, hexit, hresult⟩ := liftStaking_ok h
      cases hresult
      obtain ⟨htotal, hsame⟩ := requestExit_totalStaked hexit
      exact (hunmoved (hvalue (Or.inl (by rw [hhead, hop])))).congr htotal hsame
    split at h
    · rename_i hop
      obtain ⟨⟨amount, s₂⟩, hwithdraw, hresult⟩ := liftStaking_ok h
      cases hresult
      have hop' : msg.data.head? = some opWithdraw := by rw [hhead, hop]
      exact withdraw_backed hwithdraw (by rw [hregistry]; exact haway hop')
        (hunmoved (hvalue (Or.inr (.inl hop'))))
    split at h
    · rename_i hop
      split at h
      · cases h
      split at h
      · cases h
      exact applySlash_backed h (hunmoved (hvalue (Or.inr (.inr (by rw [hhead, hop])))))
    · cases h

/-- Fees move between the sender, the proposer and nobody; neither is the staking account. -/
theorem settleGas_backed {ctx : BlockContext} {refund gasPool : Nat} {failed : Bool}
    {logs : List Log} (hsender : msg.sender ≠ stakingAddress)
    (hcoinbase : ctx.coinbase ≠ stakingAddress) (hs : Backed s) :
    Backed (settleGas ctx msg refund gas gasPool failed logs s).state := by
  unfold settleGas payProposer refundGas Backed at *
  split
  · rw [StateDB.addBalance_balance_of_ne _ _ hsender.symm, StateDB.addBalance_balance_of_ne _ _ hcoinbase.symm,
      StateDB.addBalance_balance_of_ne _ _ hsender.symm]
    exact hs
  · rw [StateDB.addBalance_balance_of_ne _ _ hcoinbase.symm, StateDB.addBalance_balance_of_ne _ _ hsender.symm]
    exact hs

/-- Deleting an empty staking account deletes a registry that owes nothing. -/
theorem finalise_backed (hs : Backed s) : Backed s.finalise := by
  by_cases hzero : s.balance stakingAddress = 0
  · have htotal : s.finalise.registry.totalStaked = 0 := by
      have hs' : s.registry.totalStaked = 0 := by
        unfold Backed at hs
        omega
      show (if s.isEmpty stakingAddress then Registry.empty else s.registry).totalStaked = 0
      split
      · rfl
      · exact hs'
    unfold Backed
    rw [StateDB.finalise_balance, hzero, htotal]
    rfl
  · unfold Backed at hs ⊢
    rw [StateDB.finalise_balance, StateDB.finalise_registry_of_ne hzero]
    exact hs

/-- A staking call keeps the account backed, whether its operation succeeds, is reverted, or runs out
of gas. -/
theorem runStakingCall_backed (cfg : ChainConfig) {ctx : BlockContext} {gasPool : Nat}
    (hsender : msg.sender ≠ stakingAddress) (hcoinbase : ctx.coinbase ≠ stakingAddress)
    (hroom : OperationRoom s msg) (hs : Backed s) : Backed (runStakingCall cfg ctx msg gas gasPool s).state := by
  unfold runStakingCall
  dsimp only
  set snapshot := s.setNonce msg.sender (s.nonce msg.sender + 1)
  have hsnapshot : Backed snapshot := hs
  cases hoperation : stakingOperation cfg msg (epochOf ctx.blockNumber) snapshot with
  | error e => exact settleGas_backed hsender hcoinbase hsnapshot
  | ok result =>
    obtain ⟨used, s'⟩ := result
    dsimp only
    split
    · exact settleGas_backed hsender hcoinbase hsnapshot
    · exact settleGas_backed hsender hcoinbase
        (stakingOperation_backed hoperation hsender hroom hsnapshot)

theorem applyStakingMessage_backed {cfg : ChainConfig} {tx : StakingTx}
    {result : ExecutionResult} (h : applyStakingMessage cfg tx.ctx tx.msg tx.gasPool s = .ok result)
    (hroom : OperationRoom s tx.msg) (hs : Backed s) : Backed result.state := by
  unfold applyStakingMessage at h
  split at h
  · cases h
  rename_i gasPool s₁ hcheck
  split at h
  · cases h
  split at h
  · cases h
  cases h
  have hbought := preCheck_ok hcheck
  subst hbought
  refine runStakingCall_backed cfg tx.sender_ne tx.coinbase_ne hroom ?_
  unfold Backed at hs ⊢
  rw [StateDB.subBalance_balance_of_ne _ _ tx.sender_ne.symm]
  exact hs

theorem stakingStep_backed (cfg : ChainConfig) (s : StateDB) (op : StakingStep) (hroom : StepRoom s op)
    (hs : Backed s) : Backed (stakingStep cfg s op) := by
  cases op with
  | transaction tx =>
    unfold stakingStep
    dsimp only
    split
    · exact hs
    · rename_i result hresult
      exact finalise_backed (applyStakingMessage_backed hresult hroom hs)
  | epoch epoch participation finalizedEpoch =>
    refine finalise_backed ?_
    exact afterCall_cases (P := Backed) hs fun a ha => processEpoch_backed ha hroom hs

/-- From any genesis in which the staking account is backed, it is backed after every run of staking
transactions and epoch transitions whose steps meet the condition. -/
theorem stakingRun_backed (cfg : ChainConfig) (s : StateDB) (hs : Backed s) (steps : List StakingStep)
    (hroom : Transition.Steps (stakingStep cfg) StepRoom s steps) :
    Backed (Transition.run (stakingStep cfg) s steps) :=
  Transition.run_invariant (stakingStep_backed cfg) hroom hs

/-! ### An exit that carries value -/

namespace ConservationExample

def cfg : ChainConfig := ⟨7, Bls.plain, fun _ => none⟩

def genesis : StateDB := StateDB.empty.addBalance 1 (100 * ether : Nat)

def ctx (blockNumber : Nat) : BlockContext := ⟨3, 30000000, blockNumber, 0, gwei, 0⟩

def tx (blockNumber nonce value : Nat) (data : Bytes) : StakingTx where
  ctx := ctx blockNumber
  msg := ⟨1, some stakingAddress, nonce, value, 100000, gwei, gwei, 0, data, []⟩
  gasPool := 30000000
  toStaking := rfl
  sender_ne := by
    show (1 : Address) ≠ stakingAddress
    decide
  coinbase_ne := by
    show (3 : Address) ≠ stakingAddress
    decide

/-- A deposit of the minimum, its activation, and an exit with the given value attached. -/
def steps (value : Nat) : List StakingStep :=
  [.transaction (tx 1 0 (32 * ether) (opDeposit :: List.replicate 20 5)), .epoch 1 none 0,
    .transaction (tx 64 1 value [opExit])]

end ConservationExample

open ConservationExample in
/-- With no value attached to the exit every step meets the condition. -/
theorem stakingRun_backed_exit : Backed (Transition.run (stakingStep cfg) genesis (steps 0)) := by
  refine stakingRun_backed cfg genesis (by decide) (steps 0) ⟨?_, ?_, ?_, trivial⟩
  · refine ⟨fun _ => by decide, ?_, ?_⟩
    · rintro (h | h | h) <;> exact absurd h (by decide)
    · intro h
      exact absurd h (by decide)
  · intro v _
    exact lt_of_eq_of_lt rfl (get_balance_lt (Registry.mem_activeAt.mp ‹_›).1)
  · refine ⟨?_, fun _ => rfl, ?_⟩
    all_goals
      intro h
      exact absurd h (by decide)

open ConservationExample in
/-- One wei attached to an accepted exit is moved into the staking account and credited to nobody. -/
theorem stakingRun_not_backed_exit_with_value :
    Backed genesis ∧ ¬ Backed (Transition.run (stakingStep cfg) genesis (steps 1)) := by
  decide

end PadiChain.Processor

import PadiChain.StakingMachine

/-! The tally behind the correlation penalty. Slashed stake is kept in a ring of `slashingWindow`
slots, and each epoch transition clears the slot the next epoch will use. In the order a chain makes
its calls the slots hold what was recorded in the last `slashingWindow` epochs. The sum the penalties
read runs over one slot more than the ring has, so the slot of the epoch itself is read twice. -/

namespace PadiChain.Staking

open Registry List

structure Offence where
  epoch : Nat
  amount : Nat
  deriving DecidableEq, Repr

def offences (s : StateDB) : Op → List Offence
  | .slash validator epoch =>
    match slash s validator epoch with
    | .error _ => []
    | .ok (v, _, _) => [⟨epoch, v.effectiveBalance⟩]
  | _ => []

def amountIn (epochs : Finset Nat) (log : List Offence) : Nat :=
  ((log.filter (·.epoch ∈ epochs)).map (·.amount)).sum

/-- The `slashingWindow` epochs that end at an epoch, or all of them while there are fewer. -/
def windowOf (epoch : Nat) : Finset Nat := Finset.Ico (epoch + 1 - slashingWindow) (epoch + 1)

/-- Steps 1 and 2 of `ProcessEpoch`: the state whose tally the correlation penalties read. -/
def beforePenalties (s : StateDB) (epoch : Nat) (participation : Option Participation)
    (finalizedEpoch : Nat) : StateDB × EpochReport :=
  let finished := finishExits epoch (s.registry, newReport epoch finalizedEpoch)
  let active := finished.1.activeAt epoch
  let totalStake := (active.map (·.effectiveBalance)).sum
  let settled := settleAll totalStake (finalityDelay epoch finalizedEpoch) participation active finished
  (payStakingAccount (s.setRegistry settled.1) settled.2, settled.2)

/-- Epochs are processed one after the other. A slashing names the epoch processed last, or the next
one when it stands in the block that starts it: transactions run before the transition. -/
def InOrder (s : StateDB) : Op → Prop
  | .slash _ epoch => s.registry.epochState.lastProcessedEpoch ≤ epoch ∧
      epoch ≤ s.registry.epochState.lastProcessedEpoch + 1
  | .processEpoch epoch _ _ => epoch = s.registry.epochState.lastProcessedEpoch + 1
  | _ => True

/-- A slashing finds room in the storage slot of its epoch. -/
def TallyFits (s : StateDB) : Op → Prop
  | .slash _ epoch => s.registry.slashedStakeIn epoch + maxEffectiveBalance < 2 ^ 256
  | _ => True

variable {s s' : StateDB} {epoch : Nat}

/-! ### What is recorded -/

theorem amountIn_append (epochs : Finset Nat) (log log' : List Offence) :
    amountIn epochs (log ++ log') = amountIn epochs log + amountIn epochs log' := by
  unfold amountIn
  rw [filter_append, map_append, sum_append]

theorem amountIn_singleton (epochs : Finset Nat) (o : Offence) :
    amountIn epochs [o] = if o.epoch ∈ epochs then o.amount else 0 := by
  unfold amountIn
  split_ifs with h <;> simp [h]

theorem amountIn_eq_sum (epochs : Finset Nat) (log : List Offence) :
    amountIn epochs log = ∑ k ∈ epochs, amountIn {k} log := by
  induction log with
  | nil => exact (Finset.sum_const_zero).symm
  | cons o log ih =>
    have hcons : ∀ epochs : Finset Nat,
        amountIn epochs (o :: log) = (if o.epoch ∈ epochs then o.amount else 0) + amountIn epochs log :=
      fun epochs => by rw [← amountIn_singleton, ← amountIn_append, singleton_append]
    rw [Finset.sum_congr rfl fun k _ => hcons {k}, Finset.sum_add_distrib, ← ih, hcons]
    simp

theorem amountIn_eq_zero {log : List Offence} (h : ∀ o ∈ log, o.epoch < epoch) : amountIn {epoch} log = 0 := by
  unfold amountIn
  rw [filter_eq_nil_iff.mpr fun o ho => by simpa using (h o ho).ne]
  rfl

/-- The sum the penalties read is the window, with the slot of the epoch itself once more as soon as
the ring has been filled. -/
theorem correlatedSlashedStake_eq (r : Registry) (epoch : Nat) :
    r.correlatedSlashedStake epoch =
      ∑ k ∈ windowOf epoch, r.slashedStakeIn k
        + if slashingWindow ≤ epoch then r.slashedStakeIn epoch else 0 := by
  have hsum : ∀ start n, ((List.range' start n).map r.slashedStakeIn).sum
      = ∑ k ∈ Finset.Ico start (start + n), r.slashedStakeIn k := by
    intro start n
    rw [← toFinset_range'_1, sum_toFinset _ (nodup_range' ..)]
  unfold correlatedSlashedStake windowOf
  dsimp only
  by_cases hfull : slashingWindow ≤ epoch
  · obtain ⟨k, rfl⟩ := Nat.exists_eq_add_of_le' hfull
    have hslot : r.slashedStakeIn k = r.slashedStakeIn (k + slashingWindow) := by
      unfold slashedStakeIn
      rw [Nat.add_mod_right]
    have hstart : (if slashingWindow < k + slashingWindow then k + slashingWindow - slashingWindow else 0) = k := by
      split <;> omega
    rw [hstart, if_pos hfull, show k + slashingWindow + 1 - k = slashingWindow + 1 by omega, range'_succ,
      map_cons, sum_cons, hsum, hslot, Nat.add_comm,
      show k + slashingWindow + 1 - slashingWindow = k + 1 by omega, Nat.add_right_comm k]
  · rw [if_neg (by omega), if_neg hfull, hsum, Nat.sub_zero, Nat.zero_add,
      show epoch + 1 - slashingWindow = 0 by omega]
    rfl

/-- Within a window the slots of different epochs are different. -/
theorem slashedStakeIn_setSlashedStake {r : Registry} {k k' last : Nat} (hk : k ∈ windowOf last)
    (hk' : k' ∈ windowOf last) (amount : Nat) :
    (r.setSlashedStake k' amount).slashedStakeIn k
      = if k = k' then amount % 2 ^ 256 else r.slashedStakeIn k := by
  split_ifs with h
  · rw [h]
    exact Function.update_self ..
  · refine Function.update_of_ne ?_ ..
    simp only [windowOf, Finset.mem_Ico, slashingWindow, withdrawalDelay] at hk hk' ⊢
    omega

/-! ### What a call changes -/

/-- The ring, and the epoch processed last. -/
def tally (r : Registry) : (Nat → Nat) × Nat := (r.slashedStake, r.epochState.lastProcessedEpoch)

theorem deposit_tally {validator withdrawal : Address} {amount : Nat} {v : Validator}
    (h : deposit s validator withdrawal amount = .ok (v, s')) : tally s'.registry = tally s.registry := by
  rcases deposit_ok h with ⟨_, -, -, rfl⟩ | ⟨-, -, rfl⟩ <;> rfl

theorem requestExit_tally {validator : Address} {v : Validator}
    (h : requestExit s validator epoch = .ok (v, s')) : tally s'.registry = tally s.registry := by
  have hsame : ∀ (state : EpochState) limit,
      (state.scheduleExit epoch limit).lastProcessedEpoch = state.lastProcessedEpoch := by
    intro state limit
    unfold EpochState.scheduleExit
    dsimp only
    split_ifs <;> rfl
  obtain ⟨_, -, ⟨-, -, rfl⟩ | ⟨-, -, rfl⟩⟩ := requestExit_ok h
  · exact Prod.ext rfl (hsame _ _)
  · rfl

section

variable (s epoch) (participation : Option Participation) (finalizedEpoch : Nat)

theorem beforePenalties_slashedStake :
    (beforePenalties s epoch participation finalizedEpoch).1.registry.slashedStake
      = s.registry.slashedStake := by
  unfold beforePenalties
  rw [payStakingAccount_registry]
  have hfinish : (finishExits epoch (s.registry, newReport epoch finalizedEpoch)).1.slashedStake
      = s.registry.slashedStake := by
    rw [finishExits_registry, updateWhere_slashedStake]
  rcases settleAll_registry _ (finalityDelay epoch finalizedEpoch) epoch participation
    (finishExits epoch (s.registry, newReport epoch finalizedEpoch)) with ⟨hsame, -⟩ | hwrite
  · exact (congrArg slashedStake hsame).trans hfinish
  · exact ((congrArg slashedStake hwrite).trans updateWhere_slashedStake).trans hfinish

theorem chargeEpoch_slashedStake :
    (chargeEpoch s epoch participation finalizedEpoch).2.1.registry.slashedStake
      = (s.registry.resetSlashedStake (epoch + 1)).slashedStake := by
  have hcharged : (applyCorrelationPenalties epoch
      (beforePenalties s epoch participation finalizedEpoch)).1.registry.slashedStake
        = s.registry.slashedStake := by
    rw [← beforePenalties_slashedStake s epoch participation finalizedEpoch]
    rcases applyCorrelationPenalties_registry epoch (beforePenalties s epoch participation finalizedEpoch)
      with hsame | ⟨_, _, hwrite⟩
    · rw [hsame]
    · rw [hwrite, updateWhere_slashedStake]
  exact congrArg (Function.update · _ _) hcharged

end

theorem eject_slashedStake (epoch : Nat) (acc : StateDB × EpochReport) (v : Validator) :
    (eject epoch acc v).1.registry.slashedStake = acc.1.registry.slashedStake :=
  eject_rule (P := fun s => s.registry.slashedStake = acc.1.registry.slashedStake) v rfl
    fun _ _ _ hexit => congrArg Prod.fst (requestExit_tally hexit)

theorem processEpoch_tally {participation : Option Participation} {finalizedEpoch : Nat}
    {report : EpochReport} (h : processEpoch s epoch participation finalizedEpoch = .ok (report, s')) :
    tally s'.registry = ((s.registry.resetSlashedStake (epoch + 1)).slashedStake, epoch) := by
  unfold processEpoch at h
  dsimp only at h
  split at h
  · cases h
  cases h
  let P : StateDB × EpochReport → Prop := fun acc =>
    acc.1.registry.slashedStake = (s.registry.resetSlashedStake (epoch + 1)).slashedStake
  have heject : P ((chargeEpoch s epoch participation finalizedEpoch).1.foldl (eject epoch) _) :=
    Transition.run_preserves (fun acc v hacc => (eject_slashedStake epoch acc v).trans hacc) _
      (chargeEpoch_slashedStake s epoch participation finalizedEpoch)
  have hactivate : ∀ acc v, P acc → P (activate epoch acc v) := fun _ _ hacc => hacc
  exact Prod.ext (Transition.run_preserves hactivate _ heject) rfl

/-! ### Along a run -/

/-- The ring holds what was recorded in the window that ends with the next epoch to process. -/
structure Tallied (log : List Offence) (s : StateDB) : Prop where
  epochs : ∀ o ∈ log, o.epoch ≤ s.registry.epochState.lastProcessedEpoch + 1
  ring : ∀ k ∈ windowOf (s.registry.epochState.lastProcessedEpoch + 1),
    s.registry.slashedStakeIn k = amountIn {k} log

namespace Tallied

variable {log : List Offence}

theorem congr (h : Tallied log s) (htally : tally s'.registry = tally s.registry) : Tallied log s' := by
  have hring : s'.registry.slashedStake = s.registry.slashedStake := congrArg Prod.fst htally
  have hlast : s'.registry.epochState.lastProcessedEpoch = s.registry.epochState.lastProcessedEpoch :=
    congrArg Prod.snd htally
  constructor
  · rw [hlast]
    exact h.epochs
  · rw [hlast]
    intro k hk
    rw [slashedStakeIn, hring]
    exact h.ring k hk

theorem slash (h : Tallied log s) {validator : Address} {v : Validator} {penalty : Nat}
    (hslash : slash s validator epoch = .ok (v, penalty, s'))
    (horder : InOrder s (.slash validator epoch)) (hfits : TallyFits s (.slash validator epoch)) :
    Tallied (log ++ [⟨epoch, v.effectiveBalance⟩]) s' := by
  obtain ⟨hold, hnew⟩ := horder
  obtain ⟨w, -, -, -, rfl⟩ := slash_ok hslash
  have hwindow : epoch ∈ windowOf (s.registry.epochState.lastProcessedEpoch + 1) := by
    simp only [windowOf, Finset.mem_Ico, slashingWindow, withdrawalDelay]
    omega
  have hcap : v.effectiveBalance ≤ maxEffectiveBalance := computeEffectiveBalance_le_max
  constructor
  · exact forall_mem_append.mpr ⟨h.epochs, forall_mem_singleton.mpr hnew⟩
  · intro k hk
    rw [amountIn_append, amountIn_singleton, ← h.ring k hk]
    refine (slashedStakeIn_setSlashedStake hk hwindow _).trans ?_
    by_cases hkepoch : k = epoch
    · rw [if_pos hkepoch, hkepoch, if_pos (Finset.mem_singleton_self _)]
      exact Nat.mod_eq_of_lt ((Nat.add_le_add_left hcap _).trans_lt hfits)
    · rw [if_neg hkepoch, if_neg (by simpa using Ne.symm hkepoch)]
      rfl

theorem processEpoch (h : Tallied log s) {participation : Option Participation} {finalizedEpoch : Nat}
    {report : EpochReport} (hprocess : processEpoch s epoch participation finalizedEpoch = .ok (report, s'))
    (horder : epoch = s.registry.epochState.lastProcessedEpoch + 1) : Tallied log s' := by
  have hring := congrArg Prod.fst (processEpoch_tally hprocess)
  have hlast : s'.registry.epochState.lastProcessedEpoch = epoch :=
    congrArg Prod.snd (processEpoch_tally hprocess)
  have hepochs : ∀ o ∈ log, o.epoch < epoch + 1 := fun o ho => by
    rw [horder]
    exact Nat.lt_succ_of_le (h.epochs o ho)
  constructor
  · intro o ho
    rw [hlast]
    exact (hepochs o ho).le
  · rw [hlast]
    intro k hk
    have hnext : epoch + 1 ∈ windowOf (epoch + 1) := by
      simp only [windowOf, Finset.mem_Ico, slashingWindow, withdrawalDelay]
      omega
    rw [slashedStakeIn, show s'.registry.slashedStake = _ from hring]
    refine (slashedStakeIn_setSlashedStake hk hnext 0).trans ?_
    by_cases hknext : k = epoch + 1
    · rw [if_pos hknext, hknext, amountIn_eq_zero hepochs, Nat.zero_mod]
    · rw [if_neg hknext]
      refine h.ring k ?_
      simp only [windowOf, Finset.mem_Ico] at hk ⊢
      omega

theorem step (bls : Bls) (h : Tallied log s) (op : Op) (horder : InOrder s op) (hfits : TallyFits s op) :
    Tallied (log ++ offences s op) (step bls s op) := by
  have hcall : ∀ {α : Type} {result : Except StakingError α} {state : α → StateDB},
      (∀ a, result = .ok a → Tallied log (state a)) → Tallied (log ++ []) (afterCall s result state) := by
    intro α result state hok
    rw [append_nil]
    exact afterCall_cases h hok
  cases op with
  | slash validator epoch =>
    rw [Staking.step, offences]
    cases hslash : Staking.slash s validator epoch with
    | error e =>
      rw [append_nil]
      exact h
    | ok result => exact h.slash hslash horder hfits
  | deposit validator withdrawal amount => exact hcall fun a ha => h.congr (deposit_tally ha)
  | depositWithKey validator withdrawal blsKey possession amount =>
    refine hcall fun a ha => h.congr ?_
    obtain ⟨_, _, hdeposit, ⟨-, hs⟩ | ⟨-, -, hs⟩⟩ := depositWithKey_ok ha
    · rw [hs, deposit_tally hdeposit]
    · rw [hs, ← deposit_tally hdeposit]
      rfl
  | requestExit validator epoch => exact hcall fun a ha => h.congr (requestExit_tally ha)
  | withdraw validator epoch =>
    refine hcall fun a ha => h.congr ?_
    obtain ⟨_, -, -, -, -, hs⟩ := withdraw_ok ha
    rw [hs]
    rfl
  | processEpoch epoch participation finalizedEpoch =>
    exact hcall fun a ha => h.processEpoch ha horder

end Tallied

/-- In every run from an empty tally whose calls come in order, the amount the penalties of the next
epoch read is the amount recorded in the window, each offence once, exactly when the ring has not been
filled yet or nothing is recorded for that epoch before its transition. -/
theorem correlatedSlashedStake_eq_window (bls : Bls) (s₀ : StateDB) (ops : List Op)
    (hempty : s₀.registry.slashedStake = fun _ => 0)
    (hsteps : Transition.Steps (step bls) (fun s op => InOrder s op ∧ TallyFits s op) s₀ ops)
    (participation : Option Participation) (finalizedEpoch : Nat)
    (horder : InOrder (Transition.run (step bls) s₀ ops) (.processEpoch epoch participation finalizedEpoch)) :
    (beforePenalties (Transition.run (step bls) s₀ ops) epoch participation
        finalizedEpoch).1.registry.correlatedSlashedStake epoch
          = amountIn (windowOf epoch) (Transition.log (step bls) offences s₀ ops) ↔
      epoch < slashingWindow ∨ (Transition.run (step bls) s₀ ops).registry.slashedStakeIn epoch = 0 := by
  have h₀ : Tallied [] s₀ := ⟨nofun, fun k _ => congrFun hempty _⟩
  have h : Tallied ([] ++ Transition.log (step bls) offences s₀ ops) _ :=
    Transition.log_invariant (fun log s op hcond htallied => htallied.step bls op hcond.1 hcond.2) hsteps h₀
  have hsame : ∀ k, (beforePenalties (Transition.run (step bls) s₀ ops) epoch participation
      finalizedEpoch).1.registry.slashedStakeIn k
        = (Transition.run (step bls) s₀ ops).registry.slashedStakeIn k := fun k =>
    congrFun (beforePenalties_slashedStake _ epoch participation finalizedEpoch) _
  rw [nil_append] at h
  rw [correlatedSlashedStake_eq, amountIn_eq_sum, Finset.sum_congr rfl fun k hk =>
    (hsame k).trans (h.ring k (horder ▸ hk)), hsame]
  split <;> omega

namespace TallyExample

def state : StateDB :=
  StateDB.empty.setRegistry ((Registry.empty.append
    { newValidator 1 2 (32 * ether) with status := .active, activationEpoch := 0 }).1.saveEpochState ⟨255, 0, 0, 0⟩)

/-- The validator is slashed in an epoch; then the penalties of epoch 256 read the tally. -/
def slashed (epoch : Nat) : StateDB := Transition.run (step Bls.plain) state [.slash 1 epoch]

def log (epoch : Nat) : List Offence := Transition.log (step Bls.plain) offences state [.slash 1 epoch]

end TallyExample

open TallyExample in
theorem correlatedSlashedStake_eq_window_last_epoch :
    (beforePenalties (slashed 255) 256 none 0).1.registry.correlatedSlashedStake 256
      = amountIn (windowOf 256) (log 255) :=
  (correlatedSlashedStake_eq_window Bls.plain state [.slash 1 255] rfl
    ⟨⟨⟨by decide, by decide⟩, by unfold TallyFits; decide⟩, trivial⟩ none 0 rfl).mpr (Or.inr rfl)

open TallyExample in
/-- A slashing in the block that starts epoch 256 is counted twice. -/
theorem correlatedSlashedStake_counts_twice :
    state.registry.slashedStake = (fun _ => 0) ∧
      Transition.Steps (step Bls.plain) InOrder state [.slash 1 256] ∧
      InOrder (slashed 256) (.processEpoch 256 none 0) ∧
      log 256 = [⟨256, 31 * ether⟩] ∧ amountIn (windowOf 256) (log 256) = 31 * ether ∧
      (beforePenalties (slashed 256) 256 none 0).1.registry.correlatedSlashedStake 256
        = 2 * (31 * ether) := by
  refine ⟨rfl, ⟨⟨by decide, by decide⟩, trivial⟩, rfl, by decide, by decide, ?_⟩
  rw [correlatedSlashedStake_eq]
  decide +kernel

end PadiChain.Staking

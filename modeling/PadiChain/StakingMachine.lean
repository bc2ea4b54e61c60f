import PadiChain.LibTransition
import PadiChain.StakingEpoch

/-! The staking package as a machine: a run is any list of calls of the manager, each with any
arguments. A call that returns an error changes nothing. Along every run a registered validator keeps
its index, its addresses and, once it has one, its attestation key, and the address index stays the
inverse of the records. -/

namespace PadiChain.Staking

inductive Op where
  | deposit (validator withdrawal : Address) (amount : Nat)
  | depositWithKey (validator withdrawal : Address) (blsKey possession : Bytes) (amount : Nat)
  | requestExit (validator : Address) (epoch : Nat)
  | slash (validator : Address) (epoch : Nat)
  | withdraw (validator : Address) (epoch : Nat)
  | processEpoch (epoch : Nat) (participation : Option Participation) (finalizedEpoch : Nat)

def afterCall {α : Type} (s : StateDB) (result : Except StakingError α) (state : α → StateDB) : StateDB :=
  match result with
  | .error _ => s
  | .ok a => state a

def step (bls : Bls) (s : StateDB) : Op → StateDB
  | .deposit validator withdrawal amount => afterCall s (deposit s validator withdrawal amount) (·.2)
  | .depositWithKey validator withdrawal blsKey possession amount =>
    afterCall s (depositWithKey bls s validator withdrawal blsKey possession amount) (·.2)
  | .requestExit validator epoch => afterCall s (requestExit s validator epoch) (·.2)
  | .slash validator epoch => afterCall s (slash s validator epoch) (·.2.2)
  | .withdraw validator epoch => afterCall s (withdraw s validator epoch) (·.2)
  | .processEpoch epoch participation finalizedEpoch =>
    afterCall s (processEpoch s epoch participation finalizedEpoch) (·.2)

theorem afterCall_cases {α : Type} {s : StateDB} {result : Except StakingError α} {state : α → StateDB}
    {P : StateDB → Prop} (herror : P s) (hok : ∀ a, result = .ok a → P (state a)) : P (afterCall s result state) := by
  cases result with
  | error e => exact herror
  | ok a => exact hok a rfl

/-- A later version of a record. -/
structure Validator.Follows (v v' : Validator) : Prop where
  index : v'.index = v.index
  address : v'.address = v.address
  withdrawalAddress : v'.withdrawalAddress = v.withdrawalAddress
  key : v.blsPublicKey ≠ [] → v'.blsPublicKey = v.blsPublicKey

theorem Validator.Follows.refl (v : Validator) : v.Follows v := ⟨rfl, rfl, rfl, fun _ => rfl⟩

theorem Validator.Follows.trans {u v w : Validator} (huv : u.Follows v) (hvw : v.Follows w) :
    u.Follows w where
  index := hvw.index.trans huv.index
  address := hvw.address.trans huv.address
  withdrawalAddress := hvw.withdrawalAddress.trans huv.withdrawalAddress
  key := by
    intro h
    rw [hvw.key (by rw [huv.key h]; exact h), huv.key h]

/-- Storing a later version of a stored record is again a later version of it. -/
theorem Validator.Follows.packed {v v' : Validator} (h : v.Follows v') (hv : v.packed = v) :
    v.Follows v'.packed where
  __ := h
  key := by
    intro hkey
    calc v'.packed.blsPublicKey = v.packed.blsPublicKey := by
          unfold Validator.packed
          rw [h.key hkey]
      _ = v.blsPublicKey := by rw [hv]

namespace Registry

/-- Every registered address points at its own record. -/
def Consistent (r : Registry) : Prop := ∀ i v, r.get i = some v → r.index v.address = some i

theorem Consistent.byAddress {r : Registry} (h : r.Consistent) {i : Nat} {v : Validator}
    (hget : r.get i = some v) : r.byAddress v.address = some v := by
  rw [Registry.byAddress, h i v hget]
  exact hget

theorem empty_consistent : Registry.empty.Consistent := by
  intro i v h
  exact absurd (get_lt h) (Nat.not_lt_zero i)

/-- How a registry may change: records are replaced by later versions, new ones are added. -/
structure Extends (r r' : Registry) : Prop where
  records : ∀ i v, r.get i = some v → ∃ v', r'.get i = some v' ∧ v.Follows v'
  consistent : r.Consistent → r'.Consistent

namespace Extends

theorem refl (r : Registry) : r.Extends r :=
  ⟨fun _ v h => ⟨v, h, Validator.Follows.refl v⟩, id⟩

theorem trans {r₁ r₂ r₃ : Registry} (h₁₂ : r₁.Extends r₂) (h₂₃ : r₂.Extends r₃) : r₁.Extends r₃ where
  records := by
    intro i v hv
    obtain ⟨v₂, hv₂, hfollows₂⟩ := h₁₂.records i v hv
    obtain ⟨v₃, hv₃, hfollows₃⟩ := h₂₃.records i v₂ hv₂
    exact ⟨v₃, hv₃, hfollows₂.trans hfollows₃⟩
  consistent := h₂₃.consistent ∘ h₁₂.consistent

variable {r : Registry}

theorem of_get_eq {r' : Registry} (hget : r'.get = r.get) (hindex : r'.index = r.index) :
    r.Extends r' where
  records := by
    intro i v hv
    exact ⟨v, by rw [hget]; exact hv, Validator.Follows.refl v⟩
  consistent := by
    intro h i v hv
    rw [hget] at hv
    rw [hindex]
    exact h i v hv

theorem resetSlashedStake (r : Registry) (epoch : Nat) : r.Extends (r.resetSlashedStake epoch) :=
  of_get_eq rfl rfl

theorem put {v v' : Validator} (hv : r.get v.index = some v) (hfollows : v.Follows v') : r.Extends (r.put v') := by
  have hself : (r.put v').get v.index = some v'.packed := by
    rw [← hfollows.index]
    exact get_put_self (by rw [hfollows.index]; exact get_lt hv)
  have hother : ∀ i, i ≠ v.index → (r.put v').get i = r.get i := fun i hi =>
    get_put_of_ne v' (by rw [hfollows.index]; exact hi)
  constructor
  · intro i w hw
    by_cases hi : i = v.index
    · subst hi
      rw [hv] at hw
      cases hw
      exact ⟨_, hself, hfollows.packed (get_packed hv)⟩
    · exact ⟨w, by rw [hother i hi]; exact hw, Validator.Follows.refl w⟩
  · intro hconsistent i w hw
    by_cases hi : i = v.index
    · subst hi
      rw [hself] at hw
      cases hw
      rw [Validator.packed_address, hfollows.address]
      exact hconsistent _ v hv
    · rw [hother i hi] at hw
      exact hconsistent i w hw

theorem updateWhere {c : Validator → Bool} {f : Validator → Validator}
    (hf : ∀ v : Validator, v.Follows (f v)) : r.Extends (r.updateWhere c f) := by
  have hget := get_updateWhere (r := r) (c := c) (f := f) fun v => (hf v).index
  constructor
  · intro i v hv
    refine ⟨_, by rw [hget, hv, Option.map_some], ?_⟩
    split
    · exact (hf v).packed (get_packed hv)
    · exact Validator.Follows.refl v
  · intro hconsistent i w hw
    rw [hget] at hw
    obtain ⟨v, hv, hvw⟩ := Option.map_eq_some_iff.mp hw
    have haddress : w.address = v.address := by
      rw [← hvw]
      split
      · exact (hf v).address
      · rfl
    rw [haddress, updateWhere_index]
    exact hconsistent i v hv

theorem append {v : Validator} (hnew : r.byAddress v.address = none) : r.Extends (r.append v).1 := by
  have hold : ∀ i, i < r.count → (r.append v).1.get i = r.get i := by
    intro i hi
    have hrec : (r.append v).1.records i = r.records i := Function.update_of_ne hi.ne ..
    unfold get
    rw [hrec, if_pos hi, if_pos (show i < (r.append v).1.count from Nat.lt_succ_of_lt hi)]
  constructor
  · intro i w hw
    exact ⟨w, by rw [hold i (get_lt hw)]; exact hw, Validator.Follows.refl w⟩
  · intro hconsistent i w hw
    have hindex : (r.append v).1.index = Function.update r.index v.address (some r.count) := rfl
    rw [hindex]
    rcases Nat.lt_succ_iff_lt_or_eq.mp (get_lt hw : i < r.count + 1) with hi | rfl
    · rw [hold i hi] at hw
      have hne : w.address ≠ v.address := by
        intro h
        rw [← h, hconsistent.byAddress hw] at hnew
        cases hnew
      rw [Function.update_of_ne hne]
      exact hconsistent i w hw
    · have hrec : (r.append v).1.records r.count = ({ v with index := r.count } : Validator).packed :=
        Function.update_self ..
      have hw' := (get_eq_some.mp hw).2
      rw [hrec] at hw'
      rw [← hw']
      exact Function.update_self ..

end Extends

end Registry

/-! ### Every call extends the registry -/

open Registry

variable {s s' : StateDB} {validator withdrawal : Address} {epoch amount : Nat} {v' : Validator}

theorem deposit_extends (h : deposit s validator withdrawal amount = .ok (v', s')) :
    s.registry.Extends s'.registry ∧ s'.registry.get v'.index = some v'.packed := by
  rcases deposit_ok h with ⟨v, hv, rfl, rfl⟩ | ⟨hnew, rfl, rfl⟩
  · have hget := (byAddress_eq_some.mp hv).2
    exact ⟨Extends.put hget ⟨rfl, rfl, rfl, fun _ => rfl⟩, get_put_self (get_lt hget)⟩
  · refine ⟨Extends.append hnew, get_eq_some.mpr ⟨Nat.lt_succ_self _, ?_⟩⟩
    have hrec : (s.registry.append (newValidator validator withdrawal amount)).1.records s.registry.count
        = ({ newValidator validator withdrawal amount with index := s.registry.count } : Validator).packed :=
      Function.update_self ..
    exact congrArg (fun v : Validator => { v with index := s.registry.count }) hrec

theorem depositWithKey_extends {bls : Bls} {blsKey possession : Bytes}
    (h : depositWithKey bls s validator withdrawal blsKey possession amount = .ok (v', s')) :
    s.registry.Extends s'.registry := by
  obtain ⟨v, s₁, hdeposit, ⟨rfl, rfl⟩ | ⟨hkey, rfl, rfl⟩⟩ := depositWithKey_ok h
  · exact (deposit_extends hdeposit).1
  · obtain ⟨hextends, hget⟩ := deposit_extends hdeposit
    have hpacked : v.packed.blsPublicKey = [] := by
      rcases Validator.packed_blsPublicKey v with h | h
      · rw [h, hkey]
      · exact h
    refine hextends.trans (Extends.put (v := v.packed) hget ⟨rfl, rfl, rfl, ?_⟩)
    intro h
    exact absurd hpacked h

theorem requestExit_extends (h : requestExit s validator epoch = .ok (v', s')) : s.registry.Extends s'.registry := by
  obtain ⟨v, hv, ⟨-, rfl, rfl⟩ | ⟨-, rfl, rfl⟩⟩ := requestExit_ok h
  · have hsaved : s.registry.Extends (scheduleExit s.registry epoch).2 := Extends.of_get_eq rfl rfl
    have hget : (scheduleExit s.registry epoch).2.get v.index = some v := (byAddress_eq_some.mp hv).2
    exact hsaved.trans (Extends.put hget ⟨rfl, rfl, rfl, fun _ => rfl⟩)
  · exact Extends.put (byAddress_eq_some.mp hv).2 ⟨rfl, rfl, rfl, fun _ => rfl⟩

theorem slash_extends {penalty : Nat} (h : slash s validator epoch = .ok (v', penalty, s')) :
    s.registry.Extends s'.registry := by
  obtain ⟨v, hv, -, rfl, rfl⟩ := slash_ok h
  have hput : s.registry.Extends (s.registry.put (slashedRecord v epoch)) :=
    Extends.put (byAddress_eq_some.mp hv).2 ⟨rfl, rfl, rfl, fun _ => rfl⟩
  exact hput.trans (Extends.of_get_eq rfl rfl)

theorem withdraw_extends (h : withdraw s validator epoch = .ok (amount, s')) : s.registry.Extends s'.registry := by
  obtain ⟨v, hv, -, -, -, rfl⟩ := withdraw_ok h
  exact Extends.put (byAddress_eq_some.mp hv).2 ⟨rfl, rfl, rfl, fun _ => rfl⟩

theorem chargeEpoch_extends (s : StateDB) (epoch : Nat) (participation : Option Participation) (finalizedEpoch : Nat) :
    s.registry.Extends (chargeEpoch s epoch participation finalizedEpoch).2.1.registry := by
  set finished := finishExits epoch (s.registry, newReport epoch finalizedEpoch) with hfinished
  set totalStake := ((finished.1.activeAt epoch).map (·.effectiveBalance)).sum
  set settled := settleAll totalStake (finalityDelay epoch finalizedEpoch) participation
    (finished.1.activeAt epoch) finished with hsettled
  have hfinish : s.registry.Extends finished.1 := by
    rw [hfinished, finishExits_registry]
    exact Extends.updateWhere fun v => ⟨rfl, rfl, rfl, fun _ => rfl⟩
  have hsettle : finished.1.Extends settled.1 := by
    rcases settleAll_registry totalStake (finalityDelay epoch finalizedEpoch) epoch participation
      finished with ⟨hsame, -⟩ | hwrite
    · rw [hsettled, hsame]
      exact Extends.refl _
    · rw [hsettled, hwrite]
      exact Extends.updateWhere fun v => ⟨rfl, rfl, rfl, fun _ => rfl⟩
  have hcorrelate : settled.1.Extends (applyCorrelationPenalties epoch
      (payStakingAccount (s.setRegistry settled.1) settled.2, settled.2)).1.registry := by
    rcases applyCorrelationPenalties_registry epoch
      (payStakingAccount (s.setRegistry settled.1) settled.2, settled.2) with hsame | ⟨_, _, hwrite⟩
    · rw [hsame, payStakingAccount_registry]
      exact Extends.refl _
    · rw [hwrite, payStakingAccount_registry]
      exact Extends.updateWhere fun v => ⟨rfl, rfl, rfl, fun _ => rfl⟩
  exact ((hfinish.trans hsettle).trans hcorrelate).trans (Extends.resetSlashedStake _ (epoch + 1))

theorem eject_rule {P : StateDB → Prop} {acc : StateDB × EpochReport} (v : Validator) (h : P acc.1)
    (hexit : ∀ validator v' s', requestExit acc.1 validator epoch = .ok (v', s') → P s') : P (eject epoch acc v).1 := by
  unfold eject
  split
  · exact h
  · split
    · split
      · exact h
      · rename_i hok
        exact hexit _ _ _ hok
    · exact h

theorem ejectAll_extends (epoch : Nat) (vs : List Validator) (acc : StateDB × EpochReport) :
    acc.1.registry.Extends (vs.foldl (eject epoch) acc).1.registry := by
  refine Transition.run_preserves (P := fun res : StateDB × EpochReport => acc.1.registry.Extends res.1.registry)
    (fun res v h => ?_) vs (.refl _)
  exact eject_rule (P := fun s => acc.1.registry.Extends s.registry) v h
    fun _ _ _ hexit => h.trans (requestExit_extends hexit)

/-- Activation writes records it read before the loop; they are distinct, so each is still the stored
one when its turn comes. -/
theorem activatePending_rule {P : StateDB × EpochReport → Prop}
    (hstep : ∀ acc v, acc.1.registry.get v.index = some v → P acc → P (activate epoch acc v))
    {acc : StateDB × EpochReport} (h : P acc) : P (activatePending epoch acc) := by
  have hsub : List.Sublist ((pendingDeposits acc.1.registry).take
      (churnLimit (acc.1.registry.activeAt epoch).length)) acc.1.registry.all :=
    (List.take_sublist _ _).trans List.filter_sublist
  have hnodup := (hsub.map _).nodup nodup_all
  have hget : ∀ v ∈ _, acc.1.registry.get v.index = some v := fun v hv => mem_all.mp (hsub.subset hv)
  rw [activatePending]
  generalize (pendingDeposits acc.1.registry).take _ = vs at hnodup hget
  clear hsub
  induction vs generalizing acc with
  | nil => exact h
  | cons v vs ih =>
    rw [List.map_cons, List.nodup_cons] at hnodup
    refine ih (hstep acc v (hget v List.mem_cons_self) h) hnodup.2 fun w hw => ?_
    have hne : w.index ≠ v.index := by
      intro h
      exact hnodup.1 (h ▸ List.mem_map_of_mem hw)
    rw [← hget w (List.mem_cons_of_mem _ hw)]
    exact get_put_of_ne _ hne

theorem activatePending_extends (epoch : Nat) {acc : StateDB × EpochReport} :
    acc.1.registry.Extends (activatePending epoch acc).1.registry := by
  refine activatePending_rule (P := fun res => acc.1.registry.Extends res.1.registry) (fun res v hv h => ?_) (.refl _)
  exact h.trans (Extends.put hv ⟨rfl, rfl, rfl, fun _ => rfl⟩)

theorem processEpoch_extends {participation : Option Participation} {finalizedEpoch : Nat} {report : EpochReport}
    (h : processEpoch s epoch participation finalizedEpoch = .ok (report, s')) : s.registry.Extends s'.registry := by
  unfold processEpoch at h
  dsimp only at h
  split at h
  · cases h
  · cases h
    refine (chargeEpoch_extends s epoch participation finalizedEpoch).trans ?_
    have heject := ejectAll_extends epoch (chargeEpoch s epoch participation finalizedEpoch).1
      (chargeEpoch s epoch participation finalizedEpoch).2
    refine heject.trans ?_
    exact (activatePending_extends epoch).trans (Extends.of_get_eq rfl rfl)

theorem step_extends (bls : Bls) (s : StateDB) (op : Op) : s.registry.Extends (step bls s op).registry := by
  have hcall : ∀ {α : Type} {result : Except StakingError α} {state : α → StateDB},
      (∀ a, result = .ok a → s.registry.Extends (state a).registry) →
        s.registry.Extends (afterCall s result state).registry :=
    fun h => afterCall_cases (P := fun t => s.registry.Extends t.registry)
      (Extends.refl s.registry) h
  cases op with
  | deposit validator withdrawal amount => exact hcall fun a h => (deposit_extends h).1
  | depositWithKey validator withdrawal blsKey possession amount =>
    exact hcall fun a h => depositWithKey_extends h
  | requestExit validator epoch => exact hcall fun a h => requestExit_extends h
  | slash validator epoch => exact hcall fun a h => slash_extends h
  | withdraw validator epoch => exact hcall fun a h => withdraw_extends h
  | processEpoch epoch participation finalizedEpoch => exact hcall fun a h => processEpoch_extends h

theorem run_extends (bls : Bls) (s : StateDB) (ops : List Op) :
    s.registry.Extends (Transition.run (step bls) s ops).registry :=
  Transition.run_related (R := fun s t => s.registry.Extends t.registry)
    (fun s => Extends.refl s.registry) (fun _ _ _ => Extends.trans) (step_extends bls) s ops

end PadiChain.Staking

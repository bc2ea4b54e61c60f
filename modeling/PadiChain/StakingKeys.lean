import PadiChain.StakingMachine

/-! Attestation keys along runs of deposits. A proof of possession says that somebody has the secret key; it does not
say who registers it, and it is published with the deposit. -/

namespace PadiChain.Staking

open Registry Transition

/-- A deposit transaction, with the key and the proof of possession it may carry. -/
structure Deposit where
  sender : Address
  withdrawal : Address
  amount : Nat
  key : Option (Bytes × Bytes)

def Deposit.op (d : Deposit) : Op :=
  match d.key with
  | none => .deposit d.sender d.withdrawal d.amount
  | some (blsKey, possession) => .depositWithKey d.sender d.withdrawal blsKey possession d.amount

def depositStep (bls : Bls) (s : StateDB) (d : Deposit) : StateDB := step bls s d.op

def KeysApart (r : Registry) : Prop :=
  ∀ i j v w, r.get i = some v → r.get j = some w → v.blsPublicKey ≠ [] → v.blsPublicKey = w.blsPublicKey → i = j

def Unclaimed (s : StateDB) (d : Deposit) : Prop :=
  ∀ blsKey possession, d.key = some (blsKey, possession) → ∀ i v, s.registry.get i = some v → v.blsPublicKey = blsKey →
    v.address = d.sender

/-- A sender has the secret of its own keys, and can repeat what an earlier deposit has published. -/
def Possible (owner : Bytes → Address) : List Deposit → Prop
  | [] => True
  | d :: earlier => Possible owner earlier ∧
      ∀ carried ∈ d.key, owner carried.1 = d.sender ∨ ∃ e ∈ earlier, carried ∈ e.key

variable {bls : Bls} {s s' : StateDB} {validator withdrawal : Address} {amount : Nat} {v' : Validator}

theorem put_key {r : Registry} {u w : Validator} {i : Nat} (hget : (r.put u).get i = some w) :
    r.get i = some w ∨ i = u.index ∧ (w.blsPublicKey = u.blsPublicKey ∨ w.blsPublicKey = []) := by
  by_cases hi : i = u.index
  · subst hi
    obtain ⟨-, hw⟩ := get_eq_some.mp hget
    rw [put_records_self] at hw
    exact .inr ⟨rfl, hw ▸ Validator.packed_blsPublicKey u⟩
  · exact .inl (get_put_of_ne u hi ▸ hget)

section

variable (h : deposit s validator withdrawal amount = .ok (v', s'))

include h

/-- A deposit registers no key: those that are there were there at the same index. -/
theorem deposit_key {i : Nat} {w : Validator} (hw : s'.registry.get i = some w) (hkey : w.blsPublicKey ≠ []) :
    ∃ u, s.registry.get i = some u ∧ u.blsPublicKey = w.blsPublicKey := by
  rcases deposit_ok h with ⟨v, hv, rfl, rfl⟩ | ⟨-, rfl, rfl⟩
  · rcases put_key hw with hw | ⟨rfl, hsame⟩
    · exact ⟨w, hw, rfl⟩
    · exact ⟨v, (byAddress_eq_some.mp hv).2, (hsame.resolve_right hkey).symm⟩
  · rcases Nat.lt_succ_iff_lt_or_eq.mp (get_lt hw : i < s.registry.count + 1) with hi | rfl
    · have hrec : (s.registry.append (newValidator validator withdrawal amount)).1.records i = s.registry.records i :=
        Function.update_of_ne hi.ne ..
      refine ⟨w, ?_, rfl⟩
      rw [← hw]
      unfold Registry.get
      rw [if_pos hi, if_pos (get_lt hw)]
      exact congrArg (fun v : Validator => some { v with index := i }) hrec.symm
    · have hnew := Option.some.inj (hw.symm.trans (deposit_extends h).2)
      rw [hnew] at hkey
      exact absurd ((Validator.packed_blsPublicKey _).elim id id) hkey

/-- The depositor's record is the one its address names, if the address is registered. -/
theorem deposit_index (hs : s.registry.Consistent) {j : Nat}
    {u : Validator} (hu : s.registry.get j = some u) (haddress : u.address = validator) : v'.index = j := by
  have hindex := hs j u hu
  have hby := hs.byAddress hu
  rw [haddress] at hindex hby
  rcases deposit_ok h with ⟨v, hv, rfl, -⟩ | ⟨hnone, -⟩
  · exact Option.some.inj ((byAddress_eq_some.mp hv).1.symm.trans hindex)
  · rw [hnone] at hby
    cases hby

end

theorem depositStep_keysApart {d : Deposit} (hfree : Unclaimed s d) (h : s.registry.Consistent ∧ KeysApart s.registry) :
    (depositStep bls s d).registry.Consistent ∧ KeysApart (depositStep bls s d).registry := by
  refine ⟨(step_extends bls s d.op).consistent h.1, ?_⟩
  obtain ⟨sender, withdrawal, amount, key⟩ := d
  cases key with
  | none =>
    refine afterCall_cases (P := fun t : StateDB => KeysApart t.registry) h.2 fun a hdeposit i j v w hv hw hkey heq => ?_
    obtain ⟨u, hu, hukey⟩ := deposit_key hdeposit hv hkey
    obtain ⟨x, hx, hxkey⟩ := deposit_key hdeposit hw (heq ▸ hkey)
    exact h.2 i j u x hu hx (hukey ▸ hkey) (by rw [hukey, hxkey, heq])
  | some carried =>
    obtain ⟨blsKey, possession⟩ := carried
    refine afterCall_cases (P := fun t : StateDB => KeysApart t.registry) h.2 fun a hcall i j v w hv hw hkey heq => ?_
    obtain ⟨u, s₁, hdeposit, hcases⟩ := depositWithKey_ok hcall
    -- a key is an old one, or the one that was just registered at the depositor's index
    have horigin : ∀ {i w}, a.2.registry.get i = some w → w.blsPublicKey ≠ [] →
        (∃ x, s.registry.get i = some x ∧ x.blsPublicKey = w.blsPublicKey) ∨
          i = u.index ∧ w.blsPublicKey = blsKey := by
      intro i w hw hne
      rcases hcases with ⟨-, hs'⟩ | ⟨-, hv', hs'⟩
      · exact .inl (deposit_key hdeposit (hs' ▸ hw) hne)
      · rw [hs', hv'] at hw
        rcases put_key hw with hw | ⟨hi, hsame⟩
        · exact .inl (deposit_key hdeposit hw hne)
        · exact .inr ⟨hi, hsame.resolve_right hne⟩
    have howner : ∀ {i x}, s.registry.get i = some x → x.blsPublicKey = blsKey → u.index = i := fun hx hkey =>
      deposit_index hdeposit h.1 hx (hfree blsKey possession rfl _ _ hx hkey)
    rcases horigin hv hkey with ⟨x, hx, hxkey⟩ | ⟨hi, hnew⟩ <;>
      rcases horigin hw (heq ▸ hkey) with ⟨y, hy, hykey⟩ | ⟨hj, hnew'⟩
    · exact h.2 i j x y hx hy (hxkey ▸ hkey) (by rw [hxkey, hykey, heq])
    · exact (howner hx (by rw [hxkey, heq, hnew'])).symm.trans hj.symm
    · exact hi.trans (howner hy (by rw [hykey, ← heq, hnew]))
    · exact hi.trans hj.symm

namespace KeysExample

def key : Bytes := List.replicate 48 1

def carrying (sender : Address) : Deposit := ⟨sender, 5, 32 * ether, some (key, key)⟩

end KeysExample

end PadiChain.Staking

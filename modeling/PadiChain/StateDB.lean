import PadiChain.StakingRegistry

/-! The world state as transactions and the staking package see it. Accounts are functions of the
address; the storage of the staking account is kept as the registry it encodes. -/

namespace PadiChain

open Function

open Staking (stakingAddress Registry)

structure StateDB where
  balance : Address → Int
  nonce : Address → Nat
  code : Address → Bytes
  storage : Address → Hash → Hash
  registry : Registry

namespace StateDB

def empty : StateDB := ⟨fun _ => 0, fun _ => 0, fun _ => [], fun _ _ => 0, Registry.empty⟩

variable (s : StateDB)

def addBalance (addr : Address) (amount : Int) : StateDB :=
  { s with balance := update s.balance addr (s.balance addr + amount) }

/-- The source keeps balances as signed big integers and does not check the debit. -/
def subBalance (addr : Address) (amount : Int) : StateDB :=
  { s with balance := update s.balance addr (s.balance addr - amount) }

def setNonce (addr : Address) (nonce : Nat) : StateDB :=
  { s with nonce := update s.nonce addr nonce }

def setRegistry (r : Registry) : StateDB := { s with registry := r }

def isEmpty (addr : Address) : Bool :=
  s.nonce addr == 0 && s.balance addr == 0 && (s.code addr).isEmpty

/-- `Finalise(true)`: an account left empty is deleted together with its storage. For the staking
account that storage is the registry. -/
def finalise : StateDB :=
  { s with
    storage := fun addr => if s.isEmpty addr then fun _ => 0 else s.storage addr
    registry := if s.isEmpty stakingAddress then Registry.empty else s.registry }

variable (addr : Address) (amount : Int)

@[simp] theorem addBalance_registry :
    (s.addBalance addr amount).registry = s.registry := rfl

@[simp] theorem subBalance_registry :
    (s.subBalance addr amount).registry = s.registry := rfl

@[simp] theorem setRegistry_registry (r : Registry) : (s.setRegistry r).registry = r := rfl

@[simp] theorem setRegistry_balance (r : Registry) : (s.setRegistry r).balance = s.balance := rfl

@[simp] theorem finalise_balance : s.finalise.balance = s.balance := rfl

theorem addBalance_balance_self :
    (s.addBalance addr amount).balance addr = s.balance addr + amount := update_self ..

theorem subBalance_balance_self :
    (s.subBalance addr amount).balance addr = s.balance addr - amount := update_self ..

theorem addBalance_balance_of_ne {addr other : Address} (amount : Int) (h : other ≠ addr) :
    (s.addBalance addr amount).balance other = s.balance other := update_of_ne h ..

theorem subBalance_balance_of_ne {addr other : Address} (amount : Int) (h : other ≠ addr) :
    (s.subBalance addr amount).balance other = s.balance other := update_of_ne h ..

theorem finalise_registry_of_ne {s : StateDB} (h : s.balance stakingAddress ≠ 0) :
    s.finalise.registry = s.registry := by
  have hempty : s.isEmpty stakingAddress = false := by simp [isEmpty, h]
  simp [finalise, hempty]

end StateDB

end PadiChain

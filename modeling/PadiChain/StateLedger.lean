import PadiChain.StateRevert
import Mathlib.Algebra.BigOperators.Group.Finset.Piecewise
import Mathlib.Data.FinEnum
import Mathlib.Tactic.Ring

/-! The accounts of a state without its machinery: what can be asked of each account that exists. Objects, caches and
the journal are left out. Every operation of the state acts on it as a function, and the states that a return to a
snapshot cannot tell apart have the same accounts. -/

namespace PadiChain.State

open Function

/-- What can be asked of an account. -/
structure Entry where
  account : Account
  committed : Hash → Hash
  selfDestructed : Bool

def Entry.fresh : Entry := ⟨.new, fun _ => 0, false⟩

abbrev Ledger := Address → Option Entry

namespace Ledger

def balance (l : Ledger) (addr : Address) : Int := (l addr).elim 0 fun e => e.account.balance

def nonce (l : Ledger) (addr : Address) : Nat := (l addr).elim 0 fun e => e.account.nonce

def code (l : Ledger) (addr : Address) : Bytes := (l addr).elim [] fun e => e.account.code

/-- An account changed; it is created first if it is not there. -/
def alter (l : Ledger) (addr : Address) (f : Account → Account) : Ledger :=
  let e := (l addr).getD .fresh
  update l addr (some { e with account := f e.account })

def step (l : Ledger) : TxOp → Ledger
  | .createAccount addr =>
    update l addr (some { Entry.fresh with account := { Account.new with balance := l.balance addr } })
  | .addBalance addr amount =>
    if amount = 0 then l else l.alter addr fun a => { a with balance := a.balance + amount }
  | .subBalance addr amount =>
    if amount = 0 then l else l.alter addr fun a => { a with balance := a.balance - amount }
  | .setBalance addr amount => l.alter addr fun a => { a with balance := amount }
  | .setNonce addr nonce => l.alter addr fun a => { a with nonce := nonce }
  | .setCode addr code => l.alter addr fun a => { a with code := code }
  | .setState addr key value => l.alter addr fun a => { a with storage := update a.storage key value }
  | .selfDestruct addr =>
    update l addr
      ((l addr).map fun e => { e with account := { e.account with balance := 0 }, selfDestructed := true })
  | _ => l

def supply (l : Ledger) : Int := ∑ addr, l.balance addr

end Ledger

def TxOp.pays : TxOp → Bool
  | addBalance _ _ | subBalance _ _ | setBalance _ _ | selfDestruct _ => true
  | _ => false

def TxOp.renumbers : TxOp → Bool
  | createAccount _ | setNonce _ _ => true
  | _ => false

namespace Ledger

variable {l : Ledger} {op : TxOp} (addr : Address)

theorem balance_getD (l : Ledger) : ((l addr).getD .fresh).account.balance = l.balance addr := by
  rw [balance]
  cases l addr with
  | none | some _ => rfl

theorem nonce_getD (l : Ledger) : ((l addr).getD .fresh).account.nonce = l.nonce addr := by
  rw [nonce]
  cases l addr with
  | none | some _ => rfl

theorem balance_update (l : Ledger) (e : Option Entry) :
    balance (update l addr e) = update l.balance addr (e.elim 0 fun e => e.account.balance) := by
  funext other
  by_cases hother : other = addr
  · subst hother
    simp [balance]
  · simp [balance, update_of_ne hother]

theorem nonce_update (l : Ledger) (e : Option Entry) :
    nonce (update l addr e) = update l.nonce addr (e.elim 0 fun e => e.account.nonce) := by
  funext other
  by_cases hother : other = addr
  · subst hother
    simp [nonce]
  · simp [nonce, update_of_ne hother]

theorem balance_alter (f : Account → Account) :
    (l.alter addr f).balance = update l.balance addr (f ((l addr).getD .fresh).account).balance :=
  balance_update addr l _

theorem nonce_alter (f : Account → Account) :
    (l.alter addr f).nonce = update l.nonce addr (f ((l addr).getD .fresh).account).nonce :=
  nonce_update addr l _

theorem balance_step_addBalance (amount : Int) :
    (l.step (.addBalance addr amount)).balance = update l.balance addr (l.balance addr + amount) := by
  simp only [step]
  split
  · rename_i hzero
    rw [hzero, Int.add_zero, update_eq_self]
  · rw [balance_alter, balance_getD]

theorem balance_step_subBalance (amount : Int) :
    (l.step (.subBalance addr amount)).balance = update l.balance addr (l.balance addr - amount) := by
  simp only [step]
  split
  · rename_i hzero
    rw [hzero, Int.sub_zero, update_eq_self]
  · rw [balance_alter, balance_getD]

theorem balance_step_selfDestruct : (l.step (.selfDestruct addr)).balance = update l.balance addr 0 := by
  rw [step, balance_update]
  cases l addr with
  | none | some _ => rfl

/-- Neither a creation nor any other operation changes a balance besides. -/
theorem balance_step (h : op.pays = false) : (l.step op).balance = l.balance := by
  cases op with
  | addBalance | subBalance | setBalance | selfDestruct => cases h
  | createAccount addr => exact (balance_update addr l _).trans (update_eq_self addr l.balance)
  | setNonce addr | setCode addr | setState addr =>
    rw [step, balance_alter]
    rw [balance_getD, update_eq_self]
  | _ => rfl

theorem nonce_step_createAccount : (l.step (.createAccount addr)).nonce = update l.nonce addr 0 :=
  nonce_update addr l _

theorem nonce_step_setNonce (n : Nat) : (l.step (.setNonce addr n)).nonce = update l.nonce addr n := by
  rw [step, nonce_alter]

theorem nonce_step (h : op.renumbers = false) : (l.step op).nonce = l.nonce := by
  have halter : ∀ addr (f : Account → Account), (∀ a, (f a).nonce = a.nonce) → (l.alter addr f).nonce = l.nonce := by
    intro addr f hf
    rw [nonce_alter, hf, nonce_getD, update_eq_self]
  cases op with
  | createAccount | setNonce => cases h
  | addBalance addr | subBalance addr =>
    rw [step]
    split
    · rfl
    · exact halter addr _ fun _ => rfl
  | setBalance addr | setCode addr | setState addr =>
    rw [step]
    exact halter addr _ fun _ => rfl
  | selfDestruct addr =>
    rw [step, nonce_update]
    have hsame : ((l addr).map fun e =>
        { e with account := { e.account with balance := 0 }, selfDestructed := true }).elim 0
          (fun e => e.account.nonce) = l.nonce addr := by
      rw [nonce]
      cases l addr with
      | none | some _ => rfl
    rw [hsame, update_eq_self]
  | _ => rfl

theorem sum_update (f : Address → Int) (value : Int) :
    ∑ other, update f addr value other = ∑ other, f other + (value - f addr) := by
  rw [Finset.sum_update_of_mem (Finset.mem_univ addr), ← Finset.sum_erase_add _ _ (Finset.mem_univ addr),
    Finset.sdiff_singleton_eq_erase]
  ring

end Ledger

def StateObject.entry (o : StateObject) : Entry := ⟨o.account, o.committed, o.selfDestructed⟩

theorem StateObject.Alike.entry {o o' : StateObject} (h : o.Alike o') : o'.entry = o.entry := by
  simp [StateObject.entry, h.account, h.committed, h.selfDestructed]

namespace StateDB

def ledger (s : StateDB) : Ledger := fun addr => (s.live addr).map StateObject.entry

variable {s t : StateDB} {addr : Address} {o : StateObject} {f : StateObject → StateObject}

theorem Caches.ledger (h : s.Caches t) : t.ledger = s.ledger := by
  funext addr
  rcases h.live addr with ⟨hs, ht⟩ | ⟨o, o', hs, ht, halike⟩
  · simp [StateDB.ledger, hs, ht]
  · simp [StateDB.ledger, hs, ht, halike.entry]

theorem ledger_put (htrie : t.trie = s.trie)
    (hobj : t.objects = update s.objects addr (some o)) (hdeleted : o.deleted = false) :
    t.ledger = update s.ledger addr (some o.entry) := by
  funext other
  by_cases hne : other = addr
  · subst hne
    have hself : t.live other = some o := live_of_objects (by rw [hobj, update_self]) hdeleted
    simp [ledger, hself]
  · simp [ledger, live, hobj, htrie, update_of_ne hne]

theorem ledger_of_objects (hobj : s.objects addr = some o)
    (hdeleted : o.deleted = false) : s.ledger addr = some o.entry := by
  simp [ledger, live_of_objects hobj hdeleted]

theorem ledger_change (entry : StateObject → ObjectChange)
    (hobj : s.objects addr = some o) (hdeleted : (f o).deleted = false) :
    (s.change addr entry f).ledger = update s.ledger addr (some (f o).entry) := by
  rw [change_eq entry f hobj]
  exact ledger_put rfl rfl hdeleted

variable (s addr)

theorem ledger_getOrNewStateObject :
    (s.getOrNewStateObject addr).2.ledger = update s.ledger addr (some ((s.ledger addr).getD .fresh)) := by
  obtain ⟨found, t, hget, hfst, hcaches, -, hlive⟩ := s.getStateObject_cases addr
  have hledger : t.ledger = s.ledger := hcaches.ledger
  simp only [getOrNewStateObject, hget]
  cases found with
  | some o =>
    have howner : s.ledger addr = some o.entry := by
      simp [ledger, ← hfst]
    rw [hledger, howner, Option.getD_some, ← howner, update_eq_self]
  | none =>
    have howner : s.ledger addr = none := by
      simp [ledger, ← hfst]
    rw [howner, Option.getD_none, ← hledger]
    exact ledger_put (o := (t.createObject addr).1) rfl rfl rfl

theorem ledger_getOrNew_change {entry : StateObject → ObjectChange} {g : Account → Account}
    (hf : ∀ o, (f o).deleted = o.deleted ∧ (f o).entry = { o.entry with account := g o.account }) :
    ((s.getOrNewStateObject addr).2.change addr entry f).ledger = s.ledger.alter addr g := by
  obtain ⟨-, o, hobj, hdeleted⟩ := s.getOrNewStateObject_spec addr
  have howner := ledger_of_objects hobj hdeleted
  rw [ledger_getOrNewStateObject, update_self] at howner
  obtain ⟨hkeeps, hentry⟩ := hf o
  rw [ledger_change entry hobj (hkeeps.trans hdeleted), ledger_getOrNewStateObject, update_idem, hentry,
    Ledger.alter, Option.some.inj howner]
  rfl

theorem ledger_addBalance (amount : Int) :
    (s.addBalance addr amount).ledger = s.ledger.step (.addBalance addr amount) := by
  simp only [addBalance, Ledger.step]
  split
  · have hcaches := (s.getStateObject_spec addr).2.1
    have hfound : (s.exist addr).1 = (s.live addr).isSome := congrArg Option.isSome (s.getStateObject_spec addr).1
    change (if (s.exist addr).1 = true then ((s.getStateObject addr).2.getOrNewStateObject addr).2
      else (s.getStateObject addr).2).ledger = _
    split
    · rename_i hexist
      rw [hfound] at hexist
      obtain ⟨o, ho⟩ := Option.isSome_iff_exists.mp hexist
      have howner : s.ledger addr = some o.entry := by
        simp [ledger, ho]
      rw [ledger_getOrNewStateObject, hcaches.ledger, howner, Option.getD_some, ← howner, update_eq_self]
    · exact hcaches.ledger
  · exact s.ledger_getOrNew_change addr fun _ => ⟨rfl, rfl⟩

theorem ledger_subBalance (amount : Int) :
    (s.subBalance addr amount).ledger = s.ledger.step (.subBalance addr amount) := by
  simp only [subBalance, Ledger.step]
  split
  · rfl
  · exact s.ledger_getOrNew_change addr fun _ => ⟨rfl, rfl⟩

theorem ledger_createAccount : (s.createAccount addr).ledger = s.ledger.step (.createAccount addr) := by
  obtain ⟨found, t, hget, hfst, hcaches, -, -⟩ := s.getStateObject_cases addr
  have hledger : t.ledger = s.ledger := hcaches.ledger
  have hbalance : t.ledger.balance addr = found.elim 0 (·.data.balance) := by
    rw [hledger, Ledger.balance, ledger, ← hfst]
    cases found <;> rfl
  simp only [createAccount, hget, Ledger.step, ← hledger, hbalance]
  cases found with
  | none => exact ledger_put (o := (t.createObject addr).1) rfl rfl rfl
  | some prev =>
    let obj : StateObject :=
      { (t.createObject addr).1 with data := { (t.createObject addr).1.data with balance := prev.data.balance } }
    have hobjects : ((t.createObject addr).2.putObject addr obj).objects =
        update t.objects addr (some obj) := update_idem ..
    exact ledger_put (o := obj) rfl hobjects rfl

theorem ledger_setState (key value : Hash) :
    (s.setState addr key value).ledger = s.ledger.step (.setState addr key value) := by
  obtain ⟨-, o, hobj, hdeleted⟩ := s.getOrNewStateObject_spec addr
  obtain ⟨hprev, hcaches, -⟩ := (s.getOrNewStateObject addr).2.getState_spec addr key
  rcases hget : (s.getOrNewStateObject addr).2.getState addr key with ⟨prev, t⟩
  simp only [hget] at hprev hcaches
  obtain ⟨o', hobj', halike⟩ := hcaches.loaded hobj
  have hdeleted' : o'.deleted = false := halike.deleted.trans hdeleted
  have hledger : t.ledger = update s.ledger addr (some ((s.ledger addr).getD .fresh)) :=
    hcaches.ledger.trans (s.ledger_getOrNewStateObject addr)
  have howner := ledger_of_objects hobj' hdeleted'
  rw [hledger, update_self] at howner
  have hprev' : prev = o'.value key := by
    rw [hprev, ← hcaches.slot, (slot_of_objects hobj' hdeleted').1]
  simp only [setState, hget, Ledger.step, Ledger.alter, Option.some.inj howner]
  split
  · rename_i hsame
    rw [hledger, Option.some.inj howner]
    congr 2
    simp [StateObject.entry, StateObject.account, ← hsame, hprev']
  · rw [ledger_change _ hobj' hdeleted', hledger, update_idem]
    congr 2
    simp only [StateObject.entry, StateObject.account, StateObject.value_setDirty, Option.getD_some]
    rfl

theorem ledger_selfDestruct : (s.selfDestruct addr).ledger = s.ledger.step (.selfDestruct addr) := by
  obtain ⟨found, t, hget, hfst, hcaches, -, hlive⟩ := s.getStateObject_cases addr
  have hledger : t.ledger = s.ledger := hcaches.ledger
  have howner : s.ledger addr = found.map StateObject.entry := congrArg (Option.map StateObject.entry) hfst.symm
  simp only [selfDestruct, hget, Ledger.step, howner]
  cases found with
  | none =>
    rw [Option.map_none] at howner ⊢
    rw [Option.map_none, hledger, ← howner, update_eq_self]
  | some o =>
    obtain ⟨hobj, hdeleted⟩ := hlive o hfst.symm
    refine (ledger_change _ hobj ?_).trans ?_
    · exact hdeleted
    · rw [hledger]
      rfl

end StateDB

namespace TxState

def ledger (s : TxState) : Ledger := s.db.ledger

variable (s : TxState) (addr : Address)

theorem ledger_step (op : TxOp) (hop : op.isMark = false) : (s.step op).ledger = s.ledger.step op := by
  cases op with
  | getStateObject addr => exact (s.accounts.getStateObject_spec addr).2.1.ledger
  | getState addr key => exact (s.accounts.getState_spec addr key).2.1.ledger
  | getCommittedState addr key => exact (s.accounts.getCommittedState_spec addr key).2.1.ledger
  | createAccount addr => exact s.accounts.ledger_createAccount addr
  | addBalance addr amount => exact s.accounts.ledger_addBalance addr amount
  | subBalance addr amount => exact s.accounts.ledger_subBalance addr amount
  | setBalance addr amount =>
    exact s.accounts.ledger_getOrNew_change addr (f := fun o => { o with data := { o.data with balance := amount } })
      (g := fun a => { a with balance := amount }) fun _ => ⟨rfl, rfl⟩
  | setNonce addr nonce =>
    exact s.accounts.ledger_getOrNew_change addr (f := fun o => { o with data := { o.data with nonce := nonce } })
      (g := fun a => { a with nonce := nonce }) fun _ => ⟨rfl, rfl⟩
  | setCode addr code =>
    exact s.accounts.ledger_getOrNew_change addr (f := fun o => { o with data := { o.data with code := code } })
      (g := fun a => { a with code := code }) fun _ => ⟨rfl, rfl⟩
  | setState addr key value => exact s.accounts.ledger_setState addr key value
  | selfDestruct addr => exact s.accounts.ledger_selfDestruct addr
  | addRefund gas | addLog log blockNumber => rfl
  | subRefund gas =>
    simp only [step, subRefund, StateDB.subRefund]
    split <;> rfl
  | setTransientState addr key value =>
    simp only [step, setTransientState]
    split <;> rfl
  | addAddressToAccessList addr => exact congrArg StateDB.ledger (s.addAddressToAccessList_keeps addr).1
  | addSlotToAccessList addr slot => exact congrArg StateDB.ledger (s.addSlotToAccessList_keeps addr slot).1
  | snapshot | revertToSnapshot id => cases hop

theorem getBalance_eq : (s.getBalance addr).1 = s.ledger.balance addr := by
  simp only [getBalance, getStateObject_eq, Ledger.balance, ledger, StateDB.ledger]
  cases s.db.live addr with
  | none | some _ => rfl

theorem getNonce_eq : (s.getNonce addr).1 = s.ledger.nonce addr := by
  simp only [getNonce, getStateObject_eq, Ledger.nonce, ledger, StateDB.ledger]
  cases s.db.live addr with
  | none | some _ => rfl

theorem getCode_eq : (s.getCode addr).1 = s.ledger.code addr := by
  simp only [getCode, getStateObject_eq, Ledger.code, ledger, StateDB.ledger]
  cases s.db.live addr with
  | none | some _ => rfl

end TxState

/-- All that execution can ask of a state: the accounts, and what lives as long as a transaction. -/
structure World where
  ledger : Ledger
  transient : Address → Hash → Hash
  refund : Nat
  logs : Hash → List LogRecord
  logSize : Nat
  accessedAddresses : Address → Bool
  accessedSlots : Address → Hash → Bool

namespace TxState

def world (s : TxState) : World where
  ledger := s.ledger
  transient := s.transient
  refund := s.db.refund
  logs := s.logs
  logSize := s.logSize
  accessedAddresses := s.accessedAddresses
  accessedSlots := s.accessedSlots

theorem world_of_le {may : Address → Prop} {s t : TxState} (h : (txEntries (accountEntries_tracked may)).le s t) :
    t.world = s.world := by
  obtain ⟨htracks, hrest⟩ := h
  simp only [world, World.mk.injEq]
  exact ⟨htracks.caches.ledger, hrest.transient, htracks.caches.refund, hrest.logs, hrest.logSize,
    hrest.accessedAddresses, hrest.accessedSlots⟩

theorem world_withAccounts (s : TxState) {db : StateDB} (hrefund : db.refund = s.db.refund) :
    (s.withAccounts db).world = { s.world with ledger := db.ledger } := by
  have hsame : (s.withAccounts db).db.refund = s.db.refund := hrefund
  rw [world, hsame]
  rfl

theorem world_getStateObject (s : TxState) (addr : Address) : (s.getStateObject addr).2.world = s.world := by
  obtain ⟨-, hcaches, -, -⟩ := s.accounts.getStateObject_spec addr
  refine (s.world_withAccounts hcaches.refund).trans ?_
  rw [hcaches.ledger]
  rfl

theorem world_setNonce (s : TxState) (addr : Address) (nonce : Nat) :
    (s.setNonce addr nonce).world = { s.world with ledger := s.ledger.step (.setNonce addr nonce) } := by
  refine (s.world_withAccounts (s.accounts.quiet_setNonce addr nonce).refund).trans ?_
  have hledger : (s.accounts.setNonce addr nonce).ledger = s.ledger.step (.setNonce addr nonce) :=
    s.ledger_step (.setNonce addr nonce) rfl
  rw [hledger]

end TxState

/-! ### The end of a transaction or block -/

/-- An account that does not outlive the transaction: it has destroyed itself, or it is empty. -/
def Entry.Gone (e : Entry) : Prop := e.selfDestructed = true ∨ e.account.isEmpty = true

theorem StateDB.ledger_finalise (s : StateDB) (deleteEmptyObjects : Bool) (addr : Address) :
    (s.finalise deleteEmptyObjects).ledger addr = s.ledger addr ∨
      (s.finalise deleteEmptyObjects).ledger addr = none ∧ ∀ e, s.ledger addr = some e → e.Gone := by
  simp only [ledger, live, finalise]
  cases hobj : s.objects addr with
  | none => exact .inl rfl
  | some o =>
    simp only [Option.map_some]
    split
    · rename_i hgone
      refine .inr ⟨rfl, fun e he => ?_⟩
      rw [Bool.and_eq_true, Bool.or_eq_true, Bool.and_eq_true] at hgone
      cases hdeleted : o.deleted with
      | true =>
        rw [hdeleted] at he
        cases he
      | false =>
        rw [hdeleted] at he
        cases he
        exact hgone.2.imp id fun h => h.2
    · exact .inl rfl

/-- An account that is there once the transaction has ended has not destroyed itself. -/
theorem StateDB.Coherent.selfDestructed_finalise {s : StateDB} (hs : s.Coherent) {deleteEmptyObjects : Bool}
    {addr : Address} {e : Entry} (he : (s.finalise deleteEmptyObjects).ledger addr = some e) :
    e.selfDestructed = false := by
  simp only [ledger, live, StateDB.finalise] at he
  cases hobj : s.objects addr with
  | none =>
    rw [hobj] at he
    obtain ⟨o, ho, rfl⟩ := Option.map_eq_some_iff.mp he
    obtain ⟨a, -, rfl⟩ := Option.map_eq_some_iff.mp ho
    rfl
  | some o =>
    simp only [hobj, Option.map_some] at he
    cases hdirty : s.objectsDirty addr with
    | false =>
      rw [hdirty, Bool.false_and, if_neg Bool.false_ne_true] at he
      rcases hs.untouched addr o hobj hdirty with ⟨hdeleted, -⟩ | ⟨a, -, halike⟩
      · rw [hdeleted] at he
        cases he
      · rw [halike.deleted] at he
        cases he
        exact halike.selfDestructed
    | true =>
      by_cases hgone : (true && (o.selfDestructed || deleteEmptyObjects && o.data.isEmpty)) = true
      · rw [hdirty, if_pos hgone] at he
        cases he
      · rw [hdirty, if_neg hgone] at he
        rw [Bool.true_and, Bool.or_eq_true, not_or, Bool.not_eq_true] at hgone
        split at he
        · cases he
        · cases he
          exact hgone.1

/-- What a commit writes of an account is what can be asked of it, unless it is deleted. -/
theorem StateDB.Coherent.outcome_eq {s : StateDB} (hs : s.Coherent) (deleteEmptyObjects : Bool) (addr : Address) :
    (∃ e, s.ledger addr = some e ∧ s.outcome deleteEmptyObjects addr = some e.account) ∨
      s.outcome deleteEmptyObjects addr = none ∧ ∀ e, s.ledger addr = some e → e.Gone := by
  cases hdirty : s.objectsDirty addr with
  | true =>
    obtain ⟨o, hobj⟩ := hs.touched addr hdirty
    rw [outcome_of_touched hobj hdirty (hs.bare addr o hobj)]
    cases hdeleted : o.deleted with
    | true =>
      refine .inr ⟨rfl, fun e he => ?_⟩
      simp only [ledger, live, hobj, hdeleted, if_true] at he
      cases he
    | false =>
      have howner := ledger_of_objects hobj hdeleted
      by_cases hgone : (o.selfDestructed || deleteEmptyObjects && o.data.isEmpty) = true
      · refine .inr ⟨by rw [Bool.false_or, if_pos hgone], fun e he => ?_⟩
        rw [howner] at he
        cases he
        rw [Bool.or_eq_true, Bool.and_eq_true] at hgone
        exact hgone.imp id fun h => h.2
      · exact .inl ⟨o.entry, howner, by rw [Bool.false_or, if_neg hgone]; rfl⟩
  | false =>
    rw [outcome_of_untouched hdirty]
    cases hobj : s.objects addr with
    | none =>
      cases htrie : s.trie addr with
      | none =>
        refine .inr ⟨rfl, fun e he => ?_⟩
        simp only [ledger, live, hobj, htrie] at he
        cases he
      | some a => exact .inl ⟨(StateObject.newObject a).entry, by simp only [ledger, live, hobj, htrie, Option.map_some], rfl⟩
    | some o =>
      rcases hs.untouched addr o hobj hdirty with ⟨hdeleted, htrie⟩ | ⟨a, htrie, halike⟩
      · refine .inr ⟨htrie, fun e he => ?_⟩
        simp only [ledger, live, hobj, hdeleted, if_true] at he
        cases he
      · refine .inl ⟨o.entry, ledger_of_objects hobj halike.deleted, ?_⟩
        rw [htrie, halike.entry]
        rfl

namespace TxState

theorem db_prepare (s : TxState) (sender coinbase : Address) (dest : Option Address) (precompiles : List Address)
    (list : Core.AccessList) : (s.prepare sender coinbase dest precompiles list).db = s.db :=
  prepare_rule (P := fun t => t.db = s.db) (fun t addr ht => (t.addAddressToAccessList_keeps addr).1.trans ht)
    (fun t addr slot ht => (t.addSlotToAccessList_keeps addr slot).1.trans ht) sender coinbase dest precompiles list rfl

end TxState

end PadiChain.State

import PadiChain.CoreBlock
import PadiChain.LibTransition
import PadiChain.StateUndo

/-! The state as a transaction sees it: the accounts, and beside them transient storage, the logs and the
access list. All of them share one journal. The accounts are those of `StateDB`, whose own journal holds
only what the operation at hand has appended. -/

namespace PadiChain.State

open Function

open Core (Log AccessList)

structure LogRecord where
  log : Log
  blockNumber : Nat
  txHash : Hash
  txIndex : UInt64
  index : Nat
  deriving DecidableEq

/-- The journal entries of a transaction; those of the accounts are as before. -/
inductive TxEntry where
  | account (entry : JournalEntry)
  | transientStorage (account : Address) (key prev : Hash)
  | addLog (txHash : Hash)
  | accessListAddAccount (address : Address)
  | accessListAddSlot (address : Address) (slot : Hash)

structure TxState where
  db : StateDB
  transient : Address → Hash → Hash
  logs : Hash → List LogRecord
  logSize : Nat
  accessedAddresses : Address → Bool
  accessedSlots : Address → Hash → Bool
  thash : Hash
  txIndex : Int
  journal : List TxEntry
  revisions : List (Nat × Nat)
  nextRevID : Nat

def TxEntry.revert (s : TxState) : TxEntry → TxState
  | account entry => { s with db := entry.revert s.db }
  | transientStorage addr key prev =>
    { s with transient := update s.transient addr (update (s.transient addr) key prev) }
  | addLog txHash =>
    { s with
      logs := update s.logs txHash (s.logs txHash).dropLast
      logSize := s.logSize - 1 }
  | accessListAddAccount address =>
    { s with
      accessedAddresses := update s.accessedAddresses address false
      accessedSlots := update s.accessedSlots address fun _ => false }
  | accessListAddSlot address slot =>
    { s with
      accessedSlots :=
        update s.accessedSlots address (update (s.accessedSlots address) slot false) }

namespace TxState

def new (trie : Address → Option Account) : TxState where
  db := .new trie
  transient _ _ := 0
  logs _ := []
  logSize := 0
  accessedAddresses _ := false
  accessedSlots _ _ := false
  thash := 0
  txIndex := -1
  journal := []
  revisions := []
  nextRevID := 0

/-- The accounts with a journal that is still empty. -/
def accounts (s : TxState) : StateDB := { s.db with journal := [] }

/-- An operation on the accounts has left `db`; what it appended goes to the shared journal. -/
def withAccounts (s : TxState) (db : StateDB) : TxState :=
  { s with db := { db with journal := [] }, journal := db.journal.map .account ++ s.journal }

def append (s : TxState) (entry : TxEntry) : TxState := { s with journal := entry :: s.journal }

/-! ### Accounts -/

def getStateObject (s : TxState) (addr : Address) : Option StateObject × TxState :=
  let (obj, db) := s.accounts.getStateObject addr
  (obj, s.withAccounts db)

def exist (s : TxState) (addr : Address) : Bool × TxState :=
  let (obj, s) := s.getStateObject addr
  (obj.isSome, s)

def empty (s : TxState) (addr : Address) : Bool × TxState :=
  let (obj, s) := s.getStateObject addr
  (obj.elim true fun o => o.data.isEmpty, s)

def getBalance (s : TxState) (addr : Address) : Int × TxState :=
  let (obj, s) := s.getStateObject addr
  (obj.elim 0 fun o => o.data.balance, s)

def getNonce (s : TxState) (addr : Address) : Nat × TxState :=
  let (obj, s) := s.getStateObject addr
  (obj.elim 0 fun o => o.data.nonce, s)

def getCode (s : TxState) (addr : Address) : Bytes × TxState :=
  let (obj, s) := s.getStateObject addr
  (obj.elim [] fun o => o.data.code, s)

def hasSelfDestructed (s : TxState) (addr : Address) : Bool × TxState :=
  let (obj, s) := s.getStateObject addr
  (obj.elim false fun o => o.selfDestructed, s)

def getState (s : TxState) (addr : Address) (key : Hash) : Hash × TxState :=
  let (value, db) := s.accounts.getState addr key
  (value, s.withAccounts db)

def getCommittedState (s : TxState) (addr : Address) (key : Hash) : Hash × TxState :=
  let (value, db) := s.accounts.getCommittedState addr key
  (value, s.withAccounts db)

def createAccount (s : TxState) (addr : Address) : TxState := s.withAccounts (s.accounts.createAccount addr)

def addBalance (s : TxState) (addr : Address) (amount : Int) : TxState :=
  s.withAccounts (s.accounts.addBalance addr amount)

def subBalance (s : TxState) (addr : Address) (amount : Int) : TxState :=
  s.withAccounts (s.accounts.subBalance addr amount)

def setBalance (s : TxState) (addr : Address) (amount : Int) : TxState :=
  s.withAccounts ((s.accounts.getOrNewStateObject addr).2.setBalance addr fun _ => amount)

def setNonce (s : TxState) (addr : Address) (nonce : Nat) : TxState :=
  s.withAccounts (s.accounts.setNonce addr nonce)

def setCode (s : TxState) (addr : Address) (code : Bytes) : TxState :=
  s.withAccounts (s.accounts.setCode addr code)

def setState (s : TxState) (addr : Address) (key value : Hash) : TxState :=
  s.withAccounts (s.accounts.setState addr key value)

def selfDestruct (s : TxState) (addr : Address) : TxState := s.withAccounts (s.accounts.selfDestruct addr)

def addRefund (s : TxState) (gas : Nat) : TxState := s.withAccounts (s.accounts.addRefund gas)

def subRefund (s : TxState) (gas : Nat) : TxState := s.withAccounts (s.accounts.subRefund gas)

/-! ### Transient storage, logs and the access list -/

def getTransientState (s : TxState) (addr : Address) (key : Hash) : Hash := s.transient addr key

def setTransientState (s : TxState) (addr : Address) (key value : Hash) : TxState :=
  if s.transient addr key = value then s
  else
    { s.append (.transientStorage addr key (s.transient addr key)) with
      transient := update s.transient addr (update (s.transient addr) key value) }

def addLog (s : TxState) (log : Log) (blockNumber : Nat) : TxState :=
  { s.append (.addLog s.thash) with
    logs :=
      update s.logs s.thash
        (s.logs s.thash ++ [⟨log, blockNumber, s.thash, UInt64.ofInt s.txIndex, s.logSize⟩])
    logSize := s.logSize + 1 }

def addressInAccessList (s : TxState) (addr : Address) : Bool := s.accessedAddresses addr

def slotInAccessList (s : TxState) (addr : Address) (slot : Hash) : Bool × Bool :=
  (s.accessedAddresses addr, s.accessedSlots addr slot)

def addAddressToAccessList (s : TxState) (addr : Address) : TxState :=
  if s.accessedAddresses addr then s
  else
    { s.append (.accessListAddAccount addr) with
      accessedAddresses := update s.accessedAddresses addr true }

def addSlotToAccessList (s : TxState) (addr : Address) (slot : Hash) : TxState :=
  let s := s.addAddressToAccessList addr
  if s.accessedSlots addr slot then s
  else
    { s.append (.accessListAddSlot addr slot) with
      accessedSlots := update s.accessedSlots addr (update (s.accessedSlots addr) slot true) }

/-- `Prepare`: a new access list, with what the transaction is bound to touch. -/
def prepare (s : TxState) (sender coinbase : Address) (dest : Option Address) (precompiles : List Address)
    (list : AccessList) : TxState :=
  let s := { s with accessedAddresses := fun _ => false, accessedSlots := fun _ _ => false }
  let s := (sender :: dest.toList ++ precompiles).foldl addAddressToAccessList s
  let s := list.foldl
    (fun s tuple => tuple.2.foldl (fun s key => s.addSlotToAccessList tuple.1 key) (s.addAddressToAccessList tuple.1)) s
  s.addAddressToAccessList coinbase

def setTxContext (s : TxState) (hash : Hash) (index : Int) : TxState := { s with thash := hash, txIndex := index }

/-! ### Snapshots, and the end of a transaction or block -/

def snapshot (s : TxState) : Nat × TxState :=
  (s.nextRevID,
    { s with nextRevID := s.nextRevID + 1, revisions := (s.nextRevID, s.journal.length) :: s.revisions })

/-- The journal cut back to a length, its newest entries undone first. -/
def revertJournal (s : TxState) (target : Nat) : TxState :=
  let undone := s.journal.take (s.journal.length - target)
  { undone.foldl TxEntry.revert s with journal := s.journal.drop (s.journal.length - target) }

/-- An id that is not among the revisions panics. -/
def revertToSnapshot (s : TxState) (id : Nat) : Option TxState :=
  match s.revisions.dropWhile fun r => id < r.1 with
  | [] => none
  | r :: older => if r.1 = id then some { s.revertJournal r.2 with revisions := older } else none

def finalise (s : TxState) (deleteEmptyObjects : Bool) : TxState :=
  { s with
    db := s.db.finalise deleteEmptyObjects
    journal := []
    revisions := []
    transient := fun _ _ => 0 }

def copy (s : TxState) : TxState := { s with journal := [], revisions := [], nextRevID := 0 }

end TxState

/-- An object once it is committed: the pending writes are the new baseline. What a created account reads is
its whole storage. -/
def StateObject.settle (o : StateObject) : StateObject :=
  { o with
    data := { o.data with storage := o.value }
    originStorage := fun key => (o.dirtyStorage key).or (o.originStorage key)
    dirtyStorage := fun _ => none
    created := false
    cached := by
      intro key v h
      simp only [StateObject.value, StateObject.committed, Bool.false_eq_true, if_false]
      cases hdirty : o.dirtyStorage key with
      | some w =>
        rw [hdirty, Option.some_or] at h
        exact (Option.some.inj h).symm
      | none =>
        rw [hdirty, Option.none_or] at h
        rw [h]
        rfl }

/-- The state after `Commit`, over the trie it has written. -/
def StateDB.afterCommit (s : StateDB) (deleteEmptyObjects : Bool) (trie : Address → Option Account) : StateDB :=
  let s := s.finalise deleteEmptyObjects
  { s with
    trie := trie
    objects := fun addr =>
      (s.objects addr).map fun o => if s.objectsDirty addr && !o.deleted then o.settle else o
    objectsDirty := fun _ => false }

/-- `Commit`: the accounts the new trie holds and the state after it, or the error the state has recorded. -/
def TxState.commit (s : TxState) (deleteEmptyObjects : Bool) :
    Except StateError ((Address → Option Account) × TxState) :=
  (s.db.commit deleteEmptyObjects).map fun trie =>
    (trie, { s.finalise deleteEmptyObjects with db := s.db.afterCommit deleteEmptyObjects trie })

/-! ### Runs -/

/-- What can be done to the state between a snapshot and the return to it. Reading is an operation too: it loads
accounts and slots. -/
inductive TxOp where
  | getStateObject (addr : Address)
  | getState (addr : Address) (key : Hash)
  | getCommittedState (addr : Address) (key : Hash)
  | createAccount (addr : Address)
  | addBalance (addr : Address) (amount : Int)
  | subBalance (addr : Address) (amount : Int)
  | setBalance (addr : Address) (amount : Int)
  | setNonce (addr : Address) (nonce : Nat)
  | setCode (addr : Address) (code : Bytes)
  | setState (addr : Address) (key value : Hash)
  | selfDestruct (addr : Address)
  | addRefund (gas : Nat)
  | subRefund (gas : Nat)
  | setTransientState (addr : Address) (key value : Hash)
  | addLog (log : Log) (blockNumber : Nat)
  | addAddressToAccessList (addr : Address)
  | addSlotToAccessList (addr : Address) (slot : Hash)
  | snapshot
  | revertToSnapshot (id : Nat)

inductive BlockOp where
  | tx (op : TxOp)
  | prepare (sender coinbase : Address) (dest : Option Address) (precompiles : List Address) (list : AccessList)
  | setTxContext (hash : Hash) (index : Int)
  | finalise (deleteEmptyObjects : Bool)
  | commit (deleteEmptyObjects : Bool)
  | copy

namespace TxState

/-- An unknown snapshot panics: nothing is executed. -/
def step (s : TxState) : TxOp → TxState
  | .getStateObject addr => (s.getStateObject addr).2
  | .getState addr key => (s.getState addr key).2
  | .getCommittedState addr key => (s.getCommittedState addr key).2
  | .createAccount addr => s.createAccount addr
  | .addBalance addr amount => s.addBalance addr amount
  | .subBalance addr amount => s.subBalance addr amount
  | .setBalance addr amount => s.setBalance addr amount
  | .setNonce addr nonce => s.setNonce addr nonce
  | .setCode addr code => s.setCode addr code
  | .setState addr key value => s.setState addr key value
  | .selfDestruct addr => s.selfDestruct addr
  | .addRefund gas => s.addRefund gas
  | .subRefund gas => s.subRefund gas
  | .setTransientState addr key value => s.setTransientState addr key value
  | .addLog log blockNumber => s.addLog log blockNumber
  | .addAddressToAccessList addr => s.addAddressToAccessList addr
  | .addSlotToAccessList addr slot => s.addSlotToAccessList addr slot
  | .snapshot => s.snapshot.2
  | .revertToSnapshot id => (s.revertToSnapshot id).getD s

/-- A commit that fails reports the error before it has changed anything but what `Finalise` does. -/
def blockStep (s : TxState) : BlockOp → TxState
  | .tx op => s.step op
  | .prepare sender coinbase dest precompiles list => s.prepare sender coinbase dest precompiles list
  | .setTxContext hash index => s.setTxContext hash index
  | .finalise deleteEmptyObjects => s.finalise deleteEmptyObjects
  | .commit deleteEmptyObjects =>
    match s.commit deleteEmptyObjects with
    | .ok (_, t) => t
    | .error _ => s.finalise deleteEmptyObjects
  | .copy => s.copy

end TxState

/-- All that can be asked of a state, the root that `Finalise` and `Commit` would produce next included: the
root of the trie with these accounts. -/
structure Observed where
  exist : Address → Bool
  empty : Address → Bool
  balance : Address → Int
  nonce : Address → Nat
  code : Address → Bytes
  state : Address → Hash → Hash
  committedState : Address → Hash → Hash
  selfDestructed : Address → Bool
  transientState : Address → Hash → Hash
  refund : Nat
  logs : Hash → List LogRecord
  logSize : Nat
  addressInAccessList : Address → Bool
  slotInAccessList : Address → Hash → Bool × Bool
  error : Option StateError
  root : Bool → Except StateError (Address → Option Account)

def TxState.observe (s : TxState) : Observed where
  exist addr := (s.exist addr).1
  empty addr := (s.empty addr).1
  balance addr := (s.getBalance addr).1
  nonce addr := (s.getNonce addr).1
  code addr := (s.getCode addr).1
  state addr key := (s.getState addr key).1
  committedState addr key := (s.getCommittedState addr key).1
  selfDestructed addr := (s.hasSelfDestructed addr).1
  transientState := s.getTransientState
  refund := s.db.refund
  logs := s.logs
  logSize := s.logSize
  addressInAccessList := s.addressInAccessList
  slotInAccessList := s.slotInAccessList
  error := s.db.err
  root deleteEmptyObjects := (s.commit deleteEmptyObjects).map Prod.fst

end PadiChain.State

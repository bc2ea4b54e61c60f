import PadiChain.Common
import PadiChain.LibUndo

/-! The state a block is executed on: accounts loaded from the trie, each with the slots it has read
and the slots it has written, and a journal that can undo every write. An account's code stands for
its code hash, and its storage for the root of the storage trie. The trie is taken as readable. -/

namespace PadiChain.State

open Function

structure Account where
  nonce : Nat
  balance : Int
  code : Bytes
  storage : Hash → Hash

namespace Account

def new : Account := ⟨0, 0, [], fun _ => 0⟩

def isEmpty (a : Account) : Bool := a.nonce == 0 && a.balance == 0 && a.code.isEmpty

end Account

/-- An account together with its pending changes. A cached value is the one in the account's storage
trie, or zero for an account that was created. -/
structure StateObject where
  data : Account
  originStorage : Hash → Option Hash
  dirtyStorage : Hash → Option Hash
  selfDestructed : Bool
  deleted : Bool
  created : Bool
  cached : ∀ key v, originStorage key = some v → v = if created then 0 else data.storage key

namespace StateObject

def newObject (data : Account) : StateObject where
  data := data
  originStorage _ := none
  dirtyStorage _ := none
  selfDestructed := false
  deleted := false
  created := false
  cached _ _ h := nomatch h

def createdObject : StateObject := { newObject .new with created := true, cached := nofun }

/-- What `committedState` answers: the cached value, or the trie's, or zero for a created account. -/
def committed (o : StateObject) (key : Hash) : Hash :=
  (o.originStorage key).getD (if o.created then 0 else o.data.storage key)

/-- What `GetState` answers: the pending write, or what is committed. -/
def value (o : StateObject) (key : Hash) : Hash := (o.dirtyStorage key).getD (o.committed key)

/-- The slot cached as it was read. -/
def setOrigin (o : StateObject) (key : Hash) : StateObject :=
  { o with
    originStorage :=
      update o.originStorage key (some (if o.created then 0 else o.data.storage key))
    cached := by
      intro k v h
      by_cases hk : k = key
      · subst hk
        rw [update_self] at h
        exact (Option.some.inj h).symm
      · rw [update_of_ne hk] at h
        exact o.cached k v h }

def setDirty (o : StateObject) (key : Hash) (pending : Option Hash) : StateObject :=
  { o with dirtyStorage := update o.dirtyStorage key pending }

end StateObject

inductive ObjectChange where
  | balance (prev : Int)
  | nonce (prev : Nat)
  | code (prev : Bytes)
  | storage (key prev : Hash) (existed : Bool)
  | selfDestruct (prev : Bool) (prevBalance : Int)

def ObjectChange.revert (o : StateObject) : ObjectChange → StateObject
  | balance prev => { o with data := { o.data with balance := prev } }
  | nonce prev => { o with data := { o.data with nonce := prev } }
  | code prev => { o with data := { o.data with code := prev } }
  | storage key prev existed =>
    -- only a zero slot without a pending write loses its entry; any other keeps one
    if !existed && prev = 0 then o.setDirty key none else o.setDirty key (some prev)
  | selfDestruct prev prevBalance =>
    { o with selfDestructed := prev, data := { o.data with balance := prevBalance } }

inductive JournalEntry where
  | createObject (account : Address) (prev : Option StateObject)
  | object (account : Address) (change : ObjectChange)
  | refund (prev : Nat)

inductive StateError where
  | refundUnderflow (removing counter : Nat)
  deriving DecidableEq

/-- The journal is kept newest first, and so are the revisions: an id and the length of the journal
when it was given out. -/
structure StateDB where
  trie : Address → Option Account
  objects : Address → Option StateObject
  objectsDirty : Address → Bool
  journal : List JournalEntry
  revisions : List (Nat × Nat)
  nextRevID : Nat
  refund : Nat
  err : Option StateError

namespace StateDB

def new (trie : Address → Option Account) : StateDB :=
  ⟨trie, fun _ => none, fun _ => false, [], [], 0, 0, none⟩

def setError (s : StateDB) (e : StateError) : StateDB := { s with err := s.err.or (some e) }

def append (s : StateDB) (entry : JournalEntry) : StateDB := { s with journal := entry :: s.journal }

def putObject (s : StateDB) (addr : Address) (obj : StateObject) : StateDB :=
  { s with objects := update s.objects addr (some obj) }

def markDirty (s : StateDB) (addr : Address) : StateDB :=
  { s with objectsDirty := update s.objectsDirty addr true }

def getStateObject (s : StateDB) (addr : Address) : Option StateObject × StateDB :=
  match s.objects addr with
  | some obj => (if obj.deleted then none else some obj, s)
  | none =>
    match s.trie addr with
    | none => (none, s)
    | some account => (some (.newObject account), s.putObject addr (.newObject account))

def createObject (s : StateDB) (addr : Address) : StateObject × StateDB :=
  let obj := StateObject.createdObject
  (obj, ((s.append (.createObject addr (s.objects addr))).putObject addr obj).markDirty addr)

def getOrNewStateObject (s : StateDB) (addr : Address) : StateObject × StateDB :=
  match s.getStateObject addr with
  | (some obj, s) => (obj, s)
  | (none, s) => s.createObject addr

/-- A balance already sent to the address is preserved. -/
def createAccount (s : StateDB) (addr : Address) : StateDB :=
  let (prev, s) := s.getStateObject addr
  let (obj, s) := s.createObject addr
  match prev with
  | none => s
  | some prev => s.putObject addr { obj with data := { obj.data with balance := prev.data.balance } }

def exist (s : StateDB) (addr : Address) : Bool × StateDB :=
  let (obj, s) := s.getStateObject addr
  (obj.isSome, s)

def change (s : StateDB) (addr : Address) (entry : StateObject → ObjectChange)
    (f : StateObject → StateObject) : StateDB :=
  match s.objects addr with
  | none => s
  | some obj => ((s.append (.object addr (entry obj))).putObject addr (f obj)).markDirty addr

def setBalance (s : StateDB) (addr : Address) (amount : StateObject → Int) : StateDB :=
  s.change addr (fun o => .balance o.data.balance)
    fun o => { o with data := { o.data with balance := amount o } }

def addBalance (s : StateDB) (addr : Address) (amount : Int) : StateDB :=
  if amount = 0 then
    let (found, s) := s.exist addr
    if found then (s.getOrNewStateObject addr).2 else s
  else (s.getOrNewStateObject addr).2.setBalance addr fun o => o.data.balance + amount

def subBalance (s : StateDB) (addr : Address) (amount : Int) : StateDB :=
  if amount = 0 then s
  else (s.getOrNewStateObject addr).2.setBalance addr fun o => o.data.balance - amount

def setNonce (s : StateDB) (addr : Address) (nonce : Nat) : StateDB :=
  (s.getOrNewStateObject addr).2.change addr (fun o => .nonce o.data.nonce)
    fun o => { o with data := { o.data with nonce := nonce } }

def setCode (s : StateDB) (addr : Address) (code : Bytes) : StateDB :=
  (s.getOrNewStateObject addr).2.change addr (fun o => .code o.data.code)
    fun o => { o with data := { o.data with code := code } }

def committedState (s : StateDB) (addr : Address) (obj : StateObject) (key : Hash) : Hash × StateDB :=
  match obj.originStorage key with
  | some value => (value, s)
  | none =>
    (if obj.created then 0 else obj.data.storage key, s.putObject addr (obj.setOrigin key))

def getState (s : StateDB) (addr : Address) (key : Hash) : Hash × StateDB :=
  match s.getStateObject addr with
  | (none, s) => (0, s)
  | (some obj, s) =>
    match obj.dirtyStorage key with
    | some value => (value, s)
    | none => s.committedState addr obj key

def getCommittedState (s : StateDB) (addr : Address) (key : Hash) : Hash × StateDB :=
  match s.getStateObject addr with
  | (none, s) => (0, s)
  | (some obj, s) => s.committedState addr obj key

def setState (s : StateDB) (addr : Address) (key value : Hash) : StateDB :=
  let (prev, s) := (s.getOrNewStateObject addr).2.getState addr key
  if prev = value then s
  else
    s.change addr (fun o => .storage key prev (o.dirtyStorage key).isSome)
      fun o => o.setDirty key (some value)

def selfDestruct (s : StateDB) (addr : Address) : StateDB :=
  match s.getStateObject addr with
  | (none, s) => s
  | (some _, s) =>
    s.change addr (fun o => .selfDestruct o.selfDestructed o.data.balance)
      fun o => { o with selfDestructed := true, data := { o.data with balance := 0 } }

def addRefund (s : StateDB) (gas : Nat) : StateDB :=
  { s.append (.refund s.refund) with refund := s.refund + gas }

def subRefund (s : StateDB) (gas : Nat) : StateDB :=
  let t := s.append (.refund s.refund)
  if s.refund < gas then { t.setError (.refundUnderflow gas s.refund) with refund := 0 }
  else { t with refund := s.refund - gas }

def snapshot (s : StateDB) : Nat × StateDB :=
  (s.nextRevID,
    { s with nextRevID := s.nextRevID + 1, revisions := (s.nextRevID, s.journal.length) :: s.revisions })

end StateDB

def JournalEntry.revert (s : StateDB) : JournalEntry → StateDB
  | createObject account none =>
    { s with
      objects := update s.objects account none
      objectsDirty := update s.objectsDirty account false }
  | createObject account (some prev) => s.putObject account prev
  | object account change =>
    match s.objects account with
    | none => s
    | some obj => s.putObject account (change.revert obj)
  | refund prev => { s with refund := prev }

namespace StateDB

/-- The journal cut back to a length, its newest entries undone first. -/
def revertJournal (s : StateDB) (target : Nat) : StateDB :=
  let undone := s.journal.take (s.journal.length - target)
  { undone.foldl JournalEntry.revert s with journal := s.journal.drop (s.journal.length - target) }

/-- An id that is not among the revisions panics. -/
def revertToSnapshot (s : StateDB) (id : Nat) : Option StateDB :=
  match s.revisions.dropWhile fun r => id < r.1 with
  | [] => none
  | r :: older => if r.1 = id then some { s.revertJournal r.2 with revisions := older } else none

/-- The end of a transaction. The pending writes stay pending, and the cached values stay. -/
def finalise (s : StateDB) (deleteEmptyObjects : Bool) : StateDB :=
  { s with
    objects := fun addr =>
      (s.objects addr).map fun o =>
        if s.objectsDirty addr && (o.selfDestructed || (deleteEmptyObjects && o.data.isEmpty)) then
          { o with deleted := true, dirtyStorage := fun _ => none }
        else o
    journal := []
    revisions := []
    refund := 0 }

def commit (s : StateDB) (deleteEmptyObjects : Bool) : Except StateError (Address → Option Account) :=
  let s := s.finalise deleteEmptyObjects
  match s.err with
  | some e => .error e
  | none => .ok fun addr =>
    match s.objects addr with
    | none => s.trie addr
    | some o =>
      if !s.objectsDirty addr then s.trie addr
      else if o.deleted then none
      else some { o.data with storage := fun key => (o.dirtyStorage key).getD (o.data.storage key) }

end StateDB

end PadiChain.State

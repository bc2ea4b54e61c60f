import PadiChain.TrieCodec

/-! Tries over a store of encodings. A node that a path leads to is read from the store and decoded; what was
read on the way stays in memory. Hashing caches the hash of each node, committing puts the encodings into a
batch as well. A step of a client acts on one of its tries, on a copy, or opens a root again that a commit
has given. -/

namespace PadiChain.Trie

/-- The trie nodes of a store: an encoding under each hash. -/
abbrev Disk := Hash → Option Bytes

namespace Disk

section Store

variable (disk : Disk)

def resolveHash (h : Hash) : Except TrieError TrieNode :=
  match disk h with
  | none => .error (.missingNode h)
  | some enc =>
    match decodeNode (enc.length + 1) (some h) enc with
    | .ok n => .ok n
    | .error _ => .error (.invalidNode h)
    | .panic => .error .indexOutOfRange
    | .diverge => .error (.depth h)

/-- An edit of a node that is still in the store: what comes back is the resolved node. -/
def editStored (edit : TrieNode → List Nibble → Except TrieError (Bool × TrieNode)) (h : Hash) (key : List Nibble) :
    Except TrieError (Bool × TrieNode) :=
  match resolveHash disk h with
  | .error e => .error e
  | .ok n => edited n id (edit n key)

/-- `insert`, through at most `depth` stored nodes. -/
def insert (value : Bytes) : Nat → TrieNode → List Nibble → Except TrieError (Bool × TrieNode)
  | 0 => insertWith (fun h _ => .error (.depth h)) value
  | depth + 1 => insertWith (editStored disk (insert value depth)) value

/-- `delete`, through at most `depth` stored nodes. -/
def delete : Nat → TrieNode → List Nibble → Except TrieError (Bool × TrieNode)
  | 0 => deleteWith (resolveHash disk) fun h _ => .error (.depth h)
  | depth + 1 => deleteWith (resolveHash disk) (editStored disk (delete depth))

/-- What `get` returns of a node: the value, the node with what was read below it, and whether anything was
read. -/
abbrev Found := Option Bytes × TrieNode × Bool

def foundBelow (n : TrieNode) (rebuild : TrieNode → TrieNode) : Except TrieError Found → Except TrieError Found
  | .error e => .error e
  | .ok (v, _, false) => .ok (v, n, false)
  | .ok (v, below, true) => .ok (v, rebuild below, true)

/-- `get`, over a node and what is inlined in it. -/
def findWith (onHash : Hash → List Nibble → Except TrieError Found) : TrieNode → List Nibble → Except TrieError Found
  | .nil, _ => .ok (none, .nil, false)
  | .value v, _ => .ok (some v, .value v, false)
  | .hash h, path => onHash h path
  | .short key child flags, path =>
    if key.isPrefixOf path then
      foundBelow (.short key child flags) (fun below => .short key below flags)
        (findWith onHash child (path.drop key.length))
    else .ok (none, .short key child flags, false)
  | .full _ _, [] => .error .indexOutOfRange
  | .full children flags, i :: path =>
    foundBelow (.full children flags) (fun below => .full (Function.update children i below) flags)
      (findWith onHash (children i) path)

/-- A node that is read from the store. -/
def findStored (find : TrieNode → List Nibble → Except TrieError Found) (h : Hash) (path : List Nibble) :
    Except TrieError Found :=
  match resolveHash disk h with
  | .error e => .error e
  | .ok n =>
    match find n path with
    | .error e => .error e
    | .ok (v, n, _) => .ok (v, n, true)

/-- `get`, through at most `depth` stored nodes. -/
def find : Nat → TrieNode → List Nibble → Except TrieError Found
  | 0 => findWith fun h _ => .error (.depth h)
  | depth + 1 => findWith (findStored disk (find depth))

/-- `Get`. A stored node takes at least one digit of the path, so there are no more of them on it than it has
digits. -/
def get (n : TrieNode) (key : Bytes) : Except TrieError (Option Bytes × TrieNode) :=
  (find disk (keyToNibbles key).length n (keyToNibbles key)).map fun found => (found.1, found.2.1)

def deleteKey (n : TrieNode) (key : Bytes) : Except TrieError TrieNode :=
  (delete disk (keyToNibbles key).length n (keyToNibbles key)).map Prod.snd

/-- `Update`: storing an empty value deletes the key. -/
def update (n : TrieNode) (key value : Bytes) : Except TrieError TrieNode :=
  if value = [] then deleteKey disk n key
  else (insert disk value (keyToNibbles key).length n (keyToNibbles key)).map Prod.snd

end Store

/-! ### Hashing and committing -/

def cachedHash (flags : NodeFlag) : Option Hash := if flags.dirty then none else flags.hash

/-- The end of `hashNode`: an encoding of at least 32 bytes stands for its hash. -/
def reference (enc : Encoding) (collapsed : TrieNode) (cached : NodeFlag → TrieNode) (flags : NodeFlag) :
    TrieNode × TrieNode :=
  if 32 ≤ enc.size collapsed then
    (.hash (enc.hash collapsed), cached ⟨some (enc.hash collapsed), false, flags.persisted⟩)
  else (collapsed, cached flags)

/-- The reference form of a node, and the node with its hashes cached. The value of a branch, at 16, is in
reference form already. -/
def hashNode (enc : Encoding) : TrieNode → TrieNode × TrieNode
  | .short path child flags =>
    match cachedHash flags with
    | some h => (.hash h, .short path child flags)
    | none => reference enc (.short path (hashNode enc child).1 flags) (.short path (hashNode enc child).2) flags
  | .full children flags =>
    match cachedHash flags with
    | some h => (.hash h, .full children flags)
    | none =>
      reference enc (.full (fun i => if i = 16 then children i else (hashNode enc (children i)).1) flags)
        (.full fun i => if i = 16 then children i else (hashNode enc (children i)).2) flags
  | n => (n, n)

section Hash

variable (keccak : Bytes → Hash)

def emptyRoot : Hash := keccak [0x80]

/-- `encodeNode` and `Keccak256`. -/
def encoding : Encoding := ⟨fun n => (encodeNode keccak n).length, fun n => keccak (encodeNode keccak n)⟩

/-- `New`: an empty or zero root yields an empty trie. -/
def openTrie (disk : Disk) (root : Hash) : Except TrieError TrieNode :=
  if root = 0 ∨ root = emptyRoot keccak then .ok .nil else resolveHash disk root

def hashOf : TrieNode → Hash
  | .hash h => h
  | ref => keccak (encodeNode keccak ref)

def hash (n : TrieNode) : Hash × TrieNode :=
  if n.isNil then (emptyRoot keccak, .nil)
  else (hashOf keccak (hashNode (encoding keccak) n).1, (hashNode (encoding keccak) n).2)

def commit (n : TrieNode) : (Hash × TrieNode) × List Put :=
  if n.isNil then ((emptyRoot keccak, .nil), [])
  else commitRoot (encoding keccak) (commitNode (encoding keccak) n [])

def writes : List Put → List (Hash × Bytes)
  | [] => []
  | .node h n :: batch => (h, encodeNode keccak n) :: writes batch
  | .code _ _ :: batch => writes batch

def write (disk : Disk) : List (Hash × Bytes) → Disk
  | [] => disk
  | (h, enc) :: rest => write (Function.update disk h (some enc)) rest

end Hash

/-! ### Clients -/

/-- Keys and values that a 64-bit machine can hold together with the node that is encoded for them. -/
def Fits (key value : Bytes) : Prop := (keyToNibbles key).length + value.length + 1024 ≤ Rlp.maxInt

instance (key value : Bytes) : Decidable (Fits key value) := inferInstanceAs (Decidable (_ ≤ _))

inductive Call where
  | update (key value : Bytes) (fits : Fits key value)
  | delete (key : Bytes)
  | get (key : Bytes)
  | hash
  | copy
  | commit

/-- A call on one of the tries, or on a root that an earlier commit returned. -/
inductive Op where
  | on (i : Nat) (call : Call)
  | reopen (j : Nat)

inductive Answer where
  | done
  | value (v : Option Bytes)
  | root (h : Hash)
  | committed (h : Hash) (batch : List (Hash × Bytes))
  | failed (e : TrieError)
  deriving DecidableEq

/-- A store with the tries over it, and the roots that were committed to it. -/
structure World where
  disk : Disk
  tries : List TrieNode
  roots : List Hash

/-- A store of any content, and an empty trie over it. -/
def World.start (disk : Disk) : World := ⟨disk, [.nil], []⟩

def World.edit (w : World) (i : Nat) : Except TrieError TrieNode → World × Answer
  | .error e => (w, .failed e)
  | .ok n => (⟨w.disk, w.tries.set i n, w.roots⟩, .done)

variable (keccak : Bytes → Hash)

def World.call (w : World) (i : Nat) (n : TrieNode) : Call → World × Answer
  | .update key value _ => w.edit i (Disk.update w.disk n key value)
  | .delete key => w.edit i (deleteKey w.disk n key)
  | .get key =>
    match Disk.get w.disk n key with
    | .error e => (w, .failed e)
    | .ok (v, n) => (⟨w.disk, w.tries.set i n, w.roots⟩, .value v)
  | .hash => (⟨w.disk, w.tries.set i (Disk.hash keccak n).2, w.roots⟩, .root (Disk.hash keccak n).1)
  | .copy => (⟨w.disk, w.tries ++ [n], w.roots⟩, .done)
  | .commit =>
    let batch := writes keccak (Disk.commit keccak n).2
    (⟨write w.disk batch, w.tries.set i (Disk.commit keccak n).1.2, w.roots ++ [(Disk.commit keccak n).1.1]⟩,
      .committed (Disk.commit keccak n).1.1 batch)

/-- One call. A call on a trie or a root that is not there does nothing. -/
def World.step (w : World) : Op → World × Answer
  | .on i call =>
    match w.tries[i]? with
    | none => (w, .done)
    | some n => w.call keccak i n call
  | .reopen j =>
    match w.roots[j]? with
    | none => (w, .done)
    | some root =>
      match openTrie keccak w.disk root with
      | .error e => (w, .failed e)
      | .ok n => (⟨w.disk, w.tries ++ [n], w.roots⟩, .done)

end Disk

end PadiChain.Trie

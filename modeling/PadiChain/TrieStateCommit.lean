import PadiChain.TrieCommit

/-! Committing a state: the accounts that changed are written into the account trie in the order of
their addresses, after the slots that changed into their storage tries, and new code beside them. The
new state rests on the parent's state and on what was put into the batch. -/

namespace PadiChain.Trie

open Reach RefGraph List

/-- The hashes of addresses and slots as trie keys, and the RLP encodings of the leaves. -/
structure Codec where
  addressKey : Address → Bytes
  slotKey : Hash → Bytes
  encodeAccount : Account → Option Bytes
  encodeStorageValue : Hash → Option Bytes

/-- An account that was touched, with its pending changes. -/
structure StateObject where
  address : Address
  data : Account
  code : Bytes
  codeDirty : Bool
  dirtyStorage : List (Hash × Hash)
  deleted : Bool

inductive CommitError where
  /-- The first error that made the state inconsistent. -/
  | pending (e : StateError)
  | trie (e : TrieError)
  | encoding
  deriving DecidableEq, Repr

section Commit

variable (content : StateContent) (store : Store) (codec : Codec) (enc : Encoding)

def liftTrie {α β : Type} (r : Except TrieError α) (f : α → β) : Except CommitError β :=
  match r with
  | .error e => .error (.trie e)
  | .ok a => .ok (f a)

/-- One slot of `commitStorage`: a zero value is deleted rather than stored. -/
def commitSlot (n : TrieNode) (slot : Hash × Hash) : Except CommitError TrieNode :=
  if slot.2 = 0 then
    liftTrie (deleteKey content.toContent store n (keyToNibbles (codec.slotKey slot.1))) id
  else
    match codec.encodeStorageValue slot.2 with
    | none => .error .encoding
    | some value =>
      liftTrie (update content.toContent store n (keyToNibbles (codec.slotKey slot.1)) value) id

/-- `commitStorage`: the root of the account's storage trie after the pending writes. -/
def commitStorage (obj : StateObject) (batch : List Put) : Except CommitError (Hash × List Put) :=
  match openTrie content.toContent store obj.data.root with
  | .error e => .error (.trie e)
  | .ok n =>
    match (obj.dirtyStorage.insertionSort fun a b => a.1.toNat ≤ b.1.toNat).foldlM
      (commitSlot content store codec) n with
    | .error e => .error e
    | .ok n => .ok ((commit enc n batch).1.1, (commit enc n batch).2)

def commitCode (obj : StateObject) (batch : List Put) : List Put :=
  if obj.codeDirty && !obj.code.isEmpty then batch ++ [.code (bytesToHash obj.data.codeHash) obj.code]
  else batch

/-- One account of `commitTo`. -/
def commitObject (acc : TrieNode × List Put) (obj : StateObject) :
    Except CommitError (TrieNode × List Put) :=
  let path := keyToNibbles (codec.addressKey obj.address)
  if obj.deleted then liftTrie (deleteKey content.toContent store acc.1 path) fun n => (n, acc.2)
  else
    match
      if obj.dirtyStorage.isEmpty then .ok (obj.data.root, acc.2)
      else commitStorage content store codec enc obj acc.2 with
    | .error e => .error e
    | .ok (root, batch) =>
      match codec.encodeAccount { obj.data with root := root } with
      | none => .error .encoding
      | some value =>
        liftTrie (update content.toContent store acc.1 path value) fun n => (n, commitCode obj batch)

/-- `commitTo`, on the account trie of the parent's state: the new root and the batch. -/
def commitTo (n : TrieNode) (objects : List StateObject) (err : Option StateError) :
    Except CommitError (Hash × List Put) :=
  match err with
  | some e => .error (.pending e)
  | none =>
    match (objects.insertionSort fun a b => a.address.toNat ≤ b.address.toNat).foldlM
      (commitObject content store codec enc) (n, []) with
    | .error e => .error e
    | .ok (n, batch) => .ok ((commit enc n batch).1.1, (commit enc n batch).2)

end Commit

section Along

/-! What is shown of a property of the parts of a state holds for the keys of a state as for its
being decodable: it is one of the parts themselves, and for an account node of its leaves. -/

variable {content : StateContent} {store : Store} {codec : Codec} {enc : Encoding} {P : Vertex → Prop}
  {leafOk : Bytes → Prop} {batch : List Put} {obj : StateObject} {root parent : Hash} {n n' : TrieNode}

/-- The reference to a node of an account trie. -/
def AccountRef (content : StateContent) (P : Vertex → Prop) (h : Hash) : Prop :=
  (stateGraph content).Along P [.account h]

def AccountLeaf (content : StateContent) (P : Vertex → Prop) (leafOk : Bytes → Prop) (v : Bytes) : Prop :=
  leafOk v ∧ (stateGraph content).Along P (leafRefs content v)

/-- The reference to a node of a storage trie. -/
def StorageRef (content : StateContent) (P : Vertex → Prop) (h : Hash) : Prop :=
  (stateGraph content).Along P [.storage h]

/-- A put is found again under its hash, and has the property. -/
def Stands (content : StateContent) (P : Vertex → Prop) (leafOk : Bytes → Prop) : Put → Prop
  | .node h n => content.node h = some (n.decoded (some h)) ∧ P (.storage h) ∧
      ((∀ v ∈ n.leafValues, leafOk v) → P (.account h))
  | .code h _ => P (.code h)

theorem accountPuts_rest (hbatch : ∀ put ∈ batch, Stands content P leafOk put) :
    PutsRest (AccountRef content P) (AccountLeaf content P leafOk) batch := by
  intro h n hput hn
  obtain ⟨hnode, -, haccount⟩ := hbatch _ hput
  obtain ⟨hchildren, hleaves⟩ := hn.references
  refine along_singleton.mpr ⟨haccount fun v hv => (hleaves v hv).1, ?_⟩
  show (stateGraph content).Along P (refs content (.account h))
  rw [refs_account hnode, (n.decoded_references _).1, (n.decoded_references _).2,
    along_append, along_map, along_flatMap]
  exact ⟨hchildren, fun v hv => (hleaves v hv).2⟩

theorem storagePuts_rest (hbatch : ∀ put ∈ batch, Stands content P leafOk put) :
    PutsRest (StorageRef content P) (fun _ => True) batch := by
  intro h n hput hn
  obtain ⟨hnode, hstorage, -⟩ := hbatch _ hput
  refine along_singleton.mpr ⟨hstorage, ?_⟩
  show (stateGraph content).Along P (refs content (.storage h))
  rw [refs_storage hnode, (n.decoded_references _).1, along_map]
  exact hn.references.1

theorem storageRef_closed (h : Hash) (n : TrieNode) (hh : StorageRef content P h)
    (hn : content.node h = some n) : Rests (StorageRef content P) (fun _ => True) n := by
  have hrefs := (along_singleton.mp hh).2
  change (stateGraph content).Along P (refs content (.storage h)) at hrefs
  rw [refs_storage hn, along_map] at hrefs
  refine rests_of_references hrefs ?_ fun _ _ => trivial
  rw [content.cached hn]
  exact forall_mem_singleton.mpr hh

theorem accountRef_closed (hleafOk : ∀ h n, P (.account h) → content.node h = some n → ∀ v ∈ n.leafValues, leafOk v)
    (h : Hash) (n : TrieNode) (hh : AccountRef content P h) (hn : content.node h = some n) :
    Rests (AccountRef content P) (AccountLeaf content P leafOk) n := by
  obtain ⟨hself, hrefs⟩ := along_singleton.mp hh
  change (stateGraph content).Along P (refs content (.account h)) at hrefs
  rw [refs_account hn, along_append, along_map, along_flatMap] at hrefs
  refine rests_of_references hrefs.1 ?_ fun v hv => ⟨hleafOk h n hself hn v hv, hrefs.2 v hv⟩
  rw [content.cached hn]
  exact forall_mem_singleton.mpr hh

theorem openTrie_rests {hashP : Hash → Prop} {leafP : Bytes → Prop}
    (hclosed : ∀ h n, hashP h → content.node h = some n → Rests hashP leafP n)
    (hroot : ¬ (root = 0 ∨ root = emptyRoot) → hashP root)
    (hopen : openTrie content.toContent store root = .ok n) : Rests hashP leafP n := by
  rw [openTrie] at hopen
  split at hopen
  · cases hopen
    trivial
  · rename_i hempty
    exact hclosed root n (hroot hempty) (resolveHash_ok.mp hopen).2

theorem liftTrie_ok {α β : Type} {r : Except TrieError α} {f : α → β} {b : β} (h : liftTrie r f = .ok b) :
    ∃ a, r = .ok a ∧ f a = b := by
  match r with
  | .ok a =>
    cases h
    exact ⟨a, rfl, rfl⟩

theorem commitSlot_rests {slot : Hash × Hash} (hn : Rests (StorageRef content P) (fun _ => True) n)
    (hok : commitSlot content store codec n slot = .ok n') : Rests (StorageRef content P) (fun _ => True) n' := by
  rw [commitSlot] at hok
  split at hok
  · obtain ⟨m, hm, rfl⟩ := liftTrie_ok hok
    exact deleteKey_rests storageRef_closed hn hm
  · split at hok
    · cases hok
    · obtain ⟨m, hm, rfl⟩ := liftTrie_ok hok
      exact update_rests storageRef_closed hn trivial hm

theorem foldlM_keeps {α β ε : Type} {f : α → β → Except ε α} {I : α → Prop} {items : List β}
    (hstep : ∀ b ∈ items, ∀ a a', I a → f a b = .ok a' → I a') {a a' : α} (ha : I a)
    (hok : items.foldlM f a = .ok a') : I a' := by
  induction items generalizing a with
  | nil =>
    cases hok
    exact ha
  | cons b rest ih =>
    rw [foldlM_cons] at hok
    cases hfirst : f a b with
    | error e =>
      rw [hfirst] at hok
      cases hok
    | ok next =>
      rw [hfirst] at hok
      exact ih (fun b' hb' => hstep b' (mem_cons_of_mem b hb'))
        (hstep b mem_cons_self a next ha hfirst) hok

theorem along_rootVertices {kind : Hash → Vertex} :
    (stateGraph content).Along P (rootVertices kind root) ↔
      (¬ (root = 0 ∨ root = emptyRoot) → (stateGraph content).Along P [kind root]) := by
  rw [rootVertices]
  split
  · rename_i hempty
    exact ⟨fun _ h => absurd hempty h, fun _ => along_nil⟩
  · rename_i hempty
    exact ⟨fun h _ => h, fun h => h hempty⟩

theorem commitStorage_along {batch' : List Put}
    (hroot : (stateGraph content).Along P (rootVertices .storage obj.data.root))
    (hok : commitStorage content store codec enc obj batch = .ok (root, batch')) :
    batch ⊆ batch' ∧ ((∀ put ∈ batch', Stands content P leafOk put) →
      (stateGraph content).Along P (rootVertices .storage root)) := by
  rw [commitStorage] at hok
  split at hok
  · cases hok
  rename_i n hopen
  split at hok
  · cases hok
  rename_i n' hfold
  cases hok
  have hn := openTrie_rests storageRef_closed (along_rootVertices.mp hroot) hopen
  have hn' : Rests (StorageRef content P) (fun _ => True) n' :=
    foldlM_keeps (fun slot _ m m' hm hm' => commitSlot_rests hm hm') hn hfold
  obtain ⟨hgrows, hrests⟩ := commit_committed enc hn' batch
  refine ⟨hgrows, fun hbatch => along_rootVertices.mpr fun hne => ?_⟩
  rcases hrests (storagePuts_rest hbatch) with hempty | hh
  · exact absurd (Or.inr hempty) hne
  · exact hh

/-- The storage and the code an object refers to: what it was loaded with, or new code. -/
def StateObject.Backed (content : StateContent) (P : Vertex → Prop) (obj : StateObject) : Prop :=
  (stateGraph content).Along P (rootVertices .storage obj.data.root) ∧
    (obj.data.hasCode → obj.codeDirty = true ∧ obj.code ≠ [] ∨ P (.code (bytesToHash obj.data.codeHash)))

theorem commitCode_grows (obj : StateObject) (batch : List Put) : batch ⊆ commitCode obj batch := by
  rw [commitCode]
  split
  · exact subset_append_left _ _
  · exact List.Subset.refl _

theorem commitCode_stands (hobj : obj.Backed content P) (hcode : obj.data.hasCode)
    (hbatch : ∀ put ∈ commitCode obj batch, Stands content P leafOk put) :
    P (.code (bytesToHash obj.data.codeHash)) := by
  rcases hobj.2 hcode with ⟨hdirty, hne⟩ | hP
  · exact hbatch (.code _ obj.code) (by simp [commitCode, hdirty, hne])
  · exact hP

variable (hleafOk : ∀ h n, P (.account h) → content.node h = some n → ∀ v ∈ n.leafValues, leafOk v)
  (hcodec : ∀ a v, codec.encodeAccount a = some v → content.account v = some a ∧ leafOk v)

include hleafOk hcodec

/-- One account of the commit. The batch only grows, so it is enough to know of the last one that its
puts stand. -/
theorem commitObject_rests {acc acc' : TrieNode × List Put}
    (hobj : obj.deleted = false → obj.Backed content P)
    (hok : commitObject content store codec enc acc obj = .ok acc') :
    acc.2 ⊆ acc'.2 ∧ ((∀ put ∈ acc'.2, Stands content P leafOk put) →
      Rests (AccountRef content P) (AccountLeaf content P leafOk) acc.1 →
      Rests (AccountRef content P) (AccountLeaf content P leafOk) acc'.1) := by
  have hclosed := accountRef_closed hleafOk
  rw [commitObject] at hok
  split at hok
  · obtain ⟨n, hn, rfl⟩ := liftTrie_ok hok
    exact ⟨List.Subset.refl _, fun _ hacc => deleteKey_rests hclosed hacc hn⟩
  rename_i hlive
  have hbacked := hobj (by simpa using hlive)
  split at hok
  · cases hok
  rename_i root batch hstorage
  split at hok
  · cases hok
  rename_i value hvalue
  obtain ⟨n, hn, rfl⟩ := liftTrie_ok hok
  have hroot : acc.2 ⊆ batch ∧ ((∀ put ∈ batch, Stands content P leafOk put) →
      (stateGraph content).Along P (rootVertices .storage root)) := by
    split at hstorage
    · cases hstorage
      exact ⟨List.Subset.refl _, fun _ => hbacked.1⟩
    · exact commitStorage_along hbacked.1 hstorage
  refine ⟨List.Subset.trans hroot.1 (commitCode_grows obj batch), fun hbatch hacc => ?_⟩
  refine update_rests hclosed hacc ?_ hn
  obtain ⟨haccount, hleaf⟩ := hcodec _ _ hvalue
  refine ⟨hleaf, ?_⟩
  rw [leafRefs, haccount]
  refine along_append.mpr ⟨?_, hroot.2 fun put hput => hbatch put (commitCode_grows obj batch hput)⟩
  split
  · rename_i hcode
    exact along_singleton.mpr ⟨commitCode_stands hbacked hcode hbatch, along_nil⟩
  · exact along_nil

/-- Every part of a committed state has a property that the parts of the parent's state have and the
puts of the commit. -/
theorem commitTo_along {objects : List StateObject} {err : Option StateError}
    (hopen : openTrie content.toContent store parent = .ok n)
    (hparent : (stateGraph content).Along P (rootVertices .account parent))
    (hobjects : ∀ obj ∈ objects, obj.deleted = false → obj.Backed content P)
    (hok : commitTo content store codec enc n objects err = .ok (root, batch))
    (hbatch : ∀ put ∈ batch, Stands content P leafOk put) :
    (stateGraph content).Along P (rootVertices .account root) := by
  simp only [commitTo] at hok
  split at hok
  · cases hok
  split at hok
  · cases hok
  rename_i n' batch' hfold
  cases hok
  have hn := openTrie_rests (accountRef_closed hleafOk) (along_rootVertices.mp hparent) hopen
  have hn' := foldlM_keeps (I := fun acc => acc.2 ⊆ (commit enc n' batch').2 →
      Rests (AccountRef content P) (AccountLeaf content P leafOk) acc.1)
    (fun obj hobj acc acc' hacc hstep hsub => by
      obtain ⟨hgrows, hrests⟩ :=
        commitObject_rests hleafOk hcodec (hobjects obj ((mem_insertionSort _).mp hobj)) hstep
      exact hrests (fun put hput => hbatch put (hsub hput)) (hacc (List.Subset.trans hgrows hsub)))
    (fun _ => hn) hfold (commit_grows enc n' batch')
  refine along_rootVertices.mpr fun hne => ?_
  rcases (commit_committed enc hn' batch').2 (accountPuts_rest hbatch) with hempty | hh
  · exact absurd (Or.inr hempty) hne
  · exact hh

omit hleafOk hcodec

/-! ### Where the objects come from -/

def newObject (address : Address) (data : Account) : StateObject where
  address := address
  data :=
    { data with
      root := if data.root = 0 then emptyRoot else data.root
      codeHash := if data.codeHash.isEmpty then hashBytes emptyCodeHash else data.codeHash }
  code := []
  codeDirty := false
  dirtyStorage := []
  deleted := false

def StateObject.setCode (keccak256 : Bytes → Hash) (obj : StateObject) (code : Bytes) : StateObject :=
  { obj with
    data := { obj.data with codeHash := hashBytes (keccak256 code) }
    code := code
    codeDirty := true }

/-- An object that an account of the parent's state was loaded into, or an empty one, whatever was
written to it since. -/
inductive StateObject.Loaded (content : StateContent) (store : Store) (keccak256 : Bytes → Hash)
    (parent : Hash) : StateObject → Prop
  | read {address path a} (h : readAccount content store parent path = .ok (some a)) :
      Loaded content store keccak256 parent (newObject address a)
  | created (address : Address) : Loaded content store keccak256 parent (newObject address ⟨0, 0, 0, []⟩)
  | setCode {obj : StateObject} (h : Loaded content store keccak256 parent obj) (code : Bytes) :
      Loaded content store keccak256 parent (obj.setCode keccak256 code)
  | write {obj : StateObject} (h : Loaded content store keccak256 parent obj) (nonce : Nat) (balance : Int)
      (slots : List (Hash × Hash)) (deleted : Bool) :
      Loaded content store keccak256 parent { obj with
        data := { obj.data with nonce := nonce, balance := balance }
        dirtyStorage := slots
        deleted := deleted }

theorem hasCode_of_empty {a : Account} (h : a.codeHash = hashBytes emptyCodeHash) : a.hasCode = false := by
  rw [Account.hasCode, h]
  decide

theorem newObject_rootVertices (address : Address) (a : Account) :
    rootVertices Vertex.storage (newObject address a).data.root = rootVertices .storage a.root := by
  by_cases hzero : a.root = 0
  · simp [newObject, rootVertices, hzero]
  · exact congrArg _ (if_neg hzero)

theorem newObject_hasCode {address : Address} {a : Account} (h : (newObject address a).data.hasCode) :
    a.hasCode ∧ (newObject address a).data.codeHash = a.codeHash := by
  by_cases hempty : a.codeHash.isEmpty
  · rw [hasCode_of_empty (if_pos hempty)] at h
    cases h
  · have hcode : (newObject address a).data.codeHash = a.codeHash := if_neg hempty
    rw [Account.hasCode, hcode] at h
    exact ⟨h, hcode⟩

/-- What a loaded object refers to has every property that the parts of the parent's state have. -/
theorem StateObject.Loaded.backed {keccak256 : Bytes → Hash} (hkeccak : keccak256 [] = emptyCodeHash)
    (h : obj.Loaded content store keccak256 parent)
    (hparent : (stateGraph content).Along P (rootVertices .account parent)) : obj.Backed content P := by
  induction h with
  | @read address path a hread =>
    obtain ⟨hstorage, hcode⟩ := readAccount_along hread hparent
    refine ⟨by rw [newObject_rootVertices]; exact hstorage, fun hhas => Or.inr ?_⟩
    obtain ⟨hold, hsame⟩ := newObject_hasCode hhas
    rw [hsame]
    exact hcode hold
  | created address =>
    refine ⟨by rw [newObject_rootVertices]; exact along_nil, fun hhas => ?_⟩
    exact absurd (newObject_hasCode hhas).1 (by decide)
  | setCode h code ih =>
    refine ⟨ih.1, fun hhas => Or.inl ⟨rfl, ?_⟩⟩
    rintro rfl
    rw [hasCode_of_empty (congrArg hashBytes hkeccak)] at hhas
    cases hhas
  | write h nonce balance slots deleted ih => exact ih

end Along

end PadiChain.Trie

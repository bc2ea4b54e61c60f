import PadiChain.TrieState

/-! Editing a trie in memory. Nodes are resolved from the store where a path leads through them, and a
node that changes gets fresh flags. Whatever an edited trie still refers to through the store was
there before, or is a leaf that was put in. -/

namespace PadiChain.Trie

open List

/-- `newFlag`: nothing is known of a node that was just built. -/
def newFlag : NodeFlag := ⟨none, true, false⟩

/-- The hash under which the node is in the store, if `stored` and the hash is known. -/
def NodeFlag.storedHash (flags : NodeFlag) : Option Hash :=
  if flags.persisted && !flags.dirty then flags.hash else none

def commonPrefixLen : List Nibble → List Nibble → Nat
  | i :: path, j :: path' => if i = j then commonPrefixLen path path' + 1 else 0
  | _, _ => 0

/-- The digits of a key, followed by the terminator. -/
def keyToNibbles (key : Bytes) : List Nibble :=
  key.flatMap (fun b => [Fin.ofNat 17 (b.toNat / 16), Fin.ofNat 17 (b.toNat % 16)]) ++ [16]

def TrieNode.isNil : TrieNode → Bool
  | .nil => true
  | _ => false

def edited (n : TrieNode) (rebuild : TrieNode → TrieNode) :
    Except TrieError (Bool × TrieNode) → Except TrieError (Bool × TrieNode)
  | .error e => .error e
  | .ok (false, _) => .ok (false, n)
  | .ok (true, below) => .ok (true, rebuild below)

/-- `insert` where there is no node yet. -/
def place (key : List Nibble) (value : TrieNode) : TrieNode :=
  if key = [] then value else .short key value newFlag

/-- The branch that takes over where a key leaves the path of a short node, behind what they share. -/
def diverge (path : List Nibble) (child : TrieNode) (key : List Nibble) (value : TrieNode) :
    Except TrieError (Bool × TrieNode) :=
  match path.drop (commonPrefixLen key path), key.drop (commonPrefixLen key path) with
  | i :: path', j :: key' =>
    let children := Function.update (fun _ => TrieNode.nil) i (place path' child)
    let branch := TrieNode.full (Function.update children j (place key' value)) newFlag
    if commonPrefixLen key path = 0 then .ok (true, branch)
    else .ok (true, .short (key.take (commonPrefixLen key path)) branch newFlag)
  | _, _ => .error .indexOutOfRange

/-- `insert`, over a node and what is inlined in it. -/
def insertWith (onHash : Hash → List Nibble → Except TrieError (Bool × TrieNode)) (value : Bytes) :
    TrieNode → List Nibble → Except TrieError (Bool × TrieNode)
  | .nil, key => .ok (true, place key (.value value))
  | .value v, [] => .ok (decide (v ≠ value), .value value)
  | .value _, _ :: _ => .error .unexpectedNode
  | .hash h, key => if key = [] then .ok (true, .value value) else onHash h key
  | .short path child flags, key =>
    if key = [] then .ok (true, .value value)
    else if commonPrefixLen key path = path.length then
      edited (.short path child flags) (fun below => .short path below newFlag)
        (insertWith onHash value child (key.drop path.length))
    else diverge path child key (.value value)
  | .full _ _, [] => .ok (true, .value value)
  | .full children flags, i :: key =>
    edited (.full children flags) (fun below => .full (Function.update children i below) newFlag)
      (insertWith onHash value (children i) key)

/-- A short node in front of what is left of its child: two short nodes become one. -/
def joined (path : List Nibble) : TrieNode → TrieNode
  | .short path' child _ => .short (path ++ path') child newFlag
  | child => .short path child newFlag

/-- A branch after a deletion. With a single entry left it becomes a short node, for which the node
below is looked at. -/
def reduced (resolve : Hash → Except TrieError TrieNode) (children : Nibble → TrieNode) :
    Except TrieError (Bool × TrieNode) :=
  match (List.finRange 17).filter fun i => !(children i).isNil with
  | [pos] =>
    if pos = 16 then .ok (true, .short [16] (children 16) newFlag)
    else
      match children pos with
      | .hash h =>
        match resolve h with
        | .error e => .error e
        | .ok (.short path child _) => .ok (true, .short (pos :: path) child newFlag)
        | .ok _ => .ok (true, .short [pos] (.hash h) newFlag)
      | child => .ok (true, joined [pos] child)
  | _ => .ok (true, .full children newFlag)

/-- `delete`, over a node and what is inlined in it. -/
def deleteWith (resolve : Hash → Except TrieError TrieNode)
    (onHash : Hash → List Nibble → Except TrieError (Bool × TrieNode)) :
    TrieNode → List Nibble → Except TrieError (Bool × TrieNode)
  | .nil, _ => .ok (false, .nil)
  | .value _, _ => .ok (true, .nil)
  | .hash h, key => onHash h key
  | .short path child flags, key =>
    if commonPrefixLen key path < path.length then .ok (false, .short path child flags)
    else if commonPrefixLen key path = key.length then .ok (true, .nil)
    else
      edited (.short path child flags) (joined path)
        (deleteWith resolve onHash child (key.drop path.length))
  | .full _ _, [] => .error .indexOutOfRange
  | .full children flags, i :: key =>
    match deleteWith resolve onHash (children i) key with
    | .error e => .error e
    | .ok (false, _) => .ok (false, .full children flags)
    | .ok (true, below) => reduced resolve (Function.update children i below)

section Edit

variable (content : Content) (store : Store)

/-- An edit of a node that is still in the store: what comes back is the resolved node. -/
def editStored (edit : TrieNode → List Nibble → Except TrieError (Bool × TrieNode)) (h : Hash)
    (key : List Nibble) : Except TrieError (Bool × TrieNode) :=
  match resolveHash content store h with
  | .error e => .error e
  | .ok n => edited n id (edit n key)

/-- `insert`, through at most `depth` stored nodes. -/
def insert (value : Bytes) : Nat → TrieNode → List Nibble → Except TrieError (Bool × TrieNode)
  | 0 => insertWith (fun h _ => .error (.depth h)) value
  | depth + 1 => insertWith (editStored content store (insert value depth)) value

/-- `delete`, through at most `depth` stored nodes. -/
def delete : Nat → TrieNode → List Nibble → Except TrieError (Bool × TrieNode)
  | 0 => deleteWith (resolveHash content store) fun h _ => .error (.depth h)
  | depth + 1 => deleteWith (resolveHash content store) (editStored content store (delete depth))

def deleteKey (n : TrieNode) (key : List Nibble) : Except TrieError TrieNode :=
  (delete content store (depthOf content n) n key).map Prod.snd

/-- `Update`: storing an empty value deletes the key. -/
def update (n : TrieNode) (key : List Nibble) (value : Bytes) : Except TrieError TrieNode :=
  if value = [] then deleteKey content store n key
  else (insert content store value (depthOf content n) n key).map Prod.snd

end Edit

/-! ### What a trie in memory rests on -/

/-- Every reference of a node has the one property, to a node below as to its own encoding in the store,
and every leaf has the other. -/
def Rests (hashP : Hash → Prop) (leafP : Bytes → Prop) : TrieNode → Prop
  | .nil => True
  | .value v => leafP v
  | .hash h => hashP h
  | .short _ child flags => (∀ h, flags.storedHash = some h → hashP h) ∧ Rests hashP leafP child
  | .full children flags =>
    (∀ h, flags.storedHash = some h → hashP h) ∧ ∀ i, Rests hashP leafP (children i)

section Rests

variable {P : Hash → Prop} {Q : Bytes → Prop} {n child n' : TrieNode} {path key : List Nibble}
  {children : Nibble → TrieNode} {value : Bytes} {r : Except TrieError (Bool × TrieNode)}
  {onHash : Hash → List Nibble → Except TrieError (Bool × TrieNode)} {resolve : Hash → Except TrieError TrieNode}

theorem Rests.references (hn : Rests P Q n) : (∀ h ∈ n.childHashes, P h) ∧ ∀ v ∈ n.leafValues, Q v := by
  induction n with
  | nil => exact ⟨forall_mem_nil _, forall_mem_nil _⟩
  | value v => exact ⟨forall_mem_nil _, forall_mem_singleton.mpr hn⟩
  | hash h => exact ⟨forall_mem_singleton.mpr hn, forall_mem_nil _⟩
  | short path child flags ih => exact ih hn.2
  | full children flags ih =>
    have hbelow := fun i => ih i (hn.2 i)
    exact ⟨forall_mem_flatMap.mpr fun i _ => (hbelow i).1, forall_mem_flatMap.mpr fun i _ => (hbelow i).2⟩

theorem mem_of_storedHash {flags : NodeFlag} {h : Hash} (hh : flags.storedHash = some h) : h ∈ flags.hash.toList := by
  simp only [NodeFlag.storedHash] at hh
  split at hh
  · rw [hh]
    exact mem_singleton_self h
  · cases hh

theorem rests_of_references (hchildren : ∀ h ∈ n.childHashes, P h)
    (hcached : ∀ h ∈ n.cachedHashes, P h) (hleaves : ∀ v ∈ n.leafValues, Q v) : Rests P Q n := by
  induction n with
  | nil => trivial
  | value v => exact hleaves v (mem_singleton_self v)
  | hash h => exact hchildren h (mem_singleton_self h)
  | short path child flags ih =>
    obtain ⟨hown, hbelow⟩ := forall_mem_append.mp hcached
    exact ⟨fun h hh => hown h (mem_of_storedHash hh), ih hchildren hbelow hleaves⟩
  | full children flags ih =>
    obtain ⟨hown, hbelow⟩ := forall_mem_append.mp hcached
    refine ⟨fun h hh => hown h (mem_of_storedHash hh), fun i => ?_⟩
    have hi := mem_finRange i
    exact ih i (forall_mem_flatMap.mp hchildren i hi) (forall_mem_flatMap.mp hbelow i hi)
      (forall_mem_flatMap.mp hleaves i hi)

theorem rests_short (hchild : Rests P Q child) :
    Rests P Q (.short path child newFlag) := ⟨nofun, hchild⟩

theorem rests_full (hchildren : ∀ i, Rests P Q (children i)) :
    Rests P Q (.full children newFlag) := ⟨nofun, hchildren⟩

theorem rests_update (hchildren : ∀ i, Rests P Q (children i)) (i : Nibble) (hn : Rests P Q n) (j : Nibble) :
    Rests P Q (Function.update children i n j) := by
  exact (Function.forall_update_iff _ fun _ => Rests P Q).mpr ⟨hn, fun j _ => hchildren j⟩ j

theorem rests_place (key : List Nibble) {value : TrieNode} (hvalue : Rests P Q value) :
    Rests P Q (place key value) := by
  rw [place]
  split
  · exact hvalue
  · exact rests_short hvalue

theorem rests_joined (hchild : Rests P Q child) : Rests P Q (joined path child) := by
  cases child with
  | short path' child' flags => exact rests_short hchild.2
  | _ => exact rests_short hchild

/-- What is returned of an edit rests on the same. -/
def ResultRests (hashP : Hash → Prop) (leafP : Bytes → Prop) (r : Except TrieError (Bool × TrieNode)) :
    Prop := ∀ dirty n, r = .ok (dirty, n) → Rests hashP leafP n

theorem ResultRests.ok {dirty : Bool} (hn : Rests P Q n) : ResultRests P Q (.ok (dirty, n)) := by
  rintro dirty' n' ⟨⟩
  exact hn

theorem ResultRests.error {e : TrieError} : ResultRests P Q (.error e) := by
  rintro dirty n ⟨⟩

theorem ResultRests.edited {rebuild : TrieNode → TrieNode} (hr : ResultRests P Q r) (hn : Rests P Q n)
    (hrebuild : ∀ below, Rests P Q below → Rests P Q (rebuild below)) : ResultRests P Q (edited n rebuild r) := by
  match r with
  | .error e => exact .error
  | .ok (false, below) => exact .ok hn
  | .ok (true, below) => exact .ok (hrebuild below (hr true below rfl))

theorem ResultRests.map (hr : ResultRests P Q r) (hok : r.map Prod.snd = .ok n) : Rests P Q n := by
  match r with
  | .ok (dirty, n') =>
    cases hok
    exact hr dirty _ rfl

theorem diverge_rests {value : TrieNode} (hchild : Rests P Q child) (hvalue : Rests P Q value) :
    ResultRests P Q (diverge path child key value) := by
  rw [diverge]
  split
  · rename_i i path' j key' _ _
    have hnil : ∀ i : Nibble, Rests P Q ((fun _ => TrieNode.nil) i) := fun _ => trivial
    have hbranch := rests_full (rests_update (rests_update hnil i (rests_place path' hchild)) j
      (rests_place key' hvalue))
    split
    · exact .ok hbranch
    · exact .ok (rests_short hbranch)
  · exact .error

theorem insertWith_rests (honHash : ∀ h key, P h → ResultRests P Q (onHash h key)) (hvalue : Q value)
    (hn : Rests P Q n) (key : List Nibble) : ResultRests P Q (insertWith onHash value n key) := by
  have hleaf : Rests P Q (.value value) := hvalue
  induction n generalizing key with
  | nil => exact .ok (rests_place key hleaf)
  | value v =>
    cases key with
    | nil => exact .ok hleaf
    | cons i key => exact .error
  | hash h =>
    simp only [insertWith]
    split
    · exact .ok hleaf
    · exact honHash h key hn
  | short path child flags ih =>
    simp only [insertWith]
    split
    · exact .ok hleaf
    split
    · exact (ih hn.2 _).edited hn fun below hbelow => rests_short hbelow
    · exact diverge_rests hn.2 hleaf
  | full children flags ih =>
    cases key with
    | nil => exact .ok hleaf
    | cons i key =>
      exact (ih i (hn.2 i) key).edited hn fun below hbelow => rests_full (rests_update hn.2 i hbelow)

theorem reduced_rests (hresolve : ∀ h n, P h → resolve h = .ok n → Rests P Q n)
    (hchildren : ∀ i, Rests P Q (children i)) : ResultRests P Q (reduced resolve children) := by
  rw [reduced]
  split
  · rename_i pos _
    split
    · exact .ok (rests_short (hchildren 16))
    have hpos := hchildren pos
    split
    · rename_i h hchild
      rw [hchild] at hpos
      split
      · exact .error
      · rename_i path child flags hnode
        exact .ok (rests_short (hresolve h _ hpos hnode).2)
      · exact .ok (rests_short hpos)
    · exact .ok (rests_joined hpos)
  · exact .ok (rests_full hchildren)

theorem deleteWith_rests (hresolve : ∀ h n, P h → resolve h = .ok n → Rests P Q n)
    (honHash : ∀ h key, P h → ResultRests P Q (onHash h key))
    (hn : Rests P Q n) (key : List Nibble) : ResultRests P Q (deleteWith resolve onHash n key) := by
  induction n generalizing key with
  | nil | value _ => exact .ok trivial
  | hash h => exact honHash h key hn
  | short path child flags ih =>
    simp only [deleteWith]
    split
    · exact .ok hn
    split
    · exact .ok trivial
    · exact (ih hn.2 _).edited hn fun below hbelow => rests_joined hbelow
  | full children flags ih =>
    cases key with
    | nil => exact .error
    | cons i key =>
      have hbelow := ih i (hn.2 i) key
      simp only [deleteWith]
      split
      · exact .error
      · exact .ok hn
      · rename_i below heq
        exact reduced_rests hresolve (rests_update hn.2 i (hbelow true below heq))

variable {content : Content} {store : Store}
  (hclosed : ∀ h n, P h → content.node h = some n → Rests P Q n)

include hclosed

theorem resolveHash_rests (h : Hash) (n : TrieNode) (hh : P h)
    (hn : resolveHash content store h = .ok n) : Rests P Q n :=
  hclosed h n hh (resolveHash_ok.mp hn).2

theorem editStored_rests {edit : TrieNode → List Nibble → Except TrieError (Bool × TrieNode)}
    (hedit : ∀ n, Rests P Q n → ∀ key, ResultRests P Q (edit n key)) (h : Hash)
    (key : List Nibble) (hh : P h) : ResultRests P Q (editStored content store edit h key) := by
  rw [editStored]
  cases hresolve : resolveHash content store h with
  | error e => exact .error
  | ok n =>
    have hn := resolveHash_rests hclosed h n hh hresolve
    exact (hedit n hn key).edited hn fun below hbelow => hbelow

theorem insert_rests (hvalue : Q value) {depth : Nat} (n : TrieNode) (hn : Rests P Q n) (key : List Nibble) :
    ResultRests P Q (insert content store value depth n key) := by
  induction depth generalizing n key with
  | zero => exact insertWith_rests (fun h key hh => .error) hvalue hn key
  | succ depth ih => exact insertWith_rests (editStored_rests hclosed ih) hvalue hn key

theorem delete_rests {depth : Nat} (n : TrieNode) (hn : Rests P Q n) (key : List Nibble) :
    ResultRests P Q (delete content store depth n key) := by
  induction depth generalizing n key with
  | zero => exact deleteWith_rests (resolveHash_rests hclosed) (fun h key hh => .error) hn key
  | succ depth ih =>
    exact deleteWith_rests (resolveHash_rests hclosed) (editStored_rests hclosed ih) hn key

theorem deleteKey_rests (hn : Rests P Q n) (hok : deleteKey content store n key = .ok n') : Rests P Q n' :=
  (delete_rests hclosed n hn key).map hok

theorem update_rests (hn : Rests P Q n)
    (hvalue : Q value) (hok : update content store n key value = .ok n') : Rests P Q n' := by
  rw [update] at hok
  split at hok
  · exact deleteKey_rests hclosed hn hok
  · exact (insert_rests hclosed hvalue n hn key).map hok

end Rests

end PadiChain.Trie

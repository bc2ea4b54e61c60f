import PadiChain.TrieNode

/-! The world state in the store: an account trie whose leaves name a storage trie and a code blob
each. The state of a root is the part of the store that can be reached from it. -/

namespace PadiChain.Trie

open Reach RefGraph

/-- `BytesToHash`: the rightmost 32 bytes, padded on the left when there are fewer. -/
def bytesToHash (b : Bytes) : Hash := BitVec.ofNat 256 (bytesToNat b)

def emptyCodeHash : Hash := 0xc5d2460186f7233c927e7db2dcc703c0e500b653ca82273b7bfad8045d85a470#256

structure Account where
  nonce : Nat
  balance : Int
  root : Hash
  codeHash : Bytes
  deriving DecidableEq, Repr

def Account.hasCode (a : Account) : Bool :=
  decide (0 < a.codeHash.length) && decide (bytesToHash a.codeHash ≠ emptyCodeHash)

/-- The content of a store together with `DecodeAccount`. -/
structure StateContent extends Content where
  account : Bytes → Option Account

/-- A stored part of a state. A trie node is read differently in an account trie and in a storage
trie, where leaves lead nowhere. -/
inductive Vertex where
  | account (h : Hash)
  | storage (h : Hash)
  | code (h : Hash)
  deriving DecidableEq

variable (content : StateContent) (store : Store)

def leafRefs (value : Bytes) : List Vertex :=
  match content.account value with
  | none => []
  | some a =>
    (if a.hasCode then [Vertex.code (bytesToHash a.codeHash)] else []) ++ rootVertices .storage a.root

def refs : Vertex → List Vertex
  | .account h =>
    match content.node h with
    | none => []
    | some n => n.childHashes.map .account ++ n.leafValues.flatMap (leafRefs content)
  | .storage h =>
    match content.node h with
    | none => []
    | some n => n.childHashes.map .storage
  | .code _ => []

def Vertex.key : Vertex → Key
  | .account h => .node h
  | .storage h => .node h
  | .code h => .code h

def stateGraph : RefGraph Vertex Key := ⟨refs content, Vertex.key⟩

def stateKeys (root : Hash) : Set Key := (stateGraph content).keys (rootVertices .account root)

/-- Every account node, storage node and code blob of the state is in the store. -/
def Whole (root : Hash) : Prop := (stateGraph content).Whole store (rootVertices .account root)

/-- The part can be decoded, and in an account trie the accounts of its leaves too. -/
def Decodes : Vertex → Prop
  | .account h => ∃ n, content.node h = some n ∧ ∀ v ∈ n.leafValues, (content.account v).isSome
  | .storage h => ∃ n, content.node h = some n ∧ ∀ v ∈ n.leafValues, True
  | .code _ => True

/-- The part is there and can be decoded, as far as a walk looks at it; code is not opened. -/
def Resolved : Vertex → Prop
  | .account h => Key.node h ∈ store ∧ Decodes content (.account h)
  | .storage h => Key.node h ∈ store ∧ Decodes content (.storage h)
  | .code _ => True

/-- All parts of the state can be decoded, wherever they are. -/
def Decodable (root : Hash) : Prop := (stateGraph content).Along (Decodes content) (rootVertices .account root)

def Opens (root : Hash) : Prop := ∃ n, openTrie content.toContent store root = .ok n

/-- The state can be walked to its end. -/
def Walkable (root : Hash) : Prop := (stateGraph content).Along (Resolved content store) (rootVertices .account root)

/-- The state can be read in full: every part of it is there and can be decoded. -/
def Readable (root : Hash) : Prop := Walkable content store root ∧ Whole content store root

/-! ### Reading -/

/-- `get`, over a node and what is inlined in it. -/
def getWith (onHash : Hash → List Nibble → Except TrieError (Option Bytes)) :
    TrieNode → List Nibble → Except TrieError (Option Bytes)
  | .nil, _ => .ok none
  | .value v, _ => .ok (some v)
  | .hash h, path => onHash h path
  | .short key child _, path =>
    if key.isPrefixOf path then getWith onHash child (path.drop key.length) else .ok none
  | .full _ _, [] => .error .indexOutOfRange
  | .full children _, i :: path => getWith onHash (children i) path

/-- `get`, through at most `depth` stored nodes. -/
def get : Nat → TrieNode → List Nibble → Except TrieError (Option Bytes)
  | 0 => getWith fun h _ => .error (.depth h)
  | depth + 1 => getWith fun h path =>
    match resolveHash content.toContent store h with
    | .error e => .error e
    | .ok n => get depth n path

/-- `Get` on the trie of a root, at the nibbles of a key. -/
def lookup (root : Hash) (path : List Nibble) : Except TrieError (Option Bytes) :=
  match openTrie content.toContent store root with
  | .error e => .error e
  | .ok n => get content store (depthOf content.toContent n) n path

inductive StateError where
  | trie (e : TrieError)
  | account
  | code (h : Hash)
  deriving DecidableEq, Repr

/-- `getStateObject`, by the nibbles of the hashed address. -/
def readAccount (root : Hash) (path : List Nibble) : Except StateError (Option Account) :=
  match lookup content store root path with
  | .error e => .error (.trie e)
  | .ok none => .ok none
  | .ok (some value) =>
    match content.account value with
    | none => .error .account
    | some a => .ok (some a)

/-- `committedState`: the encoded value of a slot, by the nibbles of the hashed key. -/
def readSlot (root : Hash) (path slot : List Nibble) : Except StateError (Option Bytes) :=
  match readAccount content store root path with
  | .error e => .error e
  | .ok none => .ok none
  | .ok (some a) =>
    match lookup content store a.root slot with
    | .error e => .error (.trie e)
    | .ok value => .ok value

/-- `codeOf`: the hash of the code, if the code can be loaded. -/
def readCode (root : Hash) (path : List Nibble) : Except StateError (Option Hash) :=
  match readAccount content store root path with
  | .error e => .error e
  | .ok none => .ok none
  | .ok (some a) =>
    if a.hasCode then
      if Key.code (bytesToHash a.codeHash) ∈ store then .ok (some (bytesToHash a.codeHash))
      else .error (.code (bytesToHash a.codeHash))
    else .ok none

variable {content store} {store' : Store}

variable {root h : Hash} {n : TrieNode} {path : List Nibble} {v : Bytes} {P : Vertex → Prop} {a : Account}

theorem isState_of_mem_stateKeys {k : Key} (hk : k ∈ stateKeys content root) :
    (∃ h, k = .node h) ∨ ∃ h, k = .code h := by
  obtain ⟨-, -, v, -, rfl⟩ := hk
  cases v with
  | account h | storage h => exact .inl ⟨h, rfl⟩
  | code h => exact .inr ⟨h, rfl⟩

theorem root_mem_stateKeys (hempty : ¬ (root = 0 ∨ root = emptyRoot)) : Key.node root ∈ stateKeys content root := by
  rw [stateKeys, rootVertices, if_neg hempty, keys_singleton]
  exact .inl rfl

theorem Opens.mono (h : Opens content store root) (hsub : ∀ k ∈ store, k ∈ store') : Opens content store' root := by
  obtain ⟨n, hn⟩ := h
  refine ⟨n, ?_⟩
  simp only [openTrie] at hn ⊢
  split
  · rename_i hempty
    rw [if_pos hempty] at hn
    exact hn
  · rename_i hempty
    rw [if_neg hempty] at hn
    obtain ⟨hmem, hnode⟩ := resolveHash_ok.mp hn
    exact resolveHash_ok.mpr ⟨hsub _ hmem, hnode⟩

theorem resolved_account (h : Hash) : Resolved content store (.account h) ↔ Key.node h ∈ store ∧
    ∃ n, content.node h = some n ∧ ∀ v ∈ n.leafValues, (content.account v).isSome := Iff.rfl

theorem Walkable.opens (h : Walkable content store root) : Opens content store root := by
  exact openTrie_of_along resolved_account h

theorem readable_iff : Readable content store root ↔ Decodable content root ∧ Whole content store root := by
  constructor
  · rintro ⟨hwalk, hwhole⟩
    refine ⟨hwalk.mono fun v hv => ?_, hwhole⟩
    cases v with
    | account _ | storage _ => exact hv.2
    | code x => trivial
  · rintro ⟨hdecodes, hwhole⟩
    refine ⟨fun a ha v hv => ?_, hwhole⟩
    have hthere : v.key ∈ store := hwhole _ ⟨a, ha, v, hv, rfl⟩
    have hdecode := hdecodes a ha v hv
    cases v with
    | account _ | storage _ => exact ⟨hthere, hdecode⟩
    | code x => trivial

/-- A state that can be read stays readable as long as its keys stay. -/
theorem Readable.iff_keys (h : Readable content store root) :
    Readable content store' root ↔ ∀ k ∈ stateKeys content root, k ∈ store' :=
  ⟨fun h' => h'.2, fun hkeys => readable_iff.mpr ⟨(readable_iff.mp h).1, hkeys⟩⟩

theorem getWith_congr {onHash onHash' : Hash → List Nibble → Except TrieError (Option Bytes)} (n : TrieNode)
    (h : ∀ x ∈ n.childHashes, onHash x = onHash' x) (path : List Nibble) :
    getWith onHash n path = getWith onHash' n path := by
  induction n generalizing path with
  | nil | value _ => rfl
  | hash x => exact congrFun (h x (List.mem_singleton_self x)) path
  | short key child flags ih =>
    simp only [getWith]
    rw [ih h]
  | full children flags ih =>
    cases path with
    | nil => rfl
    | cons i path =>
      exact ih i (List.forall_mem_flatMap.mp h i (List.mem_finRange i)) path

/-- What holds of the leaves of a node and of what is found below its references holds of a value that is found. -/
theorem getWith_value {onHash : Hash → List Nibble → Except TrieError (Option Bytes)} {Q : Bytes → Prop}
    (hleaves : ∀ v ∈ n.leafValues, Q v) (hbelow : ∀ x ∈ n.childHashes, ∀ rest, onHash x rest = .ok (some v) → Q v)
    (h : getWith onHash n path = .ok (some v)) : Q v := by
  induction n generalizing path with
  | nil => cases h
  | value w =>
    cases h
    exact List.forall_mem_singleton.mp hleaves
  | hash x => exact List.forall_mem_singleton.mp hbelow path h
  | short key child flags ih =>
    simp only [getWith] at h
    split at h
    · exact ih hleaves hbelow h
    · cases h
  | full children flags ih =>
    cases path with
    | nil => cases h
    | cons i path =>
      have hi := List.mem_finRange i
      exact ih i (List.forall_mem_flatMap.mp hleaves i hi) (List.forall_mem_flatMap.mp hbelow i hi) h

theorem refs_account (hn : content.node h = some n) :
    refs content (.account h) = n.childHashes.map .account ++ n.leafValues.flatMap (leafRefs content) := by
  simp [refs, hn]

theorem refs_storage (hn : content.node h = some n) : refs content (.storage h) = n.childHashes.map .storage := by
  simp [refs, hn]

section Kind

variable {kind : Hash → Vertex} (hkey : ∀ h, (kind h).key = .node h)
  (hrefs : ∀ {h n}, content.node h = some n → n.childHashes.map kind ⊆ refs content (kind h))

include hkey hrefs

/-- A node of a trie that two stores hold resolves alike, and they hold the tries below it. -/
theorem resolveHash_congr (hboth : (stateGraph content).Along (fun v => v.key ∈ store ∧ v.key ∈ store') [kind h]) :
    resolveHash content.toContent store h = resolveHash content.toContent store' h ∧
      ∀ n, content.node h = some n →
        (stateGraph content).Along (fun v => v.key ∈ store ∧ v.key ∈ store') (n.childHashes.map kind) := by
  obtain ⟨hself, hbelow⟩ := along_singleton.mp hboth
  rw [hkey h] at hself
  exact ⟨by simp [resolveHash, hself.1, hself.2], fun n hn a ha => hbelow a (hrefs hn ha)⟩

theorem get_congr (depth : Nat) (n : TrieNode) (path : List Nibble)
    (hboth : (stateGraph content).Along (fun v => v.key ∈ store ∧ v.key ∈ store') (n.childHashes.map kind)) :
    get content store depth n path = get content store' depth n path := by
  induction depth generalizing n path with
  | zero => rfl
  | succ depth ih =>
    refine getWith_congr n (fun h hh => ?_) path
    obtain ⟨hsame, hbelow⟩ := resolveHash_congr hkey hrefs (along_map.mp hboth h hh)
    funext path
    rw [hsame]
    cases hresolve : resolveHash content.toContent store' h with
    | error e => rfl
    | ok m => exact ih m path (hbelow m (resolveHash_ok.mp hresolve).2)

/-- Lookups in two stores that hold the trie of a root give the same result. -/
theorem lookup_congr (path : List Nibble)
    (hboth : (stateGraph content).Along (fun v => v.key ∈ store ∧ v.key ∈ store') (rootVertices kind root)) :
    lookup content store root path = lookup content store' root path := by
  by_cases hempty : root = 0 ∨ root = emptyRoot
  · simp only [lookup, openTrie, if_pos hempty]
    exact get_congr hkey hrefs _ .nil path along_nil
  · rw [rootVertices, if_neg hempty] at hboth
    obtain ⟨hsame, hbelow⟩ := resolveHash_congr hkey hrefs hboth
    simp only [lookup, openTrie, if_neg hempty, hsame]
    cases hresolve : resolveHash content.toContent store' root with
    | error e => rfl
    | ok n => exact get_congr hkey hrefs _ n path (hbelow n (resolveHash_ok.mp hresolve).2)

end Kind

/-- What a leaf found below a node refers to lies along what the node refers to. -/
theorem get_along {depth : Nat} (h : get content store depth n path = .ok (some v))
    (hn : (stateGraph content).Along P (n.childHashes.map .account ++ n.leafValues.flatMap (leafRefs content))) :
    (stateGraph content).Along P (leafRefs content v) := by
  induction depth generalizing n path with
  | zero =>
    refine getWith_value (along_flatMap.mp (along_append.mp hn).2) (fun x _ rest hx => ?_) h
    cases hx
  | succ depth ih =>
    obtain ⟨hchildren, hleaves⟩ := along_append.mp hn
    refine getWith_value (along_flatMap.mp hleaves) (fun x hx rest hfound => ?_) h
    cases hresolve : resolveHash content.toContent store x with
    | error e =>
      rw [hresolve] at hfound
      cases hfound
    | ok m =>
      rw [hresolve] at hfound
      refine ih hfound ?_
      rw [← refs_account (resolveHash_ok.mp hresolve).2]
      exact (along_singleton.mp (along_map.mp hchildren x hx)).2

/-- The storage and the code of an account that is found lie along the state. -/
theorem readAccount_along (h : readAccount content store root path = .ok (some a))
    (hroot : (stateGraph content).Along P (rootVertices .account root)) :
    (stateGraph content).Along P (rootVertices .storage a.root) ∧
      (a.hasCode → P (.code (bytesToHash a.codeHash))) := by
  simp only [readAccount] at h
  split at h
  · cases h
  · cases h
  rename_i value hlookup
  split at h
  · cases h
  rename_i a' ha
  cases h
  suffices hleaf : (stateGraph content).Along P (leafRefs content value) by
    rw [leafRefs, ha] at hleaf
    obtain ⟨hcode, hstorage⟩ := along_append.mp hleaf
    refine ⟨hstorage, fun hhas => ?_⟩
    rw [if_pos hhas] at hcode
    exact (along_singleton.mp hcode).1
  simp only [lookup] at hlookup
  split at hlookup
  · cases hlookup
  rename_i n hopen
  by_cases hempty : root = 0 ∨ root = emptyRoot
  · simp only [openTrie, if_pos hempty] at hopen
    cases hopen
    cases hlookup
  · simp only [openTrie, if_neg hempty] at hopen
    rw [rootVertices, if_neg hempty] at hroot
    refine get_along hlookup ?_
    rw [← refs_account (resolveHash_ok.mp hopen).2]
    exact (along_singleton.mp hroot).2

theorem Whole.reads_eq (hstore : Whole content store root) (hstore' : Whole content store' root)
    (path slot : List Nibble) :
    readAccount content store root path = readAccount content store' root path ∧
      readSlot content store root path slot = readSlot content store' root path slot ∧
      readCode content store root path = readCode content store' root path := by
  have hboth : (stateGraph content).Along (fun v => v.key ∈ store ∧ v.key ∈ store') (rootVertices .account root) :=
    fun a ha b hb => ⟨hstore _ ⟨a, ha, b, hb, rfl⟩, hstore' _ ⟨a, ha, b, hb, rfl⟩⟩
  have haccount : readAccount content store root path = readAccount content store' root path := by
    have hlookup := lookup_congr (fun _ => rfl)
      (fun hn => by rw [refs_account hn]; exact List.subset_append_left _ _) path hboth
    simp [readAccount, hlookup]
  refine ⟨haccount, ?_, ?_⟩
  · simp only [readSlot, haccount]
    rcases hread : readAccount content store' root path with e | _ | a
    · rfl
    · rfl
    · have hslot := lookup_congr (fun _ => rfl) (fun hn => by rw [refs_storage hn]; exact fun _ h => h) slot
        (readAccount_along hread hboth).1
      simp [hslot]
  · simp only [readCode, haccount]
    rcases hread : readAccount content store' root path with e | _ | a
    · rfl
    · rfl
    · by_cases hhas : a.hasCode
      · have hcode : Key.code _ ∈ store ∧ Key.code _ ∈ store' := (readAccount_along hread hboth).2 hhas
        simp [hhas, hcode.1, hcode.2]
      · simp [hhas]

end PadiChain.Trie

import PadiChain.Common
import PadiChain.LibReach

/-! Merkle Patricia tries over a node store. A node is stored under the hash of its encoding, so what a
store can hold under a key is fixed by the key: `Content` gives it, and a store is the list of the keys
it holds. References descend, because a hash cannot occur in its own preimage. -/

namespace PadiChain.Trie

open Reach RefGraph List

/-- `EmptyRoot`: the root hash of a trie with no entries. -/
def emptyRoot : Hash := 0x56e81f171bcc55a6ff8345e692c0f86e5b48e01b996cadc001622fb5e363b421#256

/-- A hex digit of a path, or the terminator 16. -/
abbrev Nibble := Fin 17

instance neZeroNibble : NeZero 17 := ⟨by decide⟩

/-- What is cached about a node: its hash, whether the hash is out of date, and whether the encoding
is in the store. -/
structure NodeFlag where
  hash : Option Hash
  dirty : Bool
  persisted : Bool
  deriving DecidableEq

inductive TrieNode where
  | nil
  | value (v : Bytes)
  /-- A node that still lives in the store. -/
  | hash (h : Hash)
  /-- A leaf or an extension. -/
  | short (key : List Nibble) (child : TrieNode) (flags : NodeFlag)
  /-- A branch: a child for each hex digit, and the value of a key that ends here. -/
  | full (children : Nibble → TrieNode) (flags : NodeFlag)

namespace TrieNode

/-- The hashes of the nodes held elsewhere in the store, as `collectReferences` lists them. -/
def childHashes : TrieNode → List Hash
  | nil => []
  | value _ => []
  | hash h => [h]
  | short _ child _ => child.childHashes
  | full children _ => (List.finRange 17).flatMap fun i => (children i).childHashes

/-- The values of the leaves a node carries directly, as `collectReferences` lists them. -/
def leafValues : TrieNode → List Bytes
  | nil => []
  | value v => [v]
  | hash _ => []
  | short _ child _ => child.leafValues
  | full children _ => (List.finRange 17).flatMap fun i => (children i).leafValues

def cachedHashes : TrieNode → List Hash
  | nil => []
  | value _ => []
  | hash _ => []
  | short _ child flags => flags.hash.toList ++ child.cachedHashes
  | full children flags => flags.hash.toList ++ (List.finRange 17).flatMap fun i => (children i).cachedHashes

attribute [simp] childHashes leafValues cachedHashes

end TrieNode

/-- A store key, by namespace: trie nodes, contract code, and the records of the chain. -/
inductive Key where
  | node (h : Hash)
  | code (h : Hash)
  | record (k : Bytes)
  deriving DecidableEq

abbrev Store := List Key

structure Content where
  /-- The decoded preimage of a hash. -/
  node : Hash → Option TrieNode
  rank : Hash → Nat
  rank_lt : ∀ {h n}, node h = some n → ∀ h' ∈ n.childHashes, rank h' < rank h
  /-- A node is decoded with its own hash cached and none in what is inlined. -/
  cached : ∀ {h n}, node h = some n → n.cachedHashes = [h]

inductive TrieError where
  | missingNode (h : Hash)
  | invalidNode (h : Hash)
  | unexpectedNode
  /-- A path that ends at a branch; the source would panic. -/
  | indexOutOfRange
  /-- The depth bound of the model, which no walk reaches. -/
  | depth (h : Hash)
  deriving DecidableEq, Repr

section Walk

variable (content : Content) (store : Store)

def resolveHash (h : Hash) : Except TrieError TrieNode :=
  if Key.node h ∈ store then
    match content.node h with
    | none => .error (.invalidNode h)
    | some n => .ok n
  else .error (.missingNode h)

/-- `New`: an empty or zero root yields an empty trie. -/
def openTrie (root : Hash) : Except TrieError TrieNode :=
  if root = 0 ∨ root = emptyRoot then .ok .nil else resolveHash content store root

variable {σ ε : Type}

/-- The walk over a node and what is inlined in it. -/
def visitWith (onHash : Hash → List Nibble → σ → Except ε σ) (onNode : Hash → σ → Except ε σ)
    (onLeaf : List Nibble → Bytes → σ → Except ε σ) : TrieNode → List Nibble → σ → Except ε σ
  | .nil, _, acc => .ok acc
  | .value v, path, acc => onLeaf path v acc
  | .hash h, path, acc => onHash h path acc
  | .short key child flags, path, acc =>
    flags.hash.toList.foldlM (fun acc h => onNode h acc) acc >>=
      visitWith onHash onNode onLeaf child (path ++ key)
  | .full children flags, path, acc =>
    flags.hash.toList.foldlM (fun acc h => onNode h acc) acc >>= fun acc =>
      (List.finRange 17).foldlM
        (fun acc i => visitWith onHash onNode onLeaf (children i) (path ++ [i]) acc) acc

/-- `visit`, through at most `depth` stored nodes. -/
def visit (lift : TrieError → ε) (onNode : Hash → σ → Except ε σ)
    (onLeaf : List Nibble → Bytes → σ → Except ε σ) : Nat → TrieNode → List Nibble → σ → Except ε σ
  | 0 => visitWith (fun h _ _ => .error (lift (.depth h))) onNode onLeaf
  | depth + 1 =>
    visitWith
      (fun h path acc =>
        onNode h acc >>= fun acc =>
          match resolveHash content store h with
          | .error e => .error (lift e)
          | .ok n => visit lift onNode onLeaf depth n path acc)
      onNode onLeaf

/-- How many stored nodes lie on a path below a node at most. -/
def depthOf (n : TrieNode) : Nat := (n.childHashes.map fun h => content.rank h + 1).foldr max 0

def visitNodes (lift : TrieError → ε) (onNode : Hash → σ → Except ε σ)
    (onLeaf : List Nibble → Bytes → σ → Except ε σ) (n : TrieNode) (acc : σ) : Except ε σ :=
  visit content store lift onNode onLeaf (depthOf content n) n [] acc

end Walk

variable {content : Content} {store : Store} {ε : Type}

/-- The vertex a root stands for; an empty trie has none. -/
def rootVertices {α : Type} (kind : Hash → α) (root : Hash) : List α :=
  if root = 0 ∨ root = emptyRoot then [] else [kind root]

theorem rank_lt_depthOf {n : TrieNode} {h : Hash} (hh : h ∈ n.childHashes) : content.rank h < depthOf content n := by
  have hbound : ∀ (l : List Nat) (x : Nat), x ∈ l → x ≤ l.foldr max 0 := by
    intro l
    induction l with
    | nil => exact forall_mem_nil _
    | cons y rest ih => exact forall_mem_cons.mpr ⟨le_max_left _ _, fun x hx => le_max_of_le_right (ih x hx)⟩
  exact hbound _ _ (mem_map.mpr ⟨h, hh, rfl⟩)

theorem resolveHash_ok {h : Hash} {n : TrieNode} :
    resolveHash content store h = .ok n ↔ Key.node h ∈ store ∧ content.node h = some n := by
  simp only [resolveHash]
  split
  · rename_i hmem
    cases hnode : content.node h <;> simp [hmem]
  · rename_i hmem
    simp [hmem]

/-- What a walk over a node marks, in terms of what it marks for a reference and for a leaf. -/
theorem visitWith_marks {onHash : Hash → List Nibble → Finset Key → Except ε (Finset Key)}
    {onLeaf : List Nibble → Bytes → Finset Key → Except ε (Finset Key)} {hashP : Hash → Prop}
    {hashK : Hash → Set Key} {leafP : Bytes → Prop} {leafK : Bytes → Set Key}
    (hleaf : ∀ path v, Marks (leafP v) (leafK v) (onLeaf path v)) (n : TrieNode)
    (hhash : ∀ h ∈ n.childHashes, ∀ path, Marks (hashP h) (hashK h) (onHash h path)) (path : List Nibble) :
    Marks ((∀ h ∈ n.childHashes, hashP h) ∧ ∀ v ∈ n.leafValues, leafP v)
      {k | (∃ h ∈ n.cachedHashes, k = Key.node h) ∨ (∃ h ∈ n.childHashes, k ∈ hashK h) ∨
        ∃ v ∈ n.leafValues, k ∈ leafK v}
      (visitWith onHash (fun h marked => .ok (insert (Key.node h) marked)) onLeaf n path) := by
  have hreport : ∀ hashes : List Hash, Marks (∀ h ∈ hashes, True) {k | ∃ h ∈ hashes, k ∈ ({Key.node h} : Set Key)}
      (fun marked => hashes.foldlM (fun marked h => (.ok (insert (Key.node h) marked) : Except ε _)) marked) :=
    fun hashes => Marks.foldlM hashes fun h _ => Marks.single (Key.node h)
  induction n generalizing path with
  | nil =>
    refine Marks.nothing.congr ?_ fun _ k => ?_
    · simp
    · simp
  | value v =>
    refine (hleaf path v).congr ?_ fun _ k => ?_
    · simp
    · simp
  | hash h =>
    refine (hhash h (mem_singleton_self h) path).congr ?_ fun _ k => ?_
    · simp
    · simp
  | short key child flags ih =>
    refine ((hreport flags.hash.toList).andThen (ih hhash (path ++ key))).congr ?_ fun _ k => ?_
    · simp
    · simp [or_assoc, or_and_right, exists_or]
  | full children flags ih =>
    have hchildren : ∀ i ∈ finRange 17, Marks _ _ _ := fun i _ =>
      ih i (fun h hh => hhash h (mem_flatMap.mpr ⟨i, mem_finRange i, hh⟩)) (path ++ [i])
    refine ((hreport flags.hash.toList).andThen (Marks.foldlM _ hchildren)).congr ?_ fun _ k => ?_
    · simp only [TrieNode.childHashes, TrieNode.leafValues, mem_flatMap, mem_finRange, true_and,
        forall_true_left, implies_true, forall_and]
      exact ⟨fun h => ⟨fun x ⟨i, hx⟩ => h.1 i x hx, fun v ⟨i, hv⟩ => h.2 i v hv⟩,
        fun h => ⟨fun i x hx => h.1 x ⟨i, hx⟩, fun i v hv => h.2 v ⟨i, hv⟩⟩⟩
    · simp only [TrieNode.childHashes, TrieNode.leafValues, TrieNode.cachedHashes, mem_flatMap, mem_finRange,
        true_and, Set.mem_union, Set.mem_ofPred_eq, Set.mem_singleton_iff, mem_append]
      constructor
      · rintro (⟨h, hh, rfl⟩ | ⟨i, ⟨h, hh, rfl⟩ | ⟨h, hh, hk⟩ | ⟨v, hv, hk⟩⟩)
        · exact .inl ⟨h, Or.inl hh, rfl⟩
        · exact .inl ⟨h, Or.inr ⟨i, hh⟩, rfl⟩
        · exact .inr (.inl ⟨h, ⟨i, hh⟩, hk⟩)
        · exact .inr (.inr ⟨v, ⟨i, hv⟩, hk⟩)
      · rintro (⟨h, hh | ⟨i, hh⟩, rfl⟩ | ⟨h, ⟨i, hh⟩, hk⟩ | ⟨v, ⟨i, hv⟩, hk⟩)
        · exact .inl ⟨h, hh, rfl⟩
        · exact .inr ⟨i, Or.inl ⟨h, hh, rfl⟩⟩
        · exact .inr ⟨i, Or.inr (.inl ⟨h, hh, hk⟩)⟩
        · exact .inr ⟨i, Or.inr (.inr ⟨v, hv, hk⟩)⟩

section Kind

/-! The vertices of one kind of trie: `kind` names the vertex of a stored node, and a leaf refers to
`leafRefs` of its value. -/

variable {α : Type} {G : RefGraph α Key} {Resolved : α → Prop} {kind : Hash → α} {leafRefs : Bytes → List α}
  {leafOk : Bytes → Prop} {onLeaf : List Nibble → Bytes → Finset Key → Except ε (Finset Key)}
  (hkey : ∀ h, G.key (kind h) = Key.node h)
  (hrefs : ∀ {h n}, content.node h = some n →
    G.refs (kind h) = n.childHashes.map kind ++ n.leafValues.flatMap leafRefs)
  (hresolved : ∀ h, Resolved (kind h) ↔
    Key.node h ∈ store ∧ ∃ n, content.node h = some n ∧ ∀ v ∈ n.leafValues, leafOk v)
  (hleaf : ∀ path v, Marks (leafOk v ∧ G.Along Resolved (leafRefs v)) (G.keys (leafRefs v)) (onLeaf path v))
  (lift : TrieError → ε)

include hresolved in
omit hkey hrefs hleaf in
theorem openTrie_of_along {root : Hash} (h : G.Along Resolved (rootVertices kind root)) :
    ∃ n, openTrie content store root = .ok n := by
  by_cases hempty : root = 0 ∨ root = emptyRoot
  · exact ⟨.nil, if_pos hempty⟩
  · rw [rootVertices, if_neg hempty] at h
    obtain ⟨hmem, n, hn, -⟩ := (hresolved root).mp (along_singleton.mp h).1
    rw [openTrie, if_neg hempty]
    exact ⟨n, resolveHash_ok.mpr ⟨hmem, hn⟩⟩

include hkey hrefs hresolved

/-- What the walk over the decoded node of a hash marks, in terms of the vertex of the hash. -/
theorem marks_of_decoded {h : Hash} {m : TrieNode} (hmem : Key.node h ∈ store) (hm : content.node h = some m)
    {mark : Finset Key → Except ε (Finset Key)} (hmark : Marks ((∀ h' ∈ m.childHashes, G.Along Resolved [kind h']) ∧
        ∀ v ∈ m.leafValues, leafOk v ∧ G.Along Resolved (leafRefs v))
      {k | (∃ h' ∈ m.cachedHashes, k = Key.node h') ∨ (∃ h' ∈ m.childHashes, k ∈ G.keys [kind h']) ∨
        ∃ v ∈ m.leafValues, k ∈ G.keys (leafRefs v)} mark) :
    Marks (G.Along Resolved [kind h]) (G.keys [kind h]) mark := by
  refine hmark.congr ?_ fun _ k => ?_
  · rw [along_singleton, hresolved, hrefs hm, along_append, along_map, along_flatMap]
    constructor
    · rintro ⟨hhashes, hleaves⟩
      exact ⟨⟨hmem, m, hm, fun v hv => (hleaves v hv).1⟩, hhashes, fun v hv => (hleaves v hv).2⟩
    · rintro ⟨⟨-, m', hm', hok⟩, hhashes, hleaves⟩
      cases hm.symm.trans hm'
      exact ⟨hhashes, fun v hv => ⟨hok v hv, hleaves v hv⟩⟩
  · rw [keys_singleton, hkey, hrefs hm, RefGraph.keys_append, Set.mem_insert_iff, Set.mem_union,
      mem_keys_map, mem_keys_flatMap, content.cached hm]
    simp

include hleaf

/-- A walk that is deep enough marks the node and all that it refers to, and it fails exactly if one
of the nodes on the way is missing, undecodable or has a leaf that is not in order. -/
theorem visit_marks (depth : Nat) (n : TrieNode) (hdepth : ∀ h ∈ n.childHashes, content.rank h < depth)
    (path : List Nibble) :
    Marks ((∀ h ∈ n.childHashes, G.Along Resolved [kind h]) ∧
        ∀ v ∈ n.leafValues, leafOk v ∧ G.Along Resolved (leafRefs v))
      {k | (∃ h ∈ n.cachedHashes, k = Key.node h) ∨ (∃ h ∈ n.childHashes, k ∈ G.keys [kind h]) ∨
        ∃ v ∈ n.leafValues, k ∈ G.keys (leafRefs v)}
      (visit content store lift (fun h marked => .ok (insert (Key.node h) marked)) onLeaf depth n path) := by
  induction depth generalizing n path with
  | zero => exact visitWith_marks hleaf n (fun h hh => absurd (hdepth h hh) (Nat.not_lt_zero _)) path
  | succ depth ih =>
    refine visitWith_marks hleaf n (fun h hh path => ?_) path
    cases hresolve : resolveHash content store h with
    | error e =>
      have hstuck : ¬ G.Along Resolved [kind h] := by
        intro halong
        obtain ⟨hmem, m, hm, -⟩ := (hresolved h).mp (along_singleton.mp halong).1
        rw [resolveHash_ok.mpr ⟨hmem, hm⟩] at hresolve
        cases hresolve
      exact Marks.never hstuck fun marked => ⟨lift e, rfl⟩
    | ok m =>
      obtain ⟨hmem, hm⟩ := resolveHash_ok.mp hresolve
      have hbelow : ∀ h' ∈ m.childHashes, content.rank h' < depth := fun h' hh' =>
        lt_of_lt_of_le (content.rank_lt hm h' hh') (Nat.lt_succ_iff.mp (hdepth h hh))
      have hnode := marks_of_decoded hkey hrefs hresolved hmem hm (ih m hbelow path)
      refine ((Marks.single (Key.node h)).andThen hnode).congr ⟨And.right, And.intro trivial⟩ fun _ k => ?_
      rw [keys_singleton, hkey, Set.mem_union, Set.mem_insert_iff, Set.mem_singleton_iff, ← or_assoc,
        or_self]

theorem visitNodes_marks {root : Hash} {n : TrieNode} (hopen : openTrie content store root = .ok n) :
    Marks (G.Along Resolved (rootVertices kind root)) (G.keys (rootVertices kind root))
      (visitNodes content store lift (fun h marked => .ok (insert (Key.node h) marked)) onLeaf n) := by
  have hwalk := visit_marks hkey hrefs hresolved hleaf lift (depthOf content n) n (fun _ hh => rank_lt_depthOf hh) []
  by_cases hempty : root = 0 ∨ root = emptyRoot
  · simp only [openTrie, if_pos hempty] at hopen
    cases hopen
    rw [rootVertices, if_pos hempty]
    refine hwalk.congr ?_ fun _ k => ?_
    · simp
    · simp
  · simp only [openTrie, if_neg hempty] at hopen
    obtain ⟨hmem, hn⟩ := resolveHash_ok.mp hopen
    rw [rootVertices, if_neg hempty]
    exact marks_of_decoded hkey hrefs hresolved hmem hn hwalk

end Kind

end PadiChain.Trie

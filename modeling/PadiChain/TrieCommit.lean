import PadiChain.TrieEdit

/-! Committing a trie: the nodes that are not yet in the store are put into a batch under their hashes,
children first. Of the hash function only this is used: the hash of an encoding that was put stands
for the node that was encoded. -/

namespace PadiChain.Trie

/-- `encodeNode` and `Keccak256`: the length of the encoding of a node with its children in reference
form, and the hash of the encoding. -/
structure Encoding where
  size : TrieNode → Nat
  hash : TrieNode → Hash

inductive Put where
  | node (h : Hash) (n : TrieNode)
  | code (h : Hash) (code : Bytes)

def Put.key : Put → Key
  | node h _ => .node h
  | code h _ => .code h

/-- What `decodeNode` makes of the encoding of a node: a nested node was inlined and has no hash. -/
def TrieNode.decoded (hash : Option Hash) : TrieNode → TrieNode
  | .short path child _ => .short path (child.decoded none) ⟨hash, false, true⟩
  | .full children _ => .full (fun i => (children i).decoded none) ⟨hash, false, true⟩
  | n => n

section Commit

variable (enc : Encoding)

/-- The end of `commitNode`: an encoding of at least 32 bytes is put into the batch, a shorter one
stays inlined in the parent. -/
def persist (collapsed : TrieNode) (cached : NodeFlag → TrieNode) (flags : NodeFlag) (batch : List Put) :
    (TrieNode × TrieNode) × List Put :=
  if 32 ≤ enc.size collapsed then
    ((.hash (enc.hash collapsed), cached ⟨some (enc.hash collapsed), false, true⟩),
      batch ++ [.node (enc.hash collapsed) collapsed])
  else ((collapsed, cached flags), batch)

/-- The children of a branch in order. Its value, at 16, is in reference form already. -/
def commitChildren (commitChild : Fin 16 → List Put → (TrieNode × TrieNode) × List Put)
    (children : Nibble → TrieNode) (batch : List Put) :
    ((Nibble → TrieNode) × (Nibble → TrieNode)) × List Put :=
  (List.finRange 16).foldl
    (fun acc i =>
      let child := commitChild i acc.2
      ((Function.update acc.1.1 i.castSucc child.1.1, Function.update acc.1.2 i.castSucc child.1.2),
        child.2))
    ((children, children), batch)

def commitNode : TrieNode → List Put → (TrieNode × TrieNode) × List Put
  | .short path child flags, batch =>
    match flags.storedHash with
    | some h => ((.hash h, .short path child flags), batch)
    | none =>
      let below := commitNode child batch
      persist enc (.short path below.1.1 flags) (.short path below.1.2) flags below.2
  | .full children flags, batch =>
    match flags.storedHash with
    | some h => ((.hash h, .full children flags), batch)
    | none =>
      let below := commitChildren (fun i => commitNode (children i.castSucc)) children batch
      persist enc (.full below.1.1 flags) (.full below.1.2) flags below.2
  | n, batch => ((n, n), batch)

/-- The end of `Commit`: a root whose encoding is short is put as well, so that the trie can be opened
by its hash. -/
def commitRoot : (TrieNode × TrieNode) × List Put → (Hash × TrieNode) × List Put
  | ((.hash h, cached), batch) => ((h, cached), batch)
  | ((ref, cached), batch) => ((enc.hash ref, cached), batch ++ [.node (enc.hash ref) ref])

def commit (n : TrieNode) (batch : List Put) : (Hash × TrieNode) × List Put :=
  if n.isNil then ((emptyRoot, .nil), batch) else commitRoot enc (commitNode enc n batch)

end Commit

theorem TrieNode.decoded_references (n : TrieNode) (hash : Option Hash) :
    (n.decoded hash).childHashes = n.childHashes ∧ (n.decoded hash).leafValues = n.leafValues := by
  induction n generalizing hash with
  | nil | value _ | hash _ => exact ⟨rfl, rfl⟩
  | short path child flags ih => exact ih none
  | full children flags ih => simp only [decoded, childHashes, leafValues, ih, and_self]

section Rests

variable {enc : Encoding} {P : Hash → Prop} {Q : Bytes → Prop} {batch : List Put} {n : TrieNode}

/-- A hash that is put has the property once all that its node refers to has it. -/
def PutsRest (hashP : Hash → Prop) (leafP : Bytes → Prop) (batch : List Put) : Prop :=
  ∀ h n, Put.node h n ∈ batch → Rests hashP leafP n → hashP h

structure Committed (hashP : Hash → Prop) (leafP : Bytes → Prop) (batch : List Put)
    (r : (TrieNode × TrieNode) × List Put) : Prop where
  grows : batch ⊆ r.2
  rests : PutsRest hashP leafP r.2 → Rests hashP leafP r.1.1

theorem PutsRest.mono {batch' : List Put} (h : PutsRest P Q batch') (hsub : batch ⊆ batch') :
    PutsRest P Q batch := fun x n hput => h x n (hsub hput)

theorem rests_put {queued : List Put} {h : Hash} (hgrows : batch ⊆ queued)
    (hrests : PutsRest P Q queued → Rests P Q n) :
    batch ⊆ queued ++ [.node h n] ∧ (PutsRest P Q (queued ++ [.node h n]) → P h) := by
  have hsub := List.subset_append_left queued [.node h n]
  refine ⟨List.Subset.trans hgrows hsub, fun hput => ?_⟩
  exact hput _ _ (List.mem_append_right _ (List.mem_singleton_self _)) (hrests (hput.mono hsub))

theorem Committed.persist {queued : List Put} {cached : NodeFlag → TrieNode} {flags : NodeFlag}
    (hgrows : batch ⊆ queued) (hrests : PutsRest P Q queued → Rests P Q n) :
    Committed P Q batch (persist enc n cached flags queued) := by
  rw [Trie.persist]
  split
  · obtain ⟨hgrows', hrests'⟩ := rests_put hgrows hrests
    exact ⟨hgrows', hrests'⟩
  · exact ⟨hgrows, hrests⟩

theorem commitChildren_committed {commitChild : Fin 16 → List Put → (TrieNode × TrieNode) × List Put}
    (hcommit : ∀ i batch, Committed P Q batch (commitChild i batch)) {children : Nibble → TrieNode}
    (hchildren : ∀ i, Rests P Q (children i)) (batch : List Put) :
    batch ⊆ (commitChildren commitChild children batch).2 ∧
      (PutsRest P Q (commitChildren commitChild children batch).2 →
        ∀ i, Rests P Q ((commitChildren commitChild children batch).1.1 i)) := by
  refine List.foldlRecOn (motive := fun r : ((Nibble → TrieNode) × (Nibble → TrieNode)) × List Put =>
    batch ⊆ r.2 ∧ (PutsRest P Q r.2 → ∀ i, Rests P Q (r.1.1 i))) _ _ ⟨List.Subset.refl _, fun _ => hchildren⟩ ?_
  rintro r ⟨hgrows, hrests⟩ i -
  have hchild := hcommit i r.2
  refine ⟨List.Subset.trans hgrows hchild.grows, fun hput => ?_⟩
  exact rests_update (hrests (hput.mono hchild.grows)) _ (hchild.rests hput)

theorem commitNode_committed (hn : Rests P Q n) (batch : List Put) :
    Committed P Q batch (commitNode enc n batch) := by
  induction n generalizing batch with
  | nil | value _ | hash _ => exact ⟨List.Subset.refl _, fun _ => hn⟩
  | short path child flags ih =>
    obtain ⟨hstored, hchild⟩ := hn
    simp only [commitNode]
    cases hflags : flags.storedHash with
    | some h => exact ⟨List.Subset.refl _, fun _ => hstored h hflags⟩
    | none =>
      have hbelow := ih hchild batch
      exact .persist hbelow.grows fun hput => ⟨hstored, hbelow.rests hput⟩
  | full children flags ih =>
    obtain ⟨hstored, hchildren⟩ := hn
    simp only [commitNode]
    cases hflags : flags.storedHash with
    | some h => exact ⟨List.Subset.refl _, fun _ => hstored h hflags⟩
    | none =>
      obtain ⟨hgrows, hrests⟩ := commitChildren_committed
        (fun i batch => ih i.castSucc (hchildren i.castSucc) batch) hchildren batch
      exact .persist hgrows fun hput => ⟨hstored, hrests hput⟩

theorem commitRoot_committed {r : (TrieNode × TrieNode) × List Put}
    (hr : Committed P Q batch r) : batch ⊆ (commitRoot enc r).2 ∧
      (PutsRest P Q (commitRoot enc r).2 → P (commitRoot enc r).1.1) := by
  obtain ⟨⟨ref, cached⟩, queued⟩ := r
  cases ref with
  | hash h => exact ⟨hr.grows, hr.rests⟩
  | nil | value _ | short _ _ _ | full _ _ => exact rests_put hr.grows hr.rests

/-- The root of a committed trie rests on what the trie rested on and on what was put. -/
theorem commit_committed (enc : Encoding) (hn : Rests P Q n) (batch : List Put) :
    batch ⊆ (commit enc n batch).2 ∧
      (PutsRest P Q (commit enc n batch).2 → (commit enc n batch).1.1 = emptyRoot ∨ P (commit enc n batch).1.1) := by
  rw [commit]
  split
  · exact ⟨List.Subset.refl _, fun _ => Or.inl rfl⟩
  · obtain ⟨hgrows, hrests⟩ := commitRoot_committed (commitNode_committed hn batch)
    exact ⟨hgrows, fun hput => Or.inr (hrests hput)⟩

theorem commit_grows (enc : Encoding) (n : TrieNode) (batch : List Put) : batch ⊆ (commit enc n batch).2 := by
  have hn : Rests (fun _ => True) (fun _ => True) n :=
    rests_of_references (fun _ _ => trivial) (fun _ _ => trivial) (fun _ _ => trivial)
  exact (commit_committed enc hn batch).1

end Rests

end PadiChain.Trie

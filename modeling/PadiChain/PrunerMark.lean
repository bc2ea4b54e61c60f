import PadiChain.TrieState
import PadiChain.ChainTree

/-! The mark phase of the pruner. It keeps the states of the head and of the canonical blocks at most
`retain` below it, of the finalized block, and of genesis, and collects every store key that the walk
from their roots comes by. -/

namespace PadiChain.Prune

open Core Reach Trie Chain List

structure PruneConfig where
  retain : Nat
  deriving DecidableEq, Repr

def PruneConfig.default : PruneConfig := ⟨256⟩

def blockByNumber (c : BlockChain) (number : Nat) : Option Block :=
  match c.canonical number with
  | none => none
  | some hash => c.blocks hash

/-- `add` of `retainedRoots`: append the root of a block that was found, once. -/
def addRoot (roots : List Hash) : Option Block → List Hash
  | none => roots
  | some block => if block.header.stateRoot ∈ roots then roots else roots ++ [block.header.stateRoot]

/-- The blocks `retainedRoots` looks at. -/
def retainedBlocks (config : PruneConfig) (c : BlockChain) : List (Option Block) :=
  some c.current ::
    ((List.range (min config.retain c.current.number)).map fun i => blockByNumber c (c.current.number - i - 1)) ++
    [c.finalized, some c.genesis]

def retainedRoots (config : PruneConfig) (c : BlockChain) : List Hash :=
  (retainedBlocks config c).foldl addRoot []

inductive PruneError where
  | account (root : Hash)
  | storage (root : Hash)
  | trie (e : TrieError)
  deriving DecidableEq, Repr

variable (content : StateContent) (store : Store)

def markNode (h : Hash) (reachable : Finset Key) : Except PruneError (Finset Key) :=
  .ok (insert (Key.node h) reachable)

def markStorage (root : Hash) (reachable : Finset Key) : Except PruneError (Finset Key) :=
  match openTrie content.toContent store root with
  | .error _ => .error (.storage root)
  | .ok n => visitNodes content.toContent store .trie markNode (fun _ _ reachable => .ok reachable) n reachable

/-- The callback of `mark` for an account leaf of the state of a root. -/
def markLeaf (root : Hash) (_path : List Nibble) (value : Bytes) (reachable : Finset Key) :
    Except PruneError (Finset Key) :=
  match content.account value with
  | none => .error (.account root)
  | some a =>
    (if a.hasCode then .ok (insert (Key.code (bytesToHash a.codeHash)) reachable) else .ok reachable) >>=
      fun reachable =>
        if a.root = emptyRoot ∨ a.root = 0 then .ok reachable else markStorage content store a.root reachable

def markRoot (root : Hash) (reachable : Finset Key) : Except PruneError (Finset Key) :=
  match openTrie content.toContent store root with
  | .error _ => .ok reachable
  | .ok n => visitNodes content.toContent store .trie markNode (markLeaf content store root) n reachable

def mark (roots : List Hash) : Except PruneError (Finset Key) :=
  roots.foldlM (fun reachable root => markRoot content store root reachable) ∅

variable {content store}

theorem markStorage_marks (root : Hash) :
    Marks ((stateGraph content).Along (Resolved content store) (rootVertices .storage root))
      ((stateGraph content).keys (rootVertices .storage root)) (markStorage content store root) := by
  have hresolved : ∀ h, Resolved content store (.storage h) ↔
      Key.node h ∈ store ∧ ∃ n, content.node h = some n ∧ ∀ v ∈ n.leafValues, True := fun h => Iff.rfl
  have hleaf : ∀ (path : List Nibble) (v : Bytes),
      Marks (True ∧ (stateGraph content).Along (Resolved content store) ((fun _ => []) v))
        ((stateGraph content).keys ((fun _ => []) v)) (fun reachable => (.ok reachable : Except PruneError _)) :=
    fun _ _ => Marks.nothing.congr (by simp) (fun _ k => by simp)
  have hrefs : ∀ {h n}, content.node h = some n → (stateGraph content).refs (.storage h) =
      n.childHashes.map .storage ++ n.leafValues.flatMap fun _ => [] := by
    intro h n hn
    rw [flatMap_eq_nil_iff.mpr fun _ _ => rfl, append_nil]
    exact refs_storage hn
  cases hopen : openTrie content.toContent store root with
  | error e =>
    have hstuck : ¬ (stateGraph content).Along (Resolved content store) (rootVertices .storage root) := by
      intro halong
      obtain ⟨n, hn⟩ := openTrie_of_along hresolved halong
      rw [hopen] at hn
      cases hn
    exact Marks.never hstuck fun reachable => ⟨.storage root, by simp only [markStorage, hopen]⟩
  | ok n =>
    have hmark : markStorage content store root =
        visitNodes content.toContent store .trie markNode (fun _ _ reachable => .ok reachable) n := by
      funext reachable
      simp [markStorage, hopen]
    rw [hmark]
    exact visitNodes_marks (fun _ => rfl) hrefs hresolved hleaf .trie hopen

theorem markLeaf_marks (root : Hash) (path : List Nibble) (v : Bytes) :
    Marks ((content.account v).isSome ∧ (stateGraph content).Along (Resolved content store) (leafRefs content v))
      ((stateGraph content).keys (leafRefs content v)) (markLeaf content store root path v) := by
  cases ha : content.account v with
  | none =>
    refine Marks.never (fun h => ?_) fun reachable => ⟨.account root, by simp only [markLeaf, ha]⟩
    cases h.1
  | some a =>
    have hcode : Marks ((stateGraph content).Along (Resolved content store)
          (if a.hasCode then [Vertex.code (bytesToHash a.codeHash)] else []))
        ((stateGraph content).keys (if a.hasCode then [Vertex.code (bytesToHash a.codeHash)] else []))
        (fun reachable => (if a.hasCode then .ok (insert (Key.code (bytesToHash a.codeHash)) reachable)
          else .ok reachable : Except PruneError _)) := by
      cases a.hasCode with
      | false => exact Marks.nothing.congr (by simp) (fun _ k => by simp)
      | true =>
        refine (Marks.single _).congr ?_ fun _ k => ?_
        · rw [if_pos rfl]
          exact ⟨fun _ => RefGraph.along_singleton.mpr ⟨trivial, RefGraph.along_nil⟩, fun _ => trivial⟩
        · rw [if_pos rfl, RefGraph.keys_singleton]
          show _ ↔ k ∈ insert (Key.code (bytesToHash a.codeHash)) ((stateGraph content).keys [])
          rw [RefGraph.keys_nil, insert_empty_eq]
    have hstorage : Marks ((stateGraph content).Along (Resolved content store) (rootVertices .storage a.root))
        ((stateGraph content).keys (rootVertices .storage a.root))
        (fun reachable => if a.root = emptyRoot ∨ a.root = 0 then .ok reachable
          else markStorage content store a.root reachable) := by
      by_cases hempty : a.root = emptyRoot ∨ a.root = 0
      · simp only [if_pos hempty, rootVertices, if_pos hempty.symm]
        exact Marks.nothing.congr (by simp) (fun _ k => by simp)
      · simp only [if_neg hempty]
        exact markStorage_marks a.root
    have hmark : markLeaf content store root path v = fun reachable =>
        (if a.hasCode then .ok (insert (Key.code (bytesToHash a.codeHash)) reachable) else .ok reachable) >>=
          fun reachable =>
            if a.root = emptyRoot ∨ a.root = 0 then .ok reachable
            else markStorage content store a.root reachable := by
      funext reachable
      simp [markLeaf, ha]
    have hleaf : leafRefs content v = (if a.hasCode then [Vertex.code (bytesToHash a.codeHash)] else []) ++
        rootVertices .storage a.root := by
      simp [leafRefs, ha]
    rw [hmark, hleaf, RefGraph.keys_append, RefGraph.along_append]
    exact (hcode.andThen hstorage).congr (by simp) fun _ _ => Iff.rfl

theorem markRoot_marks (root : Hash) :
    Marks (Opens content store root → Walkable content store root)
      {k | Opens content store root ∧ k ∈ stateKeys content root} (markRoot content store root) := by
  cases hopen : openTrie content.toContent store root with
  | error e =>
    have hclosed : ¬ Opens content store root := by
      rintro ⟨n, hn⟩
      rw [hopen] at hn
      cases hn
    have hmark : markRoot content store root = fun reachable => .ok reachable := by
      funext reachable
      simp [markRoot, hopen]
    rw [hmark]
    exact Marks.nothing.congr (by simp [hclosed]) (fun _ k => by simp [hclosed])
  | ok n =>
    have hopens : Opens content store root := ⟨n, hopen⟩
    have hmark : markRoot content store root =
        visitNodes content.toContent store .trie markNode (markLeaf content store root) n := by
      funext reachable
      simp [markRoot, hopen]
    rw [hmark]
    have hwalk := visitNodes_marks (fun _ => rfl) refs_account resolved_account (markLeaf_marks root) .trie hopen
    exact hwalk.congr ⟨fun h _ => h, fun h => h hopens⟩
      fun _ k => ⟨fun hk => ⟨hopens, hk⟩, fun hk => hk.2⟩

/-- `mark` fails exactly if a root that can be opened has a hole below it, and otherwise it collects
the keys of all states that can be opened. -/
theorem mark_spec {roots : List Hash} :
    ((∀ root ∈ roots, Opens content store root → Walkable content store root) →
      ∃ reachable, mark content store roots = .ok reachable ∧
        ∀ k, k ∈ reachable ↔ ∃ root ∈ roots, Opens content store root ∧ k ∈ stateKeys content root) ∧
    (¬ (∀ root ∈ roots, Opens content store root → Walkable content store root) →
      ∃ e, mark content store roots = .error e) := by
  have hmarks : Marks (∀ root ∈ roots, Opens content store root → Walkable content store root)
      {k | ∃ root ∈ roots, k ∈ {k | Opens content store root ∧ k ∈ stateKeys content root}}
      (fun reachable => roots.foldlM (fun reachable root => markRoot content store root reachable) reachable) :=
    Marks.foldlM roots fun root _ => markRoot_marks root
  refine ⟨fun h => ?_, fun h => hmarks.fails h ∅⟩
  obtain ⟨reachable, heq, hmem⟩ := hmarks.ok h ∅
  exact ⟨reachable, heq, fun k => by simp [hmem]⟩

/-! ### The states that are kept -/

/-- A state to keep: of a block on the head's branch at most `retain` below the head, of the finalized
block, or of genesis. -/
def Kept (config : PruneConfig) (c : BlockChain) (root : Hash) : Prop :=
  (∃ b, c.IsAncestor b c.current ∧ c.current.number ≤ b.number + config.retain ∧ b.header.stateRoot = root) ∨
    (∃ f, c.finalized = some f ∧ f.header.stateRoot = root) ∨ c.genesis.header.stateRoot = root

variable {root : Hash} {env : Processor.Env} {c : BlockChain}

theorem mem_foldl_addRoot (blocks : List (Option Block)) (roots : List Hash) :
    root ∈ blocks.foldl addRoot roots ↔ root ∈ roots ∨ ∃ b, some b ∈ blocks ∧ b.header.stateRoot = root := by
  induction blocks generalizing roots with
  | nil => simp
  | cons block rest ih =>
    rw [foldl_cons, ih]
    cases block with
    | none => simp [addRoot]
    | some b =>
      have hadd : root ∈ addRoot roots (some b) ↔ root ∈ roots ∨ b.header.stateRoot = root := by
        simp only [addRoot]
        split
        · rename_i hmem
          exact ⟨Or.inl, fun h => h.elim id fun heq => heq ▸ hmem⟩
        · rw [mem_append, mem_singleton, eq_comm]
      rw [hadd, or_assoc]
      simp

theorem blockByNumber_eq_some (hwf : c.WellFormed env) {number : Nat}
    {b : Block} : blockByNumber c number = some b ↔ b.number = number ∧ c.IsAncestor b c.current := by
  simp only [blockByNumber]
  constructor
  · intro h
    split at h
    · cases h
    rename_i hash hcanonical
    obtain ⟨b', hb', hnumber, hancestor⟩ := (hwf.canonical_iff number hash).mp hcanonical
    rw [h] at hb'
    cases hb'
    exact ⟨hnumber, hancestor⟩
  · rintro ⟨hnumber, hancestor⟩
    have hstored := hwf.stored_of_ancestor hancestor fun _ => hwf.current_stored
    rw [(hwf.canonical_iff number _).mpr ⟨b, hstored, hnumber, hancestor⟩]
    exact hstored

theorem mem_retainedRoots (hwf : c.WellFormed env) {config : PruneConfig}
    : root ∈ retainedRoots config c ↔ Kept config c root := by
  rw [retainedRoots, mem_foldl_addRoot]
  simp only [retainedBlocks, cons_append, mem_cons, mem_append, mem_map, mem_range,
    not_mem_nil, false_or, or_false, Option.some.injEq, lt_min_iff]
  constructor
  · rintro ⟨b, rfl | ⟨i, hi, hb⟩ | hb | rfl, rfl⟩
    · exact .inl ⟨c.current, Ancestry.Ancestor.refl _, Nat.le_add_right _ _, rfl⟩
    · obtain ⟨hnumber, hancestor⟩ := (blockByNumber_eq_some hwf).mp hb
      exact .inl ⟨b, hancestor, by omega, rfl⟩
    · exact .inr (.inl ⟨b, hb.symm, rfl⟩)
    · exact .inr (.inr rfl)
  · rintro (⟨b, hancestor, hrecent, rfl⟩ | ⟨f, hf, rfl⟩ | rfl)
    · refine ⟨b, ?_, rfl⟩
      have hle := hancestor.number_le
      rcases Nat.lt_or_ge b.number c.current.number with hlt | hge
      · refine .inr (.inl ⟨c.current.number - b.number - 1, ⟨by omega, by omega⟩, ?_⟩)
        exact (blockByNumber_eq_some hwf).mpr ⟨by omega, hancestor⟩
      · exact .inl (hancestor.unique (Ancestry.Ancestor.refl _) (le_antisymm hle hge))
    · exact ⟨f, Or.inr (.inr (.inl hf.symm)), rfl⟩
    · exact ⟨c.genesis, Or.inr (.inr (.inr rfl)), rfl⟩

end PadiChain.Prune

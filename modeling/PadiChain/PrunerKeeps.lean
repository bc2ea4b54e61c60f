import PadiChain.PrunerSweep
import PadiChain.ChainHeader

/-! What a prune leaves readable. The states that later work needs are those of the stored blocks that
can still become canonical and those that settle the validator set of a later height; a run keeps such a
state exactly as far as it is shared with the states of the head's branch, the finalized block and
genesis. -/

namespace PadiChain.Prune

open Core Staking Processor Reach Trie Chain

/-- Neither the block nor the finalized block is an ancestor of the other. -/
def Conflicts (c : BlockChain) (b : Block) : Prop :=
  ∃ f, c.finalized = some f ∧ ¬ c.IsAncestor b f ∧ ¬ c.IsAncestor f b

/-- The heights whose validator set, proposer or attestation keys are looked up when a block is
verified and executed: its own, the one before when it starts an epoch, and that of its certificate. -/
def lookups (env : Env) (block : Block) : List Nat :=
  block.number ::
    ((if isEpochBoundary block.number then [epochStart (epochOf block.number - 1)] else []) ++
      match decodeJustification env block.header.justification with
      | some (some qc) => if qc.number < block.number then [qc.number] else []
      | _ => [])

/-- A root whose state is read to settle a height. -/
def Settles (c : BlockChain) (number : Nat) (root : Hash) : Prop :=
  root = c.genesis.header.stateRoot ∨
    epochOf number ≠ 0 ∧ ∃ header, c.headerByNumber (BlockChain.boundaryOf number) = some header ∧
      header.stateRoot = root

/-- A state that is needed later: of a stored block at most `retain` below the head that does not
conflict with the finalized block, or one that settles a height which a block above the head looks up. -/
def Needed (env : Env) (config : PruneConfig) (c : BlockChain) (root : Hash) : Prop :=
  (∃ b, c.Stored env b ∧ ¬ Conflicts c b ∧ c.current.number ≤ b.number + config.retain ∧
      b.header.stateRoot = root) ∨
    ∃ block number, c.current.number < block.number ∧ number ∈ lookups env block ∧ Settles c number root

/-- Every needed state that could be read before can be read after. -/
def Keeps (env : Env) (config : PruneConfig) (c : BlockChain) (content : StateContent) (before after : Store) :
    Prop :=
  ∀ root, Needed env config c root → Readable content before root → Readable content after root

/-- A state to keep whose root is there while something below it is missing or malformed. -/
def Torn (config : PruneConfig) (c : BlockChain) (content : StateContent) (store : Store) : Prop :=
  ∃ root, Kept config c root ∧ Opens content store root ∧ ¬ Walkable content store root

/-- Every part of a needed state also belongs to a state to keep. -/
def Shared (env : Env) (config : PruneConfig) (c : BlockChain) (content : StateContent) (store : Store) : Prop :=
  ∀ root, Needed env config c root → Readable content store root → ∀ k ∈ stateKeys content root,
    ∃ root', Kept config c root' ∧ Opens content store root' ∧ k ∈ stateKeys content root'

section Run

variable {env : Env} {p : Pruner} {c : BlockChain} {content : StateContent} {tracker : Tracker} {store : Store}

theorem run_of_torn (hwf : c.WellFormed env) (htorn : Torn p.config c content store) :
    (run content p c tracker store).store = store := by
  obtain ⟨root, hkept, hopens, hstuck⟩ := htorn
  have hmark : ∃ e, mark content store (retainedRoots p.config c) = .error e := by
    refine mark_spec.2 fun hall => hstuck ?_
    exact hall root ((mem_retainedRoots hwf).mpr hkept) hopens
  obtain ⟨e, he⟩ := hmark
  simp only [run, he]
  split <;> rfl

theorem mem_run (hwf : c.WellFormed env) (hidle : p.running = false) (hwhole : ¬ Torn p.config c content store)
    {k : Key} : k ∈ (run content p c tracker store).store ↔ k ∈ store ∧ ((isNodeKey k ∨ isCodeKey k) →
      ∃ root, Kept p.config c root ∧ Opens content store root ∧ k ∈ stateKeys content root) := by
  have hwalk : ∀ root ∈ retainedRoots p.config c, Opens content store root → Walkable content store root := by
    intro root hroot hopens
    by_contra hstuck
    exact hwhole ⟨root, (mem_retainedRoots hwf).mp hroot, hopens, hstuck⟩
  obtain ⟨reachable, hmark, hmem⟩ := mark_spec.1 hwalk
  simp [run, hidle, hmark, mem_sweep, hmem, Tracker.startTracking, mem_retainedRoots hwf]

end Run

/-- The state that settles a height is kept if its block is at most `retain` below the head. -/
theorem kept_of_settles {env : Env} {c : BlockChain} (hwf : c.WellFormed env) {config : PruneConfig} {number : Nat}
    {root : Hash} (h : Settles c number root)
    (hrecent : c.current.number ≤ BlockChain.boundaryOf number + config.retain) : Kept config c root := by
  rcases h with rfl | ⟨-, header, hheader, rfl⟩
  · exact .inr (.inr rfl)
  · obtain ⟨b, rfl, hnumber, hancestor⟩ := hwf.ancestor_of_headerByNumber hheader
    exact .inl ⟨b, hancestor, by rw [hnumber]; exact hrecent, rfl⟩

/-- A run keeps everything that is needed later exactly if it stops at a torn state or every needed
state is made of parts of states to keep. -/
theorem keeps_iff_shared {env : Env} {c : BlockChain} (hwf : c.WellFormed env) (content : StateContent) (p : Pruner)
    (hidle : p.running = false) (tracker : Tracker) (store : Store) :
    Keeps env p.config c content store (run content p c tracker store).store ↔
      Torn p.config c content store ∨ Shared env p.config c content store := by
  by_cases htorn : Torn p.config c content store
  · rw [run_of_torn hwf htorn]
    exact ⟨fun _ => Or.inl htorn, fun _ root _ h => h⟩
  · rw [or_iff_right htorn]
    refine forall_congr' fun root => forall_congr' fun _ => forall_congr' fun hreadable => ?_
    rw [hreadable.iff_keys]
    refine forall_congr' fun k => forall_congr' fun hk => ?_
    rw [mem_run hwf hidle htorn]
    have hstate : isNodeKey k ∨ isCodeKey k := by
      rcases isState_of_mem_stateKeys hk with ⟨h, rfl⟩ | ⟨h, rfl⟩
      · exact .inl rfl
      · exact .inr rfl
    exact ⟨fun h => h.2 hstate, fun h => ⟨hreadable.2 k hk, fun _ => h⟩⟩

/-- No run changes an answer about a state to keep: accounts, slots and code are read as before. -/
theorem run_keeps_reads {env : Env} {c : BlockChain} (hwf : c.WellFormed env) {content : StateContent} {p : Pruner}
    (hidle : p.running = false) {tracker : Tracker} {store : Store} {root : Hash} (hkept : Kept p.config c root)
    (hreadable : Readable content store root) (path slot : List Nibble) :
    readAccount content (run content p c tracker store).store root path = readAccount content store root path ∧
      readSlot content (run content p c tracker store).store root path slot = readSlot content store root path slot ∧
      readCode content (run content p c tracker store).store root path = readCode content store root path := by
  refine Whole.reads_eq (fun k hk => ?_) hreadable.2 path slot
  by_cases htorn : Torn p.config c content store
  · rw [run_of_torn hwf htorn]
    exact hreadable.2 k hk
  · exact (mem_run hwf hidle htorn).mpr ⟨hreadable.2 k hk, fun _ => ⟨root, hkept, hreadable.1.opens, hk⟩⟩

/-! ### A side branch -/

namespace PruneExample

def env : Env := Env.plain fun s => s.registry.randaoMix + 1

def chain : BlockChain := Genesis.plainChain env [1]

def head : Block := emptyChild chain.genesis 1 1 []

def side : Block :=
  { emptyChild chain.genesis 1 2 [] with
    header.stateRoot := 2 ^ 65 + 1
    header.randaoReveal := List.replicate 48 1 ++ (SigningMessage.randao 7 0).spell }

def forked : BlockChain := Transition.run (Op.apply env) chain (Op.imports 100 [head, side])

def leaf (h : Hash) : TrieNode := .short [16] (.value [1]) ⟨some h, false, true⟩

def content : StateContent where
  node h := some (leaf h)
  rank _ := 0
  rank_lt := by
    intro h n hn h' hh'
    cases hn
    cases hh'
  cached := by
    intro h n hn
    cases hn
    rfl
  account _ := some ⟨0, 1, 0, []⟩

def store : Store := [.node 1, .node (2 ^ 65 + 1)]

def pruner : Pruner := ⟨.default, false, .zero⟩

theorem forked_wellFormed : forked.WellFormed env :=
  (Op.run_extends (Genesis.wellFormed_openChain rfl) _).wellFormed

theorem readable {store : Store} {root : Hash} (hempty : ¬ (root = 0 ∨ root = emptyRoot))
    (hroot : Key.node root ∈ store) : Readable content store root := by
  have hvertices : rootVertices Vertex.account root = [.account root] := if_neg hempty
  have halong : ∀ {P : Vertex → Prop}, P (.account root) →
      (stateGraph content).Along P (rootVertices .account root) := by
    intro P hP
    rw [hvertices]
    exact RefGraph.along_singleton.mpr ⟨hP, RefGraph.along_nil⟩
  refine ⟨halong ⟨hroot, leaf root, rfl, fun _ _ => rfl⟩, RefGraph.whole_iff_along.mpr (halong hroot)⟩

end PruneExample

section

open PruneExample

theorem run_keeps_genesis_account :
    readAccount content (run content pruner forked ⟨false, ∅⟩ store).store 1 [16] = .ok (some ⟨0, 1, 0, []⟩) :=
  (run_keeps_reads forked_wellFormed rfl (.inr (.inr (by decide +kernel)))
    (readable (by decide +kernel) (by decide +kernel)) [16] []).1.trans (by decide +kernel)

/-- On a chain without forks a run keeps what is needed, and it deletes a state nobody needs. -/
theorem keeps_without_fork :
    Keeps env .default chain content store (run content pruner chain ⟨false, ∅⟩ store).store ∧
      (run content pruner chain ⟨false, ∅⟩ store).store = [Key.node 1] := by
  have hwf : chain.WellFormed env := Genesis.wellFormed_openChain rfl
  have hkept : ∀ root, Needed env .default chain root → Kept .default chain root := by
    rintro root (⟨b, hb, -, -, rfl⟩ | ⟨block, number, -, -, hsettles⟩)
    · obtain ⟨-, hsome⟩ := Option.ite_none_right_eq_some.mp hb
      rw [← Option.some.inj hsome]
      exact .inr (.inr rfl)
    · exact kept_of_settles hwf hsettles (Nat.zero_le _)
  refine ⟨(keeps_iff_shared hwf content pruner rfl ⟨false, ∅⟩ store).mpr (Or.inr ?_), by decide +kernel⟩
  exact fun root hneeded hreadable k hk => ⟨root, hkept root hneeded, hreadable.1.opens, hk⟩

/-- A side branch within the horizon, not in conflict with anything final: its state can be read before
the run and not after it. -/
theorem keeps_fails_on_side_branch :
    forked.WellFormed env ∧ forked.current = head ∧ forked.Stored env side ∧ ¬ Conflicts forked side ∧
      readAccount content store side.header.stateRoot [16] = .ok (some ⟨0, 1, 0, []⟩) ∧
      readAccount content (run content pruner forked ⟨false, ∅⟩ store).store side.header.stateRoot [16] =
        .error (.trie (.missingNode side.header.stateRoot)) ∧
      ¬ Keeps env .default forked content store (run content pruner forked ⟨false, ∅⟩ store).store := by
  have hrun : forked.current = head ∧ forked.blocks (env.hash side.header) = some side ∧ forked.finalized = none ∧
      forked.current.number ≤ side.number + 256 ∧
      readAccount content store side.header.stateRoot [16] = .ok (some ⟨0, 1, 0, []⟩) ∧
      readAccount content (run content pruner forked ⟨false, ∅⟩ store).store side.header.stateRoot [16] =
        .error (.trie (.missingNode side.header.stateRoot)) ∧
      (run content pruner forked ⟨false, ∅⟩ store).store = [Key.node 1] := by
    decide +kernel
  obtain ⟨hhead, hstored, hfinal, hrecent, hbefore, hafter, hstore⟩ := hrun
  have hconflict : ¬ Conflicts forked side := by
    rintro ⟨f, hf, -⟩
    rw [hfinal] at hf
    cases hf
  refine ⟨forked_wellFormed, hhead, hstored, hconflict, hbefore, hafter, fun hkeeps => ?_⟩
  have hempty : ¬ (side.header.stateRoot = 0 ∨ side.header.stateRoot = emptyRoot) := by decide +kernel
  have hreadable := hkeeps side.header.stateRoot (Or.inl ⟨side, hstored, hconflict, hrecent, rfl⟩)
    (readable hempty (by decide +kernel))
  have hthere := hreadable.2 _ (root_mem_stateKeys hempty)
  rw [hstore] at hthere
  revert hthere
  decide +kernel

end

end PadiChain.Prune

import PadiChain.NodeRelay

/-! Messages between honest nodes. A node samples as many addresses as a message may have and appends its own, so that
a long-lived node sends one more than its peers accept. State nodes are cut off on both sides alike. Blocks are
accepted as far as the receiver takes each of them. -/

namespace PadiChain

open Core Processor Chain P2P ExecutionExample

/-- The node takes each of some blocks, in the state that the blocks before it leave. -/
def NodeState.TakesInTurn (env : Env) (wording : Wording) (services : NodeServices) (now : Nat) :
    NodeState → List Block → Prop
  | _, [] => True
  | s, block :: rest =>
    s.Takes env now block ∧ TakesInTurn env wording services now (s.handleBlock env wording services now block).2 rest

namespace P2P.Host

variable {ι : Type} [DecidableEq ι] {env : Env} {wording : Wording} {services : NodeServices} {w : Wiring NodeState}

theorem takesAll_iff (hw : w.toBackend = NodeState.backend env wording services) {now : Nat} {blocks : List Block}
    {s : NodeState} (hkeyed : s.chain.Keyed env) :
    TakesAll w now s blocks ↔ s.TakesInTurn env wording services now blocks := by
  induction blocks generalizing s with
  | nil => exact Iff.rfl
  | cons block rest ih =>
    rw [TakesAll, NodeState.TakesInTurn, hw]
    exact and_congr (NodeState.takes_iff wording services now block hkeyed)
      (ih (NodeState.keyed_handleBlock hkeyed wording services now block))

def Affords (w : Wiring NodeState) (now : Nat) (p : ι) (m : PeerMessage) (h : Host ι NodeState) : Prop :=
  cost w m ≤ (h.tracks p).limiter.tokensAt now

omit [DecidableEq ι] in
/-- A sample with an address appended fits into a message unless the sample fills it. -/
theorem length_sample_append_le_iff (rules : AddressRules) (book : AddressBook) (own : Option String) :
    (book.sample rules maxAddressesPerMessage ++ own.toList).length ≤ maxAddressesPerMessage ↔
      own = none ∨ book.known.length < maxAddressesPerMessage := by
  rw [List.length_append, AddressBook.length_sample]
  cases own with
  | none =>
    refine iff_of_true ?_ (.inl rfl)
    exact Nat.min_le_left _ _
  | some addr =>
    rw [Option.toList_some, List.length_singleton]
    simp only [reduceCtorEq, false_or]
    omega

omit [DecidableEq ι] in
theorem blocksReply_eq_some {start count : Nat} {h : Host ι NodeState} {m : PeerMessage}
    (hm : h.blocksReply w start count = some m) :
    m = .blocks (blocksFrom w h.state start (min count maxBlocksPerRequest)) := by
  rw [blocksReply] at hm
  split at hm
  · cases hm
  · rename_i hblocks
    rw [hblocks]
    exact (Option.some.inj hm).symm

end P2P.Host

namespace HonestExample

open RelayExample

def fullBook : AddressBook where
  known := (List.range 32).map fun i => ⟨String.singleton (Char.ofNat (64 + i)), 0, 0⟩
  nodup := by decide
  within := by decide

def longLived : Host Nat NodeState :=
  { host chain with
    book := fullBook
    listener := some "10.0.0.1:30303"
    nodeURL := some "198.51.100.7:30303" }

theorem keyed_host : (host chain).state.chain.Keyed env :=
  (Genesis.wellFormed_openChain rfl).hash_eq

theorem affords {m : PeerMessage} : (host chain).Affords wiring 0 1 m := by
  change (1 : ℚ) + ((0 : Nat) : ℚ) / 65536 ≤ min 200 (200 + ((0 - 0 : Nat) : ℚ) / second * 50)
  norm_num

end HonestExample

end PadiChain

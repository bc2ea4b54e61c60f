import PadiChain.PrunerMark

/-! The sweep phase and a whole run of the pruner with no other writer. Stored nodes and code that were
not marked are collected and deleted in batches, unless a write of the key was tracked meanwhile. -/

namespace PadiChain.Prune

open Core Reach Trie Chain

/-- `TrackingDB`: the keys written since tracking began. -/
structure Tracker where
  tracking : Bool
  written : Finset Key
  deriving DecidableEq

namespace Tracker

def startTracking (_t : Tracker) : Tracker := ⟨true, ∅⟩

def stopTracking (_t : Tracker) : Tracker := ⟨false, ∅⟩

def record (t : Tracker) (key : Key) : Tracker :=
  if t.tracking then { t with written := insert key t.written } else t

end Tracker

structure PruneStats where
  roots : Nat
  reachable : Nat
  deleted : Nat
  skipped : Nat
  deriving DecidableEq, Repr

def PruneStats.zero : PruneStats := ⟨0, 0, 0, 0⟩

def isNodeKey : Key → Bool
  | .node _ => true
  | _ => false

def isCodeKey : Key → Bool
  | .code _ => true
  | _ => false

/-- `collect` for one key: the doomed keys and the number of skipped ones. -/
def collectKey (reachable recent : Finset Key) (acc : List Key × Nat) (key : Key) : List Key × Nat :=
  if key ∈ reachable then acc
  else if key ∈ recent then (acc.1, acc.2 + 1)
  else (acc.1 ++ [key], acc.2)

/-- The candidates: first the trie nodes, then the code. -/
def collect (reachable recent : Finset Key) (store : Store) : List Key × Nat :=
  (store.filter isNodeKey ++ store.filter isCodeKey).foldl (collectKey reachable recent) ([], 0)

def deleteKeys (store : Store) (batch : List Key) : Store := store.filter fun key => key ∉ batch

def batchSize : Nat := 4096

def deleteLoop (recent : Finset Key) : List Key → List Key → Store → PruneStats → PruneStats × Store
  | [], batch, store, stats => (stats, deleteKeys store batch)
  | key :: doomed, batch, store, stats =>
    if key ∈ recent then deleteLoop recent doomed batch store { stats with skipped := stats.skipped + 1 }
    else
      let stats := { stats with deleted := stats.deleted + 1 }
      if batchSize ≤ (batch ++ [key]).length then
        deleteLoop recent doomed [] (deleteKeys store (batch ++ [key])) stats
      else deleteLoop recent doomed (batch ++ [key]) store stats

/-- `sweep`, between two readings of the tracked writes. -/
def sweep (first second : Finset Key) (reachable : Finset Key) (store : Store) : PruneStats × Store :=
  let candidates := collect reachable first store
  deleteLoop second candidates.1 [] store { PruneStats.zero with skipped := candidates.2 }

structure Pruner where
  config : PruneConfig
  running : Bool
  last : PruneStats
  deriving DecidableEq, Repr

inductive RunError where
  | inProgress
  | mark (e : PruneError)
  deriving DecidableEq, Repr

structure Outcome where
  result : Except RunError PruneStats
  pruner : Pruner
  tracker : Tracker
  store : Store

variable (content : StateContent)

/-- `Run`, with no other writer. -/
def run (p : Pruner) (c : BlockChain) (tracker : Tracker) (store : Store) : Outcome :=
  if p.running then ⟨.error .inProgress, p, tracker, store⟩
  else
    let tracker := tracker.startTracking
    let roots := retainedRoots p.config c
    match mark content store roots with
    | .error e => ⟨.error (.mark e), p, tracker.stopTracking, store⟩
    | .ok reachable =>
      let swept := sweep tracker.written tracker.written reachable store
      let stats := { swept.1 with roots := roots.length, reachable := reachable.card }
      ⟨.ok stats, { p with last := stats }, tracker.stopTracking, swept.2⟩

variable {content}

variable {store : Store} {k : Key} {reachable recent : Finset Key}

@[simp] theorem mem_deleteKeys {batch : List Key} : k ∈ deleteKeys store batch ↔ k ∈ store ∧ k ∉ batch := by
  simp [deleteKeys]

theorem mem_foldl_collectKey (keys : List Key) (acc : List Key × Nat) :
    k ∈ (keys.foldl (collectKey reachable recent) acc).1 ↔ k ∈ acc.1 ∨ k ∈ keys ∧ k ∉ reachable ∧ k ∉ recent := by
  induction keys generalizing acc with
  | nil => simp
  | cons key rest ih =>
    rw [List.foldl_cons, ih]
    simp only [collectKey]
    split
    · grind
    · split
      · grind
      · grind

theorem mem_collect :
    k ∈ (collect reachable recent store).1 ↔ k ∈ store ∧ (isNodeKey k ∨ isCodeKey k) ∧ k ∉ reachable ∧ k ∉ recent := by
  rw [collect, mem_foldl_collectKey]
  grind

theorem mem_deleteLoop (doomed batch : List Key) (store : Store) (stats : PruneStats) :
    k ∈ (deleteLoop recent doomed batch store stats).2 ↔ k ∈ store ∧ k ∉ batch ∧ ¬ (k ∈ doomed ∧ k ∉ recent) := by
  induction doomed generalizing batch store stats with
  | nil => simp [deleteLoop]
  | cons key doomed ih =>
    simp only [deleteLoop]
    split
    · rw [ih]
      grind
    · split
      · rw [ih, mem_deleteKeys]
        grind
      · rw [ih]
        grind

theorem mem_sweep {first second : Finset Key} :
    k ∈ (sweep first second reachable store).2 ↔
      k ∈ store ∧ ((isNodeKey k ∨ isCodeKey k) → k ∈ reachable ∨ k ∈ first ∨ k ∈ second) := by
  simp only [sweep, mem_deleteLoop, mem_collect]
  grind

end PadiChain.Prune

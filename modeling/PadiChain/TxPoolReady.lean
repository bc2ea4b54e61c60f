import Mathlib.Algebra.BigOperators.Group.List.Lemmas
import PadiChain.LibMerge
import PadiChain.ProcessorMessage

/-! The candidates for a block: the pending transactions of the pool, those of an account in nonce order and between
accounts by the effective tip of what is next. -/

namespace PadiChain.Core.TxData

def nonce : TxData → Nat
  | .legacy tx => tx.nonce
  | .dynamicFee tx => tx.nonce

def gasTipCap : TxData → Nat
  | .legacy tx => tx.gasPrice
  | .dynamicFee tx => tx.gasTipCap

def effectiveTip (tx : TxData) : Option Nat → Int
  | none => tx.gasTipCap
  | some baseFee => Executor.effectiveGasPrice tx baseFee - baseFee

end PadiChain.Core.TxData

namespace PadiChain.TxPool

open Core List Merge

/-- The account lists of `pending`, in the order in which the maps are iterated. A list is kept for the sender that
is recovered from its transactions, and has one for each nonce. -/
structure Pending (sender : TxData → Address) where
  txs : List TxData
  distinct : (txs.map fun tx => (sender tx, tx.nonce)).Nodup

namespace Pending

variable {sender : TxData → Address} (p : Pending sender) (a : Address)

/-- `list.add`. -/
def add (tx : TxData) : Pending sender where
  txs := tx :: p.txs.filter fun t => (sender t, t.nonce) ≠ (sender tx, tx.nonce)
  distinct := by
    refine nodup_cons.mpr ⟨fun hmem => ?_, p.distinct.sublist (filter_sublist.map _)⟩
    obtain ⟨t, ht, hkey⟩ := mem_map.mp hmem
    exact of_decide_eq_true (mem_filter.mp ht).2 hkey

/-- `list.sorted`, for the list of an account. -/
def sorted : List TxData := (p.txs.filter (sender · = a)).mergeSort (·.nonce ≤ ·.nonce)

/-- The list of an account, unless it is empty. -/
def next? : Option (TxData × List TxData) := (p.sorted a).head?.map (·, (p.sorted a).tail)

/-- The lists of `Pending`, none of which is empty. -/
def heads : List (TxData × List TxData) := (p.txs.map sender).dedup.filterMap p.next?

/-- Without a limit the loop ends with the last of the heads, after as many rounds as there are transactions. -/
def ready (baseFee : Option Nat) (limit : Int) : List TxData :=
  merge (·.effectiveTip baseFee) (if 0 < limit then limit.toNat else p.txs.length) p.heads

theorem mem_sorted {tx : TxData} : tx ∈ p.sorted a ↔ tx ∈ p.txs ∧ sender tx = a := by
  simp [sorted]

theorem sorted_pairwise : (p.sorted a).Pairwise (·.nonce < ·.nonce) := by
  have hle : (p.sorted a).Pairwise (·.nonce ≤ ·.nonce) :=
    (pairwise_mergeSort (by simp; omega) (by simp; omega) _).imp of_decide_eq_true
  have hne : (p.sorted a).Pairwise fun tx tx' => (sender tx, tx.nonce) ≠ (sender tx', tx'.nonce) := by
    refine ((mergeSort_perm ..).pairwise_iff Ne.symm).mpr ?_
    exact (pairwise_map.mp p.distinct).sublist filter_sublist
  refine (hle.and hne).imp_of_mem fun htx htx' h => lt_of_le_of_ne h.1 fun hnonce => h.2 ?_
  rw [((p.mem_sorted a).mp htx).2, ((p.mem_sorted a).mp htx').2, hnonce]

variable {a}

theorem sorted_of_next {tx : TxData} {rest : List TxData} (h : p.next? a = some (tx, rest)) :
    sender tx = a ∧ p.sorted a = tx :: rest := by
  have hsorted : p.sorted a = tx :: rest := by
    rw [next?] at h
    cases hs : p.sorted a <;> simp_all
  exact ⟨((p.mem_sorted a).mp (hsorted ▸ mem_cons_self)).2, hsorted⟩

theorem holds_heads : Holds sender p.sorted p.heads where
  mem_iff tx rest := by
    refine mem_filterMap.trans ⟨fun ⟨a, _, hnext⟩ => ?_, fun h => ⟨sender tx, ?_, by rw [next?, h]; rfl⟩⟩
    · obtain ⟨rfl, h⟩ := p.sorted_of_next hnext
      exact h
    · have htx := ((p.mem_sorted (sender tx)).mp (h ▸ mem_cons_self)).1
      exact mem_dedup.mpr (mem_map_of_mem htx)
  nodup := by
    refine (nodup_dedup _).filterMap fun a b (tx, rest) ha hb => ?_
    exact (p.sorted_of_next ha).1.symm.trans (p.sorted_of_next hb).1
  owned a _ h := ((p.mem_sorted a).mp h).2

theorem size_heads : size p.heads = p.txs.length := by
  have hsize (l : List Address) : size (l.filterMap p.next?) = (l.map fun a => (p.txs.map sender).count a).sum := by
    induction l with
    | nil => rfl
    | cons a l ih =>
      have hlength : (p.sorted a).length = (p.txs.map sender).count a := by
        rw [sorted, length_mergeSort, ← countP_eq_length_filter, List.count, countP_map]
        rfl
      cases hs : p.sorted a <;> simp_all [size, next?]
  rw [heads, hsize, sum_map_count_dedup_eq_length, length_map]

/-- `Ready` returns each transaction once, as many as there are up to the limit, those of an account from the first
of its list on and each with the greatest effective tip among those that are next. -/
theorem ready_ordered (baseFee : Option Nat) (limit : Int) :
    (p.ready baseFee limit).Nodup ∧
    (p.ready baseFee limit).length = (if 0 < limit then min limit p.txs.length else p.txs.length : Int) ∧
    (∀ a, (p.sorted a).Pairwise (·.nonce < ·.nonce) ∧ (∀ tx, tx ∈ p.sorted a ↔ tx ∈ p.txs ∧ sender tx = a) ∧
      (p.ready baseFee limit).filter (sender · = a) <+: p.sorted a) ∧
    ∀ i tx, (p.ready baseFee limit)[i]? = some tx → ∀ a,
      ∀ next ∈ ((p.sorted a).drop (((p.ready baseFee limit).take i).filter (sender · = a)).length).head?,
        next.effectiveTip baseFee ≤ tx.effectiveTip baseFee := by
  have hgreedy : Greedy (·.effectiveTip baseFee) sender p.sorted (p.ready baseFee limit) := merge_greedy p.holds_heads
  refine ⟨hgreedy.nodup fun a => (p.sorted_pairwise a).imp fun h => ?_, ?_, fun a => ?_, fun i tx htx a next hnext => ?_⟩
  · rintro rfl
    exact h.false
  · rw [ready, Merge.length_merge, size_heads]
    split <;> omega
  · exact ⟨p.sorted_pairwise a, fun _ => p.mem_sorted a, hgreedy.filter_isPrefix a⟩
  · exact hgreedy.le_key htx hnext

end Pending

end PadiChain.TxPool

import PadiChain.EvmInterpreter

/-! The ranges of memory that instructions touch. The size that is paid for covers each of them, so that what is cut
out of the memory lies inside; what is cut out of code, call data and return data is bounded by the instruction
itself. -/

namespace PadiChain.Evm

open Command Vm List

theorem slice_isSome (b : Bytes) (lo hi : Nat) (hlo : lo ≤ hi) (hhi : hi ≤ b.length) :
    ∃ part, slice b lo hi = some part ∧ part.length = hi - lo := by
  refine ⟨(b.take hi).drop lo, if_pos ⟨hlo, hhi⟩, ?_⟩
  rw [length_drop, length_take, Nat.min_eq_left hhi]

theorem length_copyInto (dst src : Bytes) : (copyInto dst src).length = dst.length := by
  rw [copyInto, length_append, length_take, length_drop]
  omega

namespace Memory

structure SameSize (m m' : Memory) : Prop where
  length : m'.store.length = m.store.length
  lastGasCost : m'.lastGasCost = m.lastGasCost

theorem SameSize.refl (m : Memory) : m.SameSize m := ⟨rfl, rfl⟩

variable {m : Memory} {offset size : Nat}

theorem copyTo_isSome {lo hi : Nat} (hlo : lo ≤ hi) (hhi : hi ≤ m.store.length) (value : Bytes) :
    ∃ m', m.copyTo lo hi value = some m' ∧ m.SameSize m' := by
  obtain ⟨old, hold, hlength⟩ := slice_isSome m.store lo hi hlo hhi
  simp only [copyTo, hold, Option.map_some]
  refine ⟨_, rfl, ?_, rfl⟩
  rw [length_append, length_append, length_copyInto, hlength, length_take, length_drop]
  omega

def Covers (length offset size : Nat) : Prop := size = 0 ∨ offset + size ≤ length

variable (hcovers : Covers m.store.length offset size) (hlength : m.store.length < 2 ^ 64)

include hcovers hlength

theorem set_isSome (value : Bytes) : ∃ m', m.set offset size value = some m' ∧ m.SameSize m' := by
  rw [set]
  split
  · exact ⟨m, rfl, .refl m⟩
  · rename_i hsize
    have hrange := hcovers.resolve_left hsize
    rw [Nat.mod_eq_of_lt (hrange.trans_lt hlength)]
    exact copyTo_isSome (Nat.le_add_right offset size) hrange value

theorem getCopy_isSome : ∃ data, m.getCopy offset size = some data := by
  rw [getCopy]
  split
  · exact ⟨[], rfl⟩
  · rename_i hsize
    have hrange := hcovers.resolve_left hsize
    split
    · rename_i hoffset
      rw [Nat.mod_eq_of_lt (hrange.trans_lt hlength)]
      obtain ⟨data, hdata, -⟩ := slice_isSome m.store offset (min (offset + size) m.store.length)
        (by omega) (by omega)
      rw [hdata]
      exact ⟨_, rfl⟩
    · exact ⟨_, rfl⟩

theorem getPtr_isSome : ∃ data, m.getPtr offset size = some data := by
  rw [getPtr]
  split
  · exact ⟨[], rfl⟩
  · rename_i hnonempty
    obtain ⟨hsize, hoffset⟩ := not_or.mp hnonempty
    have hrange := hcovers.resolve_left hsize
    rw [Nat.mod_eq_of_lt (hrange.trans_lt hlength)]
    obtain ⟨data, hdata, -⟩ := slice_isSome m.store offset (min (offset + size) m.store.length)
      (by omega) (by omega)
    exact ⟨data, hdata⟩

end Memory

theorem getDataPadded_isSome (data : Bytes) (offset : Word) (size : Nat) :
    ∃ out, getDataPadded data offset size = some out := by
  rw [getDataPadded]
  split
  · exact ⟨_, rfl⟩
  · split
    · exact ⟨_, rfl⟩
    · split
      · exact ⟨_, rfl⟩
      · rename_i hoffset
        simp only
        generalize (offset.uint64 + size) % 2 ^ 64 = last
        obtain ⟨part, hpart, -⟩ := slice_isSome data offset.uint64
          (if data.length < last ∨ last < offset.uint64 then data.length else last)
          (by split <;> omega) (by split <;> omega)
        rw [hpart]
        exact ⟨_, rfl⟩

/-! ### What is paid for -/

def memoryCost (size : Nat) : Nat := (size + 31) / 32 * gasMemoryWord + (size + 31) / 32 * ((size + 31) / 32) / 512

def memoryLimit : Nat := 0x1FFFFFFFE0

variable {size length n i j : Nat}

theorem memoryCost_eq (h : size ≤ memoryLimit) :
    (toWordSize size * gasMemoryWord + toWordSize size * toWordSize size % 2 ^ 64 / 512) % 2 ^ 64 = memoryCost size ∧
      memoryCost size < 2 ^ 64 := by
  have hlimit : size ≤ 0x1FFFFFFFE0 := h
  have hwords : toWordSize size = (size + 31) / 32 := by
    rw [toWordSize, if_neg (by omega)]
  have hbound : (size + 31) / 32 ≤ 2 ^ 32 - 1 := by omega
  have hsquare : (size + 31) / 32 * ((size + 31) / 32) ≤ (2 ^ 32 - 1) * (2 ^ 32 - 1) := Nat.mul_le_mul hbound hbound
  rw [hwords, memoryCost, gasMemoryWord, Nat.mod_eq_of_lt (a := (size + 31) / 32 * ((size + 31) / 32)) (by omega)]
  constructor
  · exact Nat.mod_eq_of_lt (by omega)
  · omega

theorem memoryGasCost_eq_some {m m' : Memory} {fee : Nat} (h : memoryGasCost m size = some (fee, m')) :
    m'.store = m.store ∧ m'.lastGasCost = m.lastGasCost + fee ∧ fee < 2 ^ 64 ∧ size ≤ memoryLimit ∧
      memoryCost size ≤ m'.lastGasCost := by
  rw [memoryGasCost] at h
  split at h
  · rename_i hsize
    cases h
    refine ⟨rfl, rfl, by decide, ?_, ?_⟩
    all_goals
      rw [hsize]
      exact Nat.zero_le _
  · split at h
    · cases h
    · rename_i hlimit
      obtain ⟨hcost, hbound⟩ := memoryCost_eq (Nat.le_of_not_lt hlimit)
      simp only [hcost] at h
      split at h
      · cases h
        exact ⟨rfl, rfl, by decide, Nat.le_of_not_lt hlimit, ‹_›⟩
      · cases h
        refine ⟨rfl, ?_, by omega, Nat.le_of_not_lt hlimit, Nat.le_refl _⟩
        change memoryCost size = m.lastGasCost + (memoryCost size - m.lastGasCost)
        omega

/-! ### Ranges -/

/-- The ranges of memory, as offset and size, that an instruction reads and writes. -/
def OpCode.ranges (stack : List Word) : OpCode → List (Word × Word)
  | .mload | .mstore => [(stack.getD 0 0, 32)]
  | .mstore8 => [(stack.getD 0 0, 1)]
  | .keccak256 | .return_ | .revert | .log _ => [(stack.getD 0 0, stack.getD 1 0)]
  | .calldatacopy | .codecopy | .returndatacopy => [(stack.getD 0 0, stack.getD 2 0)]
  | .mcopy => [(stack.getD 0 0, stack.getD 2 0), (stack.getD 1 0, stack.getD 2 0)]
  | .extcodecopy => [(stack.getD 1 0, stack.getD 3 0)]
  | .create | .create2 => [(stack.getD 1 0, stack.getD 2 0)]
  | .call | .callcode => [(stack.getD 3 0, stack.getD 4 0), (stack.getD 5 0, stack.getD 6 0)]
  | .delegatecall | .staticcall => [(stack.getD 2 0, stack.getD 3 0), (stack.getD 4 0, stack.getD 5 0)]
  | _ => []

/-- The range lies below the size, and does not wrap. -/
def Covers (length : Nat) (range : Word × Word) : Prop := range.2 = 0 ∨ range.1.toNat + range.2.toNat ≤ length

theorem Covers.mono {length' : Nat} {range : Word × Word} (h : Covers length range) (hle : length ≤ length') :
    Covers length' range := h.imp id fun hrange => hrange.trans hle

theorem Covers.uint64 {offset size : Word} (h : Covers length (offset, size)) (hlength : length < 2 ^ 64) :
    Memory.Covers length offset.uint64 size.uint64 := by
  rcases h with hsize | hrange
  · left
    have hzero : size = 0 := hsize
    rw [hzero]
    rfl
  · right
    have hrange : offset.toNat + size.toNat ≤ length := hrange
    rw [Word.uint64, Word.uint64, Nat.mod_eq_of_lt (by omega), Nat.mod_eq_of_lt (by omega)]
    exact hrange

variable {Q : Nat → Machine → Prop} {R : VmError → Machine → Prop} {D : Prop} {m : Machine}

theorem wp_back {Q : Word → Machine → Prop} (h : n < m.stack.length) :
    wp (back n) Q R D m ↔ Q (m.stack.getD n 0) m := by
  have hget : m.stack[n]? = some (m.stack.getD n 0) := by
    rw [getD_eq_getElem?_getD, getElem?_eq_getElem h, Option.getD_some]
  simp only [wp, back, hget]

theorem covers_of_memoryExtent {offset size : Word} (h : memoryExtent offset size = some n) :
    Covers n (offset, size) := by
  by_cases hsize : size = 0
  · exact .inl hsize
  · exact .inr (memoryExtent_eq_some h hsize).2.2.1.ge

theorem wp_oneExtent (hi : i < m.stack.length) (hj : j < m.stack.length)
    (hQ : ∀ n, Covers n (m.stack.getD i 0, m.stack.getD j 0) → Q n m) (hR : ∀ e, R e m) :
    wp (oneExtent i j) Q R D m := by
  rw [oneExtent, wp_bind, wp_back hi, wp_bind, wp_back hj, wp_orThrow]
  exact ⟨fun n hn => hQ n (covers_of_memoryExtent hn), fun _ => hR _⟩

theorem wp_largerExtent {i' j' : Nat} (hi : i < m.stack.length) (hj : j < m.stack.length) (hi' : i' < m.stack.length)
    (hj' : j' < m.stack.length)
    (hQ : ∀ n, Covers n (m.stack.getD i 0, m.stack.getD j 0) → Covers n (m.stack.getD i' 0, m.stack.getD j' 0) → Q n m)
    (hR : ∀ e, R e m) : wp (largerExtent i j i' j') Q R D m := by
  rw [largerExtent, wp_bind]
  refine wp_oneExtent hi hj (fun first hfirst => ?_) hR
  rw [wp_bind]
  refine wp_oneExtent hi' hj' (fun second hsecond => ?_) hR
  exact hQ _ (hfirst.mono (Nat.le_max_left _ _)) (hsecond.mono (Nat.le_max_right _ _))

theorem wp_fixedExtent (size : Word) (h : 0 < m.stack.length) (hsize : size.toNat < 2 ^ 64)
    (hQ : ∀ n, Covers n (m.stack.getD 0 0, size) → Q n m) (hR : ∀ e, R e m) : wp (fixedExtent size.toNat) Q R D m := by
  rw [fixedExtent, wp_bind, wp_back h, wp_ite]
  refine ⟨fun _ => hR _, fun hfits => ?_⟩
  simp only [Bool.not_eq_true', Bool.not_eq_false] at hfits
  rw [wp_orThrow]
  refine ⟨fun n hn => hQ n (.inr ?_), fun _ => hR _⟩
  obtain ⟨hsum, -⟩ := safeAdd_eq_some (Word.uint64_lt _) hsize hn
  rw [hsum, Word.uint64_of_isUint64 hfits]

theorem wp_extent {op : OpCode} (h : op.stackRequirement.1 ≤ m.stack.length)
    (hQ : ∀ n, (∀ range ∈ op.ranges m.stack, Covers n range) → Q n m) (hR : ∀ e, R e m) : wp (extent op) Q R D m := by
  have hnone : op.ranges m.stack = [] → Q 0 m := by
    intro hranges
    refine hQ 0 fun range hrange => ?_
    rw [hranges] at hrange
    cases hrange
  have hone : ∀ {offset size : Word}, op.ranges m.stack = [(offset, size)] → ∀ n, Covers n (offset, size) → Q n m := by
    intro offset size hranges n hcovers
    refine hQ n fun range hrange => ?_
    rw [hranges, mem_singleton] at hrange
    rw [hrange]
    exact hcovers
  have htwo : ∀ {first second : Word × Word}, op.ranges m.stack = [first, second] →
      ∀ n, Covers n first → Covers n second → Q n m := by
    intro first second hranges n hfirst hsecond
    refine hQ n fun range hrange => ?_
    rw [hranges, mem_cons, mem_singleton] at hrange
    rcases hrange with rfl | rfl
    · exact hfirst
    · exact hsecond
  have hi : ∀ {i : Nat}, i < op.stackRequirement.1 → i < m.stack.length := fun hi => hi.trans_le h
  cases op with
  | mload | mstore => exact wp_fixedExtent 32 (hi (by decide)) (by decide) (hone rfl) hR
  | mstore8 => exact wp_fixedExtent 1 (hi (by decide)) (by decide) (hone rfl) hR
  | keccak256 | return_ | revert | calldatacopy | codecopy | returndatacopy | extcodecopy | create | create2 =>
    exact wp_oneExtent (hi (by decide)) (hi (by decide)) (hone rfl) hR
  | log n => exact wp_oneExtent (hi (Nat.succ_pos _)) (hi (Nat.succ_lt_succ (Nat.succ_pos _))) (hone rfl) hR
  | mcopy | call | callcode | delegatecall | staticcall =>
    exact wp_largerExtent (hi (by decide)) (hi (by decide)) (hi (by decide)) (hi (by decide)) (htwo rfl) hR
  | _ => exact hnone rfl

end PadiChain.Evm

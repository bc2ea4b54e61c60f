import Mathlib.Data.BitVec
import Mathlib.Data.List.Range

/-! The primitive value types the node shares: byte strings, 20-byte addresses and 32-byte hashes.
A hash or an address is the bit vector of its bytes, most significant byte first. -/

namespace PadiChain

open List

abbrev Bytes := List UInt8

abbrev Hash := BitVec 256

instance : LawfulBEq Hash := inferInstance

abbrev Address := BitVec 160

def bytesToNat (b : Bytes) : Nat := b.foldl (fun acc x => acc * 256 + x.toNat) 0

def hashBytes (h : Hash) : Bytes := (List.range 32).map fun i => UInt8.ofNat (h.toNat / 256 ^ (31 - i))

def fillBytes (width v : Nat) : Bytes :=
  (List.range width).map fun i => UInt8.ofNat (v / 256 ^ (width - 1 - i))

def addressBytes (a : Address) : Bytes := fillBytes 20 a.toNat

/-- `BytesToAddress`: the rightmost 20 bytes, padded on the left when there are fewer. -/
def bytesToAddress (b : Bytes) : Address := BitVec.ofNat 160 (bytesToNat b)

theorem bytesToNat_append_singleton (b : Bytes) (x : UInt8) : bytesToNat (b ++ [x]) = bytesToNat b * 256 + x.toNat := by
  rw [bytesToNat, foldl_append]
  rfl

theorem length_hashBytes (h : Hash) : (hashBytes h).length = 32 := by
  rw [hashBytes, length_map, length_range]

theorem length_fillBytes (width v : Nat) : (fillBytes width v).length = width := by
  rw [fillBytes, length_map, length_range]

theorem fillBytes_succ (width v : Nat) : fillBytes (width + 1) v = fillBytes width (v / 256) ++ [UInt8.ofNat v] := by
  rw [fillBytes, range_succ, map_append, fillBytes]
  congr 1
  · apply map_congr_left
    intro i hi
    have hlt := mem_range.mp hi
    rw [Nat.div_div_eq_div_mul, ← Nat.pow_succ', show width + 1 - 1 - i = width - 1 - i + 1 by omega]
  · simp

/-- A number is read back from its bytes, modulo what the width can hold. -/
theorem bytesToNat_fillBytes (width v : Nat) : bytesToNat (fillBytes width v) = v % 256 ^ width := by
  induction width generalizing v with
  | zero =>
    rw [Nat.pow_zero, Nat.mod_one]
    rfl
  | succ width ih =>
    have hsplit : v % 256 ^ (width + 1) = v % 256 + 256 * (v / 256 % 256 ^ width) := by
      rw [Nat.pow_succ', Nat.mod_mul]
    rw [fillBytes_succ, bytesToNat_append_singleton, ih, UInt8.toNat_ofNat', hsplit]
    omega

theorem fillBytes_inj (width : Nat) {v w : Nat} (hv : v < 256 ^ width) (hw : w < 256 ^ width)
    (h : fillBytes width v = fillBytes width w) : v = w := by
  have hread := congrArg bytesToNat h
  rwa [bytesToNat_fillBytes, bytesToNat_fillBytes, Nat.mod_eq_of_lt hv, Nat.mod_eq_of_lt hw] at hread

theorem addressBytes_injective : Function.Injective addressBytes := by
  intro a b h
  exact BitVec.eq_of_toNat_eq (fillBytes_inj 20 (by exact a.isLt) (by exact b.isLt) h)

theorem hashBytes_injective : Function.Injective hashBytes := by
  intro a b h
  exact BitVec.eq_of_toNat_eq (fillBytes_inj 32 (by exact a.isLt) (by exact b.isLt) h)

theorem bytesToNat_lt (b : Bytes) : bytesToNat b < 256 ^ b.length := by
  induction b using reverseRecOn with
  | nil => decide
  | append_singleton b x ih =>
    have hx := x.toNat_lt
    rw [bytesToNat_append_singleton, length_append, length_singleton, Nat.pow_succ]
    omega

theorem bytesToNat_inj {b c : Bytes} (hlength : b.length = c.length) (h : bytesToNat b = bytesToNat c) : b = c := by
  induction b using reverseRecOn generalizing c with
  | nil =>
    rw [length_nil] at hlength
    exact (length_eq_zero_iff.mp hlength.symm).symm
  | append_singleton b x ih =>
    rcases eq_nil_or_concat c with rfl | ⟨c, y, rfl⟩
    · simp at hlength
    · rw [concat_eq_append] at hlength h ⊢
      rw [bytesToNat_append_singleton, bytesToNat_append_singleton] at h
      have hx := x.toNat_lt
      have hy := y.toNat_lt
      simp only [length_append, length_singleton] at hlength
      have hbyte : x = y := UInt8.toNat_inj.mp (by omega)
      rw [ih (c := c) (by omega) (by omega), hbyte]

end PadiChain

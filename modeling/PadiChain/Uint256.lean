import PadiChain.EvmWord
import PadiChain.RlpEncode

/-! The 256-bit integers over their four limbs: shifts, single bytes and byte strings. Each comes out as the word of the
same name, which is what the interpreter computes with. The proofs compare bits, limb by limb. -/

namespace PadiChain.Uint256

open List

open Evm (Word)

/-- The `i`-th limb, the least significant first. -/
def limb (z : Word) (i : Nat) : BitVec 64 := z.extractLsb' (64 * i) 64

def ofLimbs (limbs : Nat → BitVec 64) : Word := limbs 3 ++ limbs 2 ++ limbs 1 ++ limbs 0

def setAllOnes : Word := ofLimbs fun _ => BitVec.allOnes 64

def lsh (x : Word) (n : Nat) : Word :=
  if 256 ≤ n then 0
  else
    ofLimbs fun i =>
      if i < n / 64 then 0
      else
        let src := i - n / 64
        let v := limb x src <<< (n % 64)
        if 0 < n % 64 ∧ 0 < src then v ||| limb x (src - 1) >>> (64 - n % 64) else v

def rsh (x : Word) (n : Nat) : Word :=
  if 256 ≤ n then 0
  else
    ofLimbs fun i =>
      let src := i + n / 64
      if 4 ≤ src then 0
      else
        let v := limb x src >>> (n % 64)
        if 0 < n % 64 ∧ src + 1 < 4 then v ||| limb x (src + 1) <<< (64 - n % 64) else v

def isNegative (x : Word) : Bool := limb x 3 &&& 0x8000000000000000 ≠ 0

def sRsh (x : Word) (n : Nat) : Word :=
  if 256 ≤ n then if isNegative x then setAllOnes else 0
  else if isNegative x && 0 < n then rsh x n ||| lsh setAllOnes (256 - n) else rsh x n

/-- One round of `SetBytes`, at a position from the right. -/
def orByte (z : Word) (c : UInt8) (pos : Nat) : Word :=
  ofLimbs fun i => if i = pos / 8 then limb z i ||| c.toBitVec.setWidth 64 <<< (8 * (pos % 8)) else limb z i

def orBytes (z : Word) : Bytes → Word
  | [] => z
  | c :: b => orBytes (orByte z c b.length) b

def setBytes (b : Bytes) : Word := orBytes 0 (b.drop (b.length - 32))

def bytes32 (z : Word) : Bytes :=
  (List.range 32).map fun k => ⟨(limb z ((31 - k) / 8) >>> (8 * ((31 - k) % 8))).setWidth 8⟩

/-- `SetBig`, with the bytes that `big.Int` gives. -/
def setBig : Option Int → Word
  | none => 0
  | some v => if v < 0 then -setBytes (Rlp.putUint (-v).toNat) else setBytes (Rlp.putUint v.toNat)

def bit (z : Word) (i : Nat) : BitVec 64 := if 256 ≤ i then 0 else limb z (i / 64) >>> (i % 64) &&& 1

def byte (x n : Word) : Word :=
  if !n.isUint64 || 32 ≤ n.uint64 then 0 else BitVec.ofNat 256 ((bytes32 x).getD n.uint64 0).toNat

def signExtend (n x : Word) : Word :=
  if !n.isUint64 || 31 ≤ n.uint64 then x
  else
    let signBit := n.uint64 * 8 + 7
    let mask := lsh setAllOnes (signBit + 1)
    if bit x signBit = 1 then x ||| mask else x &&& ~~~mask

variable (z : Word) (x : Word) (n : Nat)

@[grind =]
theorem getLsbD_limb (i j : Nat) : (limb z i).getLsbD j = (decide (j < 64) && z.getLsbD (64 * i + j)) :=
  BitVec.getLsbD_extractLsb' ..

theorem eq_ofLimbs {z : Word} {limbs : Nat → BitVec 64}
    (h : ∀ i < 4, ∀ j < 64, (limbs i).getLsbD j = z.getLsbD (64 * i + j)) : ofLimbs limbs = z := by
  refine BitVec.eq_of_getLsbD_eq fun k hk => ?_
  have hbit := h (k / 64) (by omega) (k % 64) (by omega)
  rw [Nat.div_add_mod] at hbit
  rw [← hbit, ofLimbs, BitVec.getLsbD_append, BitVec.getLsbD_append, BitVec.getLsbD_append]
  split
  · rw [show k / 64 = 0 by omega, show k % 64 = k by omega]
  split
  · rw [show k / 64 = 1 by omega, show k % 64 = k - 64 by omega]
  split
  · rw [show k / 64 = 2 by omega, show k % 64 = k - 64 - 64 by omega]
  · rw [show k / 64 = 3 by omega, show k % 64 = k - 64 - 64 - 64 by omega]

theorem setAllOnes_eq : setAllOnes = BitVec.allOnes 256 := by
  refine eq_ofLimbs fun i hi j hj => ?_
  simp only [BitVec.getLsbD_allOnes]
  grind

theorem lsh_eq : lsh x n = x <<< n := by
  rw [lsh]
  split
  · exact (BitVec.shiftLeft_eq_zero (by omega)).symm
  · refine eq_ofLimbs fun i hi j hj => ?_
    -- a shift by `q` limbs and `r` bits, so that all positions are linear
    have hn := Nat.div_add_mod n 64
    have hr := Nat.mod_lt n (show 0 < 64 by decide)
    generalize n / 64 = q at *
    generalize n % 64 = r at *
    subst hn
    grind

theorem rsh_eq : rsh x n = x >>> n := by
  rw [rsh]
  split
  · exact (BitVec.ushiftRight_eq_zero (by omega)).symm
  · refine eq_ofLimbs fun i hi j hj => ?_
    have hn := Nat.div_add_mod n 64
    have hr := Nat.mod_lt n (show 0 < 64 by decide)
    generalize n / 64 = q at *
    generalize n % 64 = r at *
    subst hn
    grind

theorem isNegative_eq : isNegative x = x.msb := by
  have hmask : (0x8000000000000000 : BitVec 64) = BitVec.twoPow 64 63 := rfl
  rw [isNegative, hmask, BitVec.and_twoPow, getLsbD_limb]
  cases hx : x.msb <;> simp_all [BitVec.msb_eq_getLsbD_last]

theorem sRsh_eq : sRsh x n = x.sshiftRight n := by
  refine BitVec.eq_of_getLsbD_eq fun i hi => ?_
  rw [sRsh, isNegative_eq, setAllOnes_eq, rsh_eq, lsh_eq, BitVec.getLsbD_sshiftRight]
  split
  · split
    · rw [BitVec.getLsbD_allOnes]
      grind
    · rw [show (0 : Word).getLsbD i = false from BitVec.getLsbD_zero]
      grind
  · split
    · rw [BitVec.getLsbD_or, BitVec.getLsbD_shiftLeft, BitVec.getLsbD_allOnes]
      grind
    · grind

theorem orByte_eq (c : UInt8) {pos : Nat} (hpos : pos < 32) :
    orByte z c pos = z ||| c.toBitVec.setWidth 256 <<< (8 * pos) := by
  refine eq_ofLimbs fun i hi j hj => ?_
  have hn := Nat.div_add_mod pos 8
  have hr := Nat.mod_lt pos (show 0 < 8 by decide)
  generalize pos / 8 = q at *
  generalize pos % 8 = r at *
  subst hn
  grind

theorem bytesToNat_append (a b : Bytes) : bytesToNat (a ++ b) = bytesToNat a * 256 ^ b.length + bytesToNat b := by
  induction b using reverseRecOn with
  | nil => simp [bytesToNat]
  | append_singleton b x ih =>
    rw [← append_assoc, bytesToNat_append_singleton, ih, bytesToNat_append_singleton, length_append,
      length_singleton, Nat.pow_succ]
    ring

theorem bytesToNat_cons (c : UInt8) (b : Bytes) : bytesToNat (c :: b) = c.toNat <<< (8 * b.length) ||| bytesToNat b := by
  have hlow : bytesToNat b < 2 ^ (8 * b.length) := (bytesToNat_lt b).trans_eq (Nat.pow_mul 2 8 b.length).symm
  have hone : bytesToNat [c] = c.toNat := Nat.zero_add _
  rw [← Nat.shiftLeft_add_eq_or_of_lt hlow, Nat.shiftLeft_eq, Nat.pow_mul, ← singleton_append, bytesToNat_append,
    hone]

theorem orBytes_eq {b : Bytes} (h : b.length ≤ 32) : orBytes z b = z ||| BitVec.ofNat 256 (bytesToNat b) := by
  induction b generalizing z with
  | nil => exact BitVec.or_zero.symm
  | cons c b ih =>
    rw [orBytes, ih _ (Nat.le_of_succ_le h), orByte_eq z c h, BitVec.or_assoc, bytesToNat_cons]
    congr 1
    refine BitVec.eq_of_getLsbD_eq fun i hi => ?_
    have hbyte (j : Nat) : c.toBitVec.getLsbD j = c.toNat.testBit j := rfl
    simp only [BitVec.getLsbD_or, BitVec.getLsbD_shiftLeft, BitVec.getLsbD_setWidth, BitVec.getLsbD_ofNat, Nat.testBit_or,
      Nat.testBit_shiftLeft, hbyte]
    grind

theorem setBytes_eq (b : Bytes) : setBytes b = Word.ofBytes b := by
  have hread := (orBytes_eq 0 (b := b.drop (b.length - 32)) (by rw [length_drop]; omega)).trans BitVec.zero_or
  rw [setBytes, hread, Word.ofBytes]
  by_cases h : b.length ≤ 32
  · rw [Nat.sub_eq_zero_of_le h, drop_zero]
  · conv_rhs => rw [← take_append_drop (b.length - 32) b, bytesToNat_append]
    rw [length_drop, show b.length - (b.length - 32) = 32 by omega]
    refine BitVec.eq_of_toNat_eq ?_
    simp only [BitVec.toNat_ofNat]
    exact (Nat.mul_add_mod' ..).symm

theorem hashBytes_eq : hashBytes x = (List.range 32).map fun k => ⟨x.extractLsb' (8 * (31 - k)) 8⟩ := by
  refine map_congr_left fun k _ => UInt8.toBitVec_inj.mp ?_
  have hpow : 256 ^ (31 - k) = 2 ^ (8 * (31 - k)) := (Nat.pow_mul 2 8 (31 - k)).symm
  rw [hpow, ← Nat.shiftRight_eq_div_pow]
  rfl

theorem getLsbD_hashBytes {k j : Nat} (hk : k < (hashBytes x).length) (hj : j < 8) :
    (hashBytes x)[k].toBitVec.getLsbD j = x.getLsbD (8 * (31 - k) + j) := by
  simp [hashBytes_eq, hj]

theorem bytes32_eq : bytes32 x = hashBytes x := by
  rw [hashBytes_eq]
  refine map_congr_left fun k hk => ?_
  refine UInt8.toBitVec_inj.mp (BitVec.eq_of_getLsbD_eq fun j hj => ?_)
  grind

theorem setBig_eq (v : Int) : setBig (some v) = Word.ofInt v := by
  rw [setBig, setBytes_eq, setBytes_eq, Word.ofBytes, Word.ofBytes, Rlp.bytesToNat_putUint, Rlp.bytesToNat_putUint, Word.ofInt]
  split
  · rename_i hneg
    rw [← BitVec.ofInt_natCast, ← BitVec.ofInt_neg, Int.toNat_of_nonneg (by omega), neg_neg]
  · rename_i hneg
    rw [← BitVec.ofInt_natCast, Int.toNat_of_nonneg (not_lt.mp hneg)]

theorem bit_eq {i : Nat} (hi : i < 256) : bit x i = 1 ↔ x.getLsbD i = true := by
  have hbit : bit x i = if x.getLsbD i then 1 else 0 := by
    refine BitVec.eq_of_getLsbD_eq fun j hj => ?_
    rw [bit, if_neg (not_le.mpr hi)]
    grind
  rw [hbit]
  split <;> simp_all

theorem not_isUint64_or (n : Word) {k : Nat} (hk : k ≤ 2 ^ 64) :
    (!n.isUint64 || decide (k ≤ n.uint64)) = decide (k ≤ n.toNat) := by
  cases h : n.isUint64 with
  | true => rw [Word.uint64_of_isUint64 h, Bool.not_true, Bool.false_or]
  | false => exact (decide_eq_true (hk.trans (not_lt.mp (of_decide_eq_false h)))).symm

theorem uint64_of_lt {n : Word} {k : Nat} (h : ¬ k ≤ n.toNat) (hk : k ≤ 2 ^ 64) : n.uint64 = n.toNat :=
  Nat.mod_eq_of_lt ((not_le.mp h).trans_le hk)

theorem byte_eq (x n : Word) : (byte x n).toNat = ((hashBytes x).getD n.toNat 0).toNat := by
  rw [byte, not_isUint64_or n (by decide), bytes32_eq]
  split
  · rename_i h
    rw [getD_eq_getElem?_getD, getElem?_eq_none (by rw [length_hashBytes]; exact of_decide_eq_true h)]
    rfl
  · rename_i h
    rw [uint64_of_lt (of_decide_eq_false (by simpa using h)) (by decide)]
    exact Nat.mod_eq_of_lt ((UInt8.toNat_lt _).trans (by decide))

theorem signExtend_eq (n x : Word) : signExtend n x = Word.signExtend n x := by
  rw [signExtend, not_isUint64_or n (by decide), Word.signExtend]
  by_cases h : 31 ≤ n.toNat
  · rw [if_pos h, if_pos (decide_eq_true h)]
  · rw [if_neg h, if_neg (by simpa using h), uint64_of_lt h (by decide)]
    simp only [lsh_eq, setAllOnes_eq, bit_eq x (show n.toNat * 8 + 7 < 256 by omega)]

theorem getLsbD_signExtend {n : Word} (h : ¬ 31 ≤ n.toNat) (x : Word) {i : Nat} (hi : i < 256) :
    (Word.signExtend n x).getLsbD i = x.getLsbD (min i (n.toNat * 8 + 7)) := by
  rw [Word.signExtend, if_neg h]
  dsimp only
  split
  · rw [BitVec.getLsbD_or, BitVec.getLsbD_shiftLeft, BitVec.getLsbD_allOnes]
    grind
  · rw [BitVec.getLsbD_and, BitVec.getLsbD_not, BitVec.getLsbD_shiftLeft, BitVec.getLsbD_allOnes]
    grind

theorem hashBytes_signExtend (n x : Word) : hashBytes (signExtend n x) =
    if 31 ≤ n.toNat then hashBytes x
    else List.replicate (31 - n.toNat) (if (hashBytes x).getD (31 - n.toNat) 0 < 128 then 0 else 255) ++
      (hashBytes x).drop (31 - n.toNat) := by
  rw [signExtend_eq]
  split
  · rename_i h
    rw [Word.signExtend, if_pos h]
  rename_i h
  have hfill (b : UInt8) {j : Nat} (hj : j < 8) :
      (if b < 128 then 0 else 255 : UInt8).toBitVec.getLsbD j = b.toBitVec.getLsbD 7 := by
    have htop : b.toBitVec.getLsbD 7 = decide (128 ≤ b.toNat) :=
      b.toBitVec.msb_eq_getLsbD_last.symm.trans b.toBitVec.msb_eq_decide
    rw [htop]
    split
    · rename_i hb
      rw [decide_eq_false (not_le.mpr hb)]
      exact BitVec.getLsbD_zero
    · rename_i hb
      rw [decide_eq_true (not_lt.mp hb)]
      interval_cases j <;> rfl
  have hlt : 31 - n.toNat < (hashBytes x).length := by rw [length_hashBytes]; omega
  rw [getD_eq_getElem?_getD, getElem?_eq_getElem hlt]
  refine ext_getElem (by simp [length_hashBytes]; omega) fun k hk hk' => ?_
  refine UInt8.toBitVec_inj.mp (BitVec.eq_of_getLsbD_eq fun j hj => ?_)
  rw [getLsbD_hashBytes _ hk hj, getLsbD_signExtend h x (by omega)]
  rw [length_hashBytes] at hk
  by_cases hext : k < 31 - n.toNat
  · rw [getElem_append_left (by simpa using hext), getElem_replicate, Option.getD_some, hfill _ hj,
      getLsbD_hashBytes x hlt (by decide)]
    congr 1
    omega
  · rw [getElem_append_right (by simpa using hext), getElem_drop, getLsbD_hashBytes _ _ hj, length_replicate]
    congr 1
    omega

/-- Shifts, single bytes and byte strings over the limbs are what they are for numbers below 2^256. -/
theorem words_of_limbs :
    (∀ (x : Word) (n : Nat), (lsh x n).toNat = x.toNat * 2 ^ n % 2 ^ 256 ∧ (rsh x n).toNat = x.toNat / 2 ^ n ∧
      (sRsh x n).toInt = x.toInt / 2 ^ n) ∧
    (∀ x n : Word, (byte x n).toNat = ((hashBytes x).getD n.toNat 0).toNat ∧
      hashBytes (signExtend n x) =
        if 31 ≤ n.toNat then hashBytes x
        else List.replicate (31 - n.toNat) (if (hashBytes x).getD (31 - n.toNat) 0 < 128 then 0 else 255) ++
          (hashBytes x).drop (31 - n.toNat)) ∧
    (∀ x : Word, bytes32 x = hashBytes x ∧ bytesToNat (bytes32 x) = x.toNat ∧ setBytes (bytes32 x) = x ∧
      setBig (some x.toNat) = x) ∧
    (∀ b : Bytes, (setBytes b).toNat = bytesToNat b % 2 ^ 256) ∧
    (∀ b : Fin 32 → UInt8, bytes32 (setBytes (List.ofFn b)) = List.ofFn b) ∧
    ∀ v : Int, ((setBig (some v)).toNat : Int) = v % 2 ^ 256 := by
  have hread (x : Word) : bytesToNat (hashBytes x) = x.toNat :=
    (bytesToNat_fillBytes 32 x.toNat).trans (Nat.mod_eq_of_lt x.isLt)
  have hset (b : Bytes) : (setBytes b).toNat = bytesToNat b % 2 ^ 256 := by
    rw [setBytes_eq]
    rfl
  have hback (x : Word) : setBytes (hashBytes x) = x := by
    refine BitVec.eq_of_toNat_eq ?_
    rw [hset, hread, Nat.mod_eq_of_lt x.isLt]
  refine ⟨fun x n => ⟨?_, ?_, ?_⟩, fun x n => ⟨byte_eq x n, hashBytes_signExtend n x⟩, fun x => ?_, hset, fun b => ?_,
    fun v => ?_⟩
  · rw [lsh_eq, BitVec.toNat_shiftLeft, Nat.shiftLeft_eq]
  · rw [rsh_eq, BitVec.toNat_ushiftRight, Nat.shiftRight_eq_div_pow]
  · rw [sRsh_eq, BitVec.toInt_sshiftRight, Int.shiftRight_eq_div_pow]
    rfl
  · rw [bytes32_eq, hread, hback, setBig_eq]
    exact ⟨rfl, rfl, rfl, (BitVec.ofInt_natCast ..).trans (by rw [BitVec.ofNat_toNat, BitVec.setWidth_eq])⟩
  · rw [bytes32_eq]
    refine bytesToNat_inj (by rw [length_hashBytes, length_ofFn]) ?_
    rw [hread, hset]
    exact Nat.mod_eq_of_lt (by simpa using bytesToNat_lt (ofFn b))
  · rw [setBig_eq, Word.ofInt, BitVec.toNat_ofInt]
    exact Int.toNat_of_nonneg (Int.emod_nonneg v (by decide))

end PadiChain.Uint256

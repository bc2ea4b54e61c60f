import PadiChain.Common

/-! The words of the virtual machine, and the 64-bit arithmetic of its gas. Words wrap modulo 2^256; a division by
zero is zero. Gas and sizes are 64-bit: sums and products that would wrap are detected where the source detects
them. -/

namespace PadiChain.Evm

abbrev Word := BitVec 256

namespace Word

/-- `SetBytes`: the low 32 bytes. -/
def ofBytes (b : Bytes) : Word := BitVec.ofNat 256 (bytesToNat b)

/-- `SetBig`: two's complement for a negative number. -/
def ofInt (v : Int) : Word := BitVec.ofInt 256 v

/-- `BytesToAddress` of the bytes of the word. -/
def toAddress (w : Word) : Address := w.setWidth 160

def ofAddress (a : Address) : Word := a.setWidth 256

def ofBool (b : Bool) : Word := if b then 1 else 0

def isUint64 (w : Word) : Bool := w.toNat < 2 ^ 64

def uint64 (w : Word) : Nat := w.toNat % 2 ^ 64

def bitLen (w : Word) : Nat := if w = 0 then 0 else w.toNat.log2 + 1

def byteLen (w : Word) : Nat := (w.bitLen + 7) / 8

def isNegative (w : Word) : Bool := w.msb

def absOf (w : Word) : Word := if w.isNegative then -w else w

def div (x y : Word) : Word := if y = 0 then 0 else x / y

def mod (x y : Word) : Word := if y = 0 then 0 else x % y

def sdiv (x y : Word) : Word :=
  if y = 0 then 0
  else if x.isNegative != y.isNegative then -(div x.absOf y.absOf) else div x.absOf y.absOf

/-- The sign follows the dividend. -/
def smod (x y : Word) : Word :=
  if y = 0 then 0 else if x.isNegative then -(mod x.absOf y.absOf) else mod x.absOf y.absOf

def addMod (x y m : Word) : Word := if m = 0 then 0 else BitVec.ofNat 256 ((x.toNat + y.toNat) % m.toNat)

def mulMod (x y m : Word) : Word := if m = 0 then 0 else BitVec.ofNat 256 (x.toNat * y.toNat % m.toNat)

def exp (base exponent : Word) : Word :=
  ((List.range exponent.bitLen).foldl
    (fun (acc : Word × Word) i => (if exponent.getLsbD i then acc.1 * acc.2 else acc.1, acc.2 * acc.2)) (1, base)).1

def signExtend (n x : Word) : Word :=
  if 31 ≤ n.toNat then x
  else
    let mask := BitVec.allOnes 256 <<< (n.toNat * 8 + 8)
    if x.getLsbD (n.toNat * 8 + 7) then x ||| mask else x &&& ~~~mask

def lt (x y : Word) : Bool := x.toNat < y.toNat

def slt (x y : Word) : Bool :=
  if x.isNegative && !y.isNegative then true else if !x.isNegative && y.isNegative then false else lt x y

def sgt (x y : Word) : Bool :=
  if x.isNegative && !y.isNegative then false else if !x.isNegative && y.isNegative then true else lt y x

def byte (x n : Word) : Word := if 32 ≤ n.toNat then 0 else (x >>> (8 * (31 - n.toNat))) &&& 0xff

def shl (x n : Word) : Word := if n.toNat < 256 then x <<< n.toNat else 0

def shr (x n : Word) : Word := if n.toNat < 256 then x >>> n.toNat else 0

def sar (x n : Word) : Word := x.sshiftRight (min n.toNat 256)

theorem uint64_lt (w : Word) : w.uint64 < 2 ^ 64 := Nat.mod_lt _ (by decide)

theorem uint64_of_isUint64 {w : Word} (h : w.isUint64 = true) : w.uint64 = w.toNat :=
  Nat.mod_eq_of_lt (of_decide_eq_true h)

end Word

/-! ### Gas -/

def gasJumpDest : Nat := 1
def gasBase : Nat := 2
def gasVeryLow : Nat := 3
def gasLow : Nat := 5
def gasMid : Nat := 8
def gasHigh : Nat := 10
def gasKeccak256 : Nat := 30
def gasKeccakWord : Nat := 6
def gasCopyWord : Nat := 3
def gasLog : Nat := 375
def gasLogTopic : Nat := 375
def gasLogByte : Nat := 8
def gasCreate : Nat := 32000
def gasCodeDeposit : Nat := 200
def gasCallValue : Nat := 9000
def gasNewAccount : Nat := 25000
def gasSelfDestruct : Nat := 5000
def gasExpByte : Nat := 50
def gasMemoryWord : Nat := 3
def gasColdAccountAccess : Nat := 2600
def gasInitCodeWord : Nat := 2

def maxCodeSize : Nat := 24576
def maxInitCodeSize : Nat := 2 * maxCodeSize
def maxCallDepth : Nat := 1024
def stackLimit : Nat := 1024

/-- No sum that does not fit in 64 bits. -/
def safeAdd (a b : Nat) : Option Nat :=
  let sum := (a + b) % 2 ^ 64
  if sum < a then none else some sum

def safeMul (a b : Nat) : Option Nat :=
  if a = 0 ∨ b = 0 then some 0
  else
    let product := a * b % 2 ^ 64
    if product / a ≠ b then none else some product

/-- The number of 32-byte words, saturated instead of wrapped. -/
def toWordSize (size : Nat) : Nat := if 2 ^ 64 - 1 - 31 < size then (2 ^ 64 - 1) / 32 + 1 else (size + 31) / 32

/-- The memory that an offset and a size reach to; a size of zero needs none. -/
def memoryExtent (offset size : Word) : Option Nat :=
  if size = 0 then some 0
  else if !offset.isUint64 || !size.isUint64 then none
  else safeAdd offset.uint64 size.uint64

/-- `callGas` with nothing to be paid before: all but a 64th can be passed on. -/
def callGas (available : Nat) (requested : Word) : Nat :=
  let allowed := available - available / 64
  if !requested.isUint64 || allowed < requested.uint64 then allowed else requested.uint64

theorem safeAdd_eq_some {a b c : Nat} (ha : a < 2 ^ 64) (hb : b < 2 ^ 64) (h : safeAdd a b = some c) :
    c = a + b ∧ a + b < 2 ^ 64 := by
  simp only [safeAdd] at h
  split at h
  · cases h
  · cases h
    omega

theorem callGas_le (available : Nat) (requested : Word) : callGas available requested ≤ available - available / 64 := by
  simp only [callGas]
  split
  · exact Nat.le_refl _
  · rename_i hcond
    simp only [Bool.or_eq_true, decide_eq_true_eq, not_or, Nat.not_lt] at hcond
    exact hcond.2

theorem memoryExtent_eq_some {offset size : Word} {n : Nat} (h : memoryExtent offset size = some n) (hsize : size ≠ 0) :
    offset.uint64 = offset.toNat ∧ size.uint64 = size.toNat ∧ n = offset.toNat + size.toNat ∧ n < 2 ^ 64 := by
  simp only [memoryExtent, if_neg hsize] at h
  split at h
  · cases h
  · rename_i hfits
    simp only [Bool.or_eq_true, Bool.not_eq_true', not_or, Bool.not_eq_false] at hfits
    have hoffset := Word.uint64_of_isUint64 hfits.1
    have hsize' := Word.uint64_of_isUint64 hfits.2
    obtain ⟨hn, hlt⟩ := safeAdd_eq_some offset.uint64_lt size.uint64_lt h
    rw [hoffset, hsize'] at hn hlt
    exact ⟨hoffset, hsize', hn, hn ▸ hlt⟩

end PadiChain.Evm

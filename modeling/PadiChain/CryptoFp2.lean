import Mathlib.Algebra.QuadraticAlgebra.Basic
import Mathlib.Data.Nat.Size
import Mathlib.FieldTheory.Finite.Basic
import Mathlib.Tactic.NormNum.Prime

/-! Square roots in the quadratic extension under BLS12-381. Modulo a prime of the form 4k + 3 a power gives the root
of every square; a root in the extension is put together from two of them. -/

namespace PadiChain.Bls12381

/-- The parameter that generates the curve. -/
def X : Int := -0xd201000000010000

def computeOrder : Int := X ^ 4 - X ^ 2 + 1

def computePrime : Int := (X - 1) ^ 2 * computeOrder / 3 + X

def P : Nat := computePrime.toNat

variable {p : Nat}

def sqrtExpFp (p : Nat) : Nat := (p + 1) >>> 2

/-- The turn of the loop for one bit of the exponent. -/
def fpExpBit (e : Nat) (acc : ZMod p × ZMod p) (i : Nat) : ZMod p × ZMod p :=
  (if e.testBit i then acc.1 * acc.2 else acc.1, acc.2 * acc.2)

def fpExp (a : ZMod p) (e : Nat) : ZMod p := ((List.range e.size).foldl (fpExpBit e) (1, a)).1

def fpSqrtBase (a : ZMod p) : Option (ZMod p) :=
  let candidate := fpExp a (sqrtExpFp p)
  if candidate * candidate ≠ a then none else some candidate

/-- The pairs `c0 + c1 * u` modulo `u ^ 2 + 1`, with `re` for `c0` and `im` for `c1`. -/
abbrev Fp2 (p : Nat) := QuadraticAlgebra (ZMod p) (-1) 0

def fp2Square (a : Fp2 p) : Fp2 p :=
  let cross := a.re * a.im
  ⟨(a.re + a.im) * (a.re - a.im), cross + cross⟩

/-- The turn of the loop for one of the halves, which is tried as the square of the real part. -/
def fp2SqrtHalf (a : Fp2 p) (delta : ZMod p) : Option (Fp2 p) :=
  match fpSqrtBase delta with
  | none => none
  | some x0 =>
    let candidate : Fp2 p := ⟨x0, a.im * (2 * x0)⁻¹⟩
    if x0 = 0 then none else if fp2Square candidate = a then some candidate else none

def fp2Sqrt (a : Fp2 p) : Option (Fp2 p) :=
  if a.re = 0 ∧ a.im = 0 then some 0
  else if a.im = 0 then
    match fpSqrtBase a.re with
    | some root => some ⟨root, 0⟩
    | none => (fpSqrtBase (-a.re)).map fun root => ⟨0, root⟩
  else
    match fpSqrtBase (a.re * a.re + a.im * a.im) with
    | none => none
    | some alpha => [(a.re + alpha) * 2⁻¹, (a.re - alpha) * 2⁻¹].findSome? (fp2SqrtHalf a)

theorem foldl_fpExpBit (a : ZMod p) (e k : Nat) :
    (List.range k).foldl (fpExpBit e) (1, a) = (a ^ (e % 2 ^ k), a ^ 2 ^ k) := by
  induction k with
  | zero => simp [Nat.mod_one]
  | succ k ih =>
    rw [List.range_succ, List.foldl_append, ih, Nat.mod_pow_succ, pow_succ, mul_two, pow_add a (2 ^ k)]
    rcases Nat.mod_two_eq_zero_or_one (e / 2 ^ k) with hbit | hbit
    · simp [fpExpBit, Nat.testBit_eq_decide_div_mod_eq, hbit]
    · simp [fpExpBit, Nat.testBit_eq_decide_div_mod_eq, hbit, pow_add]

theorem fpExp_eq (a : ZMod p) (e : Nat) : fpExp a e = a ^ e := by
  rw [fpExp, foldl_fpExpBit, Nat.mod_eq_of_lt (Nat.lt_size_self e)]

theorem mul_self_of_fpSqrtBase {a x : ZMod p} (h : fpSqrtBase a = some x) : x * x = a := by
  simp only [fpSqrtBase] at h
  split_ifs at h with hsquare
  cases h
  exact not_not.mp hsquare

variable {a y : Fp2 p}

theorem mul_self_eq_iff : y * y = a ↔ y.re * y.re - y.im * y.im = a.re ∧ 2 * (y.re * y.im) = a.im := by
  rw [QuadraticAlgebra.ext_iff, QuadraticAlgebra.re_mul, QuadraticAlgebra.im_mul]
  ring_nf

theorem fp2Square_eq (y : Fp2 p) : fp2Square y = y * y := by
  ext <;> simp only [fp2Square, QuadraticAlgebra.re_mul, QuadraticAlgebra.im_mul] <;> ring

/-- What is returned is a root. -/
theorem mul_self_of_fp2Sqrt (h : fp2Sqrt a = some y) : y * y = a := by
  simp only [fp2Sqrt] at h
  split at h
  · rename_i hzero
    cases h
    rw [mul_self_eq_iff]
    simp [hzero]
  split at h
  · rename_i hreal
    split at h
    · rename_i root hroot
      cases h
      rw [mul_self_eq_iff]
      simp [hreal, mul_self_of_fpSqrtBase hroot]
    · obtain ⟨root, hroot, rfl⟩ := Option.map_eq_some_iff.mp h
      rw [mul_self_eq_iff]
      simp [hreal, mul_self_of_fpSqrtBase hroot]
  · split at h
    · cases h
    · obtain ⟨delta, -, hhalf⟩ := List.exists_of_findSome?_eq_some h
      simp only [fp2SqrtHalf] at hhalf
      split at hhalf
      · cases hhalf
      split_ifs at hhalf with hx0 hsquare
      cases hhalf
      rw [← fp2Square_eq]
      exact hsquare

section

variable [Fact p.Prime] (hp : p % 4 = 3)

include hp

theorem exists_fpSqrtBase {a b : ZMod p} (h : b * b = a) : ∃ x, fpSqrtBase a = some x := by
  have hexp : 4 * sqrtExpFp p = p + 1 := by
    rw [sqrtExpFp, Nat.shiftRight_eq_div_pow]
    omega
  have hsquare : a ^ sqrtExpFp p * a ^ sqrtExpFp p = a := by
    calc a ^ sqrtExpFp p * a ^ sqrtExpFp p = b ^ (4 * sqrtExpFp p) := by
          rw [← h]
          ring
      _ = a := by rw [hexp, pow_succ, ZMod.pow_card, h]
  rw [← fpExp_eq] at hsquare
  rw [fpSqrtBase, if_neg (not_not.mpr hsquare)]
  exact ⟨_, rfl⟩

theorem two_ne_zero_of_mod : (2 : ZMod p) ≠ 0 := by
  refine Ring.two_ne_zero ?_
  rw [ZMod.ringChar_zmod_n]
  omega

/-- The half that is the square of the real part of a root leads to a root. -/
theorem isSome_fp2SqrtHalf (hy : y * y = a) (ha : a.im ≠ 0) : (fp2SqrtHalf a (y.re * y.re)).isSome = true := by
  obtain ⟨hreal, himag⟩ := mul_self_eq_iff.mp hy
  obtain ⟨x0, hx0⟩ := exists_fpSqrtBase hp (rfl : y.re * y.re = _)
  have hsquare := mul_self_of_fpSqrtBase hx0
  have hne : x0 ≠ 0 := by
    intro h
    rw [h, zero_mul] at hsquare
    rw [mul_self_eq_zero.mp hsquare.symm, zero_mul, mul_zero] at himag
    exact ha himag.symm
  have hroot : fp2Square ⟨x0, a.im * (2 * x0)⁻¹⟩ = a := by
    have htwo := two_ne_zero_of_mod hp
    rw [fp2Square_eq, mul_self_eq_iff, ← hreal, ← himag]
    constructor
    · field_simp
      linear_combination (x0 * x0 + y.im * y.im) * hsquare
    · field_simp
  simp only [fp2SqrtHalf, hx0, if_neg hne, if_pos hroot, Option.isSome_some]

/-- No square is missed. -/
theorem isSome_fp2Sqrt (hy : y * y = a) : (fp2Sqrt a).isSome = true := by
  obtain ⟨hreal, himag⟩ := mul_self_eq_iff.mp hy
  have htwo := two_ne_zero_of_mod hp
  simp only [fp2Sqrt]
  split
  · rfl
  split
  · rename_i hzero
    rw [hzero, mul_eq_zero, mul_eq_zero, or_iff_right htwo] at himag
    obtain hre | him := himag
    · have hminus : y.im * y.im = -a.re := by
        rw [← hreal, hre]
        ring
      obtain ⟨root, hroot⟩ := exists_fpSqrtBase hp hminus
      rw [hroot]
      split <;> rfl
    · have hplus : y.re * y.re = a.re := by
        rw [← hreal, him]
        ring
      obtain ⟨root, hroot⟩ := exists_fpSqrtBase hp hplus
      rw [hroot]
      rfl
  · rename_i him
    have hnorm : (y.re * y.re + y.im * y.im) * (y.re * y.re + y.im * y.im) = a.re * a.re + a.im * a.im := by
      rw [← hreal, ← himag]
      ring
    obtain ⟨alpha, halpha⟩ := exists_fpSqrtBase hp hnorm
    -- the root of the norm is that of the root up to its sign, so one of the halves is the square of the real part
    have hsign := mul_self_eq_mul_self_iff.mp ((mul_self_of_fpSqrtBase halpha).trans hnorm.symm)
    have hmem : y.re * y.re ∈ [(a.re + alpha) * 2⁻¹, (a.re - alpha) * 2⁻¹] := by
      rw [← hreal, List.mem_pair]
      refine hsign.imp (fun h => ?_) fun h => ?_ <;> rw [h] <;> field_simp <;> ring
    rw [halpha]
    exact List.findSome?_isSome_iff.mpr ⟨_, hmem, isSome_fp2SqrtHalf hp hy him⟩

end

/-- A test of primality by the powers of 3. Every prime divisor of `n` is one above a multiple of the primes in `s`,
and so above the root of `n`. -/
theorem prime_of_fpExp {n : Nat} (s : Finset Nat) (hprime : ∀ q ∈ s, q.Prime)
    (h : 1 < n ∧ n < (∏ q ∈ s, q) * ∏ q ∈ s, q ∧ fpExp (3 : ZMod n) (n - 1) = 1 ∧
      ∀ q ∈ s, q ∣ n - 1 ∧ (fpExp (3 : ZMod n) ((n - 1) / q) - 1).val.Coprime n) : n.Prime := by
  obtain ⟨hn, hlt, hone, hs⟩ := h
  have : NeZero n := ⟨by omega⟩
  have : Fact n.minFac.Prime := ⟨Nat.minFac_prime hn.ne'⟩
  let cast := ZMod.castHom (Nat.minFac_dvd n) (ZMod n.minFac)
  have hpow : (3 : ZMod n.minFac) ^ (n - 1) = 1 := by
    rw [← map_ofNat cast 3, ← map_pow, ← fpExp_eq, hone, map_one]
  have hdvd : ∏ q ∈ s, q ∣ n.minFac - 1 := by
    refine Finset.prod_primes_dvd _ (fun q hq => (hprime q hq).prime) fun q hq => ?_
    obtain ⟨hqn, hcoprime⟩ := hs q hq
    have hunit := ((ZMod.isUnit_iff_coprime _ _).mpr hcoprime).map cast
    rw [ZMod.natCast_zmod_val, fpExp_eq, map_sub, map_pow, map_ofNat, map_one] at hunit
    have hzero := (IsUnit.of_pow_eq_one hpow (by omega)).ne_zero
    refine dvd_trans ?_ (ZMod.orderOf_dvd_card_sub_one hzero)
    -- otherwise the order divides the exponent without `q`
    by_contra hnot
    have horder := orderOf_dvd_of_pow_eq_one hpow
    rw [← Nat.mul_div_cancel' hqn] at horder
    have hrest := ((hprime q hq).coprime_iff_not_dvd.mpr hnot).symm.dvd_of_dvd_mul_left horder
    rw [orderOf_dvd_iff_pow_eq_one.mp hrest, sub_self] at hunit
    exact hunit.ne_zero rfl
  by_contra hnot
  have hle := Nat.le_of_dvd (Nat.sub_pos_of_lt (Fact.out : n.minFac.Prime).one_lt) hdvd
  have hsquare := Nat.minFac_sq_le_self (by omega) hnot
  have := Nat.mul_self_le_mul_self (hle.trans (Nat.sub_le _ _))
  rw [sq] at hsquare
  omega

theorem prime_P : P.Prime := by
  have h1 : Nat.Prime 13090036741 := prime_of_fpExp {421987} (by norm_num) (by decide +kernel)
  have h2 : Nat.Prime 3819663927398918131021 :=
    prime_of_fpExp {5, 13090036741} (by simp [h1, Nat.prime_five]) (by decide +kernel)
  have h3 : Nat.Prime 1125266252156850182658904441386709967 :=
    prime_of_fpExp {3819663927398918131021} (by simp [h2]) (by decide +kernel)
  have h4 : Nat.Prime 15778400344354997994418419698270088123916926905054652752758194827714659 :=
    prime_of_fpExp {1125266252156850182658904441386709967} (by simp [h3]) (by decide +kernel)
  exact prime_of_fpExp {15778400344354997994418419698270088123916926905054652752758194827714659}
    (by simp [h4]) (by decide +kernel)

theorem fp2Sqrt_complete (a : Fp2 P) :
    match fp2Sqrt a with
    | some y => y * y = a
    | none => ¬ IsSquare a := by
  have : Fact P.Prime := ⟨prime_P⟩
  split
  · rename_i y hsome
    exact mul_self_of_fp2Sqrt hsome
  · rename_i hnone
    rintro ⟨y, hy⟩
    have hsome := isSome_fp2Sqrt (by decide) hy.symm
    rw [hnone] at hsome
    cases hsome

end PadiChain.Bls12381

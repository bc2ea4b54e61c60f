import PadiChain.Common
import Mathlib.Data.List.GetD
import Mathlib.GroupTheory.OrderOfElement
import Mathlib.Tactic.Ring

/-! ECDSA recovery on secp256k1. Curve arithmetic is a parameter: the points form an abelian group, and
recovery uses the operations below on it. A signature `(r, s)` with recovery id `v` names a nonce point
by its abscissa and a parity; the recovered key is `r⁻¹ (s R - z G)`. Negating both `s` and the nonce
point changes nothing, so a key is recovered from exactly two values of `s`, one in each half of the
group order. -/

namespace PadiChain.Secp256k1

open List

/-- The field prime. -/
def P : Nat := 0xfffffffffffffffffffffffffffffffffffffffffffffffffffffffefffffc2f

/-- The order of the generator. -/
def N : Nat := 0xfffffffffffffffffffffffffffffffebaaedce6af48a03bbfd25e8cd0364141

def halfN : Nat := N / 2

/-- The curve operations. `affine` has no value at infinity only; the two roots `decompressY` chooses
from belong to a point and its negative; a point with an abscissa has the order of the group. -/
structure Curve (Point : Type) [AddCommGroup Point] where
  generator : Point
  scalarMul : Nat → Point → Point
  affine : Point → Option (Nat × Nat)
  newPoint : Nat → Nat → Point
  decompressY : Nat → Bool → Option Nat
  scalarMul_eq : ∀ k q, scalarMul k q = k • q
  affine_inj : ∀ {q q'}, affine q = affine q' → q = q'
  neg_of_decompressY : ∀ {x odd y}, decompressY x odd = some y →
    ∃ y', decompressY x (!odd) = some y' ∧ newPoint x y' = -newPoint x y
  order_of_decompressY : ∀ {x odd y}, decompressY x odd = some y → addOrderOf (newPoint x y) = N

/-- A public key: a point in affine form. -/
abbrev Key := Nat × Nat

structure Signature where
  r : Nat
  s : Nat
  v : UInt8
  deriving DecidableEq, Repr

inductive SignatureError where
  | signatureLength (length : Nat)
  | recoveryID (v : UInt8)
  | invalidSignature
  | recoveryFailed
  deriving DecidableEq, Repr

def isLowS (s : Nat) : Bool := 0 < s && s ≤ halfN

def modInverse (a n : Nat) : Option Nat :=
  if a.gcd n = 1 then some (a.gcdA n % n).toNat else none

/-- `ParseSignature`: the 65-byte form `r || s || v`. -/
def parseSignature (b : Bytes) : Except SignatureError Signature :=
  if b.length ≠ 65 then .error (.signatureLength b.length)
  else if 3 < b.getD 64 0 then .error (.recoveryID (b.getD 64 0))
  else .ok ⟨bytesToNat (b.take 32), bytesToNat ((b.drop 32).take 32), b.getD 64 0⟩

def Signature.bytes (sig : Signature) : Bytes := fillBytes 32 sig.r ++ fillBytes 32 sig.s ++ [sig.v]

/-- `PublicKey.Bytes`: the 64-byte form `x || y`. -/
def Key.bytes (key : Key) : Bytes := fillBytes 32 key.1 ++ fillBytes 32 key.2

/-- The abscissa of the nonce point: bit 1 of `v` says it wrapped around the group order. -/
def Signature.abscissa (sig : Signature) : Nat := if sig.v &&& 2 = 0 then sig.r else sig.r + N

def Signature.parity (sig : Signature) : Bool := sig.v &&& 1 == 1

section Recover

variable {Point : Type} [AddCommGroup Point] (c : Curve Point)

/-- The last step of recovery: `r⁻¹ (s R - z G)` for the nonce point `R`. -/
def recoverFrom (z r s : Nat) (nonce : Point) : Except SignatureError Key :=
  match modInverse r N with
  | none => .error .recoveryFailed
  | some rInv =>
    let u1 := rInv * s % N
    let u2 := (-(z : Int) * rInv % N).toNat
    match c.affine (c.scalarMul u1 nonce + c.scalarMul u2 c.generator) with
    | none => .error .recoveryFailed
    | some key => .ok key

/-- `Recover`: the key that signed a 32-byte hash, read as the number `z`. -/
def recover (z : Nat) (sig : Signature) : Except SignatureError Key :=
  if 3 < sig.v then .error (.recoveryID sig.v)
  else if sig.r = 0 ∨ sig.s = 0 ∨ N ≤ sig.r ∨ N ≤ sig.s then .error .invalidSignature
  else
    if sig.v &&& 2 ≠ 0 ∧ P ≤ sig.abscissa then .error .recoveryFailed
    else
      match c.decompressY sig.abscissa sig.parity with
      | none => .error .recoveryFailed
      | some y => recoverFrom c z sig.r sig.s (c.newPoint sig.abscissa y)

end Recover

theorem modInverse_spec {a n b : Nat} (hn : n ≠ 0) (h : modInverse a n = some b) : a * b ≡ 1 [MOD n] := by
  rw [modInverse] at h
  split at h
  · rename_i hgcd
    obtain rfl := Option.some.inj h
    have hbezout := Nat.gcd_eq_gcd_ab a n
    have hnonneg : 0 ≤ a.gcdA n % n := Int.emod_nonneg _ (by exact_mod_cast hn)
    rw [hgcd] at hbezout
    rw [← Int.natCast_modEq_iff, Nat.cast_mul, Int.toNat_of_nonneg hnonneg, hbezout]
    calc (a : Int) * (a.gcdA n % n) ≡ a * a.gcdA n [ZMOD n] := (Int.mod_modEq (a.gcdA n) n).mul_left a
      _ ≡ a * a.gcdA n + n * a.gcdB n [ZMOD n] := Int.modEq_iff_dvd.mpr ⟨a.gcdB n, by ring⟩
  · cases h

variable {sig : Signature}

theorem parseSignature_bytes (hr : sig.r < 256 ^ 32) (hs : sig.s < 256 ^ 32)
    (hv : sig.v ≤ 3) : parseSignature sig.bytes = .ok sig := by
  have hr32 := length_fillBytes 32 sig.r
  have hs32 := length_fillBytes 32 sig.s
  have hlength : sig.bytes.length = 65 := by
    simp [Signature.bytes, hr32, hs32]
  have hlast : sig.bytes.getD 64 0 = sig.v := by
    rfl
  have hfirst : sig.bytes.take 32 = fillBytes 32 sig.r := by
    exact take_left' hr32
  have hsecond : (sig.bytes.drop 32).take 32 = fillBytes 32 sig.s := by
    exact take_left' hs32
  rw [parseSignature, if_neg (not_not.mpr hlength), hlast, if_neg (UInt8.not_lt.mpr hv), hfirst, hsecond,
    bytesToNat_fillBytes, bytesToNat_fillBytes, Nat.mod_eq_of_lt hr, Nat.mod_eq_of_lt hs]

theorem parseSignature_ok {b : Bytes} (h : parseSignature b = .ok sig) :
    b.length = 65 ∧ sig = ⟨bytesToNat (b.take 32), bytesToNat ((b.drop 32).take 32), b.getD 64 0⟩ := by
  rw [parseSignature] at h
  split at h
  · cases h
  rename_i hlength
  split at h
  · cases h
  · exact ⟨not_not.mp hlength, (Except.ok.inj h).symm⟩

theorem parseSignature_inj {b b' : Bytes} (h : parseSignature b = .ok sig)
    (h' : parseSignature b' = .ok sig) : b = b' := by
  obtain ⟨hlength, hsig⟩ := parseSignature_ok h
  obtain ⟨hlength', hsig'⟩ := parseSignature_ok h'
  obtain ⟨hr, hs, hv⟩ := Signature.mk.inj (hsig.symm.trans hsig')
  have hsplit : ∀ {b : Bytes}, b.length = 65 → b = b.take 32 ++ ((b.drop 32).take 32 ++ [b.getD 64 0]) := by
    intro b hb
    have hlast : (b.drop 32).drop 32 = [b.getD 64 0] := by
      rw [drop_drop, drop_eq_getElem_cons (by omega), drop_of_length_le (by omega), getD_eq_getElem _ _ (by omega)]
    rw [← hlast, take_append_drop, take_append_drop]
  have hfirst := bytesToNat_inj (by simp only [length_take]; omega) hr
  have hsecond := bytesToNat_inj (by simp only [length_take, length_drop]; omega) hs
  rw [hsplit hlength, hsplit hlength', hfirst, hsecond, hv]

/-- The signature with the other value of `s`, for the negated nonce point. -/
def Signature.mirror (sig : Signature) : Signature := ⟨sig.r, N - sig.s, sig.v ^^^ 1⟩

section Recovery

variable {Point : Type} [AddCommGroup Point] {c : Curve Point}

variable {z r s : Nat} {nonce : Point} {key : Key} {sig sig' : Signature} {v : UInt8}

theorem recoverFrom_ok (h : recoverFrom c z r s nonce = .ok key) :
    ∃ rInv, modInverse r N = some rInv ∧
      c.affine ((rInv * s % N) • nonce + (-(z : Int) * rInv % N).toNat • c.generator) = some key := by
  simp only [recoverFrom, c.scalarMul_eq] at h
  split at h
  · cases h
  rename_i rInv hinv
  split at h
  · cases h
  · rename_i key' hkey
    cases h
    exact ⟨rInv, hinv, hkey⟩

theorem recoverFrom_mirror (hs : s ≤ N) (horder : addOrderOf nonce = N) :
    recoverFrom c z r (N - s) (-nonce) = recoverFrom c z r s nonce := by
  have hmul : ∀ rInv, (rInv * (N - s) % N) • (-nonce) = (rInv * s % N) • nonce := by
    intro rInv
    have hzero : (rInv * s) • nonce + (rInv * (N - s)) • nonce = 0 := by
      rw [← add_nsmul, ← Nat.mul_add, Nat.add_sub_cancel' hs, ← horder, mul_nsmul', addOrderOf_nsmul_eq_zero,
        nsmul_zero]
    calc (rInv * (N - s) % N) • (-nonce) = (rInv * (N - s)) • (-nonce) := by
          rw [← horder, ← addOrderOf_neg nonce, mod_addOrderOf_nsmul]
      _ = -((rInv * (N - s)) • nonce) := neg_nsmul nonce _
      _ = (rInv * s) • nonce := (eq_neg_of_add_eq_zero_left hzero).symm
      _ = (rInv * s % N) • nonce := by rw [← horder, mod_addOrderOf_nsmul]
  simp [recoverFrom, c.scalarMul_eq, hmul]

/-- What two recoveries of one key with one `r` have in common: the multiples of the nonce points. -/
theorem nsmul_eq_of_recoverFrom {s' : Nat} {nonce' : Point}
    (horder : addOrderOf nonce = N) (horder' : addOrderOf nonce' = N)
    (h : recoverFrom c z r s nonce = .ok key) (h' : recoverFrom c z r s' nonce' = .ok key) :
    s • nonce = s' • nonce' := by
  obtain ⟨rInv, hinv, hkey⟩ := recoverFrom_ok h
  obtain ⟨rInv', hinv', hkey'⟩ := recoverFrom_ok h'
  obtain rfl : rInv = rInv' := Option.some.inj (hinv.symm.trans hinv')
  have hsum := add_right_cancel (c.affine_inj (hkey.trans hkey'.symm))
  have hone := modInverse_spec (by decide : N ≠ 0) hinv
  have hback : ∀ {t : Nat} {q : Point}, addOrderOf q = N → r • (rInv * t % N) • q = t • q := by
    intro t q hq
    rw [← hq, mod_addOrderOf_nsmul, ← mul_nsmul', ← mul_assoc, nsmul_eq_nsmul_iff_modEq, hq]
    simpa using hone.mul_right t
  rw [← hback horder, hsum, hback horder']

structure Recovers (c : Curve Point) (z : Nat) (sig : Signature) (key : Key) (y : Nat) : Prop where
  recoveryID : sig.v ≤ 3
  s_pos : 0 < sig.s
  s_lt : sig.s < N
  ordinate : c.decompressY sig.abscissa sig.parity = some y
  from_nonce : recoverFrom c z sig.r sig.s (c.newPoint sig.abscissa y) = .ok key

theorem recovers_of_recover (h : recover c z sig = .ok key) : ∃ y, Recovers c z sig key y := by
  rw [recover] at h
  split at h
  · cases h
  rename_i hv
  split at h
  · cases h
  split at h
  · cases h
  split at h
  · cases h
  rename_i y hy
  refine ⟨y, UInt8.not_lt.mp hv, ?_, ?_, hy, h⟩
  · omega
  · omega

theorem recoveryID_cases (hv : v ≤ 3) : v = 0 ∨ v = 1 ∨ v = 2 ∨ v = 3 := by
  have hle : v.toNat ≤ 3 := UInt8.le_iff_toNat_le.mp hv
  have hcases : v.toNat = 0 ∨ v.toNat = 1 ∨ v.toNat = 2 ∨ v.toNat = 3 := by omega
  simp only [← UInt8.toNat_inj]
  exact hcases

theorem recoveryID_ext {w : UInt8} (hv : v ≤ 3) (hw : w ≤ 3) (hwrap : v &&& 2 = w &&& 2) :
    ((v &&& 1 == 1) = (w &&& 1 == 1) → v = w) ∧ ((v &&& 1 == 1) = !(w &&& 1 == 1) → v = w ^^^ 1) := by
  rcases recoveryID_cases hv with rfl | rfl | rfl | rfl <;>
    rcases recoveryID_cases hw with rfl | rfl | rfl | rfl <;> revert hwrap <;> decide

theorem recoveryID_mirror (hv : v ≤ 3) :
    v ^^^ 1 ≤ 3 ∧ (v ^^^ 1) &&& 2 = v &&& 2 ∧ ((v ^^^ 1) &&& 1 == 1) = !(v &&& 1 == 1) := by
  rcases recoveryID_cases hv with rfl | rfl | rfl | rfl <;> decide

theorem Signature.abscissa_congr (hr : sig.r = sig'.r)
    (hwrap : sig.v &&& 2 = sig'.v &&& 2) : sig.abscissa = sig'.abscissa := by
  rw [Signature.abscissa, Signature.abscissa, hr, hwrap]

variable (h : recover c z sig = .ok key)

include h

theorem recover_mirror : recover c z sig.mirror = .ok key := by
  obtain ⟨y, hrec⟩ := recovers_of_recover h
  obtain ⟨hv, hwrap, hparity⟩ := recoveryID_mirror hrec.recoveryID
  have hx : sig.mirror.abscissa = sig.abscissa := Signature.abscissa_congr rfl hwrap
  obtain ⟨y', hy', hneg⟩ := c.neg_of_decompressY hrec.ordinate
  have hordinate : c.decompressY sig.mirror.abscissa sig.mirror.parity = some y' := by
    rw [hx, ← hy']
    exact congrArg _ hparity
  have hlt := hrec.s_lt
  rw [recover] at h ⊢
  have hlow := hrec.recoveryID
  rw [if_neg (UInt8.not_lt.mpr hlow)] at h
  split at h
  · cases h
  split_ifs at h with hfield
  have hrange' : ¬ (sig.mirror.r = 0 ∨ sig.mirror.s = 0 ∨ N ≤ sig.mirror.r ∨ N ≤ sig.mirror.s) := by
    have hr : sig.mirror.r = sig.r := rfl
    have hs : sig.mirror.s = N - sig.s := rfl
    omega
  have hfield' : ¬ (sig.mirror.v &&& 2 ≠ 0 ∧ P ≤ sig.mirror.abscissa) := by
    rw [hx]
    rintro ⟨hbit, hle⟩
    exact hfield ⟨fun hzero => hbit (hwrap.trans hzero), hle⟩
  rw [if_neg (show ¬ 3 < sig.mirror.v from UInt8.not_lt.mpr hv), if_neg hrange', if_neg hfield', hordinate, hx]
  dsimp only
  rw [hneg]
  exact (recoverFrom_mirror hlt.le (c.order_of_decompressY hrec.ordinate)).trans hrec.from_nonce

/-- Two signatures that recover one key with one nonce abscissa are the same or mirror images. -/
theorem eq_or_mirror_of_recover (h' : recover c z sig' = .ok key) (hr : sig.r = sig'.r)
    (hwrap : sig.v &&& 2 = sig'.v &&& 2) : sig = sig' ∨ sig = sig'.mirror := by
  obtain ⟨y, hrec⟩ := recovers_of_recover h
  obtain ⟨y', hrec'⟩ := recovers_of_recover h'
  have hx := Signature.abscissa_congr hr hwrap
  have horder := c.order_of_decompressY hrec.ordinate
  have horder' := c.order_of_decompressY hrec'.ordinate
  have hfrom := hrec.from_nonce
  rw [hr] at hfrom
  have hmul := nsmul_eq_of_recoverFrom horder horder' hfrom hrec'.from_nonce
  have hid := recoveryID_ext hrec.recoveryID hrec'.recoveryID hwrap
  have hlt := hrec.s_lt
  have hlt' := hrec'.s_lt
  have hpos := hrec.s_pos
  have hsame : ∀ {t : Nat} {v : UInt8}, sig.s = t → sig.v = v → sig = ⟨sig'.r, t, v⟩ := by
    rintro t v rfl rfl
    rw [← hr]
  by_cases hparity : sig.parity = sig'.parity
  · left
    have hy : some y = some y' := by rw [← hrec.ordinate, ← hrec'.ordinate, hx, hparity]
    rw [hx, Option.some.inj hy, nsmul_eq_nsmul_iff_modEq, horder'] at hmul
    exact hsame (Nat.ModEq.eq_of_lt_of_lt hmul hlt hlt') (hid.1 hparity)
  · right
    have hflip : sig.parity = !sig'.parity := Bool.eq_not.mpr hparity
    obtain ⟨y'', hy'', hneg⟩ := c.neg_of_decompressY hrec'.ordinate
    have hy : some y = some y'' := by rw [← hrec.ordinate, ← hy'', hx, hflip]
    rw [hx, Option.some.inj hy, hneg, neg_nsmul, neg_eq_iff_add_eq_zero, ← add_nsmul,
      ← addOrderOf_dvd_iff_nsmul_eq_zero, horder'] at hmul
    obtain ⟨k, hk⟩ := hmul
    have hk1 : k = 1 := by
      have hlower : 0 < k := Nat.pos_of_ne_zero (by rintro rfl; omega)
      have hupper : k < 2 := by
        by_contra hge
        have := Nat.mul_le_mul_left N (not_lt.mp hge)
        omega
      omega
    rw [hk1, Nat.mul_one] at hk
    exact hsame (show sig.s = N - sig'.s by omega) (hid.2 hflip)

/-- Two signatures that recover one key with one nonce abscissa are the same exactly if `s` is in the
same half of the group order. -/
theorem eq_iff_isLowS_of_recover (h' : recover c z sig' = .ok key) (hr : sig.r = sig'.r)
    (hwrap : sig.v &&& 2 = sig'.v &&& 2) : sig = sig' ↔ isLowS sig.s = isLowS sig'.s := by
  constructor
  · rintro rfl
    rfl
  · intro hlow
    rcases eq_or_mirror_of_recover h h' hr hwrap with heq | hmirror
    · exact heq
    · obtain ⟨y', hrec'⟩ := recovers_of_recover h'
      have hpos := hrec'.s_pos
      have hlt := hrec'.s_lt
      have hs : sig.s = N - sig'.s := by rw [hmirror]; rfl
      have hodd : N = 2 * halfN + 1 := by decide
      rw [hs, isLowS, isLowS, Bool.eq_iff_iff] at hlow
      simp only [Bool.and_eq_true, decide_eq_true_eq] at hlow
      omega

/-- With one nonce abscissa, a key is recovered from a signature and its mirror image and from no other. -/
theorem recover_iff_eq_or_mirror (hr : sig'.r = sig.r) (hwrap : sig'.v &&& 2 = sig.v &&& 2) :
    recover c z sig' = .ok key ↔ sig' = sig ∨ sig' = sig.mirror := by
  constructor
  · exact fun h' => eq_or_mirror_of_recover h' h hr hwrap
  · rintro (rfl | rfl)
    · exact h
    · exact recover_mirror h

end Recovery

/-! ### A group to evaluate recovery with -/

instance : NeZero N := ⟨by decide⟩

theorem nsmul_fin (k : Nat) (q : Fin N) : k • q = ⟨k * q.val % N, Nat.mod_lt _ (by decide)⟩ := by
  induction k with
  | zero =>
    apply Fin.ext
    simp
  | succ k ih =>
    rw [succ_nsmul, ih]
    apply Fin.ext
    rw [Fin.val_add]
    rw [Nat.mod_add_mod, Nat.succ_mul]

theorem addOrderOf_one : addOrderOf (1 : Fin N) = N := by
  have hmul : ∀ k : Nat, k • (1 : Fin N) = 0 ↔ N ∣ k := by
    intro k
    rw [nsmul_fin, Fin.ext_iff, show (1 : Fin N).val = 1 from rfl, Nat.mul_one]
    exact (Nat.dvd_iff_mod_eq_zero).symm
  apply Nat.dvd_antisymm
  · exact addOrderOf_dvd_of_nsmul_eq_zero ((hmul N).mpr dvd_rfl)
  · exact (hmul _).mp (addOrderOf_nsmul_eq_zero 1)

/-- The residues modulo the group order, with one abscissa. -/
def Curve.plain : Curve (Fin N) where
  generator := 1
  scalarMul k q := ⟨k * q.val % N, Nat.mod_lt _ (by decide)⟩
  affine q := if q = 0 then none else some (q.val, 0)
  newPoint _ y := if y = 0 then -1 else 1
  decompressY x odd := if x = 1 then some (if odd then 1 else 0) else none
  scalarMul_eq k q := (nsmul_fin k q).symm
  affine_inj := by
    intro q q' h
    split at h
    · split at h
      · rename_i hq hq'
        rw [hq, hq']
      · cases h
    · split at h
      · cases h
      · exact Fin.ext (congrArg Prod.fst (Option.some.inj h))
  neg_of_decompressY := by
    intro x odd y h
    split at h
    · rename_i hx
      obtain rfl := Option.some.inj h
      cases odd
      · exact ⟨1, if_pos hx, (neg_neg (1 : Fin N)).symm⟩
      · exact ⟨0, if_pos hx, rfl⟩
    · cases h
  order_of_decompressY := by
    intro x odd y h
    split
    · rw [addOrderOf_neg, addOrderOf_one]
    · exact addOrderOf_one

theorem recover_plain_mirror : recover Curve.plain 1 (Signature.mirror ⟨1, 2, 0⟩) = .ok (N - 3, 0) := by
  have h : recover Curve.plain 1 ⟨1, 2, 0⟩ = .ok (N - 3, 0) := by decide +kernel
  refine (recover_iff_eq_or_mirror h ?_ ?_).mpr ?_
  · rfl
  · decide
  · exact .inr rfl

/-! ### Public keys -/

inductive KeyError where
  | invalidPoint
  | encoding (length : Nat)
  deriving DecidableEq, Repr

/-- `Affine` of `NewPoint x y`, whose `Z` is one. -/
def Key.affine (key : Key) : Nat × Nat := (key.1 % P, key.2 % P)

/-- `OnCurve` of `NewPoint x y`. The range is checked after the reduction. -/
def Key.onCurve (key : Key) : Bool :=
  let (x, y) := key.affine
  if P ≤ x ∨ P ≤ y then false else y * y % P == (x * x % P * x + 7) % P

def parseUncompressed (b : Bytes) : Except KeyError Key :=
  let key : Key := (bytesToNat (b.take 32), bytesToNat (b.drop 32))
  if key.onCurve then .ok key else .error .invalidPoint

def parsePublicKey (decompressY : Nat → Bool → Option Nat) (b : Bytes) : Except KeyError Key :=
  if b.length = 64 then parseUncompressed b
  else if b.length = 65 ∧ b.headD 0 = 4 then parseUncompressed b.tail
  else if b.length = 33 ∧ (b.headD 0 = 2 ∨ b.headD 0 = 3) then
    match decompressY (bytesToNat b.tail) (b.headD 0 == 3) with
    | none => .error .invalidPoint
    | some y => .ok (bytesToNat b.tail, y)
  else .error (.encoding b.length)

variable {decompressY : Nat → Bool → Option Nat} {b b' : Bytes} {key key' : Key}

theorem bytes_of_parsePublicKey (hlength : b.length = 64) (h : parsePublicKey decompressY b = .ok key) :
    key.bytes = b := by
  have hfill (c : Bytes) (hc : c.length = 32) : fillBytes 32 (bytesToNat c) = c := by
    refine bytesToNat_inj (by rw [length_fillBytes, hc]) ?_
    rw [bytesToNat_fillBytes, ← hc, Nat.mod_eq_of_lt (bytesToNat_lt c)]
  rw [parsePublicKey, if_pos hlength, parseUncompressed] at h
  split at h
  · cases h
    rw [Key.bytes, hfill _ (by simp [hlength]), hfill _ (by simp [hlength]), take_append_drop]
  · cases h

abbrev Key.Reduced (key : Key) : Prop := key.1 < P ∧ key.2 < P

/-- The point with abscissa one, and what it is congruent to. -/
def small : Key := (1, 0x4218f20ae6c646b363db68605822fb14264ca8d2587fdd6fbc750d587e76a7ee)

def large : Key := (1 + P, small.2)

theorem parsePublicKey_bytes (h : key.onCurve = true) (hx : key.1 < 256 ^ 32) (hy : key.2 < 256 ^ 32) :
    parsePublicKey decompressY key.bytes = .ok key := by
  have hx32 := length_fillBytes 32 key.1
  rw [parsePublicKey, if_pos (by simp [Key.bytes, length_fillBytes]), parseUncompressed, Key.bytes, take_left' hx32,
    drop_left' hx32, bytesToNat_fillBytes, bytesToNat_fillBytes, Nat.mod_eq_of_lt hx, Nat.mod_eq_of_lt hy, if_pos h]

end PadiChain.Secp256k1

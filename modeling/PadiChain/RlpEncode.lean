import PadiChain.Common
import Mathlib.Data.Nat.Digits.Lemmas

/-! Recursive length encoding: an item is a byte string or a list of items. An item is written as a
header that gives its shape and size, followed by its content; a single byte below `0x80` is its own
encoding. What is written can be read back from the front of any input, so an encoding stands for one
item only. A size that does not fit the addressable range has no encoding. -/

namespace PadiChain.Rlp

open List

inductive DecodeError where
  | unexpectedEOF
  | expectedString
  | expectedList
  | canonSize
  | oversizedLength
  deriving DecidableEq, Repr

inductive Kind where
  | byte
  | string
  | list
  deriving DecidableEq, Repr

/-- An item, before it is written. -/
inductive Item where
  | bytes (b : Bytes)
  | list (items : List Item)

/-- `putUint`, and `Bytes` of a big integer: big-endian without leading zero bytes. -/
def putUint (v : Nat) : Bytes := ((Nat.digits 256 v).map UInt8.ofNat).reverse

def writeHeader (length : Nat) (offset : UInt8) : Bytes :=
  if length < 56 then [offset + UInt8.ofNat length]
  else (offset + 55 + UInt8.ofNat (putUint length).length) :: putUint length

def isByte : Bytes → Bool
  | [x] => x < 0x80
  | _ => false

def writeBytes (b : Bytes) : Bytes := if isByte b then b else writeHeader b.length 0x80 ++ b

mutual

def Item.layout : Item → Bytes
  | .bytes b => writeBytes b
  | .list items => writeHeader (layoutAll items).length 0xC0 ++ layoutAll items

def layoutAll : List Item → Bytes
  | [] => []
  | item :: items => item.layout ++ layoutAll items

end

def maxInt : Nat := 2 ^ 63 - 1

/-- `Encode`. No byte slice is longer than the largest `int`. -/
def encode (item : Item) : Option Bytes :=
  if item.layout.length ≤ maxInt then some item.layout else none

def peekLength (lenOfLen : Nat) (rest : Bytes) : Except DecodeError Nat :=
  if 8 < lenOfLen then .error .oversizedLength
  else if rest.length < lenOfLen then .error .unexpectedEOF
  else if (rest.take lenOfLen).head? = some 0 then .error .canonSize
  else if bytesToNat (rest.take lenOfLen) < 56 then .error .canonSize
  else if maxInt < bytesToNat (rest.take lenOfLen) then .error .oversizedLength
  else .ok (bytesToNat (rest.take lenOfLen))

def kind : Bytes → Except DecodeError (Kind × Nat)
  | [] => .error .unexpectedEOF
  | b :: rest =>
    if b < 0x80 then .ok (.byte, 1)
    else if b < 0xB8 then .ok (.string, (b - 0x80).toNat)
    else if b < 0xC0 then (peekLength (b - 0xB7).toNat rest).map fun size => (.string, size)
    else if b < 0xF8 then .ok (.list, (b - 0xC0).toNat)
    else (peekLength (b - 0xF7).toNat rest).map fun size => (.list, size)

def byteLen (v : Nat) : Nat := (Nat.digits 256 v).length

def headerSize : Kind → Nat → Nat
  | .byte, _ => 0
  | _, size => if size < 56 then 1 else 1 + byteLen size

/-- `Stream.Bytes`: the next item as a byte string, and what follows it. -/
def readBytes (data : Bytes) : Except DecodeError (Bytes × Bytes) :=
  match kind data with
  | .error e => .error e
  | .ok (.list, _) => .error .expectedString
  | .ok (.byte, _) => .ok (data.take 1, data.drop 1)
  | .ok (.string, size) =>
    let hdr := headerSize .string size
    if data.length < hdr + size then .error .unexpectedEOF
    else if isByte ((data.drop hdr).take size) then .error .canonSize
    else .ok ((data.drop hdr).take size, data.drop (hdr + size))

/-- `Stream.List`: the content of the next item, a list, and what follows it. -/
def readList (data : Bytes) : Except DecodeError (Bytes × Bytes) :=
  match kind data with
  | .error e => .error e
  | .ok (.list, size) =>
    let hdr := headerSize .list size
    if data.length < hdr + size then .error .unexpectedEOF
    else .ok ((data.drop hdr).take size, data.drop (hdr + size))
  | .ok _ => .error .expectedList

/-! ### Integers -/

theorem bytesToNat_reverse_digits {digits : List Nat} (h : ∀ d ∈ digits, d < 256) :
    bytesToNat (digits.map UInt8.ofNat).reverse = Nat.ofDigits 256 digits := by
  induction digits with
  | nil => rfl
  | cons d rest ih =>
    have hd : (UInt8.ofNat d).toNat = d := by
      exact Nat.mod_eq_of_lt (h d mem_cons_self)
    rw [map_cons, reverse_cons, bytesToNat_append_singleton, hd,
      ih fun d' hd' => h d' (mem_cons_of_mem d hd'), Nat.ofDigits_cons]
    omega

theorem bytesToNat_putUint (v : Nat) : bytesToNat (putUint v) = v := by
  rw [putUint, bytesToNat_reverse_digits fun d hd => Nat.digits_lt_base (by decide) hd, Nat.ofDigits_digits]

variable {v k n : Nat} {b : Bytes}

theorem putUint_injective {w : Nat} (h : putUint v = putUint w) : v = w := by
  rw [← bytesToNat_putUint v, h, bytesToNat_putUint]

theorem length_putUint (v : Nat) : (putUint v).length = byteLen v := by
  rw [putUint, length_reverse, length_map, byteLen]

theorem byteLen_le (h : v < 256 ^ k) : byteLen v ≤ k :=
  (Nat.digits_length_le_iff (by decide) v).mpr h

theorem byteLen_pos (h : v ≠ 0) : 0 < byteLen v :=
  length_pos_iff.mpr (Nat.digits_ne_nil_iff_ne_zero.mpr h)

theorem head?_putUint (v : Nat) : (putUint v).head? ≠ some 0 := by
  by_cases hv : v = 0
  · rw [hv]
    decide
  · have hne := Nat.digits_ne_nil_iff_ne_zero (b := 256).mpr hv
    intro h
    rw [putUint, head?_reverse, getLast?_map, getLast?_eq_some_getLast hne,
      Option.map_some, Option.some.injEq] at h
    have hlast := Nat.getLast_digit_ne_zero 256 hv
    have hlt := Nat.digits_lt_base (b := 256) (by decide) (getLast_mem hne)
    have hzero := congrArg UInt8.toNat h
    rw [UInt8.toNat_ofNat', Nat.mod_eq_of_lt hlt] at hzero
    exact hlast hzero

/-! ### Reading back what was written -/

theorem toNat_offset (offset : UInt8) (h : offset.toNat + k < 256) :
    (offset + UInt8.ofNat k).toNat = offset.toNat + k := by
  rw [UInt8.toNat_add, UInt8.toNat_ofNat', Nat.mod_eq_of_lt (show k < 2 ^ 8 by omega)]
  exact Nat.mod_eq_of_lt h

theorem sub_offset (offset : UInt8) (h : k < 256) : (offset + UInt8.ofNat k - offset).toNat = k := by
  rw [UInt8.add_comm, UInt8.add_sub_cancel, UInt8.toNat_ofNat', Nat.mod_eq_of_lt h]

theorem length_writeHeader (n : Nat) (offset : UInt8) :
    (writeHeader n offset).length = if n < 56 then 1 else 1 + byteLen n := by
  rw [writeHeader]
  split
  · rfl
  · rw [length_cons, length_putUint, Nat.add_comm]

theorem byteLen_le_of_le_maxInt (h : n ≤ maxInt) : byteLen n ≤ 8 :=
  byteLen_le (lt_of_le_of_lt h (by decide))

theorem peekLength_putUint (hlong : 56 ≤ n) (hmax : n ≤ maxInt) (rest : Bytes) :
    peekLength (byteLen n) (putUint n ++ rest) = .ok n := by
  have htake : (putUint n ++ rest).take (byteLen n) = putUint n :=
    take_left' (length_putUint n)
  have hlength : ¬ (putUint n ++ rest).length < byteLen n := by
    rw [length_append, length_putUint]
    omega
  rw [peekLength, if_neg (not_lt.mpr (byteLen_le_of_le_maxInt hmax)), if_neg hlength, htake,
    if_neg (head?_putUint n), bytesToNat_putUint, if_neg (not_lt.mpr hlong), if_neg (not_lt.mpr hmax)]

theorem kind_writeHeader {offset : UInt8} {found : Kind}
    (h : offset = 0x80 ∧ found = .string ∨ offset = 0xC0 ∧ found = .list) (hmax : n ≤ maxInt) (rest : Bytes) :
    kind (writeHeader n offset ++ rest) = .ok (found, n) := by
  have hoffset : offset.toNat + 55 ≤ 247 := by
    rcases h with ⟨rfl, -⟩ | ⟨rfl, -⟩ <;> decide
  rw [writeHeader]
  split
  · rename_i hshort
    have hb := toNat_offset (k := n) offset (by omega)
    have hsub := sub_offset (k := n) offset (by omega)
    rcases h with ⟨rfl, rfl⟩ | ⟨rfl, rfl⟩
    all_goals
      simp only [singleton_append, kind, UInt8.lt_iff_toNat_lt, hb, hsub, UInt8.reduceToNat]
      split_ifs
      all_goals first | rfl | omega
  · rename_i hlong
    have hk := byteLen_le_of_le_maxInt hmax
    have hpos := byteLen_pos (show n ≠ 0 by omega)
    have hbase : (offset + 55).toNat = offset.toNat + 55 := toNat_offset (k := 55) offset (by omega)
    have hb := toNat_offset (k := byteLen n) (offset + 55) (by omega)
    have hsub := sub_offset (k := byteLen n) (offset + 55) (by omega)
    rcases h with ⟨rfl, rfl⟩ | ⟨rfl, rfl⟩
    all_goals
      simp only [UInt8.reduceAdd, UInt8.reduceToNat] at hb hsub
      simp only [cons_append, kind, length_putUint, UInt8.lt_iff_toNat_lt, UInt8.reduceAdd, hb, hsub, UInt8.reduceToNat,
        peekLength_putUint (not_lt.mp hlong) hmax]
      split_ifs
      all_goals first | rfl | omega
theorem readBytes_writeBytes (hmax : b.length ≤ maxInt) (rest : Bytes) :
    readBytes (writeBytes b ++ rest) = .ok (b, rest) := by
  rw [writeBytes]
  split
  · rename_i hbyte
    match b, hbyte with
    | [x], hbyte =>
      have hx : x < 0x80 := of_decide_eq_true hbyte
      simp only [readBytes, singleton_append, kind, if_pos hx]
      rfl
  · rename_i hbyte
    have hsize : headerSize .string b.length = (writeHeader b.length 0x80).length := (length_writeHeader _ _).symm
    simp only [readBytes, append_assoc, kind_writeHeader (.inl ⟨rfl, rfl⟩) hmax]
    rw [hsize, if_neg (by simp only [length_append]; omega), drop_left, take_left, if_neg hbyte,
      ← drop_drop, drop_left, drop_left]

theorem readList_writeHeader (payload : Bytes) (hmax : payload.length ≤ maxInt) (rest : Bytes) :
    readList (writeHeader payload.length 0xC0 ++ payload ++ rest) = .ok (payload, rest) := by
  have hsize : headerSize .list payload.length = (writeHeader payload.length 0xC0).length :=
    (length_writeHeader _ _).symm
  simp only [readList, append_assoc, kind_writeHeader (.inr ⟨rfl, rfl⟩) hmax]
  rw [hsize, if_neg (by simp only [length_append]; omega), drop_left, take_left,
    ← drop_drop, drop_left, drop_left]

theorem readList_writeBytes (hmax : b.length ≤ maxInt) (rest : Bytes) :
    readList (writeBytes b ++ rest) = .error .expectedList := by
  rw [writeBytes]
  split
  · rename_i hbyte
    match b, hbyte with
    | [x], hbyte =>
      have hx : x < 0x80 := of_decide_eq_true hbyte
      simp [readList, kind, if_pos hx]
  · simp [readList, kind_writeHeader (.inl ⟨rfl, rfl⟩) hmax]

/-! ### An encoding stands for one item -/

theorem length_le_writeBytes (b : Bytes) : b.length ≤ (writeBytes b).length := by
  rw [writeBytes]
  split
  · exact le_rfl
  · rw [length_append]
    omega

theorem layout_ne_nil (item : Item) : item.layout ≠ [] := by
  have hheader : ∀ n offset, writeHeader n offset ≠ [] := by
    intro n offset h
    rw [writeHeader] at h
    split at h <;> cases h
  cases item with
  | bytes b =>
    rw [Item.layout, writeBytes]
    split
    · rename_i hbyte
      intro h
      rw [h] at hbyte
      cases hbyte
    · intro h
      exact hheader _ _ (append_eq_nil_iff.mp h).1
  | list items =>
    intro h
    exact hheader _ _ (append_eq_nil_iff.mp h).1

mutual

/-- Two items whose encodings start the same input are the same item. -/
theorem layout_append_inj : ∀ (x y : Item) {rest rest' : Bytes}, x.layout.length ≤ maxInt →
    y.layout.length ≤ maxInt → x.layout ++ rest = y.layout ++ rest' → x = y ∧ rest = rest'
  | .bytes b, .bytes b', rest, rest', hx, hy, h => by
    simp only [Item.layout] at hx hy h
    have hb := readBytes_writeBytes ((length_le_writeBytes b).trans hx) rest
    have hb' := readBytes_writeBytes ((length_le_writeBytes b').trans hy) rest'
    rw [h, hb'] at hb
    cases hb
    exact ⟨rfl, rfl⟩
  | .list items, .list items', rest, rest', hx, hy, h => by
    simp only [Item.layout] at hx hy h
    rw [length_append] at hx hy
    have hpayload := readList_writeHeader (layoutAll items) (by omega) rest
    have hpayload' := readList_writeHeader (layoutAll items') (by omega) rest'
    rw [h, hpayload'] at hpayload
    injection hpayload with hpair
    injection hpair with hcontent hrest
    rw [layoutAll_inj items items' (by omega) (by omega) hcontent.symm]
    exact ⟨rfl, hrest.symm⟩
  | .bytes b, .list items, rest, rest', hx, hy, h => by
    simp only [Item.layout] at hx hy h
    rw [length_append] at hy
    have hb := readList_writeBytes ((length_le_writeBytes b).trans hx) rest
    rw [h, readList_writeHeader (layoutAll items) (by omega)] at hb
    cases hb
  | .list items, .bytes b, rest, rest', hx, hy, h => by
    simp only [Item.layout] at hx hy h
    rw [length_append] at hx
    have hb := readList_writeBytes ((length_le_writeBytes b).trans hy) rest'
    rw [← h, readList_writeHeader (layoutAll items) (by omega)] at hb
    cases hb

theorem layoutAll_inj : ∀ (xs ys : List Item), (layoutAll xs).length ≤ maxInt →
    (layoutAll ys).length ≤ maxInt → layoutAll xs = layoutAll ys → xs = ys
  | [], [], _, _, _ => rfl
  | [], y :: ys, _, _, h => by
    exact absurd (append_eq_nil_iff.mp h.symm).1 (layout_ne_nil y)
  | x :: xs, [], _, _, h => by
    exact absurd (append_eq_nil_iff.mp h).1 (layout_ne_nil x)
  | x :: xs, y :: ys, hx, hy, h => by
    simp only [layoutAll, length_append] at hx hy h
    obtain ⟨hhead, htail⟩ := layout_append_inj x y (by omega) (by omega) h
    rw [hhead, layoutAll_inj xs ys (by omega) (by omega) htail]

end

theorem encode_inj {x y : Item} (hx : encode x = some b) (hy : encode y = some b) : x = y := by
  rw [encode] at hx hy
  split at hx
  · split at hy
    · rename_i hxmax hymax
      have hlayout : x.layout ++ [] = y.layout ++ [] := by
        rw [append_nil, append_nil, Option.some.inj hx, Option.some.inj hy]
      exact (layout_append_inj x y hxmax hymax hlayout).1
    · cases hy
  · cases hx

end PadiChain.Rlp

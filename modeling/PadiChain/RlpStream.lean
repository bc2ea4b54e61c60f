import PadiChain.LibOutcome
import PadiChain.RlpEncode

/-! The decoder as it runs on a 64-bit machine: a cursor over a byte slice, slice and index operations
that panic out of range, and sums of lengths that wrap around. What is decoded into is described by a
target, which stands for the Go type that reflection finds. -/

namespace PadiChain.Rlp

open Outcome List

/-- A byte slice. Its length is an `int`. -/
abbrev Slice := { b : Bytes // b.length ≤ maxInt }

def addInt (a b : Int) : Int := (a + b).bmod (2 ^ 64)

def addUint (a b : Nat) : Nat := (a + b) % 2 ^ 64

inductive StreamError where
  | item (e : DecodeError)
  | canonInt
  | valueTooLarge
  | trailingData
  | tooManyFields
  | tooFewFields
  | missingField (name : String)
  | notBoolean (u : Nat)
  | wrongLength (want got : Nat)
  | unsupported
  | field (name : String) (e : StreamError)
  | emptyTransaction
  | invalidTxType (b : UInt8)
  | txRootMismatch
  | noHeader
  deriving DecidableEq

/-- A cursor over a payload. -/
structure Stream where
  data : Slice
  pos : Nat
  pos_le : pos ≤ data.1.length

namespace Stream

def new (data : Slice) : Stream := ⟨data, 0, Nat.zero_le _⟩

def remaining (s : Stream) : Nat := s.data.1.length - s.pos

def empty (s : Stream) : Bool := s.remaining == 0

def rest (s : Stream) : Bytes := s.data.1.drop s.pos

/-- `s.data[i]`. -/
def index (s : Stream) (i : Int) : Outcome StreamError UInt8 :=
  if 0 ≤ i then
    match s.data.1[i.toNat]? with
    | some b => .ok b
    | none => .panic
  else .panic

/-- `s.data[lo:hi]`, with the cursor left at its end. -/
def cut (s : Stream) (lo hi : Int) : Outcome StreamError (Slice × Stream) :=
  if h : 0 ≤ lo ∧ lo ≤ hi ∧ hi ≤ s.data.1.length then
    .ok (⟨(s.data.1.drop lo.toNat).take (hi - lo).toNat, by
        rw [List.length_take, List.length_drop]
        have := s.data.2
        omega⟩,
      ⟨s.data, hi.toNat, by omega⟩)
  else .panic

def peekLength (s : Stream) (lenOfLen : Nat) : Outcome StreamError Nat :=
  if 8 < lenOfLen then .error (.item .oversizedLength)
  else if s.remaining < 1 + lenOfLen then .error (.item .unexpectedEOF)
  else do
    let (raw, _) ← s.cut (addInt s.pos 1) (addInt (addInt s.pos 1) lenOfLen)
    match raw.1 with
    | [] => .panic
    | first :: _ =>
      let size := bytesToNat raw.1
      if first = 0 then .error (.item .canonSize)
      else if size < 56 then .error (.item .canonSize)
      else if maxInt < size then .error (.item .oversizedLength)
      else .ok size

def kind (s : Stream) : Outcome StreamError (Kind × Nat) :=
  if s.empty then .error (.item .unexpectedEOF)
  else do
    let b ← s.index s.pos
    if b < 0x80 then pure (.byte, 1)
    else if b < 0xB8 then pure (.string, (b - 0x80).toNat)
    else if b < 0xC0 then do
      let size ← s.peekLength (b - 0xB7).toNat
      pure (.string, size)
    else if b < 0xF8 then pure (.list, (b - 0xC0).toNat)
    else do
      let size ← s.peekLength (b - 0xF7).toNat
      pure (.list, size)

def bytes (s : Stream) : Outcome StreamError (Slice × Stream) := do
  let (kind, size) ← s.kind
  match kind with
  | .list => .error (.item .expectedString)
  | .byte => s.cut s.pos (addInt s.pos 1)
  | .string =>
    let hdr := headerSize .string size
    if s.remaining < addUint hdr size then .error (.item .unexpectedEOF)
    else do
      let start := addInt s.pos hdr
      let stop := addInt start size
      if size = 1 then do
        let b ← s.index start
        if b < 0x80 then .error (.item .canonSize) else s.cut start stop
      else s.cut start stop

/-- `Raw`: the sum of the header and the size is an `int`. -/
def raw (s : Stream) : Outcome StreamError (Slice × Stream) := do
  let (kind, size) ← s.kind
  let total := if kind = .byte then 1 else addInt (headerSize kind size) size
  if (s.remaining : Int) < total then .error (.item .unexpectedEOF)
  else s.cut s.pos (addInt s.pos total)

/-- `List`: a cursor over the elements, and the cursor behind the list. -/
def list (s : Stream) : Outcome StreamError (Stream × Stream) := do
  let (kind, size) ← s.kind
  if kind ≠ .list then .error (.item .expectedList)
  else
    let hdr := headerSize .list size
    if s.remaining < addUint hdr size then .error (.item .unexpectedEOF)
    else do
      let start := addInt s.pos hdr
      let (content, s) ← s.cut start (addInt start size)
      pure (.new content, s)

def uint (s : Stream) : Outcome StreamError (Nat × Stream) := do
  let (b, s) ← s.bytes
  if 8 < b.1.length then .error .valueTooLarge
  else if b.1.head? = some 0 then .error .canonInt
  else pure (bytesToNat b.1, s)

def transaction (s : Stream) : Outcome StreamError (Slice × Stream) := do
  let (kind, _) ← s.kind
  if kind = .list then s.raw else s.bytes

def bigInt (s : Stream) : Outcome StreamError (Nat × Stream) := do
  let (b, s) ← s.bytes
  if b.1.head? = some 0 then .error .canonInt else pure (bytesToNat b.1, s)

end Stream

mutual

/-- What is decoded into, by the kind of the type. A transaction decodes itself, by one of the two
forms it can have. -/
inductive Target where
  | raw
  | transaction (legacy dynamicFee : Target)
  | bigInt
  | struct (fields : Fields)
  | string
  | bool
  | uint (bits : Nat)
  | bytes
  | slice (elem : Target)
  | fixed (length : Nat)
  | array (length : Nat) (elem : Target)
  | unsupported

/-- The fields of a struct, with their tags; `nilOK` is set on pointers only. -/
inductive Fields where
  | nil
  | cons (name : String) (optional nilOK : Bool) (target : Target) (rest : Fields)

end

inductive Value where
  | bytes (b : Bytes)
  | num (n : Nat)
  | bool (b : Bool)
  | list (values : List Value)
  /-- A nil pointer, or the zero value of an absent field. -/
  | zero

/-- `rlp.Decode`, into what the given decoder reads: trailing bytes are refused. -/
def decodeWith (decode : Stream → Outcome StreamError (Value × Stream)) (data : Slice) :
    Outcome StreamError Value := do
  let (v, s) ← decode (.new data)
  if 0 < s.remaining then .error .trailingData else pure v

def unmarshalBinary (legacy dynamicFee : Stream → Outcome StreamError (Value × Stream)) (b : Slice) :
    Outcome StreamError Value :=
  match h : b.1 with
  | [] => .error .emptyTransaction
  | first :: tail =>
    if 0xC0 ≤ first then decodeWith legacy b
    else if first = 0x02 then
      decodeWith dynamicFee ⟨tail, by
        have := b.2
        rw [h, List.length_cons] at this
        omega⟩
    else .error (.invalidTxType first)

/-- A field of a struct. An empty item stands for an absent recipient. -/
def decodeField (nilOK : Bool) (decode : Stream → Outcome StreamError (Value × Stream)) (s : Stream) :
    Outcome StreamError (Value × Stream) :=
  if nilOK then do
    let (kind, size) ← s.kind
    if size = 0 ∧ kind ≠ .byte then do
      let (_, s) ← s.raw
      pure (.zero, s)
    else decode s
  else decode s

/-- The elements of a list without a fixed number of them. -/
def decodeElems (decode : Stream → Outcome StreamError (Value × Stream)) :
    Nat → Stream → Outcome StreamError (List Value)
  | 0, s => if s.empty then pure [] else .diverge
  | fuel + 1, s =>
    if s.empty then pure []
    else do
      let (v, s) ← decode s
      let vs ← decodeElems decode fuel s
      pure (v :: vs)

def decodeArray (decode : Stream → Outcome StreamError (Value × Stream)) :
    Nat → Stream → Outcome StreamError (List Value)
  | 0, s => if s.empty then pure [] else .error .tooManyFields
  | length + 1, s =>
    if s.empty then .error .tooFewFields
    else do
      let (v, s) ← decode s
      let vs ← decodeArray decode length s
      pure (v :: vs)

mutual

def decodeValue : Target → Stream → Outcome StreamError (Value × Stream)
  | .raw, s => do
    let (b, s) ← s.raw
    pure (.bytes b.1, s)
  | .transaction legacy dynamicFee, s => do
    let (b, s) ← s.transaction
    let v ← unmarshalBinary (decodeValue legacy) (decodeValue dynamicFee) b
    pure (v, s)
  | .bigInt, s => do
    let (n, s) ← s.bigInt
    pure (.num n, s)
  | .struct fields, s => do
    let (inner, s) ← s.list
    let (vs, inner) ← decodeFields fields inner
    if inner.empty then pure (.list vs, s) else .error .tooManyFields
  | .string, s => do
    let (b, s) ← s.bytes
    pure (.bytes b.1, s)
  | .bool, s => do
    let (u, s) ← s.uint
    if 1 < u then .error (.notBoolean u) else pure (.bool (u = 1), s)
  | .uint bits, s => do
    let (u, s) ← s.uint
    if 2 ^ bits ≤ u then .error .valueTooLarge else pure (.num u, s)
  | .bytes, s => do
    let (b, s) ← s.bytes
    pure (.bytes b.1, s)
  | .slice elem, s => do
    let (inner, s) ← s.list
    let vs ← decodeElems (decodeValue elem) inner.remaining inner
    pure (.list vs, s)
  | .fixed length, s => do
    let (b, s) ← s.bytes
    if b.1.length ≠ length then .error (.wrongLength length b.1.length) else pure (.bytes b.1, s)
  | .array length elem, s => do
    let (inner, s) ← s.list
    let vs ← decodeArray (decodeValue elem) length inner
    pure (.list vs, s)
  | .unsupported, _ => .error .unsupported

/-- The loop of `decodeStruct`. -/
def decodeFields : Fields → Stream → Outcome StreamError (List Value × Stream)
  | .nil, s => pure ([], s)
  | .cons name optional nilOK target more, s =>
    if s.empty then
      if optional then do
        let (vs, s) ← decodeFields more s
        pure (.zero :: vs, s)
      else .error (.missingField name)
    else do
      let (v, s) ← (decodeField nilOK (decodeValue target) s).mapError (.field name)
      let (vs, s) ← decodeFields more s
      pure (v :: vs, s)

end

def decode (target : Target) (data : Slice) : Outcome StreamError Value := decodeWith (decodeValue target) data

/-- The loop of `Split`. -/
def splitElems : Nat → Stream → Outcome StreamError (List Slice)
  | 0, s => if s.empty then pure [] else .diverge
  | fuel + 1, s =>
    if s.empty then pure []
    else do
      let (item, s) ← s.raw
      let items ← splitElems fuel s
      pure (item :: items)

def split (data : Slice) : Outcome StreamError (List Slice) := do
  let (inner, _) ← (Stream.new data).list
  splitElems inner.remaining inner

/-! ### The cursor -/

/-- `Raw`, without the wrap: the next item with its header, and what follows it. -/
def readRaw (data : Bytes) : Except DecodeError (Bytes × Bytes) :=
  match Rlp.kind data with
  | .error e => .error e
  | .ok (kind, size) =>
    let total := if kind = .byte then 1 else headerSize kind size + size
    if data.length < total then .error .unexpectedEOF else .ok (data.take total, data.drop total)

/-- The next item declares a length that does not fit an `int` together with its header. -/
def overlong (data : Bytes) : Bool :=
  match Rlp.kind data with
  | .error _ => false
  | .ok (kind, size) => maxInt < headerSize kind size + size

theorem addInt_of_le {a b : Nat} (h : a + b ≤ maxInt) : addInt a b = (a + b : Nat) := by
  rw [addInt, Int.bmod_eq_of_le_mul_two]
  · push_cast
    rfl
  all_goals
    unfold maxInt at h
    omega

variable {size : Nat} {data : Bytes} {k : Kind}

theorem peekLength_le {lenOfLen : Nat} (h : peekLength lenOfLen data = .ok size) : size ≤ maxInt := by
  rw [peekLength] at h
  iterate 5
    split at h
    · cases h
  cases h
  omega

theorem peekLength_map_le {lenOfLen : Nat} {k' : Kind}
    (h : (peekLength lenOfLen data).map (fun size => (k', size)) = .ok (k, size)) : size ≤ maxInt := by
  cases hlen : peekLength lenOfLen data with
  | error e =>
    rw [hlen] at h
    cases h
  | ok n =>
    rw [hlen] at h
    cases h
    exact peekLength_le hlen

theorem kind_le (h : kind data = .ok (k, size)) : size ≤ maxInt := by
  have hbyte : ∀ b : UInt8, b.toNat ≤ maxInt := fun b => by
    have := b.toNat_lt
    unfold maxInt
    omega
  match data, h with
  | b :: tail, h =>
    simp only [kind] at h
    split at h
    · cases h
      decide
    split at h
    · cases h
      exact hbyte _
    split at h
    · exact peekLength_map_le h
    split at h
    · cases h
      exact hbyte _
    · exact peekLength_map_le h

theorem headerSize_le (h : size ≤ maxInt) : headerSize k size ≤ 9 := by
  have hlen := byteLen_le_of_le_maxInt h
  cases k <;> simp only [headerSize] <;> try split
  all_goals omega

namespace Stream

variable (s : Stream)

theorem length_rest : s.rest.length = s.remaining := length_drop

theorem remaining_add : s.pos + s.remaining = s.data.1.length := by
  have := s.pos_le
  rw [remaining]
  omega

theorem remaining_le : s.pos + s.remaining ≤ maxInt := by
  rw [remaining_add]
  exact s.data.2

theorem empty_iff : s.empty = true ↔ s.rest = [] := by
  rw [empty, beq_iff_eq, ← length_rest, length_eq_zero_iff]

@[simp] theorem rest_new (data : Slice) : (new data).rest = data.1 := rfl

variable {a n size : Nat} {b r : Bytes} {e : DecodeError} {k : Kind}

theorem cut_of_le (h : a + n ≤ s.remaining) :
    ∃ b s', s.cut (s.pos + a : Nat) (s.pos + a + n : Nat) = .ok (b, s') ∧ b.1 = (s.rest.drop a).take n ∧
      s'.rest = s.rest.drop (a + n) := by
  have hlen := s.remaining_add
  have hrange : 0 ≤ ((s.pos + a : Nat) : Int) ∧ ((s.pos + a : Nat) : Int) ≤ (s.pos + a + n : Nat) ∧
      ((s.pos + a + n : Nat) : Int) ≤ s.data.1.length := by
    omega
  refine ⟨_, _, dif_pos hrange, ?_, ?_⟩
  all_goals
    simp only [rest, drop_drop, Int.toNat_natCast]
    congr 1
    omega

theorem index_of_rest {b : UInt8} (h : s.rest[a]? = some b) : s.index (s.pos + a : Nat) = .ok b := by
  rw [rest, getElem?_drop] at h
  simp only [index, Int.natCast_nonneg, if_true, Int.toNat_natCast, h]

theorem peekLength_eq {b : UInt8} {tail : Bytes} (hrest : s.rest = b :: tail) (hn : 0 < n) :
    s.peekLength n = (ofExcept (Rlp.peekLength n tail)).mapError .item := by
  have hlength : s.remaining = tail.length + 1 := by rw [← length_rest, hrest, length_cons]
  rw [peekLength, Rlp.peekLength]
  split
  · rfl
  by_cases heof : tail.length < n
  · rw [if_pos (by omega), if_pos heof]
    rfl
  · have hle := s.remaining_le
    obtain ⟨raw, s', hcut, hraw, -⟩ := s.cut_of_le (a := 1) (n := n) (by omega)
    have hstart : addInt s.pos 1 = (s.pos + 1 : Nat) := addInt_of_le (b := 1) (by omega)
    have hstop : addInt (addInt s.pos 1) n = (s.pos + 1 + n : Nat) := by
      rw [hstart]
      exact addInt_of_le (by omega)
    rw [if_neg (by omega), if_neg heof, hstop, hstart, hcut]
    have htake : raw.1 = tail.take n := by rw [hraw, hrest, drop_one, tail_cons]
    have hne : tail.take n ≠ [] := by
      intro hnil
      have := congrArg length hnil
      rw [length_take, length_nil] at this
      omega
    obtain ⟨first, others, hcons⟩ := exists_cons_of_ne_nil hne
    simp only [bind, Outcome.bind, htake, hcons, head?_cons, Option.some.injEq]
    split
    · rfl
    split
    · rfl
    split <;> rfl

/-- The header is read from what is left, without a slice out of range. -/
theorem kind_eq : s.kind = (ofExcept (Rlp.kind s.rest)).mapError .item := by
  cases hrest : s.rest with
  | nil =>
    rw [kind, if_pos (s.empty_iff.mpr hrest)]
    rfl
  | cons b tail =>
    have hne : ¬ s.empty = true := by
      rw [s.empty_iff, hrest]
      exact cons_ne_nil b tail
    have hindex : s.index s.pos = .ok b := s.index_of_rest (a := 0) (by rw [hrest]; rfl)
    rw [kind, if_neg hne, hindex]
    simp only [bind, Outcome.bind, Rlp.kind]
    split
    · rfl
    split
    · rfl
    split
    · rename_i hlow hshort hlong
      have hpos : 0 < (b - 0xB7).toNat := by
        simp only [UInt8.lt_iff_toNat_lt, UInt8.toNat_sub] at hlow hshort hlong ⊢
        simp only [UInt8.toNat_ofNat] at hlow hshort hlong ⊢
        omega
      rw [s.peekLength_eq hrest hpos]
      cases Rlp.peekLength (b - 0xB7).toNat tail <;> rfl
    split
    · rfl
    · rename_i hlow hshort hlong hlist
      have hpos : 0 < (b - 0xF7).toNat := by
        simp only [UInt8.lt_iff_toNat_lt, UInt8.toNat_sub] at hlow hshort hlong hlist ⊢
        have := b.toNat_lt
        simp only [UInt8.toNat_ofNat] at hlow hshort hlong hlist ⊢
        omega
      rw [s.peekLength_eq hrest hpos]
      cases Rlp.peekLength (b - 0xF7).toNat tail <;> rfl

theorem kind_of_error (h : Rlp.kind s.rest = .error e) : s.kind = .error (.item e) := by
  rw [kind_eq, h]
  rfl

theorem kind_of_ok (h : Rlp.kind s.rest = .ok (k, size)) : s.kind = .ok (k, size) := by
  rw [kind_eq, h]
  rfl

theorem remaining_pos_of_kind (h : Rlp.kind s.rest = .ok (k, size)) : 0 < s.remaining := by
  rw [← length_rest]
  cases hrest : s.rest with
  | nil =>
    rw [hrest] at h
    cases h
  | cons b tail => exact Nat.succ_pos _

theorem cut_content (hfit : headerSize k size + size ≤ s.remaining) :
    ∃ b s', s.cut (addInt s.pos (headerSize k size)) (addInt (addInt s.pos (headerSize k size)) size) = .ok (b, s') ∧
      b.1 = (s.rest.drop (headerSize k size)).take size ∧ s'.rest = s.rest.drop (headerSize k size + size) := by
  have hmax := s.remaining_le
  have hstart : addInt s.pos (headerSize k size) = (s.pos + headerSize k size : Nat) := addInt_of_le (by omega)
  have hstop : addInt (addInt s.pos (headerSize k size)) size = (s.pos + headerSize k size + size : Nat) := by
    rw [hstart]
    exact addInt_of_le (by omega)
  rw [hstop, hstart]
  exact s.cut_of_le hfit

theorem addUint_headerSize (h : size ≤ maxInt) : addUint (headerSize k size) size = headerSize k size + size := by
  have hheader := headerSize_le (k := k) h
  rw [addUint, Nat.mod_eq_of_lt]
  unfold maxInt at h
  omega

/-- A read from the stream does what the read from the bytes that are left does, and moves on. -/
inductive ReadsAs {α : Type} (content : α → Bytes) :
    Outcome StreamError (α × Stream) → Except DecodeError (Bytes × Bytes) → Prop
  | error (e : DecodeError) : ReadsAs content (.error (.item e)) (.error e)
  | ok {c : α} {s' : Stream} {b r : Bytes} (hc : content c = b) (hrest : s'.rest = r) (hlt : r.length < s.remaining) :
      ReadsAs content (.ok (c, s')) (.ok (b, r))

namespace ReadsAs

variable {s} {α : Type} {content : α → Bytes} {outcome : Outcome StreamError (α × Stream)}
  {read : Except DecodeError (Bytes × Bytes)} (h : s.ReadsAs content outcome read)

include h

theorem of_error (hread : read = .error e) : outcome = .error (.item e) := by
  subst hread
  cases h
  rfl

theorem of_ok (hread : read = .ok (b, r)) :
    ∃ c s', outcome = .ok (c, s') ∧ content c = b ∧ s'.rest = r ∧ r.length < s.remaining := by
  subst hread
  cases h with
  | ok hc hrest hlt => exact ⟨_, _, rfl, hc, hrest, hlt⟩

theorem read_eq {c : α} {s' : Stream} (ho : outcome = .ok (c, s')) : read = .ok (content c, s'.rest) := by
  subst ho
  cases h with
  | ok hc hrest _ => rw [hc, hrest]

end ReadsAs

theorem length_drop_lt (hpos : 0 < n) (hle : n ≤ s.remaining) : (s.rest.drop n).length < s.remaining := by
  rw [length_drop, length_rest]
  omega

theorem headerSize_pos (size : Nat) (hk : k ≠ .byte) : 0 < headerSize k size := by
  cases k with
  | byte => exact absurd rfl hk
  | string | list =>
    simp only [headerSize]
    split <;> omega

theorem bytes_readsAs : s.ReadsAs Subtype.val s.bytes (readBytes s.rest) := by
  rw [readBytes, bytes]
  cases hkind : Rlp.kind s.rest with
  | error e =>
    rw [s.kind_of_error hkind, error_bind]
    exact .error e
  | ok header =>
    obtain ⟨k, size⟩ := header
    have hle := kind_le hkind
    have hpos := s.remaining_pos_of_kind hkind
    have hmax := s.remaining_le
    rw [s.kind_of_ok hkind, ok_bind]
    cases k with
    | list => exact .error _
    | byte =>
      obtain ⟨c, s', hcut, hc, hs'⟩ := s.cut_of_le (a := 0) (n := 1) (by omega)
      have hone : s.cut s.pos (addInt s.pos 1) = .ok (c, s') := by
        rw [← hcut]
        exact congrArg (s.cut s.pos) (addInt_of_le (b := 1) (by omega))
      simp only [hone]
      exact .ok hc hs' (s.length_drop_lt one_pos hpos)
    | string =>
      simp only [length_rest, addUint_headerSize hle]
      split
      · exact .error _
      rename_i hshort
      obtain ⟨c, s', hcut, hc, hs'⟩ := s.cut_content (not_lt.mp hshort)
      have hrest := s.length_drop_lt (Nat.add_pos_left (headerSize_pos size (k := .string) (by decide)) size)
        (not_lt.mp hshort)
      by_cases hone : size = 1
      · subst hone
        have hlt : headerSize .string 1 < s.rest.length := by
          rw [length_rest]
          omega
        have hstart : addInt s.pos (headerSize .string 1) = (s.pos + headerSize .string 1 : Nat) :=
          addInt_of_le (by omega)
        rw [if_pos rfl, hstart, s.index_of_rest (getElem?_eq_getElem hlt), ok_bind,
          drop_eq_getElem_cons hlt, take_succ_cons, take_zero]
        -- a single byte below 0x80 stands for itself
        by_cases hlow : s.rest[headerSize .string 1] < 0x80
        · rw [if_pos hlow, if_pos (show isByte [_] = true from decide_eq_true hlow)]
          exact .error _
        · rw [hstart] at hcut
          rw [if_neg hlow, if_neg (show ¬ isByte [_] = true from fun h => hlow (of_decide_eq_true h)), hcut]
          rw [drop_eq_getElem_cons hlt, take_succ_cons, take_zero] at hc
          exact .ok hc hs' hrest
      · have hmany : ¬ isByte ((s.rest.drop (headerSize .string size)).take size) = true := by
          generalize hitem : (s.rest.drop (headerSize .string size)).take size = item
          intro hbyte
          rcases item with - | ⟨x, - | ⟨y, rest⟩⟩
          · cases hbyte
          · have hlength := congrArg length hitem
            rw [length_take, length_drop, length_rest, length_singleton] at hlength
            omega
          · cases hbyte
        rw [if_neg hone, if_neg hmany, hcut]
        exact .ok hc hs' hrest

theorem list_readsAs : s.ReadsAs rest s.list (readList s.rest) := by
  rw [readList, list]
  cases hkind : Rlp.kind s.rest with
  | error e =>
    rw [s.kind_of_error hkind, error_bind]
    exact .error e
  | ok header =>
    obtain ⟨k, size⟩ := header
    rw [s.kind_of_ok hkind, ok_bind]
    cases k with
    | byte | string => exact .error _
    | list =>
      simp only [length_rest, addUint_headerSize (kind_le hkind), ne_eq, not_true_eq_false, if_false]
      by_cases hshort : s.remaining < headerSize .list size + size
      · rw [if_pos hshort, if_pos hshort]
        exact .error _
      · obtain ⟨c, s', hcut, hc, hs'⟩ := s.cut_content (not_lt.mp hshort)
        rw [if_neg hshort, if_neg hshort, hcut, ok_bind]
        exact .ok hc hs' (s.length_drop_lt
          (Nat.add_pos_left (headerSize_pos size (k := .list) (by decide)) size) (not_lt.mp hshort))

/-- The sum that `Raw` forms is negative exactly if the item is overlong. -/
theorem addInt_headerSize (h : size ≤ maxInt) :
    addInt (headerSize k size) size =
      if maxInt < headerSize k size + size then ((headerSize k size + size : Nat) : Int) - 2 ^ 64
      else ((headerSize k size + size : Nat) : Int) := by
  have hheader := headerSize_le (k := k) h
  split
  · rename_i hlong
    unfold maxInt at h hlong
    rw [addInt, Int.bmod_def]
    omega
  · rename_i hshort
    exact addInt_of_le (by omega)

theorem total_eq (h : size ≤ maxInt) (hfit : headerSize k size + size ≤ maxInt) :
    (if k = .byte then 1 else addInt (headerSize k size) size) =
      ((if k = .byte then 1 else headerSize k size + size : Nat) : Int) := by
  rw [addInt_headerSize h, if_neg (not_lt.mpr hfit)]
  split <;> rfl

theorem total_pos (k : Kind) (size : Nat) : 0 < if k = .byte then 1 else headerSize k size + size := by
  split
  · exact Nat.one_pos
  · rename_i hbyte
    exact Nat.add_pos_left (headerSize_pos size hbyte) size

/-- `Raw` on an item that is not overlong reads what `readRaw` reads. -/
theorem raw_readsAs (hlong : overlong s.rest = false) : s.ReadsAs Subtype.val s.raw (readRaw s.rest) := by
  rw [overlong] at hlong
  rw [readRaw, raw]
  cases hkind : Rlp.kind s.rest with
  | error e =>
    rw [s.kind_of_error hkind, error_bind]
    exact .error e
  | ok header =>
    obtain ⟨k, size⟩ := header
    rw [hkind] at hlong
    have hfit : ¬ maxInt < headerSize k size + size := by simpa using hlong
    have hpos := total_pos k size
    simp only [s.kind_of_ok hkind, ok_bind, total_eq (kind_le hkind) (not_lt.mp hfit), length_rest]
    generalize (if k = .byte then 1 else headerSize k size + size) = total at hpos ⊢
    by_cases hshort : s.remaining < total
    · rw [if_pos (Int.ofNat_lt.mpr hshort), if_pos hshort]
      exact .error _
    · have hmax := s.remaining_le
      obtain ⟨c, s', hcut, hc, hs'⟩ := s.cut_of_le (a := 0) (n := total) (by omega)
      have hraw : s.cut s.pos (s.pos + total : Nat) = .ok (c, s') := hcut
      rw [if_neg (by omega), if_neg hshort, addInt_of_le (by omega), hraw]
      rw [Nat.zero_add] at hs'
      exact .ok hc hs' (s.length_drop_lt hpos (not_lt.mp hshort))

theorem raw_of_overlong (hlong : overlong s.rest = true) : s.raw = .panic := by
  rw [overlong] at hlong
  cases hkind : Rlp.kind s.rest with
  | error e =>
    rw [hkind] at hlong
    cases hlong
  | ok header =>
    obtain ⟨k, size⟩ := header
    have hle := kind_le hkind
    have hheader := headerSize_le (k := k) hle
    rw [hkind] at hlong
    have hover : maxInt < headerSize k size + size := by simpa using hlong
    have hbyte : k ≠ .byte := by
      rintro rfl
      simp only [headerSize] at hover
      omega
    have hmax := s.remaining_le
    rw [raw, s.kind_of_ok hkind, ok_bind]
    simp only [addInt_headerSize hle, if_pos hover, if_neg hbyte]
    unfold maxInt at hle hmax hover
    rw [if_neg (by omega)]
    -- the end of the slice lies before its start
    have hstop : addInt s.pos (((headerSize k size + size : Nat) : Int) - 2 ^ 64) < s.pos := by
      rw [addInt, Int.bmod_def]
      omega
    exact dif_neg fun hrange => by omega

end Stream

end PadiChain.Rlp

import PadiChain.RlpStream

/-! Decoding comes back with a value or an error. Every read leaves the cursor at the start of the next
item, so a loop over the elements of a list ends. The one read that can slice out of range is `Raw`, at an
item whose length does not fit an `int` together with its header; a target that has no use for `Raw` is
decoded without a crash from any input, and `Split` crashes exactly at such an element. -/

namespace PadiChain.Rlp

open Outcome Stream

/-- `next` starts right behind the first item of `data`. -/
def Next (data next : Bytes) : Prop := ∃ item, readRaw data = .ok (item, next)

/-- An item of the input starts at `r`, inside the given number of lists. -/
inductive Starts (data : Bytes) : Nat → Bytes → Prop
  | top : Starts data 0 data
  | inner {n : Nat} {r content behind : Bytes} (h : Starts data n r) (hlist : readList r = .ok (content, behind)) :
      Starts data (n + 1) content
  | next {n : Nat} {r r' : Bytes} (h : Starts data (n + 1) r) (hnext : Next r r') : Starts data (n + 1) r'

/-- No item at the given depth declares a length that does not fit an `int` together with its header. -/
def FitsAt (n : Nat) (data : Bytes) : Prop := ∀ r, Starts data n r → overlong r = false

variable {data next content r r' r'' : Bytes} {target : Target} {s : Stream}

theorem length_lt_of_next (h : Next data next) : next.length < data.length := by
  obtain ⟨item, h⟩ := h
  rw [readRaw] at h
  split at h
  · cases h
  · rename_i k size hkind
    have hpos := total_pos k size
    simp only at h
    generalize (if k = .byte then 1 else headerSize k size + size) = total at h hpos
    split at h
    · cases h
    · cases h
      rw [List.length_drop]
      omega

theorem next_of_readBytes {b : Bytes} (h : readBytes data = .ok (b, next)) : Next data next := by
  rw [readBytes] at h
  rw [Next, readRaw]
  split at h
  · cases h
  · cases h
  · rename_i hkind
    cases h
    rw [hkind]
    cases data with
    | nil => cases hkind
    | cons x tail => exact ⟨[x], rfl⟩
  · rename_i hkind
    dsimp only at h
    split at h
    · cases h
    rename_i hfit
    split at h
    · cases h
    cases h
    rw [hkind]
    exact ⟨_, if_neg hfit⟩

theorem next_of_readList (h : readList data = .ok (content, next)) : Next data next := by
  rw [readList] at h
  rw [Next, readRaw]
  split at h
  · cases h
  · rename_i hkind
    dsimp only at h
    split_ifs at h with hfit
    cases h
    rw [hkind]
    exact ⟨_, if_neg hfit⟩
  · cases h

theorem overlong_of_kind {k : Kind} {size : Nat} (h : kind data = .ok (k, size)) (hsize : size = 0) :
    overlong data = false := by
  have hheader := headerSize_le (k := k) (Nat.zero_le maxInt)
  subst hsize
  rw [overlong, h]
  refine decide_eq_false ?_
  unfold maxInt
  omega

/-! ### One read -/

namespace Stream

variable (s : Stream)

theorem returns_kind : s.kind.Returns := by
  rw [s.kind_eq, returns_mapError]
  exact returns_ofExcept

theorem ReadsAs.returns {s : Stream} {α : Type} {content : α → Bytes} {outcome : Outcome StreamError (α × Stream)}
    {read : Except DecodeError (Bytes × Bytes)} (h : s.ReadsAs content outcome read) : outcome.Returns := by
  cases h with
  | error e => exact returns_error
  | ok _ _ _ => exact returns_ok

theorem returns_bytes : s.bytes.Returns := s.bytes_readsAs.returns

theorem returns_list : s.list.Returns := s.list_readsAs.returns

theorem returns_raw : s.raw.Returns ↔ overlong s.rest = false := by
  cases hlong : overlong s.rest with
  | true =>
    rw [s.raw_of_overlong hlong]
    exact iff_of_false id (by decide)
  | false => exact iff_of_true (s.raw_readsAs hlong).returns rfl

variable {s}

variable {c : Slice} {s' inner : Stream} {n : Nat}

theorem next_of_bytes (h : s.bytes = .ok (c, s')) : Next s.rest s'.rest :=
  next_of_readBytes (s.bytes_readsAs.read_eq h)

theorem next_of_list (h : s.list = .ok (inner, s')) : Next s.rest s'.rest :=
  next_of_readList (s.list_readsAs.read_eq h)

theorem next_of_raw (h : s.raw = .ok (c, s')) : Next s.rest s'.rest := by
  have hlong : overlong s.rest = false := by
    rw [← s.returns_raw, h]
    exact returns_ok
  exact ⟨_, (s.raw_readsAs hlong).read_eq h⟩

theorem next_of_uint (h : s.uint = .ok (n, s')) : Next s.rest s'.rest := by
  obtain ⟨p, hbytes, h⟩ := bind_eq_ok.mp h
  dsimp only at h
  split at h
  · cases h
  split at h
  · cases h
  · cases h
    exact next_of_bytes hbytes

theorem next_of_bigInt (h : s.bigInt = .ok (n, s')) : Next s.rest s'.rest := by
  obtain ⟨p, hbytes, h⟩ := bind_eq_ok.mp h
  dsimp only at h
  split at h
  · cases h
  · cases h
    exact next_of_bytes hbytes

theorem next_of_transaction (h : s.transaction = .ok (c, s')) : Next s.rest s'.rest := by
  obtain ⟨header, -, h⟩ := bind_eq_ok.mp h
  dsimp only at h
  split at h
  · exact next_of_raw h
  · exact next_of_bytes h

theorem remaining_lt_of_next (h : Next s.rest s'.rest) : s'.remaining < s.remaining := by
  rw [← length_rest, ← length_rest]
  exact length_lt_of_next h

theorem not_empty_of_next (h : Next s.rest s'.rest) : ¬ s.empty = true := by
  rw [empty, beq_iff_eq]
  have := remaining_lt_of_next h
  omega

variable (s)

theorem returns_uint : s.uint.Returns := by
  refine returns_bind.mpr ⟨s.returns_bytes, fun p _ => ?_⟩
  dsimp only
  split
  · exact returns_error
  split
  · exact returns_error
  · exact returns_pure

theorem returns_bigInt : s.bigInt.Returns := by
  exact returns_bind.mpr ⟨s.returns_bytes, fun p _ => returns_check⟩

end Stream

/-! ### Loops over elements -/

section Elements

variable {decode : Stream → Outcome StreamError (Value × Stream)}

/-- A loop ends without a crash if each of its steps does: the steps move on from item to item. -/
theorem returns_decodeElems {P : Bytes → Prop} (hdecode : ∀ s : Stream, P s.rest → (decode s).Returns)
    (hnext : ∀ (s s' : Stream) v, decode s = .ok (v, s') → Next s.rest s'.rest)
    (hP : ∀ r r', P r → Next r r' → P r') :
    ∀ (fuel : Nat) (s : Stream), s.remaining ≤ fuel → P s.rest → (decodeElems decode fuel s).Returns
  | 0, s, hfuel, _ => by
    have hempty : s.empty = true := by
      rw [empty, beq_iff_eq]
      omega
    rw [decodeElems, if_pos hempty]
    exact returns_pure
  | fuel + 1, s, hfuel, hs => by
    rw [decodeElems]
    split
    · exact returns_pure
    refine returns_bind.mpr ⟨hdecode s hs, ?_⟩
    rintro ⟨v, s'⟩ hok
    have hmove := hnext s s' v hok
    have hlt := remaining_lt_of_next hmove
    refine returns_bind.mpr ⟨?_, fun vs _ => returns_pure⟩
    exact returns_decodeElems hdecode hnext hP fuel s' (by omega) (hP _ _ hs hmove)

theorem returns_decodeArray (hdecode : ∀ s : Stream, (decode s).Returns) :
    ∀ (length : Nat) (s : Stream), (decodeArray decode length s).Returns
  | 0, s => by
    rw [decodeArray]
    split
    · exact returns_pure
    · exact returns_error
  | length + 1, s => by
    rw [decodeArray]
    split
    · exact returns_error
    refine returns_bind.mpr ⟨hdecode s, fun p _ => ?_⟩
    exact returns_bind.mpr ⟨returns_decodeArray hdecode length p.2, fun vs _ => returns_pure⟩

theorem returns_decodeWith (hdecode : ∀ s : Stream, (decode s).Returns) (data : Slice) :
    (decodeWith decode data).Returns := by
  exact returns_bind.mpr ⟨hdecode _, fun p _ => returns_check⟩

theorem returns_unmarshalBinary {legacy dynamicFee : Stream → Outcome StreamError (Value × Stream)}
    (hlegacy : ∀ s : Stream, (legacy s).Returns) (hdynamic : ∀ s : Stream, (dynamicFee s).Returns) (b : Slice) :
    (unmarshalBinary legacy dynamicFee b).Returns := by
  rw [unmarshalBinary]
  split
  · exact returns_error
  split
  · exact returns_decodeWith hlegacy b
  split
  · exact returns_decodeWith hdynamic _
  · exact returns_error

end Elements

/-! ### Targets that have no use for raw items -/

mutual

/-- No part of the target is decoded by `Raw`. -/
def Target.rawFree : Target → Bool
  | .raw => false
  | .transaction _ _ => false
  | .struct fields => fields.rawFree
  | .slice elem => elem.rawFree
  | .array _ elem => elem.rawFree
  | .bigInt | .string | .bool | .uint _ | .bytes | .fixed _ | .unsupported => true

def Fields.rawFree : Fields → Bool
  | .nil => true
  | .cons _ _ _ target more => target.rawFree && more.rawFree

end

theorem next_of_decodeValue {s' : Stream} {v : Value}
    (h : decodeValue target s = .ok (v, s')) : Next s.rest s'.rest := by
  cases target with
  | raw =>
    obtain ⟨p, hraw, hp⟩ := bind_eq_ok.mp h
    cases hp
    exact next_of_raw hraw
  | transaction legacy dynamicFee =>
    obtain ⟨p, hread, h⟩ := bind_eq_ok.mp h
    obtain ⟨v', -, hp⟩ := bind_eq_ok.mp h
    cases hp
    exact next_of_transaction hread
  | bigInt =>
    obtain ⟨p, hbig, hp⟩ := bind_eq_ok.mp h
    cases hp
    exact next_of_bigInt hbig
  | struct fields =>
    obtain ⟨p, hlist, h⟩ := bind_eq_ok.mp h
    obtain ⟨q, -, h⟩ := bind_eq_ok.mp h
    dsimp only at h
    split at h
    · cases h
      exact next_of_list hlist
    · cases h
  | string | bytes =>
    obtain ⟨p, hbytes, hp⟩ := bind_eq_ok.mp h
    cases hp
    exact next_of_bytes hbytes
  | bool | uint bits =>
    obtain ⟨p, huint, h⟩ := bind_eq_ok.mp h
    dsimp only at h
    split at h
    · cases h
    · cases h
      exact next_of_uint huint
  | slice elem | array length elem =>
    obtain ⟨p, hlist, h⟩ := bind_eq_ok.mp h
    obtain ⟨q, -, hp⟩ := bind_eq_ok.mp h
    cases hp
    exact next_of_list hlist
  | fixed length =>
    obtain ⟨p, hbytes, h⟩ := bind_eq_ok.mp h
    dsimp only at h
    split at h
    · cases h
    · cases h
      exact next_of_bytes hbytes
  | unsupported => cases h

theorem returns_decodeField (nilOK : Bool) {decode : Stream → Outcome StreamError (Value × Stream)}
    (hdecode : ∀ s : Stream, (decode s).Returns) (s : Stream) : (decodeField nilOK decode s).Returns := by
  rw [decodeField]
  split
  · refine returns_bind.mpr ⟨s.returns_kind, ?_⟩
    rintro ⟨kind, size⟩ hkind
    dsimp only
    split
    · rename_i hzero
      rw [s.kind_eq, mapError_eq_ok, ofExcept_eq_ok] at hkind
      have hraw := s.returns_raw.mpr (overlong_of_kind hkind hzero.1)
      exact returns_bind.mpr ⟨hraw, fun p _ => returns_pure⟩
    · exact hdecode s
  · exact hdecode s

theorem returns_decodeFields_cons {name : String} {optional nilOK : Bool} {more : Fields}
    (hfirst : (decodeField nilOK (decodeValue target) s).Returns)
    (hend : optional = true → s.empty = true → (decodeFields more s).Returns)
    (hmore : ∀ v s', decodeField nilOK (decodeValue target) s = .ok (v, s') → (decodeFields more s').Returns) :
    (decodeFields (.cons name optional nilOK target more) s).Returns := by
  rw [decodeFields]
  split
  · rename_i hempty
    split
    · rename_i hoptional
      exact returns_bind.mpr ⟨hend hoptional hempty, fun p _ => returns_pure⟩
    · exact returns_error
  refine returns_bind.mpr ⟨returns_mapError.mpr hfirst, ?_⟩
  rintro ⟨v, s'⟩ hok
  have htail := hmore v s' (mapError_eq_ok.mp hok)
  exact returns_bind.mpr ⟨htail, fun q _ => returns_pure⟩

mutual

/-- A target without raw items is decoded from any input without a crash. -/
theorem returns_decodeValue : ∀ (target : Target) (s : Stream), target.rawFree = true → (decodeValue target s).Returns
  | .raw, _, hfree => by cases hfree
  | .transaction _ _, _, hfree => by cases hfree
  | .bigInt, s, _ => by
    exact returns_bind.mpr ⟨s.returns_bigInt, fun p _ => returns_pure⟩
  | .struct fields, s, hfree => by
    refine returns_bind.mpr ⟨s.returns_list, fun p _ => ?_⟩
    refine returns_bind.mpr ⟨returns_decodeFields fields p.1 hfree, fun q _ => ?_⟩
    dsimp only
    split
    · exact returns_pure
    · exact returns_error
  | .string, s, _ => by
    exact returns_bind.mpr ⟨s.returns_bytes, fun p _ => returns_pure⟩
  | .bool, s, _ => by
    exact returns_bind.mpr ⟨s.returns_uint, fun p _ => returns_check⟩
  | .uint _, s, _ => by
    exact returns_bind.mpr ⟨s.returns_uint, fun p _ => returns_check⟩
  | .bytes, s, _ => by
    exact returns_bind.mpr ⟨s.returns_bytes, fun p _ => returns_pure⟩
  | .slice elem, s, hfree => by
    refine returns_bind.mpr ⟨s.returns_list, fun p _ => ?_⟩
    refine returns_bind.mpr ⟨?_, fun vs _ => returns_pure⟩
    exact returns_decodeElems (P := fun _ => True) (fun s _ => returns_decodeValue elem s hfree)
      (fun _ _ _ h => next_of_decodeValue h) (fun _ _ _ _ => trivial) _ _ le_rfl trivial
  | .fixed _, s, _ => by
    exact returns_bind.mpr ⟨s.returns_bytes, fun p _ => returns_check⟩
  | .array length elem, s, hfree => by
    refine returns_bind.mpr ⟨s.returns_list, fun p _ => ?_⟩
    refine returns_bind.mpr ⟨?_, fun vs _ => returns_pure⟩
    exact returns_decodeArray (fun s => returns_decodeValue elem s hfree) length _
  | .unsupported, _, _ => by
    exact returns_error

theorem returns_decodeFields : ∀ (fields : Fields) (s : Stream), fields.rawFree = true →
    (decodeFields fields s).Returns
  | .nil, s, _ => by
    exact returns_pure
  | .cons name optional nilOK target more, s, hfree => by
    rw [Fields.rawFree, Bool.and_eq_true] at hfree
    have hfirst := returns_decodeField nilOK (fun s => returns_decodeValue target s hfree.1) s
    exact returns_decodeFields_cons hfirst (fun _ _ => returns_decodeFields more s hfree.2)
      fun _ s' _ => returns_decodeFields more s' hfree.2

end

/-- A transaction is decoded without a crash unless it is an overlong list. -/
theorem returns_decodeValue_transaction {legacy dynamicFee : Target} (hlegacy : legacy.rawFree = true)
    (hdynamic : dynamicFee.rawFree = true) (hlong : overlong s.rest = false) :
    (decodeValue (.transaction legacy dynamicFee) s).Returns := by
  have hread : s.transaction.Returns := by
    refine returns_bind.mpr ⟨s.returns_kind, fun header _ => ?_⟩
    dsimp only
    split
    · exact s.returns_raw.mpr hlong
    · exact s.returns_bytes
  refine returns_bind.mpr ⟨hread, fun p _ => ?_⟩
  refine returns_bind.mpr ⟨?_, fun v _ => returns_pure⟩
  exact returns_unmarshalBinary (fun s => returns_decodeValue legacy s hlegacy)
    (fun s => returns_decodeValue dynamicFee s hdynamic) p.1

/-! ### Splitting a list -/

/-- The items from one on. -/
inductive Follows (r : Bytes) : Bytes → Prop
  | refl : Follows r r
  | next {r' r'' : Bytes} (h : Follows r r') (hnext : Next r' r'') : Follows r r''

theorem Follows.head (hnext : Next r r') (h : Follows r' r'') : Follows r r'' := by
  induction h with
  | refl => exact .next .refl hnext
  | next _ hstep ih => exact .next ih hstep

theorem Follows.cases_head (h : Follows r r'') : r'' = r ∨ ∃ r', Next r r' ∧ Follows r' r'' := by
  induction h with
  | refl => exact .inl rfl
  | next _ hstep ih =>
    obtain rfl | ⟨r', hfirst, hrest⟩ := ih
    · exact .inr ⟨_, hstep, .refl⟩
    · exact .inr ⟨r', hfirst, .next hrest hstep⟩

theorem overlong_nil : overlong [] = false := rfl

theorem follows_nil (h : Follows [] r) : r = [] := by
  obtain hr | ⟨r', ⟨item, hnext⟩, -⟩ := h.cases_head
  · exact hr
  · cases hnext

theorem returns_splitElems : ∀ (fuel : Nat) (s : Stream), s.remaining ≤ fuel →
    ((splitElems fuel s).Returns ↔ ∀ r, Follows s.rest r → overlong r = false)
  | fuel, s, hfuel => by
    by_cases hempty : s.empty = true
    · have hnil := s.empty_iff.mp hempty
      refine iff_of_true ?_ fun r hr => ?_
      · cases fuel with
        | zero | succ fuel =>
          rw [splitElems, if_pos hempty]
          exact returns_pure
      · rw [hnil] at hr
        rw [follows_nil hr]
        exact overlong_nil
    match fuel, hfuel with
    | 0, hfuel =>
      refine absurd ?_ hempty
      rw [empty, beq_iff_eq]
      omega
    | fuel + 1, hfuel =>
      rw [splitElems, if_neg hempty, returns_bind, s.returns_raw]
      constructor
      · rintro ⟨hlong, hrest⟩ r hr
        obtain rfl | ⟨r', hnext, hr⟩ := hr.cases_head
        · exact hlong
        obtain ⟨item, hread⟩ := hnext
        obtain ⟨c, s', hraw, -, hs', -⟩ := (s.raw_readsAs hlong).of_ok hread
        have hlt := remaining_lt_of_next (next_of_raw hraw)
        have htail := (returns_bind.mp (hrest _ hraw)).1
        rw [← hs'] at hr
        exact (returns_splitElems fuel s' (by omega)).mp htail r hr
      · intro hall
        refine ⟨hall _ .refl, ?_⟩
        rintro ⟨c, s'⟩ hraw
        have hnext := next_of_raw hraw
        have hlt := remaining_lt_of_next hnext
        refine returns_bind.mpr ⟨?_, fun items _ => returns_pure⟩
        exact (returns_splitElems fuel s' (by omega)).mpr fun r hr => hall r (.head hnext hr)

theorem starts_of_follows {n : Nat} (h : Starts data (n + 1) r) (hr : Follows r r') : Starts data (n + 1) r' := by
  induction hr with
  | refl => exact h
  | next _ hnext ih => exact .next ih hnext

theorem starts_one {behind : Bytes} (hlist : readList data = .ok (content, behind))
    (h : Starts data 1 r) : Follows content r := by
  generalize hn : 1 = n at h
  induction h with
  | top => cases hn
  | inner h hlist' _ =>
    cases hn
    cases h
    rw [hlist] at hlist'
    cases hlist'
    exact .refl
  | next _ hnext ih => exact .next (ih hn) hnext

theorem not_starts_one {e : DecodeError} (hlist : readList data = .error e) : ¬ Starts data 1 r := by
  intro h
  generalize hn : 1 = n at h
  induction h with
  | top => cases hn
  | inner h hlist' _ =>
    cases hn
    cases h
    rw [hlist] at hlist'
    cases hlist'
  | next _ _ ih => exact ih hn

/-- `Split` crashes at an overlong element of the list, and only there. -/
theorem returns_split (data : Slice) : (split data).Returns ↔ FitsAt 1 data.1 := by
  rw [split, returns_bind]
  cases hread : readList data.1 with
  | error e =>
    have herr := (new data).list_readsAs.of_error hread
    refine iff_of_true ⟨returns_list _, fun p hp => ?_⟩ fun r hr => absurd hr (not_starts_one hread)
    rw [herr] at hp
    cases hp
  | ok p =>
    obtain ⟨inner, s', hok, hinner, -⟩ := (new data).list_readsAs.of_ok hread
    have hfollows : (∀ r, Follows inner.rest r → overlong r = false) ↔ FitsAt 1 data.1 := by
      rw [hinner]
      exact ⟨fun h r hr => h r (starts_one hread hr),
        fun h r hr => h r (starts_of_follows (.inner .top hread) hr)⟩
    rw [← hfollows, ← returns_splitElems inner.remaining inner le_rfl]
    constructor
    · rintro ⟨-, h⟩
      exact h _ hok
    · intro h
      refine ⟨returns_list _, fun p hp => ?_⟩
      rw [hok] at hp
      cases hp
      exact h

end PadiChain.Rlp

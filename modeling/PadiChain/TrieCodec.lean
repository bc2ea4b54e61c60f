import PadiChain.LibPatricia
import PadiChain.RlpSplit
import PadiChain.TrieCommit

/-! The encoding of trie nodes. A path is packed two digits to a byte behind a flag digit, a child is
referred to by its hash, or spliced in where its encoding is short. A node whose children are in reference
form is read back from its encoding. -/

namespace PadiChain.Trie

open Rlp Patricia Outcome List

/-! ### Paths -/

/-- Two digits to a byte. -/
def packNibbles : List Nibble → Bytes
  | a :: b :: rest => (UInt8.ofNat a <<< 4 ||| UInt8.ofNat b) :: packNibbles rest
  | _ => []

/-- `hexPrefixEncode`, once the terminator is cut off. An odd digit shares the byte of the flags. -/
def packPath (terminator : UInt8) (digits : List Nibble) : Bytes :=
  if digits.length % 2 = 1 then
    match digits with
    | [] => []
    | d :: rest => ((2 * terminator + 1) <<< 4 ||| UInt8.ofNat d) :: packNibbles rest
  else ((2 * terminator) <<< 4) :: packNibbles digits

def hexPrefixEncode (nibbles : List Nibble) : Bytes :=
  if nibbles.getLast? = some 16 then packPath 1 nibbles.dropLast else packPath 0 nibbles

inductive DecodeFailure where
  | emptyEncoding
  | split (e : StreamError)
  | items (n : Nat)
  | path (e : StreamError)
  | emptyPath
  | pathFlags (flags : UInt8)
  | leafValue (e : StreamError)
  | branchValue (e : StreamError)
  | kind (e : StreamError)
  | reference (e : StreamError)
  | oversizedInline (n : Nat)
  | referenceLength (n : Nat)
  deriving DecidableEq

def digit (b : UInt8) : Nibble := Fin.ofNat 17 b.toNat

def unpack (b : UInt8) : List Nibble := [digit (b >>> 4), digit (b &&& 0x0f)]

def hexPrefixDecode : Bytes → Except DecodeFailure (List Nibble)
  | [] => .error .emptyPath
  | b :: rest =>
    let flags := b >>> 4
    if 3 < flags then .error (.pathFlags flags)
    else
      .ok ((if flags &&& 1 ≠ 0 then [digit (b &&& 0x0f)] else []) ++ rest.flatMap unpack ++
        if flags &&& 2 ≠ 0 then [16] else [])

theorem unpack_pack : ∀ a b : Nibble, a ≠ 16 → b ≠ 16 → unpack (UInt8.ofNat a <<< 4 ||| UInt8.ofNat b) = [a, b] := by
  decide

theorem unpack_packNibbles {digits : List Nibble} (heven : digits.length % 2 = 0) (hdigits : (16 : Nibble) ∉ digits) :
    (packNibbles digits).flatMap unpack = digits := by
  induction digits using packNibbles.induct with
  | case1 a b rest ih =>
    rw [mem_cons, mem_cons, not_or, not_or] at hdigits
    rw [packNibbles, flatMap_cons, unpack_pack a b (Ne.symm hdigits.1) (Ne.symm hdigits.2.1),
      ih (by rw [length_cons, length_cons] at heven; omega) hdigits.2.2]
    rfl
  | case2 digits h =>
    match digits, heven with
    | [], _ => rfl
    | a :: b :: rest, _ => exact absurd rfl (h a b rest)

theorem odd_flags : ∀ d : Nibble, d ≠ 16 → ∀ t : Bool,
    let b := (2 * (if t then 1 else 0 : UInt8) + 1) <<< 4 ||| UInt8.ofNat d
    ¬ (3 : UInt8) < b >>> 4 ∧ b >>> 4 &&& 1 ≠ 0 ∧ digit (b &&& 0x0f) = d ∧ (b >>> 4 &&& 2 ≠ 0 ↔ t = true) := by
  decide

theorem even_flags : ∀ t : Bool, let b := (2 * (if t then 1 else 0 : UInt8)) <<< 4
    ¬ (3 : UInt8) < b >>> 4 ∧ ¬ b >>> 4 &&& 1 ≠ 0 ∧ (b >>> 4 &&& 2 ≠ 0 ↔ t = true) := by
  decide

/-- A path without terminator is read back, with the terminator that the flags stand for. -/
theorem hexPrefixDecode_packPath (t : Bool) {digits : List Nibble} (hdigits : (16 : Nibble) ∉ digits) :
    hexPrefixDecode (packPath (if t then 1 else 0) digits) = .ok (digits ++ if t then [16] else []) := by
  unfold packPath
  split
  · rename_i hodd
    match digits, hodd with
    | d :: rest, hodd =>
      rw [mem_cons, not_or] at hdigits
      obtain ⟨hflags, hone, hdigit, htwo⟩ := odd_flags d (Ne.symm hdigits.1) t
      have hrest := unpack_packNibbles (by rw [length_cons] at hodd; omega) hdigits.2
      simp only [hexPrefixDecode, if_neg hflags, if_pos hone, hdigit, hrest, htwo]
      rfl
  · rename_i heven
    obtain ⟨hflags, hone, htwo⟩ := even_flags t
    have hrest := unpack_packNibbles (by omega) hdigits
    simp only [hexPrefixDecode, if_neg hflags, if_neg hone, hrest, htwo, nil_append]

theorem hexPrefixDecode_encode {nibbles : List Nibble} (h : Ends 16 nibbles ∨ (16 : Nibble) ∉ nibbles) :
    hexPrefixDecode (hexPrefixEncode nibbles) = .ok nibbles := by
  rw [hexPrefixEncode]
  obtain ⟨digits, hdigits, rfl⟩ | h := h
  · rw [if_pos getLast?_concat, dropLast_concat]
    exact hexPrefixDecode_packPath true hdigits
  · rw [if_neg fun hlast => h (mem_of_getLast? hlast)]
    exact (hexPrefixDecode_packPath false h).trans (by simp)

theorem length_packNibbles_le (digits : List Nibble) : (packNibbles digits).length ≤ digits.length := by
  induction digits using packNibbles.induct with
  | case1 a b rest ih =>
    rw [packNibbles, length_cons, length_cons, length_cons]
    omega
  | case2 digits h =>
    rw [packNibbles]
    · exact Nat.zero_le _
    · exact h

theorem length_packPath_le (t : UInt8) (digits : List Nibble) : (packPath t digits).length ≤ digits.length + 1 := by
  unfold packPath
  split
  · match digits with
    | [] => exact Nat.zero_le _
    | d :: rest =>
      rw [length_cons, length_cons]
      exact Nat.succ_le_succ ((length_packNibbles_le rest).trans (Nat.le_succ _))
  · rw [length_cons]
    exact Nat.succ_le_succ (length_packNibbles_le _)

theorem length_hexPrefixEncode_le (nibbles : List Nibble) : (hexPrefixEncode nibbles).length ≤ nibbles.length + 1 := by
  rw [hexPrefixEncode]
  split
  · have := length_packPath_le 1 nibbles.dropLast
    rw [length_dropLast] at this
    omega
  · exact length_packPath_le 0 nibbles

/-! ### Nodes -/

section Encode

variable (keccak : Bytes → Hash)

/-- `encodeChild`: a nested node is spliced in where its encoding is short, and else stands for its hash. -/
def asChild (n : TrieNode) (item : Item) : Item :=
  match n with
  | .short _ _ _ | .full _ _ =>
    if item.layout.length < 32 then item else .bytes (hashBytes (keccak item.layout))
  | .nil | .value _ | .hash _ => item

def TrieNode.item : TrieNode → Item
  | .nil => .bytes []
  | .value v => .bytes v
  | .hash h => .bytes (hashBytes h)
  | .short key child _ => .list [.bytes (hexPrefixEncode key), asChild keccak child child.item]
  | .full children _ => .list ((List.finRange 17).map fun i => asChild keccak (children i) (children i).item)

def encodeNode (n : TrieNode) : Bytes := (n.item keccak).layout

end Encode

def readFlags (hash : Option Hash) : NodeFlag := ⟨hash, false, true⟩

/-- `decodeRef`: nothing, a hash, or an inlined node. -/
def decodeRef (decode : Slice → Outcome DecodeFailure TrieNode) (item : Slice) : Outcome DecodeFailure TrieNode :=
  if item.1 = [] then pure .nil
  else do
    let (kind, _) ← (Stream.new item).kind.mapError .kind
    if kind = .list then
      if 32 ≤ item.1.length then .error (.oversizedInline item.1.length) else decode item
    else do
      let b ← (decodeBytes item).mapError .reference
      if b = [] then pure .nil
      else if b.length ≠ 32 then .error (.referenceLength b.length)
      else pure (.hash (bytesToHash b))

/-- `decodeShort`: a path that has the terminator is the path of a leaf. -/
def decodeShort (decode : Slice → Outcome DecodeFailure TrieNode) (hash : Option Hash) (pathItem valueItem : Slice) :
    Outcome DecodeFailure TrieNode := do
  let pathEnc ← (decodeBytes pathItem).mapError .path
  let key ← Outcome.ofExcept (hexPrefixDecode pathEnc)
  if key.getLast? = some 16 then do
    let value ← (decodeBytes valueItem).mapError .leafValue
    pure (.short key (.value value) (readFlags hash))
  else do
    let child ← decodeRef decode valueItem
    pure (.short key child (readFlags hash))

def decodeRefs (decode : Slice → Outcome DecodeFailure TrieNode) : List Slice → Outcome DecodeFailure (List TrieNode)
  | [] => pure []
  | item :: items => do
    let child ← decodeRef decode item
    let children ← decodeRefs decode items
    pure (child :: children)

def decodeFull (decode : Slice → Outcome DecodeFailure TrieNode) (hash : Option Hash) (refs : List Slice)
    (valueItem : Slice) : Outcome DecodeFailure TrieNode := do
  let children ← decodeRefs decode refs
  let value ← (decodeBytes valueItem).mapError .branchValue
  let last := if value = [] then TrieNode.nil else .value value
  pure (.full (fun i => ((children ++ [last])[i.val]?).getD .nil) (readFlags hash))

def decodeItems (decode : Slice → Outcome DecodeFailure TrieNode) (hash : Option Hash) :
    List Slice → Outcome DecodeFailure TrieNode
  | [pathItem, valueItem] => decodeShort decode hash pathItem valueItem
  | items =>
    match items.drop 16 with
    | [valueItem] => decodeFull decode hash (items.take 16) valueItem
    | _ => .error (.items items.length)

/-- `decodeNode`. An inlined node is shorter than the node it stands in, so the length of the encoding bounds
how deep they nest. -/
def decodeNode : Nat → Option Hash → Bytes → Outcome DecodeFailure TrieNode
  | 0, _, _ => .diverge
  | depth + 1, hash, enc =>
    if h : enc.length ≤ maxInt then
      if enc = [] then .error .emptyEncoding
      else do
        let items ← (split ⟨enc, h⟩).mapError .split
        decodeItems (fun item => decodeNode depth none item.1) hash items
    else .panic

/-! ### Reading a node back -/

section RoundTrip

variable (keccak : Bytes → Hash)

/-- The children of the node are in reference form, as those of a node that is encoded are. -/
def Collapsed : TrieNode → Prop
  | .short key child _ =>
    (Ends 16 key ∧ ∃ v, child = .value v) ∨
      (16 ∉ key ∧ ((∃ h, child = .hash h) ∨ (Collapsed child ∧ (encodeNode keccak child).length < 32)))
  | .full children _ =>
    (children 16 = .nil ∨ ∃ v, v ≠ [] ∧ children 16 = .value v) ∧
      ∀ i, i ≠ 16 → children i = .nil ∨ (∃ h, children i = .hash h) ∨
        (Collapsed (children i) ∧ (encodeNode keccak (children i)).length < 32)
  | .nil | .value _ | .hash _ => False

/-- A child in reference form. -/
def IsRef (n : TrieNode) : Prop :=
  n = .nil ∨ (∃ h, n = .hash h) ∨ (Collapsed keccak n ∧ (encodeNode keccak n).length < 32)

variable {keccak}

theorem bytesToHash_hashBytes (h : Hash) : bytesToHash (hashBytes h) = h := by
  have hread : bytesToNat (hashBytes h) = h.toNat % 256 ^ 32 := bytesToNat_fillBytes 32 h.toNat
  rw [bytesToHash, hread, Nat.mod_eq_of_lt (by exact h.isLt), BitVec.ofNat_toNat, BitVec.setWidth_eq]

variable {n : TrieNode} {decode : Slice → Outcome DecodeFailure TrieNode} {refs : List Slice} {flags : NodeFlag}
  {valueItem : Slice}

theorem item_of_collapsed (h : Collapsed keccak n) : ∃ items, n.item keccak = .list items := by
  cases n with
  | short _ _ _ | full _ _ => exact ⟨_, rfl⟩
  | nil | value _ | hash _ => exact h.elim

theorem asChild_of_isRef (h : IsRef keccak n) : asChild keccak n (n.item keccak) = n.item keccak := by
  obtain rfl | ⟨x, rfl⟩ | ⟨-, hshort⟩ := h
  · rfl
  · rfl
  · cases n with
    | short _ _ _ | full _ _ => exact if_pos hshort
    | nil | value _ | hash _ => rfl

theorem decodeRef_item (hn : IsRef keccak n) {item : Slice} (hitem : item.1 = (n.item keccak).layout)
    (hdecode : Collapsed keccak n → decode item = .ok (n.decoded none)) :
    decodeRef decode item = .ok (n.decoded none) := by
  have hne : item.1 ≠ [] := by
    rw [hitem]
    exact layout_ne_nil _
  rw [decodeRef, if_neg hne]
  obtain rfl | ⟨x, rfl⟩ | ⟨hcollapsed, hshort⟩ := hn
  · obtain ⟨k, size, hkind, hk⟩ := kind_bytes hitem
    simp only [hkind, mapError, ok_bind, if_neg hk, decodeBytes_layout hitem, if_true]
    rfl
  · obtain ⟨k, size, hkind, hk⟩ := kind_bytes hitem
    have hbytes : hashBytes x ≠ [] := by
      intro h
      have := length_hashBytes x
      rw [h] at this
      cases this
    simp only [hkind, mapError, ok_bind, if_neg hk, decodeBytes_layout hitem, if_neg hbytes,
      length_hashBytes, ne_eq, not_true_eq_false, if_false, bytesToHash_hashBytes]
    rfl
  · obtain ⟨items, hitems⟩ := item_of_collapsed hcollapsed
    obtain ⟨size, hkind⟩ := kind_list (hitem.trans (congrArg Item.layout hitems))
    have hlength : ¬ 32 ≤ item.1.length := by
      rw [hitem]
      exact not_le.mpr hshort
    simp only [hkind, mapError, ok_bind, if_true, if_neg hlength]
    exact hdecode hcollapsed

theorem length_layout_lt {x : Item} {items : List Item} (hx : x ∈ items) :
    x.layout.length < (Item.list items).layout.length := by
  have hsum : ∀ items : List Item, x ∈ items → x.layout.length ≤ (layoutAll items).length := by
    intro items
    induction items with
    | nil => exact fun h => absurd h not_mem_nil
    | cons y items ih =>
      intro h
      rw [layoutAll, length_append]
      rcases mem_cons.mp h with rfl | h
      · omega
      · have := ih h
        omega
  have hheader : 0 < (writeHeader (layoutAll items).length 0xC0).length := by
    rw [length_writeHeader]
    split <;> omega
  rw [Item.layout, length_append]
  have := hsum items hx
  omega

theorem decodeRefs_ok {ι : Type} {layoutOf : ι → Bytes}
    {nodeOf : ι → TrieNode} (hdecode : ∀ (item : Slice) i, item.1 = layoutOf i → decodeRef decode item = .ok (nodeOf i)) :
    ∀ (indices : List ι) (items : List Slice), items.map Subtype.val = indices.map layoutOf →
      decodeRefs decode items = .ok (indices.map nodeOf)
  | [], [], _ => rfl
  | i :: indices, item :: items, h => by
    rw [map_cons, map_cons] at h
    obtain ⟨hitem, hitems⟩ := cons.inj h
    rw [decodeRefs, hdecode item i hitem, ok_bind, decodeRefs_ok hdecode indices items hitems]
    rfl

theorem decodeItems_append (hash : Option Hash) (h : refs.length = 16) (valueItem : Slice) :
    decodeItems decode hash (refs ++ [valueItem]) = decodeFull decode hash refs valueItem := by
  unfold decodeItems
  split
  · rename_i heq
    have := congrArg length heq
    rw [length_append, h] at this
    cases this
  · rw [← h, drop_left, take_left]

theorem decodeShort_ok {key : List Nibble} {child : TrieNode}
    (hn : Collapsed keccak (.short key child flags)) {pathItem : Slice}
    (hpath : pathItem.1 = (Item.bytes (hexPrefixEncode key)).layout)
    (hvalue : valueItem.1 = (asChild keccak child (child.item keccak)).layout)
    (hdecode : Collapsed keccak child → decode valueItem = .ok (child.decoded none)) (hash : Option Hash) :
    decodeShort decode hash pathItem valueItem = .ok (.short key (child.decoded none) (readFlags hash)) := by
  simp only [decodeShort, decodeBytes_layout hpath, mapError, ok_bind]
  obtain ⟨hkey, v, rfl⟩ | ⟨hkey, hchild⟩ := hn
  · have hlast : key.getLast? = some 16 := by
      obtain ⟨digits, -, rfl⟩ := hkey
      exact getLast?_concat
    rw [hexPrefixDecode_encode (.inl hkey), Outcome.ofExcept, ok_bind, if_pos hlast,
      decodeBytes_layout hvalue]
    rfl
  · have hlast : key.getLast? ≠ some 16 := fun h => hkey (mem_of_getLast? h)
    have href : IsRef keccak child := .inr hchild
    rw [asChild_of_isRef href] at hvalue
    rw [hexPrefixDecode_encode (.inr hkey), Outcome.ofExcept, ok_bind, if_neg hlast,
      decodeRef_item href hvalue hdecode]
    rfl

theorem decodeFull_ok {children : Nibble → TrieNode} (hn : Collapsed keccak (.full children flags))
    (hrefs : refs.map Subtype.val = (List.finRange 16).map fun i =>
      (asChild keccak (children i.castSucc) ((children i.castSucc).item keccak)).layout)
    (hvalue : valueItem.1 = (asChild keccak (children 16) ((children 16).item keccak)).layout)
    (hdecode : ∀ (item : Slice) i, i ≠ 16 → item.1 = ((children i).item keccak).layout → Collapsed keccak (children i) →
      decode item = .ok ((children i).decoded none)) (hash : Option Hash) :
    decodeFull decode hash refs valueItem = .ok (.full (fun i => (children i).decoded none) (readFlags hash)) := by
  obtain ⟨hlast, hchildren⟩ := hn
  have hne : ∀ i : Fin 16, i.castSucc ≠ (16 : Nibble) := fun i => (Fin.castSucc_lt_last i).ne
  have hread : ∀ (item : Slice) (i : Fin 16),
      item.1 = (asChild keccak (children i.castSucc) ((children i.castSucc).item keccak)).layout →
      decodeRef decode item = .ok ((children i.castSucc).decoded none) := by
    intro item i hitem
    have href : IsRef keccak (children i.castSucc) := hchildren _ (hne i)
    rw [asChild_of_isRef href] at hitem
    exact decodeRef_item href hitem (hdecode item _ (hne i) hitem)
  have hbranch : ∃ v, decodeBytes valueItem = .ok v ∧
      (if v = [] then TrieNode.nil else .value v) = (children 16).decoded none := by
    obtain hnil | ⟨v, hv, hval⟩ := hlast
    · rw [hnil] at hvalue ⊢
      exact ⟨[], decodeBytes_layout hvalue, if_pos rfl⟩
    · rw [hval] at hvalue ⊢
      exact ⟨v, decodeBytes_layout hvalue, if_neg hv⟩
  obtain ⟨v, hv, hnode⟩ := hbranch
  rw [decodeFull, decodeRefs_ok hread _ refs hrefs, ok_bind, hv, mapError, ok_bind]
  simp only [hnode]
  have hlist : ((finRange 16).map fun i => (children i.castSucc).decoded none) ++ [(children 16).decoded none] =
      (finRange 17).map fun i => (children i).decoded none := by
    rw [finRange_succ_last, map_append, map_map]
    rfl
  rw [hlist]
  refine congrArg (fun f => Outcome.ok (TrieNode.full f (readFlags hash))) ?_
  funext i
  rw [getElem?_map, getElem?_eq_getElem (by rw [length_finRange]; exact i.isLt), getElem_finRange]
  rfl

theorem decodeNode_of_split {enc : Bytes} (hne : enc ≠ []) {hmax : enc.length ≤ maxInt} {items : List Slice}
    (h : split ⟨enc, hmax⟩ = .ok items) (depth : Nat) (hash : Option Hash) :
    decodeNode (depth + 1) hash enc = decodeItems (fun item => decodeNode depth none item.1) hash items := by
  rw [decodeNode, dif_pos hmax, if_neg hne, h]
  rfl

/-- A node with its children in reference form is read back from its encoding. -/
theorem decodeNode_encodeNode (hn : Collapsed keccak n) {depth : Nat}
    (hdepth : (encodeNode keccak n).length < depth) (hmax : (encodeNode keccak n).length ≤ maxInt)
    (hash : Option Hash) : decodeNode depth hash (encodeNode keccak n) = .ok (n.decoded hash) := by
  induction n generalizing depth hash with
  | nil | value _ | hash _ => exact hn.elim
  | short key child flags ih =>
    match depth, hdepth with
    | depth + 1, hdepth =>
      have hne : encodeNode keccak (.short key child flags) ≠ [] := layout_ne_nil _
      obtain ⟨parts, hparts, hmap⟩ := split_layout
        hmax
      obtain ⟨pathItem, rest, rfl, hpath, hrest⟩ := map_eq_cons_iff.mp hmap
      obtain ⟨valueItem, rest, rfl, hvalue, hrest⟩ := map_eq_cons_iff.mp hrest
      obtain rfl := map_eq_nil_iff.mp hrest
      refine (decodeNode_of_split hne hparts depth hash).trans ?_
      refine decodeShort_ok hn hpath hvalue (fun hchild => ?_) hash
      have hitem : valueItem.1 = encodeNode keccak child := by
        obtain ⟨-, v, rfl⟩ | ⟨-, href⟩ := hn
        · exact hchild.elim
        · rw [hvalue, asChild_of_isRef (.inr href)]
          rfl
      have hlt : valueItem.1.length < (encodeNode keccak (.short key child flags)).length := by
        rw [hvalue]
        exact length_layout_lt (mem_cons_of_mem _ (mem_singleton_self _))
      rw [hitem] at hlt
      rw [hitem]
      exact ih hchild (by omega) (by omega) none
  | full children flags ih =>
    match depth, hdepth with
    | depth + 1, hdepth =>
      have hne : encodeNode keccak (.full children flags) ≠ [] := layout_ne_nil _
      obtain ⟨parts, hparts, hmap⟩ := split_layout
        hmax
      rw [finRange_succ_last, map_append, map_append, map_map, map_map] at hmap
      obtain ⟨refs, tail, rfl, hrefs, htail⟩ := map_eq_append_iff.mp hmap
      obtain ⟨valueItem, rest, rfl, hvalue, hrest⟩ := map_eq_cons_iff.mp htail
      obtain rfl := map_eq_nil_iff.mp hrest
      have hlength : refs.length = 16 := by
        have := congrArg length hrefs
        rwa [length_map, length_map, length_finRange] at this
      refine (decodeNode_of_split hne hparts depth hash).trans ?_
      refine (decodeItems_append hash hlength valueItem).trans ?_
      refine decodeFull_ok hn hrefs hvalue (fun item i hi hitem hchild => ?_) hash
      have href : IsRef keccak (children i) := hn.2 i hi
      have hmem : (children i).item keccak ∈
          (finRange 17).map fun i => asChild keccak (children i) ((children i).item keccak) :=
        mem_map.mpr ⟨i, mem_finRange i, asChild_of_isRef href⟩
      have hlt : (encodeNode keccak (children i)).length < (encodeNode keccak (.full children flags)).length :=
        length_layout_lt hmem
      rw [hitem]
      exact ih i hchild (by omega) (by omega) none

end RoundTrip

end PadiChain.Trie

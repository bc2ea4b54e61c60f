import PadiChain.TrieDisk

/-! Which tree a trie stands for. The nodes of a tree have one encoding each. A node in memory stands for a
tree if its path is, its children stand for the children, and what its flags say is true: a cached hash is
the hash of the encoding, and a node that counts as stored has been written with all that is below it. -/

namespace PadiChain.Trie

open Rlp Patricia TrieNode List

abbrev NibbleTree := Tree Nibble Bytes

section Encode

variable (keccak : Bytes → Hash)

/-- The reference form of a node. -/
def refer (n : TrieNode) : TrieNode :=
  match n with
  | .short _ _ _ | .full _ _ => if (encodeNode keccak n).length < 32 then n else .hash (keccak (encodeNode keccak n))
  | .nil | .value _ | .hash _ => n

def collapse : NibbleTree → TrieNode
  | .empty => .nil
  | .value v => .value v
  | .short key child => .short key (refer keccak (collapse child)) (readFlags none)
  | .full children => .full (fun i => refer keccak (collapse (children i))) (readFlags none)

def encodeTree (t : NibbleTree) : Bytes := encodeNode keccak (collapse keccak t)

def rootHash (t : NibbleTree) : Hash := keccak (encodeTree keccak t)

def encodings : NibbleTree → List Bytes
  | .empty => []
  | .value _ => []
  | .short key child => encodeTree keccak (.short key child) :: encodings child
  | .full children => encodeTree keccak (.full children) :: (List.finRange 17).flatMap fun i => encodings (children i)

/-- Every node of the tree that is referred to by its hash has been written. -/
def Written (written : Set Bytes) : NibbleTree → Prop
  | .empty => True
  | .value _ => True
  | .short key child =>
    (32 ≤ (encodeTree keccak (.short key child)).length → encodeTree keccak (.short key child) ∈ written) ∧
      Written written child
  | .full children =>
    (32 ≤ (encodeTree keccak (.full children)).length → encodeTree keccak (.full children) ∈ written) ∧
      ∀ i, Written written (children i)

/-- What the flags of a node say is true of its tree. Only a root has a cached hash when its encoding is
short. -/
structure FlagOk (written : Set Bytes) (root : Bool) (flags : NodeFlag) (t : NibbleTree) : Prop where
  cached : ∀ h, Disk.cachedHash flags = some h →
    h = rootHash keccak t ∧ (root = true ∨ 32 ≤ (encodeTree keccak t).length)
  stored : ∀ h, flags.storedHash = some h → Written keccak written t ∧ encodeTree keccak t ∈ written
  inlined : flags.dirty = false → flags.hash = none → flags.persisted = true → (encodeTree keccak t).length < 32
  fresh : flags.dirty = true → flags.persisted = false

inductive Rep (written : Set Bytes) : Bool → TrieNode → NibbleTree → Prop
  | nil {root : Bool} : Rep written root .nil .empty
  | value {root : Bool} {v : Bytes} : Rep written root (.value v) (.value v)
  | hash {t : NibbleTree} (hnormal : Normal 16 t) (hsize : 32 ≤ (encodeTree keccak t).length)
      (hwritten : Written keccak written t) : Rep written false (.hash (rootHash keccak t)) t
  | short {root : Bool} {key : List Nibble} {child : TrieNode} {flags : NodeFlag} {t : NibbleTree}
      (hflags : FlagOk keccak written root flags (.short key t)) (hchild : Rep written false child t) :
      Rep written root (.short key child flags) (.short key t)
  | full {root : Bool} {children : Nibble → TrieNode} {flags : NodeFlag} {t : Nibble → NibbleTree}
      (hflags : FlagOk keccak written root flags (.full t)) (hchildren : ∀ i, Rep written false (children i) (t i)) :
      Rep written root (.full children flags) (.full t)

end Encode

/-- No value is empty, and each fits with its key. -/
def Sized (t : NibbleTree) : Prop :=
  ∀ path v, t.lookup path = some v → v ≠ [] ∧ path.length + v.length + 1024 ≤ maxInt

def TrieNode.isHash : TrieNode → Bool
  | .hash _ => true
  | _ => false

variable {keccak : Bytes → Hash} {written : Set Bytes}

/-! ### Encodings -/

theorem Sized.short {key : List Nibble} {t : NibbleTree} (h : Sized (.short key t)) : Sized t := by
  intro path v hv
  obtain ⟨hne, hle⟩ := h (key ++ path) v ((under_append key _ path).trans hv)
  rw [length_append] at hle
  exact ⟨hne, by omega⟩

theorem Sized.full {children : Nibble → NibbleTree} (h : Sized (.full children)) (i : Nibble) : Sized (children i) := by
  intro path v hv
  obtain ⟨hne, hle⟩ := h (i :: path) v hv
  rw [length_cons] at hle
  exact ⟨hne, by omega⟩

theorem item_decoded (n : TrieNode) (hash : Option Hash) : (n.decoded hash).item keccak = n.item keccak := by
  have hchild : ∀ (m : TrieNode) (item : Item), asChild keccak (m.decoded none) item = asChild keccak m item := by
    intro m item
    cases m <;> rfl
  induction n generalizing hash with
  | nil | value _ | hash _ => rfl
  | short key child flags ih | full children flags ih => simp [decoded, item, hchild, ih]

theorem encodeNode_decoded (n : TrieNode) (hash : Option Hash) :
    encodeNode keccak (n.decoded hash) = encodeNode keccak n := congrArg Item.layout (item_decoded n hash)

theorem decoded_refer (n : TrieNode) : (refer keccak n).decoded none = refer keccak (n.decoded none) := by
  have hnode : ∀ m : TrieNode, (if (encodeNode keccak m).length < 32 then m else .hash (keccak (encodeNode keccak m)) :
      TrieNode).decoded none = if (encodeNode keccak (m.decoded none)).length < 32 then m.decoded none
        else .hash (keccak (encodeNode keccak (m.decoded none))) := by
    intro m
    rw [encodeNode_decoded]
    split <;> rfl
  cases n with
  | short key child flags => exact hnode (.short key child flags)
  | full children flags => exact hnode (.full children flags)
  | nil | value _ | hash _ => rfl

theorem decoded_collapse (t : NibbleTree) : (collapse keccak t).decoded none = collapse keccak t := by
  induction t with
  | empty | value _ => rfl
  | short key child ih | full children ih =>
    simp only [collapse, decoded, decoded_refer, ih]
    rfl

variable {t : NibbleTree} {items : List Item} {n : TrieNode} {root : Bool} {disk : Disk}

theorem refer_collapse (h : Normal 16 t) :
    refer keccak (collapse keccak t) =
      if (encodeTree keccak t).length < 32 then collapse keccak t else .hash (rootHash keccak t) := by
  cases h <;> rfl

theorem isRef_refer (h : Normal 16 t) (hcollapsed : Collapsed keccak (collapse keccak t)) :
    IsRef keccak (refer keccak (collapse keccak t)) := by
  rw [refer_collapse h]
  split
  · rename_i hshort
    exact .inr (.inr ⟨hcollapsed, hshort⟩)
  · exact .inr (.inl ⟨_, rfl⟩)

theorem collapsed_collapse (h : Normal 16 t) (hsized : Sized t) : Collapsed keccak (collapse keccak t) := by
  induction h with
  | leaf hkey => exact .inl ⟨hkey, _, rfl⟩
  | extension hne hkey hchild ih =>
    refine .inr ⟨hkey, ?_⟩
    obtain hnil | href := isRef_refer hchild (ih hsized.short)
    · rw [refer_collapse hchild] at hnil
      split at hnil <;> cases hnil
    · exact href
  | @branch children hstop hchildren htwo ih =>
    constructor
    · obtain hempty | ⟨v, hv⟩ := hstop
      · refine .inl ?_
        change refer keccak (collapse keccak (children 16)) = .nil
        rw [hempty]
        rfl
      · refine .inr ⟨v, ?_, ?_⟩
        · refine (hsized [16] v ?_).1
          rw [Tree.lookup_full_cons, hv]
          exact Function.update_self ..
        · change refer keccak (collapse keccak (children 16)) = .value v
          rw [hv]
          rfl
    · intro i hi
      change IsRef keccak (refer keccak (collapse keccak (children i)))
      by_cases hempty : children i = .empty
      · rw [hempty]
        exact .inl rfl
      · exact isRef_refer (hchildren i hi hempty) (ih i hi hempty (hsized.full i))

/-! ### Lengths -/

theorem length_writeHeader_le {n : Nat} (h : n ≤ maxInt) (offset : UInt8) : (writeHeader n offset).length ≤ 9 := by
  have := byteLen_le_of_le_maxInt h
  rw [length_writeHeader]
  split <;> omega

theorem length_writeBytes_le {b : Bytes} (h : b.length ≤ maxInt) : (writeBytes b).length ≤ b.length + 9 := by
  rw [writeBytes]
  split
  · omega
  · have := length_writeHeader_le h 0x80
    rw [length_append]
    omega

theorem length_list_le (h : (layoutAll items).length ≤ maxInt) :
    (Item.list items).layout.length ≤ (layoutAll items).length + 9 := by
  have := length_writeHeader_le h 0xC0
  rw [Item.layout, length_append]
  omega

theorem length_isRef_le (h : IsRef keccak n) : (n.item keccak).layout.length ≤ 33 := by
  obtain rfl | ⟨x, rfl⟩ | ⟨-, hshort⟩ := h
  · change (Item.bytes []).layout.length ≤ 33
    decide
  · have hbyte : isByte (hashBytes x) = false := by
      cases hb : isByte (hashBytes x) with
      | false => rfl
      | true =>
        obtain ⟨y, -, hy⟩ := isByte_cases hb
        have := length_hashBytes x
        rw [hy] at this
        cases this
    rw [item, Item.layout, writeBytes, hbyte, if_neg Bool.false_ne_true, length_append,
      length_hashBytes, length_writeHeader]
    decide
  · have : (encodeNode keccak n).length < 32 := hshort
    exact this.le.trans (by decide)

theorem layoutAll_append (a b : List Item) : layoutAll (a ++ b) = layoutAll a ++ layoutAll b := by
  induction a with
  | nil => rfl
  | cons x a ih => rw [cons_append, layoutAll, layoutAll, ih, append_assoc]

theorem length_layoutAll_le {k : Nat} (h : ∀ x ∈ items, x.layout.length ≤ k) :
    (layoutAll items).length ≤ k * items.length := by
  induction items with
  | nil => exact Nat.zero_le _
  | cons x items ih =>
    have hx := h x mem_cons_self
    have hrest := ih fun y hy => h y (mem_cons_of_mem x hy)
    rw [layoutAll, length_append, length_cons, Nat.mul_succ]
    omega

theorem length_branch_le {items : Fin 17 → Item} (hfront : ∀ i : Fin 16, (items i.castSucc).layout.length ≤ 33)
    (hlast : (items 16).layout.length + 1000 ≤ maxInt) :
    (Item.list ((List.finRange 17).map items)).layout.length ≤ maxInt := by
  have hsum : (layoutAll ((finRange 16).map (items ∘ Fin.castSucc))).length ≤ _ :=
    length_layoutAll_le fun x hx => by
      obtain ⟨i, -, rfl⟩ := mem_map.mp hx
      exact hfront i
  rw [length_map, length_finRange] at hsum
  have hall : (layoutAll ((finRange 17).map items)).length + 9 ≤ maxInt := by
    rw [finRange_succ_last, map_append, map_map, layoutAll_append, length_append, map_singleton,
      show (layoutAll [items (Fin.last 16)]).length = (items 16).layout.length from
        congrArg length (append_nil _)]
    omega
  exact (length_list_le ((Nat.le_add_right _ 9).trans hall)).trans hall

theorem length_encodeTree_le (h : Normal 16 t) (hsized : Sized t) : (encodeTree keccak t).length ≤ maxInt := by
  have hcollapsed : Collapsed keccak (collapse keccak t) := collapsed_collapse h hsized
  cases h with
  | @leaf key v hkey =>
    have hlookup : (Tree.short key (.value v) : NibbleTree).lookup (key ++ []) = some v :=
      (under_append key _ []).trans (Function.update_self ..)
    obtain ⟨-, hle⟩ := hsized _ v hlookup
    rw [append_nil] at hle
    have hpath := length_hexPrefixEncode_le key
    have hp := length_writeBytes_le (b := hexPrefixEncode key) (by omega)
    have hv := length_writeBytes_le (b := v) (by omega)
    have hall : (layoutAll [.bytes (hexPrefixEncode key), .bytes v]).length =
        (writeBytes (hexPrefixEncode key)).length + (writeBytes v).length := by
      simp [layoutAll, Item.layout]
    have hmax : (layoutAll [.bytes (hexPrefixEncode key), .bytes v]).length ≤ maxInt := by omega
    refine (length_list_le hmax).trans ?_
    omega
  | @extension key children hne hkey hchild =>
    obtain ⟨path, v, hv⟩ := hchild.exists_lookup
    obtain ⟨-, hle⟩ := hsized (key ++ path) v ((under_append key _ path).trans hv)
    rw [length_append] at hle
    obtain ⟨hends, w, hw⟩ | ⟨-, href⟩ := hcollapsed
    · obtain ⟨digits, -, rfl⟩ := hends
      exact absurd (mem_append_right _ (mem_singleton_self _)) hkey
    have href : IsRef keccak (refer keccak (collapse keccak (.full children))) := .inr href
    have hchild := length_isRef_le href
    have hpath := length_hexPrefixEncode_le key
    have hp := length_writeBytes_le (b := hexPrefixEncode key) (by omega)
    rw [← asChild_of_isRef href] at hchild
    refine (length_list_le ?_).trans ?_
    all_goals
      simp only [layoutAll, Item.layout, append_nil, length_append]
      omega
  | @branch children hstop hchildren htwo =>
    obtain ⟨hlast, hrefs⟩ := hcollapsed
    refine length_branch_le (fun i => ?_) ?_
    · have href : IsRef keccak (refer keccak (collapse keccak (children i.castSucc))) :=
        hrefs _ (Fin.castSucc_lt_last i).ne
      rw [asChild_of_isRef href]
      exact length_isRef_le href
    · dsimp only
      obtain hempty | ⟨v, hv⟩ := hstop
      · rw [hempty]
        change (Item.bytes []).layout.length + 1000 ≤ maxInt
        decide
      · have hlookup : (Tree.full children : NibbleTree).lookup [16] = some v := by
          rw [Tree.lookup_full_cons, hv]
          exact Function.update_self ..
        obtain ⟨-, hle⟩ := hsized _ v hlookup
        have hbytes := length_writeBytes_le (b := v) (by omega)
        rw [hv]
        change (writeBytes v).length + 1000 ≤ maxInt
        omega

/-! ### Reading a node -/

theorem flagOk_read (hshort : (encodeTree keccak t).length < 32) :
    FlagOk keccak written false (readFlags none) t where
  cached _ hh := nomatch hh
  stored _ hh := nomatch hh
  inlined _ _ _ := hshort
  fresh h := nomatch h

theorem flagOk_new (root : Bool) : FlagOk keccak written root newFlag t where
  cached _ hh := nomatch hh
  stored _ hh := nomatch hh
  inlined h := nomatch h
  fresh _ := rfl

theorem flagOk_loaded (hwritten : Written keccak written t)
    (hmem : encodeTree keccak t ∈ written) (hsize : root = true ∨ 32 ≤ (encodeTree keccak t).length) :
    FlagOk keccak written root (readFlags (some (rootHash keccak t))) t where
  cached h hh := by
    cases hh
    exact ⟨rfl, hsize⟩
  stored h _ := ⟨hwritten, hmem⟩
  inlined _ h := nomatch h
  fresh h := nomatch h

theorem rep_refer (h : t = .empty ∨ (∃ v, t = .value v) ∨ Normal 16 t) (hwritten : Written keccak written t) :
    Rep keccak written false ((refer keccak (collapse keccak t)).decoded none) t := by
  induction t with
  | empty => exact .nil
  | value v => exact .value
  | short key child ih =>
    have hnormal : Normal 16 (Tree.short key child) := by
      obtain h | ⟨v, h⟩ | h := h
      · cases h
      · cases h
      · exact h
    rw [refer_collapse hnormal]
    split
    · rename_i hshort
      refine .short (flagOk_read hshort) (ih ?_ hwritten.2)
      cases hnormal with
      | leaf hkey => exact .inr (.inl ⟨_, rfl⟩)
      | extension hne hkey hchild => exact .inr (.inr hchild)
    · rename_i hlong
      exact .hash hnormal (not_lt.mp hlong) hwritten
  | full children ih =>
    have hnormal : Normal 16 (Tree.full children) := by
      obtain h | ⟨v, h⟩ | h := h
      · cases h
      · cases h
      · exact h
    rw [refer_collapse hnormal]
    split
    · rename_i hshort
      refine .full (flagOk_read hshort) fun i => ih i ?_ (hwritten.2 i)
      obtain h | ⟨-, h⟩ | ⟨-, h⟩ := child_cases hnormal i
      · exact .inl h
      · exact .inr (.inl h)
      · exact .inr (.inr h)
    · rename_i hlong
      exact .hash hnormal (not_lt.mp hlong) hwritten

/-- A node that is read from the store. -/
def loaded (keccak : Bytes → Hash) (t : NibbleTree) : TrieNode :=
  (collapse keccak t).decoded (some (rootHash keccak t))

theorem rep_loaded (h : Normal 16 t) (hwritten : Written keccak written t)
    (hmem : encodeTree keccak t ∈ written) (hsize : root = true ∨ 32 ≤ (encodeTree keccak t).length) :
    Rep keccak written root (loaded keccak t) t := by
  have hflags := flagOk_loaded hwritten hmem hsize
  cases h with
  | leaf hkey => exact .short hflags .value
  | extension hne hkey hchild => exact .short hflags (rep_refer (.inr (.inr hchild)) hwritten.2)
  | branch hstop hchildren htwo =>
    refine .full hflags fun i => rep_refer ?_ (hwritten.2 i)
    obtain h | ⟨-, h⟩ | ⟨-, h⟩ := child_cases (.branch hstop hchildren htwo) i
    · exact .inl h
    · exact .inr (.inl h)
    · exact .inr (.inr h)

theorem isHash_loaded (h : Normal 16 t) : (loaded keccak t).isHash = false := by
  cases h <;> rfl

/-- The store has what was written. -/
def Holding (keccak : Bytes → Hash) (disk : Disk) (written : Set Bytes) : Prop :=
  ∀ e ∈ written, disk (keccak e) = some e

theorem decodeNode_encodeTree (h : Normal 16 t) (hsized : Sized t) :
    decodeNode ((encodeTree keccak t).length + 1) (some (rootHash keccak t)) (encodeTree keccak t) =
      .ok (loaded keccak t) :=
  decodeNode_encodeNode (collapsed_collapse h hsized) (Nat.lt_succ_self _) (length_encodeTree_le h hsized) _

theorem resolveHash_rootHash (hdisk : Holding keccak disk written) (h : Normal 16 t)
    (hsized : Sized t) (hmem : encodeTree keccak t ∈ written) :
    Disk.resolveHash disk (rootHash keccak t) = .ok (loaded keccak t) := by
  have hread : disk (rootHash keccak t) = some (encodeTree keccak t) := hdisk _ hmem
  simp [Disk.resolveHash, hread, decodeNode_encodeTree h hsized]

theorem mem_written (h : Normal 16 t) (hwritten : Written keccak written t)
    (hsize : 32 ≤ (encodeTree keccak t).length) : encodeTree keccak t ∈ written := by
  cases h with
  | leaf _ | extension _ _ _ | branch _ _ _ => exact hwritten.1 hsize

theorem Rep.resolve (hdisk : Holding keccak disk written) {h : Hash}
    (hrep : Rep keccak written false (.hash h) t) (hsized : Sized t) :
    ∃ n, Disk.resolveHash disk h = .ok n ∧ n.isHash = false ∧ Rep keccak written false n t := by
  cases hrep with
  | hash hnormal hsize hwritten =>
    have hmem := mem_written hnormal hwritten hsize
    exact ⟨_, resolveHash_rootHash hdisk hnormal hsized hmem, isHash_loaded hnormal,
      rep_loaded hnormal hwritten hmem (.inr hsize)⟩

theorem Rep.isNil_iff (h : Rep keccak written root n t) : n.isNil = true ↔ t = .empty := by
  cases h with
  | nil => exact iff_of_true rfl rfl
  | value | short _ _ | full _ _ => exact iff_of_false Bool.false_ne_true nofun
  | hash hnormal _ _ => exact iff_of_false Bool.false_ne_true hnormal.ne_empty

end PadiChain.Trie

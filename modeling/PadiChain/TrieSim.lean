import PadiChain.TrieRep

/-! Editing and reading a trie does to its tree what inserting, deleting and looking up do, whatever part of
it is in memory and whatever is still in the store. No walk misses a node. -/

namespace PadiChain.Trie

open Rlp Patricia Tree Disk Function List

variable {keccak : Bytes → Hash} {written : Set Bytes} {disk : Disk}

/-! ### Shared paths -/

theorem commonPrefixLen_append (path rest : List Nibble) : commonPrefixLen (path ++ rest) path = path.length := by
  induction path with
  | nil => cases rest <;> rfl
  | cons i path ih => rw [cons_append, commonPrefixLen, if_pos rfl, ih, length_cons]

theorem commonPrefixLen_le (key path : List Nibble) : commonPrefixLen key path ≤ path.length := by
  induction key generalizing path with
  | nil => exact Nat.zero_le _
  | cons j key ih =>
    cases path with
    | nil => exact Nat.le_refl _
    | cons i path =>
      rw [commonPrefixLen]
      split
      · exact Nat.succ_le_succ (ih path)
      · exact Nat.zero_le _

variable {key : List Nibble}

theorem commonPrefixLen_eq_length {path : List Nibble} : commonPrefixLen key path = path.length ↔ path <+: key := by
  constructor
  · intro h
    induction path generalizing key with
    | nil => exact key.nil_prefix
    | cons i path ih =>
      cases key with
      | nil => cases h
      | cons j key =>
        rw [commonPrefixLen] at h
        split at h
        · rename_i hij
          rw [length_cons, Nat.succ.injEq] at h
          rw [hij, prefix_cons_inj]
          exact ih h
        · cases h
  · rintro ⟨rest, rfl⟩
    exact commonPrefixLen_append path rest

variable {i j : Nibble} {t u : NibbleTree} {n : TrieNode}

theorem commonPrefixLen_parts (h : i ≠ j) (front path key : List Nibble) :
    commonPrefixLen (front ++ j :: key) (front ++ i :: path) = front.length := by
  induction front with
  | nil =>
    rw [nil_append, nil_append, commonPrefixLen, if_neg h.symm]
    rfl
  | cons a front ih => rw [cons_append, cons_append, commonPrefixLen, if_pos rfl, ih, length_cons]

theorem diverge_parts (h : i ≠ j) (front path key : List Nibble) (child value : TrieNode) :
    diverge (front ++ i :: path) child (front ++ j :: key) value =
      .ok (true, place front (.full (Function.update (Function.update (fun _ => .nil) i (place path child)) j
        (place key value)) newFlag)) := by
  have hlen := commonPrefixLen_parts h front path key
  rw [diverge, hlen, drop_left, drop_left, take_left]
  cases front with
  | nil | cons _ _ => rfl

/-! ### Edits -/

/-- The edit goes through, and what comes back stands for the edited tree. -/
def Edits (keccak : Bytes → Hash) (written : Set Bytes) (root : Bool) (t t' : NibbleTree)
    (r : Except TrieError (Bool × TrieNode)) : Prop :=
  ∃ dirty n, r = .ok (dirty, n) ∧ Rep keccak written root n t' ∧ n.isHash = false ∧ (dirty = false → t' = t)

theorem Edits.ok {root dirty : Bool} {t' : NibbleTree} (hn : Rep keccak written root n t')
    (hnode : n.isHash = false) (hsame : dirty = false → t' = t) :
    Edits keccak written root t t' (.ok (dirty, n)) := ⟨dirty, n, rfl, hn, hnode, hsame⟩

theorem Edits.edited {root : Bool} {t' u' : NibbleTree} {r : Except TrieError (Bool × TrieNode)}
    {rebuild : TrieNode → TrieNode} (hr : Edits keccak written false t t' r) (hn : Rep keccak written root n u)
    (hnode : n.isHash = false) (hsame : t' = t → u' = u)
    (hrebuild : ∀ below, Rep keccak written false below t' → below.isHash = false →
      Rep keccak written root (rebuild below) u' ∧ (rebuild below).isHash = false) :
    Edits keccak written root u u' (edited n rebuild r) := by
  obtain ⟨dirty, below, rfl, hbelow, hhash, hdirty⟩ := hr
  cases dirty with
  | false =>
    refine ⟨false, n, rfl, ?_, hnode, fun _ => hsame (hdirty rfl)⟩
    rw [hsame (hdirty rfl)]
    exact hn
  | true => exact ⟨true, _, rfl, (hrebuild below hbelow hhash).1, (hrebuild below hbelow hhash).2, nofun⟩

theorem rep_place {root : Bool} (hroot : Rep keccak written root n t)
    (h : Rep keccak written false n t) : Rep keccak written root (place key n) (stem key t) := by
  rw [place, stem]
  split
  · exact hroot
  · exact .short (flagOk_new root) h

theorem isHash_place (key : List Nibble) (h : n.isHash = false) : (place key n).isHash = false := by
  rw [place]
  split
  · exact h
  · rfl

theorem rep_update {children : Nibble → TrieNode} {t : Nibble → NibbleTree}
    (h : ∀ i, Rep keccak written false (children i) (t i)) (i : Nibble)
    (hn : Rep keccak written false n u) (j : Nibble) :
    Rep keccak written false (Function.update children i n j) (Function.update t i u j) := by
  rw [update_apply, update_apply]
  split_ifs
  · exact hn
  · exact h j

theorem Rep.isHash_root (h : Rep keccak written true n t) : n.isHash = false := by
  cases h <;> rfl

/-- A node that is still in the store is read first, which takes one of the steps. -/
theorem Rep.walk {depth : Nat} {Q : Nat → TrieNode → Prop} (hdisk : Holding keccak disk written)
    (hsized : Sized t) (hn : Rep keccak written false n t) (hkey : Walk 16 t key) (hdepth : key.length ≤ depth)
    (hmemory : ∀ m depth, Rep keccak written false m t → m.isHash = false → key.length ≤ depth + 1 → Q depth m)
    (hstored : ∀ h m depth, key ≠ [] → Disk.resolveHash disk h = .ok m → Rep keccak written false m t →
      m.isHash = false → Q depth m → Q (depth + 1) (.hash h)) : Q depth n := by
  cases hhash : n.isHash with
  | false => exact hmemory n depth hn hhash (hdepth.trans (Nat.le_succ depth))
  | true =>
    cases n with
    | hash x =>
      have hne : key ≠ [] := by
        cases hn with
        | hash hnormal _ _ => exact hkey.ne_nil hnormal
      match depth, hdepth with
      | 0, hdepth => exact absurd (length_eq_zero_iff.mp (Nat.le_zero.mp hdepth)) hne
      | depth + 1, hdepth =>
        obtain ⟨m, hresolve, hm, hrep⟩ := hn.resolve hdisk hsized
        exact hstored x m depth hne hresolve hrep hm (hmemory m depth hrep hm hdepth)
    | _ => cases hhash

theorem Edits.stored {edit : Nat → TrieNode → List Nibble → Except TrieError (Bool × TrieNode)} {t' : NibbleTree}
    {depth : Nat} (hdisk : Holding keccak disk written)
    (hedit : key ≠ [] → ∀ depth h, edit (depth + 1) (.hash h) key = Disk.editStored disk (edit depth) h key)
    (hsized : Sized t) (hn : Rep keccak written false n t) (hkey : Walk 16 t key) (hdepth : key.length ≤ depth)
    (hmemory : ∀ m depth, Rep keccak written false m t → m.isHash = false → key.length ≤ depth + 1 →
      Edits keccak written false t t' (edit depth m key)) : Edits keccak written false t t' (edit depth n key) := by
  refine hn.walk hdisk hsized hkey hdepth hmemory ?_
  intro x m depth hne hresolve hm hnode hedits
  rw [hedit hne, Disk.editStored, hresolve]
  exact hedits.edited hm hnode id fun below hbelow hb => ⟨hbelow, hb⟩

/-! ### Inserting -/

section Insert

variable {value : Bytes}

theorem insert_nil (depth : Nat) (key : List Nibble) :
    Disk.insert disk value depth .nil key = .ok (true, place key (.value value)) := by
  cases depth <;> rfl

theorem insert_value (depth : Nat) (v : Bytes) :
    Disk.insert disk value depth (.value v) [] = .ok (decide (v ≠ value), .value value) := by
  cases depth <;> rfl

variable {depth : Nat} {key : List Nibble} {t : NibbleTree} {n : TrieNode}

theorem insert_hash (hkey : key ≠ []) (depth : Nat) (h : Hash) :
    Disk.insert disk value (depth + 1) (.hash h) key =
      Disk.editStored disk (Disk.insert disk value depth) h key := if_neg hkey

theorem insert_short {path : List Nibble} {child : TrieNode} {flags : NodeFlag} (hkey : key ≠ []) :
    Disk.insert disk value depth (.short path child flags) key =
      if commonPrefixLen key path = path.length then
        edited (.short path child flags) (fun below => .short path below newFlag)
          (Disk.insert disk value depth child (key.drop path.length))
      else diverge path child key (.value value) := by
  cases depth <;> exact if_neg hkey

theorem insert_full (depth : Nat) (children : Nibble → TrieNode) (flags : NodeFlag) (i : Nibble) (key : List Nibble) :
    Disk.insert disk value depth (.full children flags) (i :: key) =
      edited (.full children flags) (fun below => .full (Function.update children i below) newFlag)
        (Disk.insert disk value depth (children i) key) := by
  cases depth <;> rfl

def Inserts (keccak : Bytes → Hash) (written : Set Bytes) (disk : Disk) (value : Bytes) (t : NibbleTree) : Prop :=
  ∀ (root : Bool) (n : TrieNode) (key : List Nibble) (depth : Nat), Rep keccak written root n t → n.isHash = false →
    Ends 16 key → key.length ≤ depth + 1 →
    Edits keccak written root t (t.put value key) (Disk.insert disk value depth n key)

theorem edits_value (root : Bool) (depth : Nat) (v : Bytes) :
    Edits keccak written root (.value v) (.value value) (Disk.insert disk value depth (.value v) []) := by
  rw [insert_value]
  refine .ok .value rfl fun h => ?_
  rw [of_not_not (of_decide_eq_false h)]

/-- Where the key leaves the path of a short node. -/
theorem edits_diverge {root : Bool} {path : List Nibble} {child : TrieNode} (hnormal : Normal 16 (short path t))
    (hkey : Ends 16 key) (hp : ¬ path <+: key) (hchild : Rep keccak written false child t) :
    Edits keccak written root (.short path t) (fork path t key (.value value))
      (diverge path child key (.value value)) := by
  obtain ⟨front, i, path', j, key', hne, rfl, rfl⟩ := parts_of_normal hnormal hkey hp
  rw [diverge_parts hne, fork_append hne]
  have hnil : ∀ i : Nibble, Rep keccak written false ((fun _ => TrieNode.nil) i) ((fun _ => .empty) i) :=
    fun _ => .nil
  have hvalue : Rep keccak written false (place key' (.value value)) (stem key' (.value value)) :=
    rep_place .value .value
  have hrest : Rep keccak written false (place path' child) (stem path' t) := rep_place hchild hchild
  have hchildren := rep_update (rep_update hnil i hrest) j hvalue
  have hbranch : ∀ root, Rep keccak written root (.full _ newFlag) (.full _) :=
    fun root => .full (flagOk_new root) hchildren
  exact .ok (rep_place (hbranch root) (hbranch false)) (isHash_place front rfl) nofun

variable (hdisk : Holding keccak disk written) (h : t = .empty ∨ Normal 16 t) (hsized : Sized t)

include hdisk h hsized

theorem inserts : Inserts keccak written disk value t := by
  intro root n key depth hn hnode hkey hdepth
  have hwalk := walk h hkey
  clear h hkey
  induction hwalk generalizing root n depth with
  | @missing path key t h hkey hp =>
    cases hn with
    | hash _ _ _ => cases hnode
    | short _ hchild =>
      rw [insert_short hkey.ne_nil, if_neg fun h => hp (commonPrefixLen_eq_length.mp h), put, if_neg hp]
      exact edits_diverge h hkey hp hchild
  | @leaf path w hkey =>
    cases hn with
    | hash _ _ _ => cases hnode
    | short hflags hchild =>
      rw [insert_short hkey.ne_nil, if_pos (commonPrefixLen_eq_length.mpr (prefix_refl path)), put_leaf,
        drop_length]
      cases hchild with
      | value =>
        refine (edits_value false depth w).edited (.short hflags .value) rfl (fun h => by rw [h])
          fun below hbelow _ => ⟨?_, rfl⟩
        exact .short (flagOk_new root) hbelow
      | hash hnormal _ _ => cases hnormal
  | @extension path key children hne _ _ hkey below ih =>
    cases hn with
    | hash _ _ _ => cases hnode
    | short hflags hchild =>
      have hlength : key.length ≤ depth := by
        have := length_pos_iff.mpr hne
        rw [length_append] at hdepth
        omega
      rw [insert_short (append_ne_nil_of_left_ne_nil hne key),
        if_pos (commonPrefixLen_eq_length.mpr (prefix_append path key)), drop_left, put_short_append]
      refine (Edits.stored hdisk insert_hash hsized.short hchild below hlength fun m depth =>
        ih hsized.short false m depth).edited (.short hflags hchild) rfl (fun h => by rw [h])
          fun below hbelow _ => ⟨?_, rfl⟩
      exact .short (flagOk_new root) hbelow
  | empty key =>
    cases hn with
    | nil =>
      rw [insert_nil]
      exact .ok (rep_place .value .value) (isHash_place key rfl) (by simp)
    | hash _ _ _ => cases hnode
  | value v =>
    cases hn with
    | value => exact edits_value root depth v
    | hash _ _ _ => cases hnode
  | @branch t i key _ _ below ih =>
    cases hn with
    | hash _ _ _ => cases hnode
    | full hflags hrep =>
      rw [insert_full, put]
      refine (Edits.stored hdisk insert_hash (hsized.full i) (hrep i) below (Nat.le_of_succ_le_succ hdepth)
        fun m depth => ih (hsized.full i) false m depth).edited (.full hflags hrep) rfl
          (fun h => by rw [h, update_eq_self]) fun below hb _ => ⟨?_, rfl⟩
      exact .full (flagOk_new root) (rep_update hrep i hb)

theorem insert_edits (hn : Rep keccak written true n t) (hkey : Ends 16 key) :
    Edits keccak written true t (t.put value key) (Disk.insert disk value key.length n key) := by
  exact inserts hdisk h hsized true n key key.length hn hn.isHash_root hkey (Nat.le_succ _)

end Insert

/-! ### Deleting -/

section Delete

variable (depth : Nat)

theorem delete_nil (key : List Nibble) : Disk.delete disk depth .nil key = .ok (false, .nil) := by
  cases depth <;> rfl

theorem delete_value (v : Bytes) (key : List Nibble) : Disk.delete disk depth (.value v) key = .ok (true, .nil) := by
  cases depth <;> rfl

theorem delete_hash (h : Hash) (key : List Nibble) :
    Disk.delete disk (depth + 1) (.hash h) key = Disk.editStored disk (Disk.delete disk depth) h key := rfl

theorem delete_short (path key : List Nibble) (child : TrieNode) (flags : NodeFlag) :
    Disk.delete disk depth (.short path child flags) key =
      if commonPrefixLen key path < path.length then .ok (false, .short path child flags)
      else if commonPrefixLen key path = key.length then .ok (true, .nil)
      else edited (.short path child flags) (joined path) (Disk.delete disk depth child (key.drop path.length)) := by
  cases depth <;> rfl

theorem delete_full (children : Nibble → TrieNode) (flags : NodeFlag) (i : Nibble) (key : List Nibble) :
    Disk.delete disk depth (.full children flags) (i :: key) =
      match Disk.delete disk depth (children i) key with
      | .error e => .error e
      | .ok (false, _) => .ok (false, .full children flags)
      | .ok (true, below) => reduced (Disk.resolveHash disk) (Function.update children i below) := by
  cases depth <;> rfl

variable {n : TrieNode} {t : NibbleTree} {key : List Nibble}

theorem rep_joined {root : Bool} {path : List Nibble} (hn : Rep keccak written false n t) (hnode : n.isHash = false) :
    Rep keccak written root (joined path n) (join path t) := by
  cases hn with
  | nil => exact .short (flagOk_new root) .nil
  | value => exact .short (flagOk_new root) .value
  | hash _ _ _ => cases hnode
  | short _ hchild => exact .short (flagOk_new root) hchild
  | full hflags hchildren => exact .short (flagOk_new root) (.full hflags hchildren)

theorem isHash_joined {path : List Nibble} : (joined path n).isHash = false := by
  cases n <;> rfl

theorem filter_eq_pos : ∀ pos : Nibble, ((List.finRange 17).filter fun i => decide (i = pos)) = [pos] := by
  decide

theorem reduced_edits (hdisk : Holding keccak disk written) (root : Bool) {children : Nibble → TrieNode}
    {t : Nibble → NibbleTree} (hchildren : ∀ i, Rep keccak written false (children i) (t i))
    (hslot : ∀ i, Slot 16 i (t i)) (hsized : ∀ i, Sized (t i)) (hne : ∃ i, t i ≠ .empty) :
    ∃ n, reduced (Disk.resolveHash disk) children = .ok (true, n) ∧ Rep keccak written root n (reduce t) ∧
      n.isHash = false := by
  have hnil : ∀ i, (!(children i).isNil) = true ↔ t i ≠ .empty := by
    intro i
    rw [Bool.not_eq_true', ← Bool.not_eq_true, (hchildren i).isNil_iff]
  obtain ⟨pos, hpos⟩ | ⟨a, b, hab, ha, hb⟩ := unique_or_two hne
  · have hfilter : ((finRange 17).filter fun i => !(children i).isNil) = [pos] := by
      rw [← filter_eq_pos pos]
      refine filter_congr fun i _ => ?_
      rw [Bool.eq_iff_iff, hnil i, decide_eq_true_iff]
      exact hpos i
    rw [reduce_of_unique hpos, reduced, hfilter]
    dsimp only
    have hchild := hchildren pos
    obtain hempty | ⟨rfl, v, hv⟩ | ⟨hstop, hnormal⟩ := hslot pos
    · exact absurd hempty ((hpos pos).mpr rfl)
    · rw [if_pos rfl, hv]
      rw [hv] at hchild
      exact ⟨_, rfl, .short (flagOk_new root) hchild, rfl⟩
    · rw [if_neg hstop]
      cases hnode : (children pos).isHash with
      | false =>
        refine ⟨joined [pos] (children pos), ?_, rep_joined hchild hnode, isHash_joined⟩
        split
        · rename_i h heq
          rw [heq] at hnode
          cases hnode
        · rfl
      | true =>
        cases hm : children pos with
        | hash h =>
          rw [hm] at hchild
          obtain ⟨m, hresolve, hm, hrep⟩ := hchild.resolve hdisk (hsized pos)
          simp only [hresolve]
          generalize t pos = s at hrep hchild hnormal
          cases hrep with
          | nil => exact absurd rfl hnormal.ne_empty
          | value => cases hnormal
          | hash _ _ _ => cases hm
          | short _ hbelow => exact ⟨_, rfl, .short (flagOk_new root) hbelow, rfl⟩
          | full _ _ => exact ⟨_, rfl, .short (flagOk_new root) hchild, rfl⟩
        | _ =>
          rw [hm] at hnode
          cases hnode
  · rw [reduce_of_two ⟨a, b, hab, ha, hb⟩, reduced]
    split
    · rename_i pos hfilter
      have hmem : ∀ i, t i ≠ .empty → i = pos := by
        intro i hi
        have : i ∈ (finRange 17).filter fun i => !(children i).isNil :=
          mem_filter.mpr ⟨mem_finRange i, (hnil i).mpr hi⟩
        rw [hfilter] at this
        exact mem_singleton.mp this
      exact absurd ((hmem a ha).trans (hmem b hb).symm) hab
    · exact ⟨_, rfl, .full (flagOk_new root) hchildren, rfl⟩

def Deletes (keccak : Bytes → Hash) (written : Set Bytes) (disk : Disk) (t : NibbleTree) : Prop :=
  ∀ (root : Bool) (n : TrieNode) (key : List Nibble) (depth : Nat), Rep keccak written root n t → n.isHash = false →
    Ends 16 key → key.length ≤ depth + 1 →
    Edits keccak written root t (t.erase key) (Disk.delete disk depth n key)

theorem sized_erase (h : Walk 16 t key) (hsized : Sized t) : Sized (t.erase key) := by
  intro path v hv
  rw [lookup_erase_of_walk h, update_apply] at hv
  split_ifs at hv
  exact hsized path v hv

variable (hdisk : Holding keccak disk written) (h : t = .empty ∨ Normal 16 t) (hsized : Sized t)

include hdisk h hsized

theorem deletes : Deletes keccak written disk t := by
  intro root n key depth hn hnode hkey hdepth
  have hwalk := walk h hkey
  clear h hkey
  induction hwalk generalizing root n depth with
  | @missing path key t _ _ hp =>
    cases hn with
    | hash _ _ _ => cases hnode
    | short hflags hchild =>
      have hlt : commonPrefixLen key path < path.length :=
        lt_of_le_of_ne (commonPrefixLen_le key path) fun h => hp (commonPrefixLen_eq_length.mp h)
      rw [delete_short, if_pos hlt, erase, if_neg hp]
      exact .ok (.short hflags hchild) rfl fun _ => rfl
  | @leaf path w _ =>
    cases hn with
    | hash _ _ _ => cases hnode
    | short _ _ =>
      have hlen := commonPrefixLen_eq_length.mpr (prefix_refl path)
      rw [delete_short, if_neg (by omega), if_pos hlen, erase, if_pos (prefix_refl path), if_pos rfl]
      exact .ok .nil rfl (by simp)
  | @extension path key children hne _ _ hkey below ih =>
    cases hn with
    | hash _ _ _ => cases hnode
    | short hflags hchild =>
      have hlen := commonPrefixLen_eq_length.mpr (prefix_append path key)
      have hpos := length_pos_iff.mpr hkey.ne_nil
      have hpath := length_pos_iff.mpr hne
      rw [length_append] at hdepth
      rw [delete_short, if_neg (by omega), if_neg (by rw [length_append]; omega), drop_left,
        erase_short_append hkey.ne_nil]
      exact (Edits.stored hdisk (fun _ depth h => delete_hash depth h key) hsized.short hchild below (by omega)
        fun m depth => ih hsized.short false m depth).edited (.short hflags hchild) rfl (fun h => by rw [h]; rfl)
          fun below hbelow hb => ⟨rep_joined hbelow hb, isHash_joined⟩
  | empty key =>
    cases hn with
    | nil =>
      rw [delete_nil]
      exact .ok .nil rfl fun _ => rfl
    | hash _ _ _ => cases hnode
  | value v =>
    cases hn with
    | value =>
      rw [delete_value]
      exact .ok .nil rfl (by simp)
    | hash _ _ _ => cases hnode
  | @branch t i key hbranch hkey below ih =>
    cases hn with
    | hash _ _ _ => cases hnode
    | @full _ children flags _ hflags hrep =>
      have hslot : Slot 16 i ((t i).erase key) :=
        slot_erase hbranch hkey fun h hrest => (h.erase hrest).imp_left And.left
      obtain ⟨dirty, m, hdelete, hb, -, hsame⟩ :=
        Edits.stored hdisk (fun _ depth h => delete_hash depth h key) (hsized.full i) (hrep i) below
          (Nat.le_of_succ_le_succ hdepth) fun m depth => ih (hsized.full i) false m depth
      rw [delete_full, hdelete, erase]
      cases dirty with
      | false =>
        rw [hsame rfl, update_eq_self, reduce_of_two hbranch.two]
        exact .ok (.full hflags hrep) rfl fun _ => rfl
      | true =>
        have hsizes : ∀ j, Sized (Function.update t i ((t i).erase key) j) := by
          refine (forall_update_iff _ fun _ => Sized).mpr ⟨?_, fun j _ => hsized.full j⟩
          exact sized_erase below (hsized.full i)
        obtain ⟨m, hm, hrep', hnode'⟩ := reduced_edits hdisk root (rep_update hrep i hb)
          (slot_update (child_cases hbranch) hslot) hsizes (exists_ne_empty_update hbranch.two i)
        exact ⟨true, m, hm, hrep', hnode', by simp⟩

theorem delete_edits (hn : Rep keccak written true n t) (hkey : Ends 16 key) :
    Edits keccak written true t (t.erase key) (Disk.delete disk key.length n key) := by
  exact deletes hdisk h hsized true n key key.length hn hn.isHash_root hkey (Nat.le_succ _)

end Delete

/-! ### Looking up -/

section Find

theorem find_hash (depth : Nat) (h : Hash) (path : List Nibble) :
    find disk (depth + 1) (.hash h) path = Disk.findStored disk (find disk depth) h path := rfl

theorem find_short (depth : Nat) (key path : List Nibble) (child : TrieNode) (flags : NodeFlag) :
    find disk depth (.short key child flags) path =
      if key.isPrefixOf path then
        foundBelow (.short key child flags) (fun below => .short key below flags)
          (find disk depth child (path.drop key.length))
      else .ok (none, .short key child flags, false) := by
  cases depth <;> rfl

theorem find_full (depth : Nat) (children : Nibble → TrieNode) (flags : NodeFlag) (i : Nibble) (path : List Nibble) :
    find disk depth (.full children flags) (i :: path) =
      foundBelow (.full children flags) (fun below => .full (Function.update children i below) flags)
        (find disk depth (children i) path) := by
  cases depth <;> rfl

/-- The walk finds what the tree has, and the node with what was read still stands for the tree. -/
def Finds (keccak : Bytes → Hash) (written : Set Bytes) (root : Bool) (t : NibbleTree) (v : Option Bytes)
    (r : Except TrieError Disk.Found) : Prop := ∃ n read, r = .ok (v, n, read) ∧ Rep keccak written root n t

variable {t : NibbleTree} {n : TrieNode} {key : List Nibble}

theorem Finds.below {root : Bool} {v : Option Bytes} {r : Except TrieError Disk.Found}
    {rebuild : TrieNode → TrieNode} (hr : Finds keccak written false t v r) (hn : Rep keccak written root n u)
    (hrebuild : ∀ below, Rep keccak written false below t → Rep keccak written root (rebuild below) u) :
    Finds keccak written root u v (foundBelow n rebuild r) := by
  obtain ⟨below, read, rfl, hbelow⟩ := hr
  cases read with
  | false => exact ⟨n, false, rfl, hn⟩
  | true => exact ⟨_, true, rfl, hrebuild below hbelow⟩

/-- Looking up in a node in memory that stands for the tree. -/
def Looks (keccak : Bytes → Hash) (written : Set Bytes) (disk : Disk) (t : NibbleTree) : Prop :=
  ∀ (root : Bool) (n : TrieNode) (key : List Nibble) (depth : Nat), Rep keccak written root n t → n.isHash = false →
    Ends 16 key → key.length ≤ depth + 1 → Finds keccak written root t (t.lookup key) (find disk depth n key)

variable (hdisk : Holding keccak disk written)

include hdisk

theorem Finds.stored {v : Option Bytes} {depth : Nat} (hsized : Sized t)
    (hn : Rep keccak written false n t) (hkey : Walk 16 t key) (hdepth : key.length ≤ depth)
    (hmemory : ∀ m depth, Rep keccak written false m t → m.isHash = false → key.length ≤ depth + 1 →
      Finds keccak written false t v (find disk depth m key)) :
    Finds keccak written false t v (find disk depth n key) := by
  refine hn.walk hdisk hsized hkey hdepth hmemory ?_
  rintro x m depth - hresolve - - ⟨m', read, hfind, hrep⟩
  refine ⟨m', true, ?_, hrep⟩
  rw [find_hash, Disk.findStored, hresolve]
  simp [hfind]

theorem looks (h : t = .empty ∨ Normal 16 t) (hsized : Sized t) : Looks keccak written disk t := by
  intro root n key depth hn hnode hkey hdepth
  have hwalk := walk h hkey
  clear h hkey
  induction hwalk generalizing root n depth with
  | @missing path key t _ _ hp =>
    cases hn with
    | hash _ _ _ => cases hnode
    | short hflags hchild =>
      have hnone : (short path t).lookup key = none := under_of_not _ hp
      rw [find_short, if_neg fun h => hp (List.isPrefixOf_iff_prefix.mp h), hnone]
      exact ⟨_, false, rfl, .short hflags hchild⟩
  | @leaf path w _ =>
    cases hn with
    | hash _ _ _ => cases hnode
    | short hflags hchild =>
      have hsome : (short path (.value w) : NibbleTree).lookup path = some w := by
        have h := under_append path (value w : NibbleTree).lookup []
        rw [append_nil] at h
        exact h.trans (update_self ..)
      rw [find_short, if_pos (List.isPrefixOf_iff_prefix.mpr (prefix_refl path)), drop_length, hsome]
      refine Finds.below ?_ (.short hflags hchild) fun below hbelow => .short hflags hbelow
      cases hchild with
      | value => exact ⟨.value w, false, by cases depth <;> rfl, .value⟩
      | hash hnormal _ _ => cases hnormal
  | @extension path key children hne _ _ _ below ih =>
    cases hn with
    | hash _ _ _ => cases hnode
    | short hflags hchild =>
      have hpath := length_pos_iff.mpr hne
      have hlookup : (short path (.full children) : NibbleTree).lookup (path ++ key) =
          (full children).lookup key := under_append path _ key
      rw [length_append] at hdepth
      rw [find_short, if_pos (List.isPrefixOf_iff_prefix.mpr (prefix_append path key)), drop_left,
        hlookup]
      exact (Finds.stored hdisk hsized.short hchild below (by omega) fun m depth =>
        ih hsized.short false m depth).below (.short hflags hchild) fun below hbelow => .short hflags hbelow
  | empty key =>
    cases hn with
    | nil => exact ⟨.nil, false, by cases depth <;> rfl, .nil⟩
    | hash _ _ _ => cases hnode
  | value v =>
    cases hn with
    | value => exact ⟨.value v, false, by cases depth <;> rfl, .value⟩
    | hash _ _ _ => cases hnode
  | @branch t i key _ _ below ih =>
    cases hn with
    | hash _ _ _ => cases hnode
    | full hflags hrep =>
      rw [find_full, lookup_full_cons]
      refine (Finds.stored hdisk (hsized.full i) (hrep i) below (Nat.le_of_succ_le_succ hdepth) fun m depth =>
        ih (hsized.full i) false m depth).below (.full hflags hrep) fun below hb => .full hflags fun j => ?_
      have := rep_update hrep i hb j
      rwa [update_eq_self] at this

theorem find_finds (h : t = .empty ∨ Normal 16 t)
    (hsized : Sized t) (hn : Rep keccak written true n t) (hkey : Ends 16 key) :
    Finds keccak written true t (t.lookup key) (find disk key.length n key) := by
  exact looks hdisk h hsized true n key key.length hn hn.isHash_root hkey (Nat.le_succ _)

end Find

end PadiChain.Trie

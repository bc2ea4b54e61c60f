import PadiChain.TrieRep

/-! The hash of a trie is the root hash of its tree, whatever is cached in it. Committing gives the same hash;
it puts encodings of nodes of the tree only, and once they are written the whole tree is. -/

namespace PadiChain.Trie

open Rlp Patricia Disk List

variable {keccak : Bytes → Hash} {written : Set Bytes}

/-! ### More is written -/

variable {written' : Set Bytes} {t : NibbleTree} {u : Nibble → NibbleTree} {root : Bool} {flags : NodeFlag}
  {n r collapsed : TrieNode} {h : Hash} {cached : NodeFlag → TrieNode} {e : Bytes} {batch : List Put}
  {commitChild : Fin 16 → List Put → (TrieNode × TrieNode) × List Put}

section

variable (hsub : written ⊆ written')

include hsub

theorem Written.mono (h : Written keccak written t) : Written keccak written' t := by
  induction t with
  | empty | value v => trivial
  | short key child ih => exact ⟨fun hsize => hsub (h.1 hsize), ih h.2⟩
  | full children ih => exact ⟨fun hsize => hsub (h.1 hsize), fun i => ih i (h.2 i)⟩

theorem FlagOk.mono (h : FlagOk keccak written root flags t) : FlagOk keccak written' root flags t where
  __ := h
  stored x hx := ⟨(h.stored x hx).1.mono hsub, hsub (h.stored x hx).2⟩

theorem Rep.mono (h : Rep keccak written root n t) : Rep keccak written' root n t := by
  induction h with
  | nil => exact .nil
  | value => exact .value
  | hash hnormal hsize hwritten => exact .hash hnormal hsize (hwritten.mono hsub)
  | short hflags _ ih => exact .short (hflags.mono hsub) ih
  | full hflags _ ih => exact .full (hflags.mono hsub) ih

end

/-! ### References -/

/-- A tree that stands below a branch or behind a path. -/
def IsChild (t : NibbleTree) : Prop := t = .empty ∨ (∃ v, t = .value v) ∨ Normal 16 t

theorem IsChild.normal_short {key : List Nibble} (h : IsChild (.short key t)) : Normal 16 (Tree.short key t) := by
  obtain h | ⟨v, h⟩ | h := h
  · cases h
  · cases h
  · exact h

theorem IsChild.normal_full (h : IsChild (.full u)) : Normal 16 (Tree.full u) := by
  obtain h | ⟨v, h⟩ | h := h
  · cases h
  · cases h
  · exact h

theorem IsChild.short {key : List Nibble} (h : IsChild (.short key t)) : IsChild t := by
  cases h.normal_short with
  | leaf hkey => exact .inr (.inl ⟨_, rfl⟩)
  | extension hne hkey hchild => exact .inr (.inr hchild)

theorem IsChild.full (h : IsChild (.full u)) (i : Nibble) : IsChild (u i) := by
  obtain h | ⟨-, h⟩ | ⟨-, h⟩ := child_cases h.normal_full i
  · exact .inl h
  · exact .inr (.inl h)
  · exact .inr (.inr h)

theorem eq_hash_of_decoded (hr : r.decoded none = .hash h) : r = .hash h := by
  cases r with
  | hash x => exact hr
  | _ => cases hr

/-- A node with its children in reference form has the encoding of the tree. -/
theorem encodeNode_of_decoded (h : collapsed.decoded none = collapse keccak t) :
    encodeNode keccak collapsed = encodeTree keccak t := by
  rw [← encodeNode_decoded collapsed none, h]
  rfl

theorem decoded_short (key : List Nibble) {ref : TrieNode} (flags : NodeFlag)
    (h : ref.decoded none = refer keccak (collapse keccak t)) :
    (TrieNode.short key ref flags).decoded none = collapse keccak (.short key t) := by
  rw [TrieNode.decoded, h]
  rfl

theorem decoded_full {refs : Nibble → TrieNode} (flags : NodeFlag)
    (h : ∀ i, (refs i).decoded none = refer keccak (collapse keccak (u i))) :
    (TrieNode.full refs flags).decoded none = collapse keccak (.full u) := by
  simp only [TrieNode.decoded, h]
  rfl

theorem Rep.decoded_value (hn : Rep keccak written false n t)
    (ht : t = .empty ∨ ∃ v, t = .value v) : n.decoded none = refer keccak (collapse keccak t) := by
  obtain rfl | ⟨v, rfl⟩ := ht
  · cases hn with
    | nil => rfl
    | hash hnormal _ _ => cases hnormal
  · cases hn with
    | value => rfl
    | hash hnormal _ _ => cases hnormal

theorem value_of_normal (h : Normal 16 (Tree.full u)) : u 16 = .empty ∨ ∃ v, u 16 = .value v := by
  cases h with
  | branch hstop _ _ => exact hstop

/-! ### Hashing -/

/-- The reference form of a tree. A root may stand for its hash although its encoding is short. -/
def IsHashed (keccak : Bytes → Hash) (root : Bool) (t : NibbleTree) (r : TrieNode) : Prop :=
  r.decoded none = refer keccak (collapse keccak t) ∨ (root = true ∧ r = .hash (rootHash keccak t))

theorem IsHashed.decoded (h : IsHashed keccak false t r) : r.decoded none = refer keccak (collapse keccak t) := by
  obtain h | ⟨h, -⟩ := h
  · exact h
  · cases h

theorem FlagOk.isHashed (hflags : FlagOk keccak written root flags t)
    (ht : Normal 16 t) (hh : cachedHash flags = some h) : IsHashed keccak root t (.hash h) := by
  obtain ⟨rfl, hroot | hsize⟩ := hflags.cached h hh
  · exact .inr ⟨hroot, rfl⟩
  · rw [IsHashed, refer_collapse ht, if_neg (not_lt.mpr hsize)]
    exact .inl rfl

theorem storedHash_eq_none (h : flags.persisted = false) : flags.storedHash = none := by
  rw [NodeFlag.storedHash, h]
  rfl

/-- A node without a cached hash that has a long encoding is not in the store. -/
theorem FlagOk.not_persisted (hflags : FlagOk keccak written root flags t)
    (hnone : cachedHash flags = none) (hsize : 32 ≤ (encodeTree keccak t).length) : flags.persisted = false := by
  cases hdirty : flags.dirty with
  | true => exact hflags.fresh hdirty
  | false =>
    rw [cachedHash, hdirty, if_neg Bool.false_ne_true] at hnone
    cases hpersisted : flags.persisted with
    | false => rfl
    | true => exact absurd (hflags.inlined hdirty hnone hpersisted) (not_lt.mpr hsize)

theorem flagOk_hashed (root : Bool) (hsize : 32 ≤ (encodeTree keccak t).length) :
    FlagOk keccak written root ⟨some (rootHash keccak t), false, false⟩ t where
  cached h hh := by
    cases hh
    exact ⟨rfl, .inr hsize⟩
  stored _ hh := nomatch hh
  inlined _ h := nomatch h
  fresh h := nomatch h

theorem reference_spec (ht : Normal 16 t) (hcollapsed : collapsed.decoded none = collapse keccak t)
    (hflags : FlagOk keccak written root flags t) (hnone : cachedHash flags = none)
    (hcached : ∀ flags, FlagOk keccak written root flags t → Rep keccak written root (cached flags) t) :
    Rep keccak written root (reference (encoding keccak) collapsed cached flags).2 t ∧
      IsHashed keccak root t (reference (encoding keccak) collapsed cached flags).1 := by
  have henc := encodeNode_of_decoded hcollapsed
  rw [reference, IsHashed, refer_collapse ht]
  simp only [encoding, henc]
  split
  · rename_i hsize
    rw [if_neg (not_lt.mpr hsize), hflags.not_persisted hnone hsize]
    exact ⟨hcached _ (flagOk_hashed root hsize), .inl rfl⟩
  · rename_i hsize
    rw [if_pos (not_le.mp hsize)]
    exact ⟨hcached flags hflags, .inl hcollapsed⟩

theorem hashNode_spec (h : Rep keccak written root n t) (ht : IsChild t) :
    Rep keccak written root (hashNode (encoding keccak) n).2 t ∧
      IsHashed keccak root t (hashNode (encoding keccak) n).1 := by
  induction h with
  | nil => exact ⟨.nil, .inl rfl⟩
  | value => exact ⟨.value, .inl rfl⟩
  | hash hnormal hsize hwritten =>
    refine ⟨.hash hnormal hsize hwritten, .inl ?_⟩
    rw [refer_collapse hnormal, if_neg (not_lt.mpr hsize)]
    rfl
  | @short root key child flags t hflags hchild ih =>
    rw [hashNode]
    cases hcached : cachedHash flags with
    | some h => exact ⟨.short hflags hchild, hflags.isHashed ht.normal_short hcached⟩
    | none =>
      obtain ⟨hrep, href⟩ := ih ht.short
      exact reference_spec ht.normal_short (decoded_short key flags href.decoded) hflags hcached fun flags hflags =>
        .short hflags hrep
  | @full root children flags t hflags hchildren ih =>
    rw [hashNode]
    cases hcached : cachedHash flags with
    | some h => exact ⟨.full hflags hchildren, hflags.isHashed ht.normal_full hcached⟩
    | none =>
      refine reference_spec ht.normal_full (decoded_full flags fun i => ?_) hflags hcached fun flags hflags =>
        .full hflags fun i => ?_
      · split
        · rename_i hi
          rw [hi]
          exact (hchildren 16).decoded_value (value_of_normal ht.normal_full)
        · exact (ih i (ht.full i)).2.decoded
      · split
        · exact hchildren i
        · exact (ih i (ht.full i)).1

theorem hashOf_of_isHashed (ht : Normal 16 t) (h : IsHashed keccak root t r) :
    Disk.hashOf keccak r = rootHash keccak t := by
  obtain h | ⟨-, rfl⟩ := h
  · rw [refer_collapse ht] at h
    split at h
    · have hr : ∀ x, r ≠ .hash x := by
        rintro x rfl
        cases ht <;> cases h
      rw [Disk.hashOf, encodeNode_of_decoded h]
      · rfl
      · exact hr
    · rw [eq_hash_of_decoded h]
      rfl
  · rfl

theorem Rep.not_isNil (h : Rep keccak written root n t) (ht : Normal 16 t) :
    ¬ n.isNil = true := fun hnil => ht.ne_empty (h.isNil_iff.mp hnil)

/-- `Hash` is the root hash of the tree, and leaves the trie standing for it. -/
theorem hash_spec (h : Rep keccak written true n t) (ht : t = .empty ∨ Normal 16 t) :
    (Disk.hash keccak n).1 = rootHash keccak t ∧ Rep keccak written true (Disk.hash keccak n).2 t := by
  rw [Disk.hash]
  obtain rfl | ht := ht
  · rw [if_pos (h.isNil_iff.mpr rfl)]
    exact ⟨rfl, .nil⟩
  · rw [if_neg (h.not_isNil ht)]
    obtain ⟨hrep, href⟩ := hashNode_spec h (.inr (.inr ht))
    exact ⟨hashOf_of_isHashed ht href, hrep⟩

/-! ### Committing -/

def putEncodings (keccak : Bytes → Hash) (batch : List Put) : Set Bytes :=
  {e | ∃ h n, Put.node h n ∈ batch ∧ e = encodeNode keccak n}

theorem putEncodings_append (batch puts : List Put) :
    putEncodings keccak (batch ++ puts) = putEncodings keccak batch ∪ putEncodings keccak puts := by
  ext e
  simp only [putEncodings, mem_append, or_and_right, exists_or]
  rfl

def PutOf (keccak : Bytes → Hash) (t : NibbleTree) (put : Put) : Prop :=
  ∃ n, put = .node (keccak (encodeNode keccak n)) n ∧ encodeNode keccak n ∈ encodings keccak t

theorem PutOf.short {key : List Nibble} {put : Put} (h : PutOf keccak t put) : PutOf keccak (.short key t) put := by
  obtain ⟨n, rfl, hmem⟩ := h
  exact ⟨n, rfl, mem_cons_of_mem _ hmem⟩

theorem mem_encodings_full (i : Nibble) (h : e ∈ encodings keccak (u i)) :
    e ∈ encodings keccak (.full u) := mem_cons_of_mem _ (mem_flatMap.mpr ⟨i, mem_finRange i, h⟩)

theorem PutOf.full (i : Nibble) {put : Put} (h : PutOf keccak (u i) put) :
    PutOf keccak (.full u) put := by
  obtain ⟨n, rfl, hmem⟩ := h
  exact ⟨n, rfl, mem_encodings_full i hmem⟩

theorem encodeTree_mem_encodings (ht : Normal 16 t) : encodeTree keccak t ∈ encodings keccak t := by
  cases ht with
  | leaf _ | extension _ _ _ | branch _ _ _ => exact mem_cons_self

theorem putOf_append_root {puts : List Put} (ht : Normal 16 t) (henc : encodeNode keccak n = encodeTree keccak t)
    (h : ∀ put ∈ puts, PutOf keccak t put) : ∀ put ∈ puts ++ [.node (rootHash keccak t) n], PutOf keccak t put := by
  refine forall_mem_append.mpr ⟨h, forall_mem_singleton.mpr ⟨n, ?_, ?_⟩⟩
  · rw [henc]
    rfl
  · rw [henc]
    exact encodeTree_mem_encodings ht

/-- A commit of a node: what it appends to the batch are nodes of the tree, and wherever all of it has been
written, the node stands for the tree and the tree is written. -/
structure Commits (keccak : Bytes → Hash) (written : Set Bytes) (root : Bool) (t : NibbleTree) (batch : List Put)
    (r : (TrieNode × TrieNode) × List Put) : Prop where
  puts : ∃ puts, r.2 = batch ++ puts ∧ ∀ put ∈ puts, PutOf keccak t put
  rep : ∀ written', written ⊆ written' → putEncodings keccak r.2 ⊆ written' →
    Rep keccak written' root r.1.2 t ∧ Written keccak written' t
  ref : r.1.1.decoded none = refer keccak (collapse keccak t) ∨
    (root = true ∧ r.1.1 = .hash (rootHash keccak t) ∧ encodeTree keccak t ∈ written)

theorem Commits.decoded {r : (TrieNode × TrieNode) × List Put}
    (h : Commits keccak written false t batch r) : r.1.1.decoded none = refer keccak (collapse keccak t) := by
  obtain h | ⟨h, -⟩ := h.ref
  · exact h
  · cases h

theorem putEncodings_mono {r puts : List Put} (h : r = batch ++ puts) :
    putEncodings keccak batch ⊆ putEncodings keccak r := by
  rw [h, putEncodings_append]
  exact Set.subset_union_left

theorem exists_no_puts {P : Put → Prop} (batch : List Put) : ∃ puts, batch = batch ++ puts ∧ ∀ put ∈ puts, P put :=
  ⟨[], (append_nil batch).symm, forall_mem_nil _⟩

theorem commits_stored
    (hn : Rep keccak written root n t) (ht : Normal 16 t) (hflags : FlagOk keccak written root flags t)
    (hh : flags.storedHash = some h) : Commits keccak written root t batch ((.hash h, n), batch) where
  puts := exists_no_puts batch
  rep _ hsub _ := ⟨hn.mono hsub, (hflags.stored h hh).1.mono hsub⟩
  ref := by
    have hcached : cachedHash flags = some h := by
      rw [NodeFlag.storedHash] at hh
      split at hh
      · rename_i hstored
        rw [Bool.and_eq_true, Bool.not_eq_true'] at hstored
        rw [cachedHash, hstored.2, if_neg Bool.false_ne_true, hh]
      · cases hh
    obtain ⟨rfl, hroot | hsize⟩ := hflags.cached h hcached
    · exact .inr ⟨hroot, rfl, (hflags.stored _ hh).2⟩
    · rw [refer_collapse ht, if_neg (not_lt.mpr hsize)]
      exact .inl rfl

theorem persist_spec {queued : List Put} (ht : Normal 16 t)
    (hcollapsed : collapsed.decoded none = collapse keccak t) (hflags : FlagOk keccak written root flags t)
    (hputs : ∃ puts, queued = batch ++ puts ∧ ∀ put ∈ puts, PutOf keccak t put)
    (hbelow : ∀ written', written ⊆ written' → putEncodings keccak queued ⊆ written' →
      (∀ flags, FlagOk keccak written' root flags t → Rep keccak written' root (cached flags) t) ∧
        ((32 ≤ (encodeTree keccak t).length → encodeTree keccak t ∈ written') → Written keccak written' t)) :
    Commits keccak written root t batch (persist (encoding keccak) collapsed cached flags queued) := by
  have henc := encodeNode_of_decoded hcollapsed
  obtain ⟨puts, rfl, hputs⟩ := hputs
  rw [persist]
  simp only [encoding, henc]
  split_ifs with hsize
  · refine ⟨⟨_, append_assoc .., putOf_append_root ht henc hputs⟩, ?_, .inl ?_⟩
    · intro written' hsub hput
      have hmem : encodeTree keccak t ∈ written' :=
        hput ⟨rootHash keccak t, collapsed, mem_append_right _ (mem_singleton_self _), henc.symm⟩
      obtain ⟨hrep, hwritten⟩ := hbelow written' hsub ((putEncodings_mono rfl).trans hput)
      have hwritten := hwritten fun _ => hmem
      exact ⟨hrep _ (flagOk_loaded hwritten hmem (.inr hsize)), hwritten⟩
    · rw [refer_collapse ht, if_neg (not_lt.mpr hsize)]
      rfl
  · refine ⟨⟨puts, rfl, hputs⟩, fun written' hsub hput => ?_, .inl ?_⟩
    · obtain ⟨hrep, hwritten⟩ := hbelow written' hsub hput
      exact ⟨hrep flags (hflags.mono hsub), hwritten fun h => absurd h hsize⟩
    · rw [refer_collapse ht, if_pos (not_le.mp hsize)]
      exact hcollapsed

/-- The loop over the children, from what it has at the positions that are left. -/
theorem commitLoop_spec
    (hcommit : ∀ i batch, Commits keccak written false (u i.castSucc) batch (commitChild i batch))
    {positions : List (Fin 16)} (hnodup : positions.Nodup) (refs cached : Nibble → TrieNode) (queued : List Put) :
    let r := positions.foldl
      (fun acc i =>
        let child := commitChild i acc.2
        ((Function.update acc.1.1 i.castSucc child.1.1, Function.update acc.1.2 i.castSucc child.1.2), child.2))
      ((refs, cached), queued)
    (∃ puts, r.2 = queued ++ puts ∧ ∀ put ∈ puts, PutOf keccak (.full u) put) ∧
      (∀ i ∈ positions, (r.1.1 i.castSucc).decoded none = refer keccak (collapse keccak (u i.castSucc))) ∧
      (∀ i ∈ positions, ∀ written', written ⊆ written' → putEncodings keccak r.2 ⊆ written' →
        Rep keccak written' false (r.1.2 i.castSucc) (u i.castSucc) ∧ Written keccak written' (u i.castSucc)) ∧
      ∀ j, (∀ i ∈ positions, j ≠ i.castSucc) → r.1.1 j = refs j ∧ r.1.2 j = cached j := by
  induction positions generalizing refs cached queued with
  | nil =>
    exact ⟨exists_no_puts queued, forall_mem_nil _, forall_mem_nil _, fun _ _ => ⟨rfl, rfl⟩⟩
  | cons i rest ih =>
    obtain ⟨hi, hrest⟩ := nodup_cons.mp hnodup
    have hchild := hcommit i queued
    obtain ⟨⟨later, hlater, hlaterOf⟩, hrefs, hreps, hother⟩ :=
      ih hrest (Function.update refs i.castSucc (commitChild i queued).1.1)
        (Function.update cached i.castSucc (commitChild i queued).1.2) (commitChild i queued).2
    obtain ⟨puts, hputs, hputsOf⟩ := hchild.puts
    -- the rest of the loop leaves position i alone
    obtain ⟨hself, hself'⟩ := hother i.castSucc fun j hj heq => hi (Fin.castSucc_injective 16 heq ▸ hj)
    rw [Function.update_self] at hself hself'
    refine ⟨⟨puts ++ later, ?_, forall_mem_append.mpr ⟨fun put hput => (hputsOf put hput).full _, hlaterOf⟩⟩,
      forall_mem_cons.mpr ⟨?_, hrefs⟩, forall_mem_cons.mpr ⟨fun written' hsub hput => ?_, hreps⟩, fun j hj => ?_⟩
    · rw [← append_assoc, ← hputs]
      exact hlater
    · exact (congrArg (TrieNode.decoded none) hself).trans hchild.decoded
    · have h := hchild.rep written' hsub ((putEncodings_mono hlater).trans hput)
      rw [← hself'] at h
      exact h
    · obtain ⟨href, hcached⟩ := hother j fun k hk => hj k (mem_cons_of_mem i hk)
      have hne := hj i mem_cons_self
      rw [Function.update_of_ne hne] at href hcached
      exact ⟨href, hcached⟩

theorem castSucc_or_last (j : Nibble) : (∃ i : Fin 16, j = i.castSucc) ∨ j = 16 := by
  rcases Fin.eq_castSucc_or_eq_last j with ⟨i, rfl⟩ | rfl
  · exact .inl ⟨i, rfl⟩
  · exact .inr rfl

theorem commitChildren_spec {children : Nibble → TrieNode} (ht : Normal 16 (Tree.full u))
    (hchildren : ∀ i, Rep keccak written false (children i) (u i))
    (hcommit : ∀ i batch, Commits keccak written false (u i.castSucc) batch (commitChild i batch)) (batch : List Put) :
    (∃ puts, (commitChildren commitChild children batch).2 = batch ++ puts ∧
        ∀ put ∈ puts, PutOf keccak (.full u) put) ∧
      (∀ i, ((commitChildren commitChild children batch).1.1 i).decoded none = refer keccak (collapse keccak (u i))) ∧
      ∀ written', written ⊆ written' → putEncodings keccak (commitChildren commitChild children batch).2 ⊆ written' →
        ∀ i, Rep keccak written' false ((commitChildren commitChild children batch).1.2 i) (u i) ∧
          Written keccak written' (u i) := by
  obtain ⟨hputs, hrefs, hreps, hother⟩ :=
    commitLoop_spec hcommit (nodup_finRange 16) children children batch
  obtain ⟨href, hcached⟩ := hother 16 fun i _ => (Fin.castSucc_lt_last i).ne'
  have hvalue := value_of_normal ht
  refine ⟨hputs, fun j => ?_, fun written' hsub hput j => ?_⟩
  · obtain ⟨i, rfl⟩ | rfl := castSucc_or_last j
    · exact hrefs i (mem_finRange i)
    · exact (congrArg (TrieNode.decoded none) href).trans ((hchildren 16).decoded_value hvalue)
  · obtain ⟨i, rfl⟩ | rfl := castSucc_or_last j
    · exact hreps i (mem_finRange i) written' hsub hput
    · constructor
      · exact (hchildren 16).mono hsub
      · obtain h | ⟨v, h⟩ := hvalue
        · rw [h]
          trivial
        · rw [h]
          trivial

theorem commitNode_spec (h : Rep keccak written root n t) (ht : IsChild t)
    (batch : List Put) : Commits keccak written root t batch (commitNode (encoding keccak) n batch) := by
  induction h generalizing batch with
  | nil =>
    exact ⟨exists_no_puts batch, fun _ _ _ => ⟨.nil, trivial⟩, .inl rfl⟩
  | value =>
    exact ⟨exists_no_puts batch, fun _ _ _ => ⟨.value, trivial⟩, .inl rfl⟩
  | hash hnormal hsize hwritten =>
    refine ⟨exists_no_puts batch, fun _ hsub _ => ⟨.hash hnormal hsize (hwritten.mono hsub), hwritten.mono hsub⟩, .inl ?_⟩
    rw [refer_collapse hnormal, if_neg (not_lt.mpr hsize)]
    rfl
  | @short root key child flags t hflags hchild ih =>
    rw [commitNode]
    cases hstored : flags.storedHash with
    | some h => exact commits_stored (.short hflags hchild) ht.normal_short hflags hstored
    | none =>
      have hbelow := ih ht.short batch
      obtain ⟨puts, hputs, hputsOf⟩ := hbelow.puts
      refine persist_spec ht.normal_short (decoded_short key flags hbelow.decoded) hflags
        ⟨puts, hputs, fun put hput => (hputsOf put hput).short⟩ fun written' hsub hput => ?_
      obtain ⟨hrep, hwritten⟩ := hbelow.rep written' hsub hput
      exact ⟨fun flags hflags => .short hflags hrep, fun hmem => ⟨hmem, hwritten⟩⟩
  | @full root children flags t hflags hchildren ih =>
    rw [commitNode]
    cases hstored : flags.storedHash with
    | some h => exact commits_stored (.full hflags hchildren) ht.normal_full hflags hstored
    | none =>
      obtain ⟨hputs, hrefs, hreps⟩ :=
        commitChildren_spec ht.normal_full hchildren (fun i batch => ih i.castSucc (ht.full _) batch) batch
      refine persist_spec ht.normal_full (decoded_full flags hrefs) hflags hputs fun written' hsub hput => ?_
      have hbelow := hreps written' hsub hput
      exact ⟨fun flags hflags => .full hflags fun i => (hbelow i).1, fun hmem => ⟨hmem, fun i => (hbelow i).2⟩⟩

/-- A commit of a trie: the root hash, puts of nodes of the tree, and a trie that stands for the tree once they are
written, and so is the tree. -/
structure CommitsRoot (keccak : Bytes → Hash) (written : Set Bytes) (t : NibbleTree) (r : (Hash × TrieNode) × List Put) :
    Prop where
  root : r.1.1 = rootHash keccak t
  puts : ∀ put ∈ r.2, PutOf keccak t put
  rep : ∀ written', written ⊆ written' → putEncodings keccak r.2 ⊆ written' →
    Rep keccak written' true r.1.2 t ∧ Written keccak written' t ∧ (t ≠ .empty → encodeTree keccak t ∈ written')

theorem commitRoot_spec (ht : Normal 16 t) {r : (TrieNode × TrieNode) × List Put}
    (h : Commits keccak written true t [] r) : CommitsRoot keccak written t (commitRoot (encoding keccak) r) := by
  obtain ⟨⟨ref, cached⟩, batch⟩ := r
  obtain ⟨⟨puts, hputs, hputsOf⟩, hrep, href⟩ := h
  subst hputs
  obtain hshort | hhash : ((∀ x, ref ≠ .hash x) ∧ ref.decoded none = collapse keccak t) ∨
      (ref = .hash (rootHash keccak t) ∧ ∀ written', written ⊆ written' → putEncodings keccak batch ⊆ written' →
        encodeTree keccak t ∈ written') := by
    obtain href | ⟨-, href, hmem⟩ := href
    · rw [refer_collapse ht] at href
      split at href
      · refine .inl ⟨?_, href⟩
        rintro x rfl
        cases ht <;> cases href
      · rename_i hlong
        exact .inr ⟨eq_hash_of_decoded href, fun written' hsub hput =>
          mem_written ht (hrep written' hsub hput).2 (not_lt.mp hlong)⟩
    · exact .inr ⟨href, fun written' hsub _ => hsub hmem⟩
  · obtain ⟨hne, hcollapsed⟩ := hshort
    have henc := encodeNode_of_decoded hcollapsed
    have hroot : commitRoot (encoding keccak) ((ref, cached), batch) =
        ((rootHash keccak t, cached), batch ++ [.node (rootHash keccak t) ref]) := by
      rw [commitRoot]
      · simp only [encoding, henc]
        rfl
      · exact hne
    rw [hroot]
    refine ⟨rfl, putOf_append_root ht henc hputsOf, fun written' hsub hput => ?_⟩
    obtain ⟨hrep, hwritten⟩ := hrep written' hsub ((putEncodings_mono rfl).trans hput)
    exact ⟨hrep, hwritten, fun _ =>
      hput ⟨rootHash keccak t, ref, mem_append_right _ (mem_singleton_self _), henc.symm⟩⟩
  · obtain ⟨rfl, hmem⟩ := hhash
    exact ⟨rfl, hputsOf, fun written' hsub hput => ⟨(hrep written' hsub hput).1, (hrep written' hsub hput).2,
      fun _ => hmem written' hsub hput⟩⟩

theorem commit_spec (h : Rep keccak written true n t) (ht : t = .empty ∨ Normal 16 t) :
    CommitsRoot keccak written t (Disk.commit keccak n) := by
  rw [Disk.commit]
  obtain rfl | ht := ht
  · rw [if_pos (h.isNil_iff.mpr rfl)]
    exact ⟨rfl, forall_mem_nil _, fun _ _ _ => ⟨.nil, trivial, fun h => absurd rfl h⟩⟩
  · rw [if_neg (h.not_isNil ht)]
    exact commitRoot_spec ht (commitNode_spec h (.inr (.inr ht)) [])

/-! ### Writing a batch -/

theorem mem_writes (hputs : ∀ put ∈ batch, PutOf keccak t put) :
    ∀ entry ∈ Disk.writes keccak batch, entry.1 = keccak entry.2 ∧ entry.2 ∈ putEncodings keccak batch := by
  induction batch with
  | nil => exact forall_mem_nil _
  | cons put batch ih =>
    have hmono : putEncodings keccak batch ⊆ putEncodings keccak (put :: batch) := by
      rintro e ⟨h, n, hmem, rfl⟩
      exact ⟨h, n, mem_cons_of_mem _ hmem, rfl⟩
    obtain ⟨n, rfl, -⟩ := hputs _ mem_cons_self
    refine forall_mem_cons.mpr ⟨⟨rfl, _, n, mem_cons_self, rfl⟩, fun entry hentry => ?_⟩
    exact (ih (forall_mem_cons.mp hputs).2 entry hentry).imp_right fun hmem => hmono hmem

theorem putEncodings_subset_writes (h : e ∈ putEncodings keccak batch) :
    e ∈ (Disk.writes keccak batch).map Prod.snd := by
  obtain ⟨h, n, hmem, rfl⟩ := h
  induction batch with
  | nil => exact absurd hmem not_mem_nil
  | cons put batch ih =>
    rcases mem_cons.mp hmem with rfl | hrest
    · exact mem_cons_self
    · cases put with
      | node h' n' => exact mem_cons_of_mem _ (ih hrest)
      | code h' code => exact ih hrest

/-- Writing entries keeps those that are there and adds its own, as long as no two encodings have one hash. -/
theorem holding_write {entries : List (Hash × Bytes)} {disk : Disk} (hdisk : Holding keccak disk written)
    (hkeys : ∀ entry ∈ entries, entry.1 = keccak entry.2)
    (hinj : Set.InjOn keccak (written ∪ {e | e ∈ entries.map Prod.snd})) :
    Holding keccak (Disk.write disk entries) (written ∪ {e | e ∈ entries.map Prod.snd}) := by
  induction entries generalizing disk written with
  | nil =>
    intro e he
    obtain he | he := he
    · exact hdisk e he
    · exact absurd he not_mem_nil
  | cons entry entries ih =>
    obtain ⟨h, enc⟩ := entry
    obtain rfl : h = keccak enc := hkeys _ mem_cons_self
    have hset : written ∪ {e | e ∈ ((keccak enc, enc) :: entries).map Prod.snd} =
        (written ∪ {enc}) ∪ {e | e ∈ entries.map Prod.snd} := by
      ext e
      simp only [map_cons, mem_cons, Set.mem_union, Set.mem_ofPred_eq, Set.mem_singleton_iff, or_assoc]
    rw [hset] at hinj ⊢
    refine ih (fun e he => ?_) (fun entry hentry => hkeys entry (mem_cons_of_mem _ hentry)) hinj
    rw [Function.update_apply]
    split_ifs with heq
    · exact congrArg some (hinj (.inl (.inr rfl)) (.inl he) heq.symm)
    · obtain he | rfl := he
      · exact hdisk e he
      · exact absurd rfl heq

end PadiChain.Trie

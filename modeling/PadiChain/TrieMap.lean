import PadiChain.TrieAlike
import PadiChain.TrieSim

/-! A trie is a map. Of the entries of a map there is one tree in normal form, and its root tells it apart from the trees
of other maps as long as no two of their encodings have one hash. Every call on a trie that stands for a map does what it
says on the map. -/

namespace PadiChain.Trie

open Rlp Patricia Disk Function

/-! ### Keys -/

theorem keyToNibbles_cons (b : UInt8) (key : Bytes) :
    keyToNibbles (b :: key) = Fin.ofNat 17 (b.toNat / 16) :: Fin.ofNat 17 (b.toNat % 16) :: keyToNibbles key := rfl

theorem digits_ne_stop (b : UInt8) : Fin.ofNat 17 (b.toNat / 16) ≠ 16 ∧ Fin.ofNat 17 (b.toNat % 16) ≠ 16 := by
  have hb := b.toNat_lt
  have hne {n : Nat} (hn : n < 16) : Fin.ofNat 17 n ≠ 16 := by
    intro h
    have := congrArg Fin.val h
    rw [Fin.val_ofNat] at this
    omega
  exact ⟨hne (by omega), hne (by omega)⟩

theorem eq_of_digits {b c : UInt8} (hhigh : Fin.ofNat 17 (b.toNat / 16) = Fin.ofNat 17 (c.toNat / 16))
    (hlow : Fin.ofNat 17 (b.toNat % 16) = Fin.ofNat 17 (c.toNat % 16)) : b = c := by
  have hb := b.toNat_lt
  have hc := c.toNat_lt
  have h₁ := congrArg Fin.val hhigh
  have h₂ := congrArg Fin.val hlow
  rw [Fin.val_ofNat, Fin.val_ofNat] at h₁ h₂
  apply UInt8.toNat_inj.mp
  omega

theorem ends_keyToNibbles (key : Bytes) : Ends 16 (keyToNibbles key) := by
  induction key with
  | nil => exact ends_singleton 16
  | cons b key ih =>
    rw [keyToNibbles_cons]
    obtain ⟨hhigh, hlow⟩ := digits_ne_stop b
    have hdigits : (16 : Nibble) ∉ [Fin.ofNat 17 (b.toNat / 16), Fin.ofNat 17 (b.toNat % 16)] := by
      rw [List.mem_cons, List.mem_singleton, not_or]
      exact ⟨hhigh.symm, hlow.symm⟩
    exact Ends.append hdigits ih

theorem keyToNibbles_injective : Function.Injective keyToNibbles := by
  intro key
  induction key with
  | nil =>
    intro key' h
    cases key' with
    | nil => rfl
    | cons c key' =>
      exact absurd (List.cons.inj h).1.symm (digits_ne_stop c).1
  | cons b key ih =>
    intro key' h
    cases key' with
    | nil =>
      exact absurd (List.cons.inj h).1 (digits_ne_stop b).1
    | cons c key' =>
      obtain ⟨hhigh, h⟩ := List.cons.inj h
      obtain ⟨hlow, h⟩ := List.cons.inj h
      rw [eq_of_digits hhigh hlow, ih h]

/-! ### The tree of a map -/

abbrev Entries := Bytes → Option Bytes

structure Holds (t : NibbleTree) (m : Entries) : Prop where
  normal : t = .empty ∨ Normal 16 t
  sized : Sized t
  lookup : ∀ key, t.lookup (keyToNibbles key) = m key
  keys : ∀ path v, t.lookup path = some v → ∃ key, path = keyToNibbles key

theorem holds_empty : Holds .empty fun _ => none where
  normal := .inl rfl
  sized _ _ h := nomatch h
  lookup _ := rfl
  keys _ _ h := nomatch h

variable {t u : NibbleTree} {m : Entries}

section

variable (ht : Holds t m)

include ht

theorem Holds.lookup_eq (hu : Holds u m) : t.lookup = u.lookup := by
  have hsome : ∀ {t u : NibbleTree}, Holds t m → Holds u m → ∀ path v, t.lookup path = some v → u.lookup path = some v := by
    intro t u ht hu path v hv
    obtain ⟨key, rfl⟩ := ht.keys path v hv
    rw [hu.lookup, ← ht.lookup, hv]
  funext path
  apply Option.ext
  intro v
  exact ⟨hsome ht hu path v, hsome hu ht path v⟩

theorem Holds.unique (hu : Holds u m) : t = u := by
  have hlookup := ht.lookup_eq hu
  obtain rfl | hnormal := ht.normal
  · obtain rfl | hnormal' := hu.normal
    · rfl
    · obtain ⟨path, v, hv⟩ := hnormal'.exists_lookup
      rw [← hlookup] at hv
      cases hv
  · obtain rfl | hnormal' := hu.normal
    · obtain ⟨path, v, hv⟩ := hnormal.exists_lookup
      rw [hlookup] at hv
      cases hv
    · exact hnormal.ext hnormal' hlookup

theorem Holds.change {key : Bytes} {x : Option Bytes}
    (hnormal : u = .empty ∨ Normal 16 u) (hlookup : u.lookup = Function.update t.lookup (keyToNibbles key) x)
    (hx : ∀ v, x = some v → v ≠ [] ∧ Fits key v) : Holds u (Function.update m key x) where
  normal := hnormal
  sized path v hv := by
    rw [hlookup, update_apply] at hv
    split_ifs at hv with hpath
    · exact hpath ▸ hx v hv
    · exact ht.sized path v hv
  lookup other := by
    rw [hlookup, update_apply_of_injective _ keyToNibbles_injective, funext ht.lookup]
  keys path v hv := by
    rw [hlookup, update_apply] at hv
    split_ifs at hv with hpath
    · exact ⟨key, hpath⟩
    · exact ht.keys path v hv

theorem Holds.put {key value : Bytes} (hvalue : value ≠ [])
    (hfits : Fits key value) : Holds (t.put value (keyToNibbles key)) (Function.update m key (some value)) := by
  have hkey := ends_keyToNibbles key
  refine ht.change (.inr (normal_put value ht.normal hkey)) ?_ fun v hv => ?_
  · obtain rfl | hnormal := ht.normal
    · exact Tree.lookup_put_empty value _
    · exact hnormal.lookup_put hkey value
  · cases hv
    exact ⟨hvalue, hfits⟩

theorem Holds.erase (key : Bytes) : Holds (t.erase (keyToNibbles key)) (Function.update m key none) := by
  have hkey := ends_keyToNibbles key
  obtain rfl | hnormal := ht.normal
  · refine ht.change (.inl rfl) ?_ nofun
    exact (Function.update_eq_self (keyToNibbles key) (Tree.empty : NibbleTree).lookup).symm
  · refine ht.change ?_ (hnormal.lookup_erase hkey) nofun
    obtain ⟨hempty, -⟩ | hnormal := hnormal.erase hkey
    · exact .inl hempty
    · exact .inr hnormal

end

/-! ### Trees with one root -/

section Root

variable {keccak : Bytes → Hash}

theorem decodeNode_empty : ∀ n, decodeNode 2 none [0x80] ≠ .ok n := by
  intro n h
  cases h

variable {t u : NibbleTree}

theorem collapse_of_encodeTree (h : Normal 16 t) (hsized : Sized t) {depth : Nat}
    (hdepth : (encodeTree keccak t).length < depth) :
    decodeNode depth none (encodeTree keccak t) = .ok (collapse keccak t) := by
  have hdecode := decodeNode_encodeNode (collapsed_collapse h hsized) hdepth (length_encodeTree_le h hsized) none
  rw [decoded_collapse] at hdecode
  exact hdecode

theorem encodeTree_ne_empty (h : Normal 16 t) (hsized : Sized t) : encodeTree keccak t ≠ [0x80] := by
  intro henc
  have hlength : (encodeTree keccak t).length < 2 := by
    rw [henc]
    decide
  have hdecode := collapse_of_encodeTree h hsized hlength
  rw [henc] at hdecode
  exact decodeNode_empty _ hdecode

theorem collapse_eq_of_encodeTree (ht : Normal 16 t) (hu : Normal 16 u) (hst : Sized t) (hsu : Sized u)
    (h : encodeTree keccak t = encodeTree keccak u) : collapse keccak t = collapse keccak u := by
  have hdecode := collapse_of_encodeTree ht hst (Nat.lt_succ_self (encodeTree keccak t).length)
  rw [h, collapse_of_encodeTree hu hsu (Nat.lt_succ_self _)] at hdecode
  exact (Outcome.ok.inj hdecode).symm

theorem refer_ne (h : Normal 16 t) :
    refer keccak (collapse keccak t) ≠ .nil ∧ ∀ v, refer keccak (collapse keccak t) ≠ .value v := by
  rw [refer_collapse h]
  constructor
  · intro heq
    split at heq <;> cases h <;> cases heq
  · intro v heq
    split at heq <;> cases h <;> cases heq

theorem collapse_of_refer (ht : IsChild t) (hu : IsChild u) (hst : Sized t) (hsu : Sized u)
    (hinj : Set.InjOn keccak {e | e ∈ encodings keccak t ∨ e ∈ encodings keccak u})
    (h : refer keccak (collapse keccak t) = refer keccak (collapse keccak u)) : collapse keccak t = collapse keccak u := by
  obtain rfl | ⟨v, rfl⟩ | ht := ht
  · obtain rfl | ⟨w, rfl⟩ | hu := hu
    · rfl
    · cases h
    · exact absurd h.symm (refer_ne hu).1
  · obtain rfl | ⟨w, rfl⟩ | hu := hu
    · cases h
    · exact h
    · exact absurd h.symm ((refer_ne hu).2 v)
  · obtain rfl | ⟨w, rfl⟩ | hu := hu
    · exact absurd h (refer_ne ht).1
    · exact absurd h ((refer_ne ht).2 w)
    · rw [refer_collapse ht, refer_collapse hu] at h
      split at h
      · split at h
        · exact h
        · cases ht <;> cases h
      · split at h
        · cases hu <;> cases h
        · exact collapse_eq_of_encodeTree ht hu hst hsu (hinj (.inl (encodeTree_mem_encodings ht))
            (.inr (encodeTree_mem_encodings hu)) (TrieNode.hash.inj h))

/-- Trees with the same collapsed form are the same, unless two of their encodings have one hash. -/
theorem collapse_injective (hinj : Set.InjOn keccak {e | e ∈ encodings keccak t ∨ e ∈ encodings keccak u})
    (ht : IsChild t) (hu : IsChild u) (hst : Sized t) (hsu : Sized u) (h : collapse keccak t = collapse keccak u) : t = u := by
  induction t generalizing u with
  | empty =>
    cases u with
    | empty => rfl
    | _ => cases h
  | value v =>
    cases u with
    | value w => rw [TrieNode.value.inj h]
    | _ => cases h
  | short key t ih =>
    cases u with
    | short key' u =>
      obtain ⟨rfl, hchild, -⟩ := TrieNode.short.inj h
      have hinj : Set.InjOn keccak {e | e ∈ encodings keccak t ∨ e ∈ encodings keccak u} :=
        hinj.mono fun e he => he.imp (List.mem_cons_of_mem _) (List.mem_cons_of_mem _)
      have hcollapse := collapse_of_refer ht.short hu.short hst.short hsu.short hinj hchild
      rw [ih hinj ht.short hu.short hst.short hsu.short hcollapse]
    | _ => cases h
  | full t ih =>
    cases u with
    | full u =>
      obtain ⟨hchildren, -⟩ := TrieNode.full.inj h
      congr 1
      funext i
      have hinj : Set.InjOn keccak {e | e ∈ encodings keccak (t i) ∨ e ∈ encodings keccak (u i)} :=
        hinj.mono fun e he => he.imp (mem_encodings_full i) (mem_encodings_full i)
      have hcollapse := collapse_of_refer (ht.full i) (hu.full i) (hst.full i) (hsu.full i) hinj (congrFun hchildren i)
      exact ih i hinj (ht.full i) (hu.full i) (hst.full i) (hsu.full i) hcollapse
    | _ => cases h

theorem rootHash_injective {m' : Entries} (ht : Holds t m) (hu : Holds u m')
    (hinj : Set.InjOn keccak (Insert.insert [0x80] {e | e ∈ encodings keccak t ∨ e ∈ encodings keccak u}))
    (h : rootHash keccak t = rootHash keccak u) : t = u := by
  have hmem : ∀ {t : NibbleTree}, t = .empty ∨ Normal 16 t →
      encodeTree keccak t ∈ (Insert.insert [0x80] {e | e ∈ encodings keccak t} : Set Bytes) := by
    rintro t (rfl | hnormal)
    · exact Set.mem_insert _ _
    · exact Set.mem_insert_of_mem _ (encodeTree_mem_encodings hnormal)
  have henc : encodeTree keccak t = encodeTree keccak u := by
    refine hinj (Set.insert_subset_insert ?_ (hmem ht.normal)) (Set.insert_subset_insert ?_ (hmem hu.normal)) h
    · exact fun e he => .inl he
    · exact fun e he => .inr he
  obtain rfl | hnormal := ht.normal
  · obtain rfl | hnormal' := hu.normal
    · rfl
    · exact absurd henc.symm (encodeTree_ne_empty hnormal' hu.sized)
  · obtain rfl | hnormal' := hu.normal
    · exact absurd henc (encodeTree_ne_empty hnormal ht.sized)
    · exact collapse_injective (hinj.mono (Set.subset_insert _ _)) (.inr (.inr hnormal)) (.inr (.inr hnormal')) ht.sized
        hu.sized (collapse_eq_of_encodeTree hnormal hnormal' ht.sized hu.sized henc)

end Root

/-! ### Clients of maps -/

structure Maps where
  tries : List Entries
  roots : List Entries

def Maps.start : Maps := ⟨[fun _ => none], []⟩

/-- A call on a map. An empty value means that the key is absent. -/
def Maps.call (s : Maps) (i : Nat) (m : Entries) : Call → Maps
  | .update key value _ => ⟨s.tries.set i (Function.update m key (if value = [] then none else some value)), s.roots⟩
  | .delete key => ⟨s.tries.set i (Function.update m key none), s.roots⟩
  | .get _ => s
  | .hash => s
  | .copy => ⟨s.tries ++ [m], s.roots⟩
  | .commit => ⟨s.tries, s.roots ++ [m]⟩

def Maps.step (s : Maps) : Op → Maps
  | .on i call =>
    match s.tries[i]? with
    | none => s
    | some m => s.call i m call
  | .reopen j =>
    match s.roots[j]? with
    | none => s
    | some m => ⟨s.tries ++ [m], s.roots⟩

/-- The encodings of the nodes that a trie with these entries has. -/
def formed (keccak : Bytes → Hash) (m : Entries) : Set Bytes := {e | ∃ t, Holds t m ∧ e ∈ encodings keccak t}

def Maps.forms (keccak : Bytes → Hash) (s : Maps) : Set Bytes := {e | ∃ m ∈ s.roots, e ∈ formed keccak m}

/-- Among the encodings, and that of the empty trie, no two have one hash, and none has the hash zero. -/
structure CollisionFree (keccak : Bytes → Hash) (forms : Set Bytes) : Prop where
  inj : Set.InjOn keccak (Insert.insert [0x80] forms)
  ne_zero : ∀ e ∈ forms, keccak e ≠ 0

theorem CollisionFree.mono {keccak : Bytes → Hash} {forms forms' : Set Bytes} (h : CollisionFree keccak forms')
    (hsub : forms ⊆ forms') : CollisionFree keccak forms where
  inj := h.inj.mono (Set.insert_subset_insert hsub)
  ne_zero e he := h.ne_zero e (hsub he)

/-! ### One call -/

section Call

variable (keccak : Bytes → Hash) (written : Set Bytes)

def StandsFor (n : TrieNode) (m : Entries) : Prop := ∃ t, Holds t m ∧ Rep keccak written true n t

def RootOf (h : Hash) (m : Entries) : Prop :=
  ∃ t, Holds t m ∧ h = rootHash keccak t ∧ Written keccak written t ∧ (t ≠ .empty → encodeTree keccak t ∈ written)

variable {keccak written} {disk : Disk}

variable {written' forms : Set Bytes} {n : TrieNode} {m : Entries} {h : Hash}

theorem StandsFor.mono (hsub : written ⊆ written')
    (h : StandsFor keccak written n m) : StandsFor keccak written' n m := by
  obtain ⟨t, ht, hrep⟩ := h
  exact ⟨t, ht, hrep.mono hsub⟩

theorem RootOf.mono (hsub : written ⊆ written') (hroot : RootOf keccak written h m) : RootOf keccak written' h m := by
  obtain ⟨t, ht, hh, hwritten, hmem⟩ := hroot
  exact ⟨t, ht, hh, hwritten.mono hsub, fun hne => hsub (hmem hne)⟩

theorem Edits.map_snd {t' : NibbleTree} {r : Except TrieError (Bool × TrieNode)} (h : Edits keccak written true t t' r)
    (ht' : Holds t' m) : ∃ n, r.map Prod.snd = .ok n ∧ StandsFor keccak written n m := by
  obtain ⟨dirty, n, rfl, hrep, -⟩ := h
  exact ⟨n, rfl, t', ht', hrep⟩

section

variable (hdisk : Holding keccak disk written)

include hdisk

theorem deleteKey_stands (h : StandsFor keccak written n m)
    (key : Bytes) : ∃ n', Disk.deleteKey disk n key = .ok n' ∧ StandsFor keccak written n' (Function.update m key none) := by
  obtain ⟨t, ht, hrep⟩ := h
  exact (delete_edits hdisk ht.normal ht.sized hrep (ends_keyToNibbles key)).map_snd (ht.erase key)

theorem update_stands (h : StandsFor keccak written n m) {key value : Bytes} (hfits : Fits key value) :
    ∃ n', Disk.update disk n key value = .ok n' ∧
      StandsFor keccak written n' (Function.update m key (if value = [] then none else some value)) := by
  rw [Disk.update]
  split
  · exact deleteKey_stands hdisk h key
  · rename_i hvalue
    obtain ⟨t, ht, hrep⟩ := h
    exact (insert_edits hdisk ht.normal ht.sized hrep (ends_keyToNibbles key)).map_snd (ht.put hvalue hfits)

theorem get_stands (h : StandsFor keccak written n m)
    (key : Bytes) : ∃ n', Disk.get disk n key = .ok (m key, n') ∧ StandsFor keccak written n' m := by
  obtain ⟨t, ht, hrep⟩ := h
  obtain ⟨n', read, hfind, hrep'⟩ := find_finds hdisk ht.normal ht.sized hrep (ends_keyToNibbles key)
  refine ⟨n', ?_, t, ht, hrep'⟩
  rw [Disk.get, hfind, ht.lookup]
  rfl

end

theorem hash_stands (h : StandsFor keccak written n m) :
    StandsFor keccak written (Disk.hash keccak n).2 m ∧ Alike n (Disk.hash keccak n).2 := by
  obtain ⟨t, ht, hrep⟩ := h
  exact ⟨⟨t, ht, (hash_spec hrep ht.normal).2⟩, alike_hash hrep ht.normal⟩

variable (hfree : CollisionFree keccak forms) (hsub : written ⊆ forms) (hdisk : Holding keccak disk written)

include hfree hsub hdisk

theorem openTrie_stands (hroot : RootOf keccak written h m) :
    ∃ n, Disk.openTrie keccak disk h = .ok n ∧ StandsFor keccak written n m := by
  obtain ⟨t, ht, rfl, hwritten, hmem⟩ := hroot
  rw [Disk.openTrie]
  obtain rfl | hnormal := ht.normal
  · rw [if_pos (.inr rfl)]
    exact ⟨.nil, rfl, .empty, ht, .nil⟩
  · have hmem := hmem hnormal.ne_empty
    have hne : ¬ (rootHash keccak t = 0 ∨ rootHash keccak t = Disk.emptyRoot keccak) := by
      rintro (hzero | hempty)
      · exact hfree.ne_zero _ (hsub hmem) hzero
      · have henc := hfree.inj (Set.mem_insert_of_mem _ (hsub hmem)) (Set.mem_insert _ _) hempty
        exact encodeTree_ne_empty hnormal ht.sized henc
    rw [if_neg hne]
    exact ⟨loaded keccak t, resolveHash_rootHash hdisk hnormal ht.sized hmem, t, ht,
      rep_loaded hnormal hwritten hmem (.inl rfl)⟩

/-- A commit that is written: the store holds what it did and the nodes of the trie, which can be opened by its hash. -/
theorem commit_stands (h : StandsFor keccak written n m) (hforms : formed keccak m ⊆ forms) :
    (Disk.commit keccak n).1.1 = (Disk.hash keccak n).1 ∧ ∃ written', written ⊆ written' ∧ written' ⊆ forms ∧
      Holding keccak (write disk (writes keccak (Disk.commit keccak n).2)) written' ∧
      StandsFor keccak written' (Disk.commit keccak n).1.2 m ∧ RootOf keccak written' (Disk.commit keccak n).1.1 m := by
  obtain ⟨t, ht, hrep⟩ := h
  obtain ⟨hroot, hputs, hcommit⟩ := commit_spec hrep ht.normal
  have hentries := mem_writes hputs
  have hformed : putEncodings keccak (Disk.commit keccak n).2 ⊆ formed keccak m := by
    rintro e ⟨h, node, hmem, rfl⟩
    obtain ⟨node', heq, henc⟩ := hputs _ hmem
    cases heq
    exact ⟨t, ht, henc⟩
  have hnew : {e | e ∈ (writes keccak (Disk.commit keccak n).2).map Prod.snd} ⊆ forms := by
    intro e he
    obtain ⟨entry, hentry, rfl⟩ := List.mem_map.mp he
    exact hforms (hformed (hentries entry hentry).2)
  have hall := Set.union_subset hsub hnew
  obtain ⟨hrep', hwritten, hmem⟩ := hcommit
    (written ∪ {e | e ∈ (writes keccak (Disk.commit keccak n).2).map Prod.snd}) Set.subset_union_left
    fun e he => .inr (putEncodings_subset_writes he)
  refine ⟨hroot.trans (hash_spec hrep ht.normal).1.symm, _, Set.subset_union_left, hall, ?_, ⟨t, ht, hrep'⟩,
    t, ht, hroot, hwritten, hmem⟩
  exact holding_write hdisk (fun entry hentry => (hentries entry hentry).1)
    (hfree.inj.mono (hall.trans (Set.subset_insert _ _)))

end Call

end PadiChain.Trie

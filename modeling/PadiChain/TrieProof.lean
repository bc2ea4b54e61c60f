import PadiChain.TrieRun

/-! Merkle proofs. A proof lists the encodings of the nodes on the way to a key, and the verifier walks the nodes it decodes
from them, starting at a root it trusts. Whatever is in the list, the verifier answers what the trie has or fails; and it
accepts the list that `Prove` makes, unless the trie is empty. -/

namespace PadiChain.Trie

open Rlp Patricia Disk Outcome Transition List

section Model

variable (keccak : Bytes → Hash)

def proofNode : TrieNode → Bytes
  | .short key child flags => encodeNode keccak (.short key (hashNode (encoding keccak) child).1 flags)
  | .full children flags =>
    encodeNode keccak
      (.full (fun i => if i = 16 then children i else (hashNode (encoding keccak) (children i)).1) flags)
  | n => encodeNode keccak n

/-- The loop of `Prove`, over a node and what is in memory below it. -/
def proveWith (onHash : Hash → List Nibble → Except TrieError (List Bytes)) :
    TrieNode → List Nibble → Except TrieError (List Bytes)
  | .nil, _ => .ok []
  | .value _, _ => .ok []
  | .hash h, path => onHash h path
  | .short key child flags, path =>
    -- where the path diverges, this is an exclusion proof
    if key.isPrefixOf path then
      (proveWith onHash child (path.drop key.length)).map (proofNode keccak (.short key child flags) :: ·)
    else .ok [proofNode keccak (.short key child flags)]
  | .full children flags, [] => .ok [proofNode keccak (.full children flags)]
  | .full children flags, i :: path =>
    (proveWith onHash (children i) path).map (proofNode keccak (.full children flags) :: ·)

/-- The loop of `Prove`, through at most `depth` stored nodes. -/
def proveFrom (disk : Disk) : Nat → TrieNode → List Nibble → Except TrieError (List Bytes)
  | 0 => proveWith keccak fun h _ => .error (.depth h)
  | depth + 1 => proveWith keccak fun h path =>
    match Disk.resolveHash disk h with
    | .error e => .error e
    | .ok n => proveFrom disk depth n path

def prove (disk : Disk) (n : TrieNode) (key : Bytes) : Except TrieError (List Bytes) :=
  proveFrom keccak disk (keyToNibbles key).length (Disk.hash keccak n).2 (keyToNibbles key)

inductive ProofFailure where
  /-- `ErrProofMissing`. -/
  | missing (h : Hash)
  | node (e : DecodeFailure)
  deriving DecidableEq

/-- The proof by node hash: of two nodes with one hash the later counts. -/
def proofNodes (proof : List Bytes) : Disk := write (fun _ => none) (proof.map fun enc => (keccak enc, enc))

def load (nodes : Disk) (h : Hash) : Outcome ProofFailure TrieNode :=
  match nodes h with
  | none => .error (.missing h)
  | some enc => (decodeNode (enc.length + 1) (some h) enc).mapError .node

/-- The loop of `VerifyProof`, for a number of rounds. -/
def verifyFrom (nodes : Disk) : Nat → TrieNode → List Nibble → Outcome ProofFailure (Option Bytes)
  | 0, _, _ => .diverge
  | _ + 1, .nil, _ => .ok none
  | _ + 1, .value v, path => if path ≠ [] then .ok none else .ok (some v)
  | fuel + 1, .hash h, path => do
    let next ← load nodes h
    verifyFrom nodes fuel next path
  | fuel + 1, .short key child _, path =>
    if key.isPrefixOf path then verifyFrom nodes fuel child (path.drop key.length) else .ok none
  | _ + 1, .full _ _, [] => .ok none
  | fuel + 1, .full children _, i :: path =>
    if (children i).isNil then .ok none else verifyFrom nodes fuel (children i) path

def verifyProof (fuel : Nat) (root : Hash) (key : Bytes) (proof : List Bytes) : Outcome ProofFailure (Option Bytes) := do
  let n ← load (proofNodes keccak proof) root
  verifyFrom (proofNodes keccak proof) fuel n (keyToNibbles key)

end Model

section Soundness

variable {keccak : Bytes → Hash}

variable {h : Hash} {enc : Bytes} {proof : List Bytes} {path : List Nibble} {t : NibbleTree} {n : TrieNode}
  {S : Set Bytes}

theorem mem_of_write {entries : List (Hash × Bytes)} {disk : Disk}
    (hread : write disk entries h = some enc) : disk h = some enc ∨ (h, enc) ∈ entries := by
  induction entries generalizing disk with
  | nil => exact .inl hread
  | cons entry entries ih =>
    obtain hdisk | hmem := ih hread
    · rw [Function.update_apply] at hdisk
      split_ifs at hdisk with hh
      · refine .inr (mem_cons.mpr (.inl ?_))
        rw [hh, ← Option.some.inj hdisk]
      · exact .inl hdisk
    · exact .inr (mem_cons_of_mem _ hmem)

theorem mem_of_proofNodes (hread : proofNodes keccak proof h = some enc) : enc ∈ proof ∧ keccak enc = h := by
  obtain hread | hmem := mem_of_write hread
  · cases hread
  · obtain ⟨e, he, heq⟩ := mem_map.mp hmem
    obtain ⟨rfl, rfl⟩ := Prod.mk.inj heq
    exact ⟨he, rfl⟩

theorem lookup_value_nil (v : Bytes) : (Tree.value v : NibbleTree).lookup [] = some v := Function.update_self ..

theorem lookup_value_of_ne (v : Bytes) (h : path ≠ []) : (Tree.value v : NibbleTree).lookup path = none :=
  Function.update_of_ne h ..

theorem written_univ (t : NibbleTree) : Written keccak Set.univ t := by
  induction t with
  | empty | value v => trivial
  | short _ _ ih | full _ ih => exact ⟨fun _ => Set.mem_univ _, ih⟩

theorem load_sound (ht : Normal 16 t) (hsized : Sized t)
    (hinj : Set.InjOn keccak {e | e ∈ proof ∨ e ∈ encodings keccak t})
    (hload : load (proofNodes keccak proof) (rootHash keccak t) = .ok n) : n = loaded keccak t := by
  rw [load] at hload
  split at hload
  · cases hload
  · rename_i enc hread
    obtain ⟨hmem, hkey⟩ := mem_of_proofNodes hread
    obtain rfl := hinj (.inl hmem) (.inr (encodeTree_mem_encodings ht)) hkey
    rw [mapError_eq_ok] at hload
    exact ok.inj (hload.symm.trans (decodeNode_encodeTree ht hsized))

theorem injOn_short {key : List Nibble} (h : Set.InjOn keccak {e | e ∈ S ∨ e ∈ encodings keccak (.short key t)}) :
    Set.InjOn keccak {e | e ∈ S ∨ e ∈ encodings keccak t} :=
  h.mono fun _ he => he.imp_right (mem_cons_of_mem _)

theorem injOn_full {t : Nibble → NibbleTree} (i : Nibble)
    (h : Set.InjOn keccak {e | e ∈ S ∨ e ∈ encodings keccak (.full t)}) :
    Set.InjOn keccak {e | e ∈ S ∨ e ∈ encodings keccak (t i)} :=
  h.mono fun _ he => he.imp_right (mem_encodings_full i)

/-- The walk from a node that stands for a tree answers what the tree has, or fails. -/
theorem verifyFrom_sound {fuel : Nat} {root : Bool}
    {answer : Option Bytes} (hn : Rep keccak Set.univ root n t) (ht : IsChild t) (hsized : Sized t)
    (hinj : Set.InjOn keccak {e | e ∈ {e | e ∈ proof} ∨ e ∈ encodings keccak t})
    (h : verifyFrom (proofNodes keccak proof) fuel n path = .ok answer) : answer = t.lookup path := by
  induction fuel generalizing root n t path with
  | zero => cases h
  | succ fuel ih =>
    cases hn with
    | nil =>
      cases h
      rfl
    | @value _ v =>
      rw [verifyFrom] at h
      by_cases hpath : path = []
      · rw [if_neg (not_not.mpr hpath)] at h
        cases h
        rw [hpath, lookup_value_nil]
      · rw [if_pos hpath] at h
        cases h
        rw [lookup_value_of_ne v hpath]
    | hash hnormal hsize hwritten =>
      obtain ⟨next, hload, hrest⟩ := bind_eq_ok.mp h
      obtain rfl := load_sound hnormal hsized hinj hload
      have hrep : Rep keccak Set.univ false (loaded keccak t) t :=
        rep_loaded hnormal hwritten (Set.mem_univ _) (.inr hsize)
      exact ih hrep ht hsized hinj hrest
    | @short _ key child flags t hflags hchild =>
      rw [verifyFrom] at h
      by_cases hp : key <+: path
      · obtain ⟨rest, rfl⟩ := hp
        rw [if_pos (List.isPrefixOf_iff_prefix.mpr (prefix_append key rest)), drop_left] at h
        rw [ih hchild ht.short hsized.short (injOn_short hinj) h]
        exact (under_append key _ rest).symm
      · rw [if_neg fun h => hp (List.isPrefixOf_iff_prefix.mp h)] at h
        cases h
        exact (under_of_not _ hp).symm
    | @full _ children flags t hflags hchildren =>
      cases path with
      | nil =>
        cases h
        rfl
      | cons i path =>
        rw [verifyFrom] at h
        rw [Tree.lookup_full_cons]
        split at h
        · rename_i hnil
          cases h
          rw [(hchildren i).isNil_iff.mp hnil]
          rfl
        · exact ih (hchildren i) (ht.full i) (hsized.full i) (injOn_full i hinj) h

end Soundness

/-! ### The nodes on the way to a key -/

section Completeness

/-- The encodings of the nodes that a path leads through. -/
def trail (keccak : Bytes → Hash) : NibbleTree → List Nibble → List Bytes
  | .empty, _ => []
  | .value _, _ => []
  | .short key child, path =>
    encodeTree keccak (.short key child) :: if key <+: path then trail keccak child (path.drop key.length) else []
  | .full children, [] => [encodeTree keccak (.full children)]
  | .full children, i :: path => encodeTree keccak (.full children) :: trail keccak (children i) path

variable {keccak : Bytes → Hash} {written : Set Bytes} {disk : Disk}

theorem trail_short_append (key : List Nibble) (t : NibbleTree) (path : List Nibble) :
    trail keccak (.short key t) (key ++ path) = encodeTree keccak (.short key t) :: trail keccak t path := by
  rw [trail, if_pos (prefix_append key path), drop_left]

variable {key path : List Nibble} {t : NibbleTree} {root : Bool} {flags : NodeFlag} {n : TrieNode} {nodes : Disk}

theorem trail_short_of_not (h : ¬ key <+: path) (t : NibbleTree) :
    trail keccak (.short key t) path = [encodeTree keccak (.short key t)] := by
  rw [trail, if_neg h]

theorem trail_subset (t : NibbleTree) : trail keccak t path ⊆ encodings keccak t := by
  induction t generalizing path with
  | empty | value _ => exact List.Subset.refl _
  | short key t ih =>
    by_cases hp : key <+: path
    · obtain ⟨rest, rfl⟩ := hp
      rw [trail_short_append]
      exact cons_subset_cons _ ih
    · rw [trail_short_of_not hp]
      exact cons_subset_cons _ (nil_subset _)
  | full t ih =>
    cases path with
    | nil => exact cons_subset_cons _ (nil_subset _)
    | cons i path =>
      refine cons_subset.mpr ⟨mem_cons_self, fun e he => ?_⟩
      exact mem_encodings_full i (ih i he)

theorem encodeTree_mem_trail (ht : Normal 16 t) (path : List Nibble) : encodeTree keccak t ∈ trail keccak t path := by
  cases ht with
  | leaf _ | extension _ _ _ => exact mem_cons_self
  | branch hstop hchildren htwo => cases path <;> exact mem_cons_self

theorem ne_nil_of_normal (h : Normal 16 (Tree.short key t)) : key ≠ [] := by
  cases h with
  | leaf hkey => exact hkey.ne_nil
  | extension hne _ _ => exact hne

/-! ### What `Prove` lists -/

theorem proofNode_short {child : TrieNode}
    (hchild : Rep keccak written root child t) (hroot : root = false) (ht : IsChild t) :
    proofNode keccak (.short key child flags) = encodeTree keccak (.short key t) := by
  subst hroot
  exact encodeNode_of_decoded (decoded_short key flags (hashNode_spec hchild ht).2.decoded)

theorem proofNode_full {children : Nibble → TrieNode} {t : Nibble → NibbleTree}
    (hchildren : ∀ i, Rep keccak written false (children i) (t i)) (ht : IsChild (.full t)) :
    proofNode keccak (.full children flags) = encodeTree keccak (.full t) := by
  refine encodeNode_of_decoded (decoded_full flags fun i => ?_)
  split
  · rename_i hi
    rw [hi]
    exact (hchildren 16).decoded_value (value_of_normal ht.normal_full)
  · exact (hashNode_spec (hchildren i) (ht.full i)).2.decoded

theorem proveFrom_short (depth : Nat) (key path : List Nibble) (child : TrieNode) (flags : NodeFlag) :
    proveFrom keccak disk depth (.short key child flags) path =
      if key.isPrefixOf path then
        (proveFrom keccak disk depth child (path.drop key.length)).map (proofNode keccak (.short key child flags) :: ·)
      else .ok [proofNode keccak (.short key child flags)] := by
  cases depth <;> rfl

theorem proveFrom_full (depth : Nat) (children : Nibble → TrieNode) (flags : NodeFlag) (i : Nibble) (path : List Nibble) :
    proveFrom keccak disk depth (.full children flags) (i :: path) =
      (proveFrom keccak disk depth (children i) path).map (proofNode keccak (.full children flags) :: ·) := by
  cases depth <;> rfl

/-- `Prove` lists the nodes on the way from a node in memory. -/
def Lists (keccak : Bytes → Hash) (written : Set Bytes) (disk : Disk) (t : NibbleTree) : Prop :=
  ∀ (root : Bool) (n : TrieNode) (path : List Nibble) (depth : Nat), Rep keccak written root n t → n.isHash = false →
    path.length ≤ depth → proveFrom keccak disk depth n path = .ok (trail keccak t path)

theorem Lists.any (hdisk : Holding keccak disk written) (hsized : Sized t) (h : Lists keccak written disk t)
    (hn : Rep keccak written root n t) {depth : Nat}
    (hdepth : path.length < depth) : proveFrom keccak disk depth n path = .ok (trail keccak t path) := by
  cases hhash : n.isHash with
  | false => exact h root n path depth hn hhash hdepth.le
  | true =>
    cases n with
    | hash x =>
      match depth, hdepth with
      | depth + 1, hdepth =>
        have hfalse : root = false := by
          cases hn
          rfl
        subst hfalse
        obtain ⟨m, hresolve, hm, hrep⟩ := hn.resolve hdisk hsized
        have hrest := h false m path depth hrep hm (Nat.lt_succ_iff.mp hdepth)
        rw [proveFrom, proveWith, hresolve]
        exact hrest
    | _ => cases hhash

/-- A stored node is read only behind a digit of the path, so as many as the path has digits are enough. -/
theorem lists (hdisk : Holding keccak disk written) (ht : IsChild t) (hsized : Sized t) :
    Lists keccak written disk t := by
  induction t with
  | empty =>
    intro root n path depth hn _ _
    cases hn with
    | nil => cases depth <;> rfl
    | hash hnormal _ _ => cases hnormal
  | value v =>
    intro root n path depth hn _ _
    cases hn with
    | value => cases depth <;> rfl
    | hash hnormal _ _ => cases hnormal
  | short key t ih =>
    intro root n path depth hn hnode hdepth
    cases hn with
    | hash _ _ _ => cases hnode
    | @short _ _ child flags _ hflags hchild =>
      rw [proveFrom_short, proofNode_short hchild rfl ht.short]
      by_cases hp : key <+: path
      · obtain ⟨rest, rfl⟩ := hp
        have hkey := length_pos_iff.mpr (ne_nil_of_normal ht.normal_short)
        rw [length_append] at hdepth
        rw [if_pos (List.isPrefixOf_iff_prefix.mpr (prefix_append key rest)), drop_left, trail_short_append,
          (ih ht.short hsized.short).any hdisk hsized.short hchild (by omega)]
        rfl
      · rw [if_neg fun h => hp (List.isPrefixOf_iff_prefix.mp h), trail_short_of_not hp]
  | full t ih =>
    intro root n path depth hn hnode hdepth
    cases hn with
    | hash _ _ _ => cases hnode
    | @full _ children flags _ hflags hchildren =>
      cases path with
      | nil =>
        have hnil : proveFrom keccak disk depth (.full children flags) [] =
            .ok [proofNode keccak (.full children flags)] := by
          cases depth <;> rfl
        rw [hnil, proofNode_full hchildren ht]
        rfl
      | cons i path =>
        rw [proveFrom_full, proofNode_full hchildren ht,
          (ih i (ht.full i) (hsized.full i)).any hdisk (hsized.full i) (hchildren i) hdepth]
        rfl

/-! ### What the verifier makes of it -/

theorem holding_proofNodes {proof : List Bytes} (hinj : Set.InjOn keccak {e | e ∈ proof}) :
    Holding keccak (proofNodes keccak proof) {e | e ∈ proof} := by
  have hset : (∅ : Set Bytes) ∪ {e | e ∈ (proof.map fun enc => (keccak enc, enc)).map Prod.snd} = {e | e ∈ proof} := by
    rw [map_map, Set.empty_union]
    exact congrArg (fun l : List Bytes => {e | e ∈ l}) (map_id proof)
  have hempty : Holding keccak (fun _ => none) ∅ := fun e he => absurd he (Set.notMem_empty e)
  have hkeys : ∀ entry ∈ proof.map fun enc => (keccak enc, enc), entry.1 = keccak entry.2 := by
    intro entry hentry
    obtain ⟨enc, -, rfl⟩ := mem_map.mp hentry
    rfl
  have hwrite := holding_write hempty hkeys
  rw [hset] at hwrite
  exact hwrite hinj

theorem load_complete (ht : Normal 16 t) (hsized : Sized t)
    (hread : nodes (rootHash keccak t) = some (encodeTree keccak t)) :
    load nodes (rootHash keccak t) = .ok (loaded keccak t) := by
  rw [load, hread]
  exact mapError_eq_ok.mpr (decodeNode_encodeTree ht hsized)

/-- The verifier finds what the tree has, from a node that was decoded, if it has the nodes on the way. -/
def Verifies (keccak : Bytes → Hash) (nodes : Disk) (t : NibbleTree) : Prop :=
  ∀ (root : Bool) (n : TrieNode) (path : List Nibble) (fuel : Nat), Rep keccak Set.univ root n t → n.isHash = false →
    (∀ e ∈ trail keccak t path, nodes (keccak e) = some e) → 2 * path.length < fuel →
    verifyFrom nodes fuel n path = .ok (t.lookup path)

theorem Verifies.any (hsized : Sized t) (h : Verifies keccak nodes t) (hn : Rep keccak Set.univ root n t)
    (hnodes : ∀ e ∈ trail keccak t path, nodes (keccak e) = some e) {fuel : Nat} (hfuel : 2 * path.length + 1 < fuel) :
    verifyFrom nodes fuel n path = .ok (t.lookup path) := by
  cases hhash : n.isHash with
  | false => exact h root n path fuel hn hhash hnodes (by omega)
  | true =>
    cases hn with
    | hash hnormal hsize hwritten =>
      match fuel, hfuel with
      | fuel + 1, hfuel =>
        have hread := hnodes _ (encodeTree_mem_trail hnormal path)
        have hrep : Rep keccak Set.univ false (loaded keccak t) t :=
          rep_loaded hnormal hwritten (Set.mem_univ _) (.inr hsize)
        rw [verifyFrom, load_complete hnormal hsized hread, ok_bind]
        exact h false _ path fuel hrep (isHash_loaded hnormal) hnodes (by omega)
    | _ => cases hhash

theorem verifies (ht : IsChild t) (hsized : Sized t) : Verifies keccak nodes t := by
  induction t with
  | empty =>
    intro root n path fuel hn _ _ hfuel
    match fuel, hfuel with
    | fuel + 1, _ =>
      cases hn with
      | nil => rfl
      | hash hnormal _ _ => cases hnormal
  | value v =>
    intro root n path fuel hn _ _ hfuel
    match fuel, hfuel with
    | fuel + 1, _ =>
      cases hn with
      | value =>
        rw [verifyFrom]
        split
        · rename_i hpath
          rw [lookup_value_of_ne v hpath]
        · rename_i hpath
          rw [not_not.mp hpath, lookup_value_nil]
      | hash hnormal _ _ => cases hnormal
  | short key t ih =>
    intro root n path fuel hn hnode hnodes hfuel
    match fuel, hfuel with
    | fuel + 1, hfuel =>
      cases hn with
      | hash _ _ _ => cases hnode
      | @short _ _ child flags _ hflags hchild =>
        rw [verifyFrom]
        by_cases hp : key <+: path
        · obtain ⟨rest, rfl⟩ := hp
          have hkey := length_pos_iff.mpr (ne_nil_of_normal ht.normal_short)
          rw [length_append] at hfuel
          rw [trail_short_append] at hnodes
          rw [if_pos (List.isPrefixOf_iff_prefix.mpr (prefix_append key rest)), drop_left]
          refine ((ih ht.short hsized.short).any hsized.short hchild
            (fun e he => hnodes e (mem_cons_of_mem _ he)) (by omega)).trans ?_
          exact congrArg ok (under_append key _ rest).symm
        · rw [if_neg fun h => hp (List.isPrefixOf_iff_prefix.mp h)]
          exact congrArg ok (under_of_not _ hp).symm
  | full t ih =>
    intro root n path fuel hn hnode hnodes hfuel
    match fuel, hfuel with
    | fuel + 1, hfuel =>
      cases hn with
      | hash _ _ _ => cases hnode
      | @full _ children flags _ hflags hchildren =>
        cases path with
        | nil => rfl
        | cons i path =>
          rw [length_cons] at hfuel
          rw [verifyFrom, Tree.lookup_full_cons]
          split
          · rename_i hnil
            rw [(hchildren i).isNil_iff.mp hnil]
            rfl
          · exact (ih i (ht.full i) (hsized.full i)).any (hsized.full i) (hchildren i)
              (fun e he => hnodes e (mem_cons_of_mem _ he)) (by omega)

end Completeness

/-! ### Proofs of the tries of a run -/

section Main

variable {keccak : Bytes → Hash}

variable {t : NibbleTree} {m : Entries} {proof : List Bytes}

theorem exists_entry_iff (h : Holds t m) : (∃ key v, m key = some v) ↔ Normal 16 t := by
  constructor
  · rintro ⟨key, v, hv⟩
    obtain rfl | hnormal := h.normal
    · rw [← h.lookup] at hv
      cases hv
    · exact hnormal
  · intro hnormal
    obtain ⟨path, v, hv⟩ := hnormal.exists_lookup
    obtain ⟨key, rfl⟩ := h.keys path v hv
    exact ⟨key, v, (h.lookup key).symm.trans hv⟩

theorem load_emptyRoot (hinj : Set.InjOn keccak (Insert.insert [0x80] {e | e ∈ proof})) (n : TrieNode) :
    load (proofNodes keccak proof) (Disk.emptyRoot keccak) ≠ .ok n := by
  intro hload
  rw [load] at hload
  split at hload
  · cases hload
  · rename_i enc hread
    obtain ⟨hmem, hkey⟩ := mem_of_proofNodes hread
    obtain rfl := hinj (Set.mem_insert_of_mem _ hmem) (Set.mem_insert _ _) hkey
    cases hload

theorem verifyProof_answer {fuel : Nat} (ht : Holds t m) {key : Bytes} {answer : Option Bytes}
    (hinj : Set.InjOn keccak (Insert.insert [0x80] ({e | e ∈ proof} ∪ formed keccak m)))
    (h : verifyProof keccak fuel (rootHash keccak t) key proof = .ok answer) : answer = m key := by
  obtain ⟨n, hload, hverify⟩ := bind_eq_ok.mp h
  obtain rfl | hnormal := ht.normal
  · exact absurd hload (load_emptyRoot (hinj.mono (Set.insert_subset_insert Set.subset_union_left)) n)
  · have hinj : Set.InjOn keccak {e | e ∈ {e | e ∈ proof} ∨ e ∈ encodings keccak t} :=
      hinj.mono fun e he => Set.mem_insert_of_mem _ (he.imp id fun he => ⟨t, ht, he⟩)
    obtain rfl := load_sound hnormal ht.sized hinj hload
    have hrep : Rep keccak Set.univ true (loaded keccak t) t :=
      rep_loaded hnormal (written_univ t) (Set.mem_univ _) (.inl rfl)
    rw [← ht.lookup]
    exact verifyFrom_sound hrep (.inr (.inr hnormal)) ht.sized hinj hverify

end Main

/-- Whatever byte strings a proof lists, if it is accepted for the root of a trie, the answer is what `Get` returns. -/
theorem verifyProof_sound (keccak : Bytes → Hash) (disk : Disk) (ops : List Op) (i : Nat) (m : Entries)
    (hfree : CollisionFree keccak ((run Maps.step .start ops).forms keccak))
    (hm : (run Maps.step .start ops).tries[i]? = some m) :
    ∃ n, (run (World.next keccak) (World.start disk) ops).tries[i]? = some n ∧
      ∀ (key : Bytes) (proof : List Bytes) (fuel : Nat) (answer : Option Bytes),
        Set.InjOn keccak (Insert.insert [0x80] ({e | e ∈ proof} ∪ formed keccak m)) →
        verifyProof keccak fuel (Disk.hash keccak n).1 key proof = .ok answer →
        ∃ n', Disk.get (run (World.next keccak) (World.start disk) ops).disk n key = .ok (answer, n') := by
  obtain ⟨written, n, hn, hdisk, hstands⟩ := run_standsFor disk hfree hm
  refine ⟨n, hn, fun key proof fuel answer hinj hverify => ?_⟩
  obtain ⟨t, ht, hroot⟩ := hash_of_standsFor hstands
  rw [hroot] at hverify
  rw [verifyProof_answer ht hinj hverify]
  obtain ⟨n', hget, -⟩ := get_stands hdisk hstands key
  exact ⟨n', hget⟩

theorem verifyProof_sound_single :
    ∃ n, (run (World.next coarseHash) (World.start fun _ => none)
        [.on 0 (.update [0x01] [0x02] fits_small)]).tries[0]? = some n ∧
      ∀ (key : Bytes) (proof : List Bytes) (fuel : Nat) (answer : Option Bytes),
        Set.InjOn coarseHash (Insert.insert [0x80] ({e | e ∈ proof} ∪
          formed coarseHash (Function.update (fun _ => none) [0x01] (some [0x02])))) →
        verifyProof coarseHash fuel (Disk.hash coarseHash n).1 key proof = .ok answer →
        ∃ n', Disk.get (fun _ => none) n key = .ok (answer, n') :=
  verifyProof_sound coarseHash (fun _ => none) [.on 0 (.update [0x01] [0x02] fits_small)] 0 _
    (collisionFree_coarseHash (cons_ne_nil _ _) fits_small fun _ ⟨_, hm, _⟩ => absurd hm not_mem_nil) rfl

/-- The proof that `Prove` makes for a key is accepted, with what `Get` returns, exactly if the trie has an entry. -/
theorem verifyProof_prove_iff (keccak : Bytes → Hash) (disk : Disk) (ops : List Op) (i : Nat) (m : Entries) (key : Bytes)
    (hfree : CollisionFree keccak ((run Maps.step .start ops).forms keccak))
    (hm : (run Maps.step .start ops).tries[i]? = some m) (hinj : Set.InjOn keccak (formed keccak m)) :
    ∃ n proof answer n', (run (World.next keccak) (World.start disk) ops).tries[i]? = some n ∧
      prove keccak (run (World.next keccak) (World.start disk) ops).disk n key = .ok proof ∧
      Disk.get (run (World.next keccak) (World.start disk) ops).disk n key = .ok (answer, n') ∧
      ((∃ rounds, ∀ fuel, rounds ≤ fuel → verifyProof keccak fuel (Disk.hash keccak n).1 key proof = .ok answer) ↔
        ∃ other v, m other = some v) := by
  obtain ⟨written, n, hn, hdisk, t, ht, hrep⟩ := run_standsFor disk hfree hm
  obtain ⟨hroot, hhashed⟩ := hash_spec hrep ht.normal
  obtain ⟨n', hget, -⟩ := get_stands hdisk ⟨t, ht, hrep⟩ key
  have hchild : IsChild t := ht.normal.imp_right .inr
  have hnode : (Disk.hash keccak n).2.isHash = false := by
    revert hhashed
    generalize (Disk.hash keccak n).2 = hashed
    intro hhashed
    cases hhashed <;> rfl
  refine ⟨n, trail keccak t (keyToNibbles key), m key, n', hn, ?_, hget, ?_⟩
  · exact lists hdisk hchild ht.sized true _ _ _ hhashed hnode le_rfl
  · rw [exists_entry_iff ht, hroot]
    constructor
    · rintro ⟨rounds, hverify⟩
      obtain rfl | hnormal := ht.normal
      · cases hverify rounds le_rfl
      · exact hnormal
    · intro hnormal
      refine ⟨2 * (keyToNibbles key).length + 1, fun fuel hfuel => ?_⟩
      have hsub : {e | e ∈ trail keccak t (keyToNibbles key)} ⊆ formed keccak m := fun e he =>
        ⟨t, ht, trail_subset t he⟩
      have hnodes := holding_proofNodes (hinj.mono hsub)
      have hrep : Rep keccak Set.univ true (loaded keccak t) t :=
        rep_loaded hnormal (written_univ t) (Set.mem_univ _) (.inl rfl)
      rw [verifyProof, load_complete hnormal ht.sized (hnodes _ (encodeTree_mem_trail hnormal _)), Outcome.ok_bind,
        ← ht.lookup]
      exact verifies hchild ht.sized true _ _ fuel hrep (isHash_loaded hnormal) hnodes hfuel

/-- A trie with one entry: a key that is absent is proven absent. -/
theorem verifyProof_prove_iff_single :
    ∃ n proof answer n', (run (World.next coarseHash) (World.start fun _ => none)
        [.on 0 (.update [0x01] [0x02] fits_small)]).tries[0]? = some n ∧
      prove coarseHash (fun _ => none) n [0x05] = .ok proof ∧ Disk.get (fun _ => none) n [0x05] = .ok (answer, n') ∧
      ((∃ rounds, ∀ fuel, rounds ≤ fuel →
          verifyProof coarseHash fuel (Disk.hash coarseHash n).1 [0x05] proof = .ok answer) ↔
        ∃ other v, (Function.update (fun _ => none) [0x01] (some [0x02]) : Entries) other = some v) :=
  verifyProof_prove_iff coarseHash (fun _ => none) [.on 0 (.update [0x01] [0x02] fits_small)] 0 _ [0x05]
    (collisionFree_coarseHash (cons_ne_nil _ _) fits_small fun _ ⟨_, hm, _⟩ => absurd hm not_mem_nil) rfl
    ((collisionFree_coarseHash (cons_ne_nil _ _) fits_small subset_rfl).inj.mono (Set.subset_insert _ _))

/-- An empty trie has no key, its proof of that is empty, and the verifier misses the root in it. -/
theorem verifyProof_emptyTrie :
    Disk.get (fun _ => none) .nil [] = .ok (none, .nil) ∧ prove coarseHash (fun _ => none) .nil [] = .ok [] ∧
      ∀ fuel, verifyProof coarseHash fuel (Disk.hash coarseHash .nil).1 [] [] =
        .error (.missing (Disk.emptyRoot coarseHash)) := ⟨rfl, rfl, fun _ => rfl⟩

end PadiChain.Trie

import PadiChain.TrieHash

/-! Tries that differ only in hashes that are cached but not stored. Every operation but `Hash` answers alike
on them and leaves them alike, and `Hash` changes a trie to one that is alike. -/

namespace PadiChain.Trie

open Disk

/-- The nodes are the same but for what is cached. -/
inductive Alike : TrieNode → TrieNode → Prop
  | nil : Alike .nil .nil
  | value (v : Bytes) : Alike (.value v) (.value v)
  | hash (h : Hash) : Alike (.hash h) (.hash h)
  | short (key : List Nibble) {child child' : TrieNode} {flags flags' : NodeFlag}
      (hflags : flags.storedHash = flags'.storedHash) (hchild : Alike child child') :
      Alike (.short key child flags) (.short key child' flags')
  | full {children children' : Nibble → TrieNode} {flags flags' : NodeFlag}
      (hflags : flags.storedHash = flags'.storedHash) (hchildren : ∀ i, Alike (children i) (children' i)) :
      Alike (.full children flags) (.full children' flags')

/-- Two computations fail with one error, or give related results. -/
inductive AlikeResult {α : Type} (R : α → α → Prop) : Except TrieError α → Except TrieError α → Prop
  | error (e : TrieError) : AlikeResult R (.error e) (.error e)
  | ok {a b : α} (h : R a b) : AlikeResult R (.ok a) (.ok b)

def AlikeEdit (a b : Bool × TrieNode) : Prop := a.1 = b.1 ∧ Alike a.2 b.2

def AlikeFound (a b : Found) : Prop := a.1 = b.1 ∧ Alike a.2.1 b.2.1 ∧ a.2.2 = b.2.2

theorem Alike.refl (n : TrieNode) : Alike n n := by
  induction n with
  | nil => exact .nil
  | value v => exact .value v
  | hash h => exact .hash h
  | short key child flags ih => exact .short key rfl ih
  | full children flags ih => exact .full rfl ih

variable {n m : TrieNode} {children children' : Nibble → TrieNode} {r r' : Except TrieError (Bool × TrieNode)}

theorem Alike.symm (h : Alike n m) : Alike m n := by
  induction h with
  | nil => exact .nil
  | value v => exact .value v
  | hash h => exact .hash h
  | short key hflags _ ih => exact .short key hflags.symm ih
  | full hflags _ ih => exact .full hflags.symm ih

theorem Alike.trans {k : TrieNode} (h : Alike n m) (h' : Alike m k) : Alike n k := by
  induction h generalizing k with
  | nil | value _ | hash _ => exact h'
  | short key hflags _ ih =>
    cases h' with
    | short _ hflags' hchild' => exact .short key (hflags.trans hflags') (ih hchild')
  | full hflags _ ih =>
    cases h' with
    | full hflags' hchildren' => exact .full (hflags.trans hflags') fun i => ih i (hchildren' i)

theorem AlikeResult.refl {α : Type} {R : α → α → Prop} (hR : ∀ a, R a a) (r : Except TrieError α) :
    AlikeResult R r r := by
  cases r with
  | error e => exact .error e
  | ok a => exact .ok (hR a)

theorem AlikeEdit.refl (a : Bool × TrieNode) : AlikeEdit a a := ⟨rfl, .refl _⟩

theorem AlikeFound.refl (a : Found) : AlikeFound a a := ⟨rfl, .refl _, rfl⟩

theorem Alike.isNil (h : Alike n m) : n.isNil = m.isNil := by
  cases h <;> rfl

theorem alike_update (hchildren : ∀ i, Alike (children i) (children' i)) (i : Nibble) (h : Alike n m) (j : Nibble) :
    Alike (Function.update children i n j) (Function.update children' i m j) := by
  rw [Function.update_apply, Function.update_apply]
  split_ifs
  · exact h
  · exact hchildren j

/-! ### Edits -/

theorem AlikeResult.edited {rebuild rebuild' : TrieNode → TrieNode} (hr : AlikeResult AlikeEdit r r') (hn : Alike n m)
    (hrebuild : ∀ below below', Alike below below' → Alike (rebuild below) (rebuild' below')) :
    AlikeResult AlikeEdit (edited n rebuild r) (edited m rebuild' r') := by
  cases hr with
  | error e => exact .error e
  | @ok a b h =>
    obtain ⟨dirty, below⟩ := a
    obtain ⟨dirty', below'⟩ := b
    obtain ⟨rfl, hbelow⟩ : dirty = dirty' ∧ Alike below below' := h
    cases dirty with
    | false => exact .ok ⟨rfl, hn⟩
    | true => exact .ok ⟨rfl, hrebuild below below' hbelow⟩

theorem alike_place (key : List Nibble) (h : Alike n m) : Alike (place key n) (place key m) := by
  rw [place, place]
  split
  · exact h
  · exact .short key rfl h

theorem alike_diverge (path key : List Nibble) {child child' : TrieNode} (h : Alike child child') {value : TrieNode} :
    AlikeResult AlikeEdit (diverge path child key value) (diverge path child' key value) := by
  rw [diverge, diverge]
  cases path.drop (commonPrefixLen key path) with
  | nil => exact .error _
  | cons i path' =>
    cases key.drop (commonPrefixLen key path) with
    | nil => exact .error _
    | cons j key' =>
      have hbranch : ∀ k, Alike
          (Function.update (Function.update (fun _ => TrieNode.nil) i (place path' child)) j (place key' value) k)
          (Function.update (Function.update (fun _ => TrieNode.nil) i (place path' child')) j (place key' value) k) :=
        alike_update (alike_update (fun _ => .nil) i (alike_place path' h)) j (.refl _)
      dsimp only
      split
      · exact .ok ⟨rfl, .full rfl hbranch⟩
      · exact .ok ⟨rfl, .short _ rfl (.full rfl hbranch)⟩

theorem alike_insertWith {onHash : Hash → List Nibble → Except TrieError (Bool × TrieNode)} {value : Bytes}
    (h : Alike n m) {key : List Nibble} :
    AlikeResult AlikeEdit (insertWith onHash value n key) (insertWith onHash value m key) := by
  induction h generalizing key with
  | nil | value _ | hash _ => exact .refl AlikeEdit.refl _
  | short path hflags hchild ih =>
    rw [insertWith, insertWith]
    split
    · exact .ok ⟨rfl, .refl _⟩
    split
    · exact ih.edited (.short path hflags hchild) fun below below' hbelow => .short path rfl hbelow
    · exact alike_diverge path key hchild
  | full hflags hchildren ih =>
    cases key with
    | nil => exact .ok ⟨rfl, .refl _⟩
    | cons i key =>
      exact (ih i).edited (.full hflags hchildren) fun below below' hbelow =>
        .full rfl (alike_update hchildren i hbelow)

theorem alike_joined (path : List Nibble) (h : Alike n m) : Alike (joined path n) (joined path m) := by
  cases h with
  | nil | value _ | hash _ => exact .refl _
  | short key hflags hchild => exact .short _ rfl hchild
  | full hflags hchildren => exact .short _ rfl (.full hflags hchildren)

theorem alike_reduced (resolve : Hash → Except TrieError TrieNode) (hchildren : ∀ i, Alike (children i) (children' i)) :
    AlikeResult AlikeEdit (reduced resolve children) (reduced resolve children') := by
  have hleft : (fun i => !(children i).isNil) = fun i => !(children' i).isNil := by
    funext i
    rw [(hchildren i).isNil]
  rw [reduced, reduced, hleft]
  split
  · rename_i pos _
    split
    · exact .ok ⟨rfl, .short _ rfl (hchildren 16)⟩
    · have hchild := hchildren pos
      revert hchild
      generalize children pos = n
      generalize children' pos = m
      intro hchild
      cases hchild with
      | nil | value _ | hash _ => exact .refl AlikeEdit.refl _
      | short key hflags hchild => exact .ok ⟨rfl, alike_joined _ (.short key hflags hchild)⟩
      | full hflags hchildren => exact .ok ⟨rfl, alike_joined _ (.full hflags hchildren)⟩
  · exact .ok ⟨rfl, .full rfl hchildren⟩

theorem alike_deleteWith {resolve : Hash → Except TrieError TrieNode}
    {onHash : Hash → List Nibble → Except TrieError (Bool × TrieNode)} (h : Alike n m)
    {key : List Nibble} : AlikeResult AlikeEdit (deleteWith resolve onHash n key) (deleteWith resolve onHash m key) := by
  induction h generalizing key with
  | nil | value _ | hash _ => exact .refl AlikeEdit.refl _
  | short path hflags hchild ih =>
    rw [deleteWith, deleteWith]
    split
    · exact .ok ⟨rfl, .short path hflags hchild⟩
    split
    · exact .ok ⟨rfl, .nil⟩
    · exact ih.edited (.short path hflags hchild) fun below below' hbelow => alike_joined path hbelow
  | @full children children' flags flags' hflags hchildren ih =>
    cases key with
    | nil => exact .error _
    | cons i key =>
      have hbelow := @ih i key
      rw [deleteWith, deleteWith]
      revert hbelow
      generalize deleteWith resolve onHash (children i) key = r
      generalize deleteWith resolve onHash (children' i) key = r'
      intro hbelow
      cases hbelow with
      | error e => exact .error e
      | @ok a b h =>
        obtain ⟨dirty, below⟩ := a
        obtain ⟨dirty', below'⟩ := b
        obtain ⟨rfl, hbelow⟩ : dirty = dirty' ∧ Alike below below' := h
        cases dirty with
        | false => exact .ok ⟨rfl, .full hflags hchildren⟩
        | true => exact alike_reduced resolve (alike_update hchildren i hbelow)

theorem AlikeResult.map {α β : Type} {R : α → α → Prop} {S : β → β → Prop} {f : α → β} {r r' : Except TrieError α}
    (hf : ∀ a b, R a b → S (f a) (f b)) (h : AlikeResult R r r') : AlikeResult S (r.map f) (r'.map f) := by
  cases h with
  | error e => exact .error e
  | ok h => exact .ok (hf _ _ h)

section Store

variable (disk : Disk)

variable {n m : TrieNode}

theorem alike_deleteKey (h : Alike n m) (key : Bytes) :
    AlikeResult Alike (Disk.deleteKey disk n key) (Disk.deleteKey disk m key) := by
  refine .map (R := AlikeEdit) (fun _ _ h => h.2) ?_
  cases (keyToNibbles key).length with
  | zero | succ _ => exact alike_deleteWith h

theorem alike_updateKey (h : Alike n m) (key value : Bytes) :
    AlikeResult Alike (Disk.update disk n key value) (Disk.update disk m key value) := by
  rw [Disk.update, Disk.update]
  split
  · exact alike_deleteKey disk h key
  · refine .map (R := AlikeEdit) (fun _ _ h => h.2) ?_
    cases (keyToNibbles key).length with
    | zero | succ _ => exact alike_insertWith h

/-! ### Lookups -/

theorem AlikeResult.foundBelow {rebuild rebuild' : TrieNode → TrieNode} {r r' : Except TrieError Found}
    (hr : AlikeResult AlikeFound r r') (hn : Alike n m)
    (hrebuild : ∀ below below', Alike below below' → Alike (rebuild below) (rebuild' below')) :
    AlikeResult AlikeFound (Disk.foundBelow n rebuild r) (Disk.foundBelow m rebuild' r') := by
  cases hr with
  | error e => exact .error e
  | @ok a b h =>
    obtain ⟨v, below, read⟩ := a
    obtain ⟨v', below', read'⟩ := b
    obtain ⟨rfl, hbelow, rfl⟩ : v = v' ∧ Alike below below' ∧ read = read' := h
    cases read with
    | false => exact .ok ⟨rfl, hn, rfl⟩
    | true => exact .ok ⟨rfl, hrebuild below below' hbelow, rfl⟩

theorem alike_findWith {onHash : Hash → List Nibble → Except TrieError Found} (h : Alike n m)
    {path : List Nibble} : AlikeResult AlikeFound (findWith onHash n path) (findWith onHash m path) := by
  induction h generalizing path with
  | nil | value _ | hash _ => exact .refl AlikeFound.refl _
  | short key hflags hchild ih =>
    rw [findWith, findWith]
    split
    · exact ih.foundBelow (.short key hflags hchild) fun below below' hbelow => .short key hflags hbelow
    · exact .ok ⟨rfl, .short key hflags hchild, rfl⟩
  | full hflags hchildren ih =>
    cases path with
    | nil => exact .error _
    | cons i path =>
      exact (ih i).foundBelow (.full hflags hchildren) fun below below' hbelow =>
        .full hflags (alike_update hchildren i hbelow)

theorem alike_get (h : Alike n m) (key : Bytes) :
    AlikeResult (fun a b => a.1 = b.1 ∧ Alike a.2 b.2) (Disk.get disk n key) (Disk.get disk m key) := by
  have hfind : AlikeResult AlikeFound (Disk.find disk (keyToNibbles key).length n (keyToNibbles key))
      (Disk.find disk (keyToNibbles key).length m (keyToNibbles key)) := by
    cases (keyToNibbles key).length with
    | zero | succ _ => exact alike_findWith h
  exact hfind.map fun _ _ h => ⟨h.1, h.2.1⟩

end Store

/-! ### Commits -/

section Commit

variable {keccak : Bytes → Hash}

variable {n m collapsed : TrieNode} {cached : NodeFlag → TrieNode} {flags : NodeFlag} {batch batch' : List Put}
  {root : Bool} {t : NibbleTree}

theorem Alike.item (h : Alike n m) : n.item keccak = m.item keccak := by
  have hchild : ∀ {n m : TrieNode}, Alike n m → ∀ item, asChild keccak n item = asChild keccak m item := by
    intro n m h item
    cases h <;> rfl
  induction h with
  | nil | value _ | hash _ => rfl
  | short key _ h ih => rw [TrieNode.item, TrieNode.item, ih, hchild h]
  | full _ h ih => simp [TrieNode.item, ih, hchild (h _)]

theorem Alike.encodeNode (h : Alike n m) : encodeNode keccak n = encodeNode keccak m :=
  congrArg Rlp.Item.layout h.item

theorem writes_append (a b : List Put) : writes keccak (a ++ b) = writes keccak a ++ writes keccak b := by
  induction a with
  | nil => rfl
  | cons put a ih =>
    cases put with
    | node h n => exact congrArg ((h, PadiChain.Trie.encodeNode keccak n) :: ·) ih
    | code h code => exact ih

/-- The commits refer to nodes that are alike, leave nodes that are alike and write the same. -/
def AlikeCommit (keccak : Bytes → Hash) (r r' : (TrieNode × TrieNode) × List Put) : Prop :=
  Alike r.1.1 r'.1.1 ∧ Alike r.1.2 r'.1.2 ∧ writes keccak r.2 = writes keccak r'.2

theorem alike_persist {collapsed' : TrieNode} {cached' : NodeFlag → TrieNode} {flags' : NodeFlag}
    (hcollapsed : Alike collapsed collapsed') (hflags : flags.storedHash = flags'.storedHash)
    (hcached : ∀ flags flags', flags.storedHash = flags'.storedHash → Alike (cached flags) (cached' flags'))
    (hbatch : writes keccak batch = writes keccak batch') :
    AlikeCommit keccak (persist (encoding keccak) collapsed cached flags batch)
      (persist (encoding keccak) collapsed' cached' flags' batch') := by
  have henc : encodeNode keccak collapsed = encodeNode keccak collapsed' := hcollapsed.encodeNode
  have hsame : (encoding keccak).size collapsed = (encoding keccak).size collapsed' := congrArg List.length henc
  have hhash : (encoding keccak).hash collapsed = (encoding keccak).hash collapsed' := congrArg keccak henc
  rw [persist, persist, hsame, hhash]
  split
  · refine ⟨.refl _, hcached _ _ rfl, ?_⟩
    rw [writes_append, writes_append, hbatch, writes, writes, henc]
    rfl
  · exact ⟨hcollapsed, hcached _ _ hflags, hbatch⟩

theorem alike_commitChildren {commitChild commitChild' : Fin 16 → List Put → (TrieNode × TrieNode) × List Put}
    (hcommit : ∀ i batch batch', writes keccak batch = writes keccak batch' →
      AlikeCommit keccak (commitChild i batch) (commitChild' i batch'))
    (hchildren : ∀ i, Alike (children i) (children' i)) (hbatch : writes keccak batch = writes keccak batch') :
    (∀ i, Alike ((commitChildren commitChild children batch).1.1 i) ((commitChildren commitChild' children' batch').1.1 i)) ∧
      (∀ i, Alike ((commitChildren commitChild children batch).1.2 i)
        ((commitChildren commitChild' children' batch').1.2 i)) ∧
      writes keccak (commitChildren commitChild children batch).2 =
        writes keccak (commitChildren commitChild' children' batch').2 := by
  let Related (acc acc' : ((Nibble → TrieNode) × (Nibble → TrieNode)) × List Put) : Prop :=
    (∀ i, Alike (acc.1.1 i) (acc'.1.1 i)) ∧ (∀ i, Alike (acc.1.2 i) (acc'.1.2 i)) ∧
      writes keccak acc.2 = writes keccak acc'.2
  have hloop : ∀ (positions : List (Fin 16)) acc acc', Related acc acc' → Related
      (positions.foldl (fun acc i =>
        let child := commitChild i acc.2
        ((Function.update acc.1.1 i.castSucc child.1.1, Function.update acc.1.2 i.castSucc child.1.2), child.2)) acc)
      (positions.foldl (fun acc i =>
        let child := commitChild' i acc.2
        ((Function.update acc.1.1 i.castSucc child.1.1, Function.update acc.1.2 i.castSucc child.1.2), child.2)) acc') := by
    intro positions
    induction positions with
    | nil => exact fun acc acc' h => h
    | cons i rest ih =>
      rintro acc acc' ⟨hrefs, hcached, hqueued⟩
      obtain ⟨href, hnode, hwrites⟩ := hcommit i acc.2 acc'.2 hqueued
      exact ih _ _ ⟨alike_update hrefs _ href, alike_update hcached _ hnode, hwrites⟩
  exact hloop (List.finRange 16) ((children, children), batch) ((children', children'), batch')
    ⟨hchildren, hchildren, hbatch⟩

theorem alike_commitNode (h : Alike n m) (hbatch : writes keccak batch = writes keccak batch') :
    AlikeCommit keccak (commitNode (encoding keccak) n batch) (commitNode (encoding keccak) m batch') := by
  induction h generalizing batch batch' with
  | nil => exact ⟨.nil, .nil, hbatch⟩
  | value v => exact ⟨.value v, .value v, hbatch⟩
  | hash h => exact ⟨.hash h, .hash h, hbatch⟩
  | @short key child child' flags flags' hflags hchild ih =>
    rw [commitNode, commitNode, ← hflags]
    cases hstored : flags.storedHash with
    | some h => exact ⟨.refl _, .short key hflags hchild, hbatch⟩
    | none =>
      obtain ⟨href, hnode, hwrites⟩ := ih hbatch
      exact alike_persist (.short key hflags href) hflags (fun _ _ hflags => .short key hflags hnode) hwrites
  | @full children children' flags flags' hflags hchildren ih =>
    rw [commitNode, commitNode, ← hflags]
    cases hstored : flags.storedHash with
    | some h => exact ⟨.refl _, .full hflags hchildren, hbatch⟩
    | none =>
      obtain ⟨hrefs, hnodes, hwrites⟩ :=
        alike_commitChildren (fun i batch batch' h => ih i.castSucc h) hchildren hbatch
      exact alike_persist (.full hflags hrefs) hflags (fun _ _ hflags => .full hflags hnodes) hwrites

theorem alike_commitRoot {r r' : (TrieNode × TrieNode) × List Put} (h : AlikeCommit keccak r r') :
    (commitRoot (encoding keccak) r).1.1 = (commitRoot (encoding keccak) r').1.1 ∧
      Alike (commitRoot (encoding keccak) r).1.2 (commitRoot (encoding keccak) r').1.2 ∧
      writes keccak (commitRoot (encoding keccak) r).2 = writes keccak (commitRoot (encoding keccak) r').2 := by
  obtain ⟨⟨ref, cached⟩, batch⟩ := r
  obtain ⟨⟨ref', cached'⟩, batch'⟩ := r'
  obtain ⟨href, hcached, hbatch⟩ : Alike ref ref' ∧ Alike cached cached' ∧
    writes keccak batch = writes keccak batch' := h
  have henc : encodeNode keccak ref = encodeNode keccak ref' := href.encodeNode
  have hput : writes keccak (batch ++ [.node (keccak (encodeNode keccak ref)) ref]) =
      writes keccak (batch' ++ [.node (keccak (encodeNode keccak ref')) ref']) := by
    rw [writes_append, writes_append, hbatch, writes, writes, henc]
    rfl
  have hkey := congrArg keccak henc
  cases href with
  | hash h => exact ⟨rfl, hcached, hbatch⟩
  | nil | value _ | short _ _ _ | full _ _ => exact ⟨hkey, hcached, hput⟩

variable (keccak) in
theorem alike_commit (h : Alike n m) :
    (Disk.commit keccak n).1.1 = (Disk.commit keccak m).1.1 ∧
      Alike (Disk.commit keccak n).1.2 (Disk.commit keccak m).1.2 ∧
      writes keccak (Disk.commit keccak n).2 = writes keccak (Disk.commit keccak m).2 := by
  rw [Disk.commit, Disk.commit, h.isNil]
  split
  · exact ⟨rfl, .nil, rfl⟩
  · exact alike_commitRoot (alike_commitNode h rfl)

/-! ### Hashing -/

variable {written : Set Bytes}

theorem alike_reference (hcollapsed : collapsed.decoded none = collapse keccak t)
    (hflags : FlagOk keccak written root flags t) (hnone : cachedHash flags = none)
    (hcached : ∀ flags', flags.storedHash = flags'.storedHash → Alike n (cached flags')) :
    Alike n (Disk.reference (encoding keccak) collapsed cached flags).2 := by
  rw [Disk.reference]
  simp only [encoding, encodeNode_of_decoded hcollapsed]
  split
  · rename_i hsize
    have hpersisted := hflags.not_persisted hnone hsize
    rw [hpersisted]
    exact hcached _ (storedHash_eq_none hpersisted)
  · exact hcached flags rfl

theorem alike_hashNode (h : Rep keccak written root n t) (ht : IsChild t) :
    Alike n (hashNode (encoding keccak) n).2 := by
  induction h with
  | nil => exact .nil
  | value | hash _ _ _ => exact .refl _
  | @short root key child flags t hflags hchild ih =>
    rw [hashNode]
    cases hcached : cachedHash flags with
    | some h => exact .refl _
    | none =>
      have href := (hashNode_spec hchild ht.short).2.decoded
      exact alike_reference (decoded_short key flags href) hflags hcached fun flags' hflags' =>
        .short key hflags' (ih ht.short)
  | @full root children flags t hflags hchildren ih =>
    rw [hashNode]
    cases hcached : cachedHash flags with
    | some h => exact .refl _
    | none =>
      refine alike_reference (decoded_full flags fun i => ?_) hflags hcached fun flags' hflags' =>
        .full hflags' fun i => ?_
      · split
        · rename_i hi
          rw [hi]
          exact (hchildren 16).decoded_value (value_of_normal ht.normal_full)
        · exact (hashNode_spec (hchildren i) (ht.full i)).2.decoded
      · split
        · exact .refl _
        · exact ih i (ht.full i)

theorem alike_hash (h : Rep keccak written true n t) (ht : t = .empty ∨ Patricia.Normal 16 t) :
    Alike n (Disk.hash keccak n).2 := by
  rw [Disk.hash]
  obtain rfl | ht := ht
  · cases h
    exact .nil
  · rw [if_neg (h.not_isNil ht)]
    exact alike_hashNode h (.inr (.inr ht))

end Commit

end PadiChain.Trie

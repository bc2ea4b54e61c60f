import PadiChain.PrunerConcurrent
import PadiChain.TrieStateCommit

/-! What the importer queues while a prune runs, from the commit that queues it. -/

namespace PadiChain.Prune

open Reach Trie

/-- A commit of a state whose changed accounts were loaded from the parent's state queues every part of
the new state that the parent's state does not have, provided that the hashes of what it queues stand
for what was hashed and that accounts are decoded as they were encoded. -/
theorem commit_of_commitTo {content : StateContent} {store : Store} {codec : Codec} {enc : Encoding}
    {keccak256 : Bytes → Hash} (hkeccak : keccak256 [] = emptyCodeHash)
    (hcodec : ∀ a v, codec.encodeAccount a = some v → content.account v = some a)
    {parent root : Hash} {n : TrieNode} {objects : List StateObject} {err : Option StateError}
    {batch : List Put} (hopen : openTrie content.toContent store parent = .ok n)
    (hobjects : ∀ obj ∈ objects, obj.Loaded content store keccak256 parent)
    (hok : commitTo content store codec enc n objects err = .ok (root, batch))
    (hbatch : ∀ h m, Put.node h m ∈ batch → content.node h = some (m.decoded (some h))) :
    ∃ commit : Commit content, commit.parent = parent ∧ commit.root = root ∧ commit.queue = batch.map Put.key := by
  -- that a part is in the parent's state or queued, and that it can be decoded if the parent's state can
  let P : Vertex → Prop := fun v => (v.key ∈ stateKeys content parent ∨ v.key ∈ batch.map Put.key) ∧
    (Decodable content parent → Decodes content v)
  have hparent : (stateGraph content).Along P (rootVertices .account parent) :=
    fun a ha b hb => ⟨.inl ⟨a, ha, b, hb, rfl⟩, fun hdecodable => hdecodable a ha b hb⟩
  have hstands : ∀ put ∈ batch,
      Stands content P (fun v => Decodable content parent → (content.account v).isSome = true) put := by
    intro put hput
    have hkey : put.key ∈ batch.map Put.key := List.mem_map_of_mem hput
    cases put with
    | node h m =>
      have hnode := hbatch h m hput
      refine ⟨hnode, ⟨.inr hkey, fun _ => ⟨_, hnode, fun _ _ => trivial⟩⟩, fun hleaves => ⟨.inr hkey, ?_⟩⟩
      refine fun hdecodable => ⟨_, hnode, ?_⟩
      rw [(m.decoded_references _).2]
      exact fun v hv => hleaves v hv hdecodable
    | code h code => exact ⟨.inr hkey, fun _ => trivial⟩
  have halong : (stateGraph content).Along P (rootVertices .account root) := by
    refine commitTo_along ?_ ?_ hopen hparent (fun obj hobj _ => (hobjects obj hobj).backed hkeccak hparent) hok hstands
    · rintro h m ⟨-, hdecodes⟩ hm v hv hdecodable
      obtain ⟨m', hm', hleaves⟩ := hdecodes hdecodable
      rw [hm] at hm'
      cases hm'
      exact hleaves v hv
    · intro a v hv
      refine ⟨hcodec a v hv, fun _ => ?_⟩
      rw [hcodec a v hv]
      rfl
  refine ⟨⟨parent, root, batch.map Put.key, ?_, ?_⟩, rfl, rfl, rfl⟩
  · rintro k ⟨a, ha, b, hb, rfl⟩
    exact (halong a ha b hb).1
  · exact fun hdecodable a ha b hb => (halong a ha b hb).2 hdecodable

namespace CommitExample

def created : StateObject := newObject 5 ⟨0, 0, 0, []⟩

def content : StateContent := { PruneExample.content with account := fun _ => some created.data }

def codec : Codec where
  addressKey _ := []
  slotKey _ := []
  encodeAccount a := if a = created.data then some [1] else none
  encodeStorageValue _ := none

end CommitExample

open CommitExample in
/-- An account is created in the empty state, and its leaf is queued. -/
theorem commit_of_commitTo_created :
    ∃ commit : Commit content, commit.parent = 0 ∧ commit.root = 7 ∧ commit.queue = [.node 7] := by
  have hobjects : ∀ obj ∈ [created], obj.Loaded content [] (fun _ => emptyCodeHash) 0 :=
    List.forall_mem_singleton.mpr (.created 5)
  have hok : commitTo content [] codec ⟨fun _ => 32, fun _ => 7⟩ .nil [created] none =
      .ok (7, [.node 7 (.short [16] (.value [1]) newFlag)]) := rfl
  refine commit_of_commitTo (by rfl) (fun a v h => ?_) rfl hobjects hok fun h m hm => ?_
  · rw [(Option.ite_none_right_eq_some.mp h).1]
    rfl
  · cases List.mem_singleton.mp hm
    rfl
end PadiChain.Prune

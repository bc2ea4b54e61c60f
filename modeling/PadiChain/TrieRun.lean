import PadiChain.LibTransition
import PadiChain.TrieMap

/-! Clients of a store of tries, compared with clients of plain maps that take the same calls. As long as the encodings
that were committed have different hashes, every trie stands for its map, every root that was committed can be opened
again, and the calls of `Hash` could as well be left out. The root of a trie is a function of its map alone. -/

namespace PadiChain.Trie

open Rlp Patricia Disk Transition Maps List

/-! ### Lists of tries -/

section Lists

variable {α β : Type} {R : α → β → Prop}

variable {l : List α} {l' : List β} {a : α} {b : β}

variable (h : List.Forall₂ R l l')

include h

theorem forall₂_getElem? (i : Nat) :
    (l[i]? = none ∧ l'[i]? = none) ∨ ∃ a b, l[i]? = some a ∧ l'[i]? = some b ∧ R a b := by
  induction h generalizing i with
  | nil => exact .inl ⟨rfl, rfl⟩
  | @cons a b l l' hab _ ih =>
    cases i with
    | zero => exact .inr ⟨a, b, rfl, rfl, hab⟩
    | succ i => exact ih i

theorem forall₂_set (i : Nat) (hab : R a b) : List.Forall₂ R (l.set i a) (l'.set i b) := by
  induction h generalizing i with
  | nil => exact .nil
  | cons hxy hrest ih =>
    cases i with
    | zero => exact .cons hab hrest
    | succ i => exact .cons hxy (ih i)

theorem forall₂_set_left {i : Nat} (hb : l'[i]? = some b) (hab : R a b) : List.Forall₂ R (l.set i a) l' := by
  obtain ⟨hi, rfl⟩ := List.getElem?_eq_some_iff.mp hb
  have hset := forall₂_set h i hab
  rwa [List.set_getElem_self] at hset

end Lists

/-! ### Runs -/

section Run

variable (keccak : Bytes → Hash)

/-- Every trie stands for its map, and every committed root can be opened. -/
structure Refines (written : Set Bytes) (w : World) (s : Maps) : Prop where
  known : written ⊆ s.forms keccak
  disk : Holding keccak w.disk written
  tries : List.Forall₂ (StandsFor keccak written) w.tries s.tries
  roots : List.Forall₂ (RootOf keccak written) w.roots s.roots

/-- What a call on a trie is answered, going by its map: `Get` gives the value of the map, `Commit` the root that
`Hash` would give, and nothing fails. -/
def CallAnswer (n : TrieNode) (m : Entries) (a : Answer) : Call → Prop
  | .get key => a = .value (m key)
  | .hash => a = .root (Disk.hash keccak n).1
  | .commit => ∃ batch, a = .committed (Disk.hash keccak n).1 batch
  | .update _ _ _ | .delete _ | .copy => a = .done

/-- The answer to a step. A root that was committed is opened without an error. -/
def Answers (w : World) (s : Maps) (a : Answer) : Op → Prop
  | .on i call => ∀ m, s.tries[i]? = some m → ∃ n, w.tries[i]? = some n ∧ CallAnswer keccak n m a call
  | .reopen j => ∀ m, s.roots[j]? = some m → (∃ h, w.roots[j]? = some h) ∧ a = .done

def World.next (w : World) (op : Op) : World := (w.step keccak op).1

variable {keccak}

theorem refines_start (disk : Disk) : Refines keccak ∅ (World.start disk) .start where
  known := Set.empty_subset _
  disk _ he := absurd he (Set.notMem_empty _)
  tries := .cons ⟨.empty, holds_empty, .nil⟩ .nil
  roots := .nil

theorem forms_call (s : Maps) (i : Nat) (m : Entries) (call : Call) : s.forms keccak ⊆ (s.call i m call).forms keccak := by
  rintro e ⟨m', hm', he⟩
  refine ⟨m', ?_, he⟩
  cases call with
  | commit => exact mem_append_left _ hm'
  | _ => exact hm'

theorem forms_step (s : Maps) (op : Op) : s.forms keccak ⊆ (s.step op).forms keccak := by
  cases op with
  | on i call =>
    rw [step]
    split
    · exact subset_rfl
    · exact forms_call s i _ call
  | reopen j =>
    rw [step]
    split <;> exact subset_rfl

variable {written : Set Bytes} {w w' : World} {s : Maps} {n n' : TrieNode} {m : Entries} {i : Nat} {call : Call}
  {op : Op}

section

variable (h : Refines keccak written w s)

include h

theorem Refines.set (i : Nat) (hn : StandsFor keccak written n m) :
    Refines keccak written ⟨w.disk, w.tries.set i n, w.roots⟩ ⟨s.tries.set i m, s.roots⟩ :=
  ⟨h.known, h.disk, forall₂_set h.tries i hn, h.roots⟩

theorem Refines.set_left (hm : s.tries[i]? = some m) (hn : StandsFor keccak written n m) :
    Refines keccak written ⟨w.disk, w.tries.set i n, w.roots⟩ s :=
  ⟨h.known, h.disk, forall₂_set_left h.tries hm hn, h.roots⟩

theorem Refines.append (hn : StandsFor keccak written n m) :
    Refines keccak written ⟨w.disk, w.tries ++ [n], w.roots⟩ ⟨s.tries ++ [m], s.roots⟩ :=
  ⟨h.known, h.disk, rel_append h.tries (.cons hn .nil), h.roots⟩

theorem call_refines (hn : w.tries[i]? = some n) (hm : s.tries[i]? = some m) (hstands : StandsFor keccak written n m)
    (hfree : CollisionFree keccak ((s.call i m call).forms keccak)) :
    (∃ written', Refines keccak written' (w.call keccak i n call).1 (s.call i m call)) ∧
      Answers keccak w s (w.call keccak i n call).2 (.on i call) := by
  have hanswer : ∀ {a : Answer}, CallAnswer keccak n m a call → Answers keccak w s a (.on i call) := by
    intro a ha m' hm'
    rw [hm] at hm'
    cases hm'
    exact ⟨n, hn, ha⟩
  cases call with
  | update key value fits =>
    obtain ⟨n', hupdate, hn'⟩ := update_stands h.disk hstands fits
    rw [World.call, hupdate]
    exact ⟨⟨written, h.set i hn'⟩, hanswer rfl⟩
  | delete key =>
    obtain ⟨n', hdelete, hn'⟩ := deleteKey_stands h.disk hstands key
    rw [World.call, hdelete]
    exact ⟨⟨written, h.set i hn'⟩, hanswer rfl⟩
  | get key =>
    obtain ⟨n', hget, hn'⟩ := get_stands h.disk hstands key
    rw [World.call, hget]
    exact ⟨⟨written, h.set_left hm hn'⟩, hanswer rfl⟩
  | hash => exact ⟨⟨written, h.set_left hm (hash_stands hstands).1⟩, hanswer rfl⟩
  | copy => exact ⟨⟨written, h.append hstands⟩, hanswer rfl⟩
  | commit =>
    have hforms : formed keccak m ⊆ (s.call i m .commit).forms keccak := fun e he =>
      ⟨m, mem_append_right _ (mem_singleton_self m), he⟩
    obtain ⟨hroot, written', hsub, hknown, hdisk, hn', hrootOf⟩ :=
      commit_stands hfree (h.known.trans (forms_call s i m .commit)) h.disk hstands hforms
    refine ⟨⟨written', hknown, hdisk, ?_, ?_⟩, hanswer ⟨_, congrArg (Answer.committed · _) hroot⟩⟩
    · exact forall₂_set_left (h.tries.imp fun _ _ => StandsFor.mono hsub) hm hn'
    · exact rel_append (h.roots.imp fun _ _ => RootOf.mono hsub) (.cons hrootOf .nil)

theorem step_refines (hfree : CollisionFree keccak ((s.step op).forms keccak)) :
    (∃ written', Refines keccak written' (World.next keccak w op) (s.step op)) ∧
      Answers keccak w s (w.step keccak op).2 op := by
  cases op with
  | on i call =>
    rw [World.next, World.step, step] at *
    obtain ⟨hn, hm⟩ | ⟨n, m, hn, hm, hstands⟩ := forall₂_getElem? h.tries i
    · rw [hn, hm]
      refine ⟨⟨written, h⟩, fun m hm' => ?_⟩
      rw [hm] at hm'
      cases hm'
    · rw [hn, hm]
      rw [hm] at hfree
      exact call_refines h hn hm hstands hfree
  | reopen j =>
    have hfree := hfree.mono (forms_step s (.reopen j))
    rw [World.next, World.step, step]
    obtain ⟨hr, hm⟩ | ⟨root, m, hr, hm, hrootOf⟩ := forall₂_getElem? h.roots j
    · rw [hr, hm]
      refine ⟨⟨written, h⟩, fun m hm' => ?_⟩
      rw [hm] at hm'
      cases hm'
    · obtain ⟨n, hopen, hn⟩ := openTrie_stands hfree h.known h.disk hrootOf
      simp only [hr, hm, hopen]
      exact ⟨⟨written, h.append hn⟩, fun m' _ => ⟨⟨root, hr⟩, rfl⟩⟩

end

theorem forms_run (ops : List Op) : s.forms keccak ⊆ (run step s ops).forms keccak :=
  run_preserves (P := fun t : Maps => s.forms keccak ⊆ t.forms keccak) (fun t op h => h.trans (forms_step t op)) ops
    subset_rfl

theorem run_refines {ops : List Op} (h : Refines keccak written w s)
    (hfree : CollisionFree keccak ((run step s ops).forms keccak)) :
    ∃ written, Refines keccak written (run (World.next keccak) w ops) (run step s ops) := by
  induction ops generalizing w s written with
  | nil => exact ⟨written, h⟩
  | cons op ops ih =>
    obtain ⟨⟨written', hnext⟩, -⟩ := step_refines h (hfree.mono (forms_run ops))
    exact ih hnext hfree

/-! ### Leaving out `Hash` -/

/-- The stores are the same, and the tries but for what is cached. -/
structure SameWorld (w w' : World) : Prop where
  disk : w.disk = w'.disk
  tries : List.Forall₂ Alike w.tries w'.tries
  roots : w.roots = w'.roots

def Disk.Op.isHash : Op → Bool
  | .on _ .hash => true
  | _ => false

section

variable (h : SameWorld w w')

include h

theorem SameWorld.set (i : Nat) (hn : Alike n n') :
    SameWorld ⟨w.disk, w.tries.set i n, w.roots⟩ ⟨w'.disk, w'.tries.set i n', w'.roots⟩ :=
  ⟨h.disk, forall₂_set h.tries i hn, h.roots⟩

theorem SameWorld.edit (i : Nat) {r r' : Except TrieError TrieNode}
    (hr : AlikeResult Alike r r') : (w.edit i r).2 = (w'.edit i r').2 ∧ SameWorld (w.edit i r).1 (w'.edit i r').1 := by
  cases hr with
  | error e => exact ⟨rfl, h⟩
  | ok hn => exact ⟨rfl, h.set i hn⟩

theorem call_same (hn : Alike n n') (hcall : call ≠ .hash) :
    (w.call keccak i n call).2 = (w'.call keccak i n' call).2 ∧
      SameWorld (w.call keccak i n call).1 (w'.call keccak i n' call).1 := by
  cases call with
  | update key value fits =>
    rw [World.call, World.call, ← h.disk]
    exact h.edit i (alike_updateKey w.disk hn key value)
  | delete key =>
    rw [World.call, World.call, ← h.disk]
    exact h.edit i (alike_deleteKey w.disk hn key)
  | get key =>
    have hget := alike_get w.disk hn key
    rw [World.call, World.call, ← h.disk]
    revert hget
    generalize Disk.get w.disk n key = r
    generalize Disk.get w.disk n' key = r'
    rintro (_ | @⟨⟨v, m⟩, ⟨v', m'⟩, ⟨hv, hm⟩⟩)
    · exact ⟨rfl, h⟩
    · exact ⟨congrArg Answer.value hv, rfl, forall₂_set h.tries i hm, h.roots⟩
  | hash => exact absurd rfl hcall
  | copy => exact ⟨rfl, h.disk, rel_append h.tries (.cons hn .nil), h.roots⟩
  | commit =>
    obtain ⟨hroot, hcached, hbatch⟩ := alike_commit keccak hn
    simp only [World.call, hroot, hbatch, h.disk, h.roots]
    exact ⟨trivial, rfl, forall₂_set h.tries i hcached, rfl⟩

variable (keccak) in
/-- A step that is not `Hash` answers the same and keeps the worlds the same. -/
theorem step_same (hop : op.isHash = false) :
    (w.step keccak op).2 = (w'.step keccak op).2 ∧ SameWorld (World.next keccak w op) (World.next keccak w' op) := by
  cases op with
  | on i call =>
    have hcall : call ≠ .hash := by
      rintro rfl
      cases hop
    rw [World.next, World.next, World.step, World.step]
    obtain ⟨hn, hn'⟩ | ⟨n, n', hn, hn', halike⟩ := forall₂_getElem? h.tries i
    · rw [hn, hn']
      exact ⟨rfl, h⟩
    · rw [hn, hn']
      exact call_same h halike hcall
  | reopen j =>
    simp only [World.next, World.step, ← h.roots, ← h.disk]
    split
    · exact ⟨rfl, h⟩
    split
    · exact ⟨rfl, h⟩
    · exact ⟨rfl, rfl, rel_append h.tries (.cons (.refl _) .nil), rfl⟩

end

theorem hash_same (hrefines : Refines keccak written w s) (h : SameWorld w w')
    (hop : op.isHash = true) : SameWorld (World.next keccak w op) w' := by
  match op, hop with
  | .on i .hash, _ =>
    rw [World.next, World.step]
    obtain ⟨hn, -⟩ | ⟨n, n', hn, hn', halike⟩ := forall₂_getElem? h.tries i
    · rw [hn]
      exact h
    · obtain ⟨hnone, -⟩ | ⟨n₁, m, hn₁, -, hstands⟩ := forall₂_getElem? hrefines.tries i
      · rw [hn] at hnone
        cases hnone
      · rw [hn] at hn₁ ⊢
        cases hn₁
        exact ⟨h.disk, forall₂_set_left h.tries hn' ((hash_stands hstands).2.symm.trans halike), h.roots⟩

/-- What is answered to the calls other than `Hash`. -/
def otherAnswers (keccak : Bytes → Hash) (w : World) (ops : List Op) : List Answer :=
  log (World.next keccak) (fun w op => if op.isHash then [] else [(w.step keccak op).2]) w ops

theorem otherAnswers_filter {ops : List Op} (hrefines : Refines keccak written w s) (h : SameWorld w w')
    (hfree : CollisionFree keccak ((run step s ops).forms keccak)) :
    otherAnswers keccak w ops = otherAnswers keccak w' (ops.filter fun op => !op.isHash) := by
  induction ops generalizing w w' s written with
  | nil => rfl
  | cons op ops ih =>
    obtain ⟨⟨written', hnext⟩, -⟩ := step_refines hrefines (hfree.mono (forms_run ops))
    cases hop : op.isHash with
    | true =>
      rw [filter_cons_of_neg (by rw [hop]; exact Bool.false_ne_true), ← ih hnext (hash_same hrefines h hop) hfree,
        otherAnswers, log, if_pos hop, nil_append]
      rfl
    | false =>
      obtain ⟨hanswer, hsame⟩ := step_same keccak h hop
      rw [filter_cons_of_pos (by rw [hop]; rfl), otherAnswers, otherAnswers, log, log, hop,
        if_neg Bool.false_ne_true, if_neg Bool.false_ne_true, hanswer]
      exact congrArg (_ :: ·) (ih hnext hsame hfree)

end Run

/-! ### A hash that tells the empty trie from the others -/

section Coarse

def coarseHash (enc : Bytes) : Hash := if enc = [0x80] then 1 else 2

/-- It has no collisions among the encodings of a trie with one entry. -/
theorem collisionFree_coarseHash {forms : Set Bytes} {key value : Bytes} (hvalue : value ≠ []) (hfits : Fits key value)
    (hforms : forms ⊆ formed coarseHash (Function.update (fun _ => none) key (some value))) :
    CollisionFree coarseHash forms := by
  have hholds := holds_empty.put hvalue hfits
  have hput : (Tree.empty : NibbleTree).put value (keyToNibbles key) = .short (keyToNibbles key) (.value value) := by
    rw [Tree.put, Tree.stem, if_neg (ends_keyToNibbles key).ne_nil]
  rw [hput] at hholds
  have hone : ∀ e ∈ forms, e = encodeTree coarseHash (.short (keyToNibbles key) (.value value)) := by
    intro e he
    obtain ⟨t, ht, hmem⟩ := hforms he
    rw [ht.unique hholds] at hmem
    exact mem_singleton.mp hmem
  have hne : encodeTree coarseHash (.short (keyToNibbles key) (.value value)) ≠ [0x80] :=
    encodeTree_ne_empty (.leaf (ends_keyToNibbles key)) hholds.sized
  constructor
  · intro a ha b hb hab
    rcases Set.mem_insert_iff.mp ha with rfl | ha
    · rcases Set.mem_insert_iff.mp hb with rfl | hb
      · rfl
      · rw [hone b hb, coarseHash, coarseHash, if_pos rfl, if_neg hne] at hab
        cases hab
    · rcases Set.mem_insert_iff.mp hb with rfl | hb
      · rw [hone a ha, coarseHash, coarseHash, if_pos rfl, if_neg hne] at hab
        cases hab
      · rw [hone a ha, hone b hb]
  · intro e he hzero
    rw [hone e he, coarseHash, if_neg hne] at hzero
    cases hzero

theorem fits_small : Fits [0x01] [0x02] := by decide

end Coarse

/-- For every sequence of calls: each call is answered as the maps say, roots that were committed can be opened, a commit
gives the root that `Hash` gives, and without the calls of `Hash` the other answers, the batches of the commits among them,
are the same. -/
theorem tries_are_maps (keccak : Bytes → Hash) (disk : Disk) (ops : List Op)
    (hfree : CollisionFree keccak ((Transition.run Maps.step .start ops).forms keccak)) :
    (∀ before op after, ops = before ++ op :: after →
      Answers keccak (Transition.run (World.next keccak) (World.start disk) before) (Transition.run Maps.step .start before)
        ((Transition.run (World.next keccak) (World.start disk) before).step keccak op).2 op) ∧
      otherAnswers keccak (World.start disk) ops =
        otherAnswers keccak (World.start disk) (ops.filter fun op => !op.isHash) := by
  constructor
  · rintro before op after rfl
    rw [Transition.run_append, Transition.run_cons] at hfree
    have hstep := hfree.mono (forms_run after)
    obtain ⟨written, hrefines⟩ := run_refines (refines_start disk) (hstep.mono (forms_step _ op))
    exact (step_refines hrefines hstep).2
  · refine otherAnswers_filter (refines_start disk) ⟨rfl, ?_, rfl⟩ hfree
    exact .cons (.refl _) .nil

/-- A trie with one entry is committed and opened again, where `Get` finds the value. -/
theorem tries_are_maps_reopened :
    Answers coarseHash
      (Transition.run (World.next coarseHash) (World.start fun _ => none)
        [.on 0 (.update [0x01] [0x02] fits_small), .on 0 .commit, .reopen 0])
      (Transition.run Maps.step .start [.on 0 (.update [0x01] [0x02] fits_small), .on 0 .commit, .reopen 0])
      ((Transition.run (World.next coarseHash) (World.start fun _ => none)
        [.on 0 (.update [0x01] [0x02] fits_small), .on 0 .commit, .reopen 0]).step coarseHash (.on 1 (.get [0x01]))).2
      (.on 1 (.get [0x01])) :=
  (tries_are_maps coarseHash (fun _ => none)
    [.on 0 (.update [0x01] [0x02] fits_small), .on 0 .commit, .reopen 0, .on 1 (.get [0x01])]
    (collisionFree_coarseHash (cons_ne_nil _ _) fits_small (by
      rintro e ⟨m, hm, he⟩
      rw [mem_singleton.mp hm] at he
      exact he))).1 [.on 0 (.update [0x01] [0x02] fits_small), .on 0 .commit, .reopen 0] (.on 1 (.get [0x01])) [] rfl

/-! ### One root for each map -/

section Canonical

variable {keccak : Bytes → Hash}

theorem hash_of_standsFor {written : Set Bytes} {n : TrieNode} {m : Entries} (h : StandsFor keccak written n m) :
    ∃ t, Holds t m ∧ (Disk.hash keccak n).1 = rootHash keccak t := by
  obtain ⟨t, ht, hrep⟩ := h
  exact ⟨t, ht, (hash_spec hrep ht.normal).1⟩

theorem run_standsFor (disk : Disk) {ops : List Op}
    (hfree : CollisionFree keccak ((run step .start ops).forms keccak)) {i : Nat} {m : Entries}
    (hm : (run step .start ops).tries[i]? = some m) :
    ∃ written n, (run (World.next keccak) (World.start disk) ops).tries[i]? = some n ∧
      Holding keccak (run (World.next keccak) (World.start disk) ops).disk written ∧ StandsFor keccak written n m := by
  obtain ⟨written, hrefines⟩ := run_refines (refines_start disk) hfree
  obtain ⟨-, hnone⟩ | ⟨n, m', hn, hm', hstands⟩ := forall₂_getElem? hrefines.tries i
  · rw [hm] at hnone
    cases hnone
  · rw [hm] at hm'
    cases hm'
    exact ⟨written, n, hn, hrefines.disk, hstands⟩

/-- The root is a function of the entries, whatever calls led to them, over whatever stores. And unless two encodings of
nodes have one hash, tries with different entries have different roots. -/
theorem hash_canonical (keccak : Bytes → Hash) (disk₁ disk₂ : Disk) (ops₁ ops₂ : List Op) (i j : Nat) (m₁ m₂ : Entries)
    (hfree₁ : CollisionFree keccak ((Transition.run Maps.step .start ops₁).forms keccak))
    (hfree₂ : CollisionFree keccak ((Transition.run Maps.step .start ops₂).forms keccak))
    (hm₁ : (Transition.run Maps.step .start ops₁).tries[i]? = some m₁)
    (hm₂ : (Transition.run Maps.step .start ops₂).tries[j]? = some m₂) :
    ∃ n₁ n₂, (Transition.run (World.next keccak) (World.start disk₁) ops₁).tries[i]? = some n₁ ∧
      (Transition.run (World.next keccak) (World.start disk₂) ops₂).tries[j]? = some n₂ ∧
      (m₁ = m₂ → (Disk.hash keccak n₁).1 = (Disk.hash keccak n₂).1) ∧
      (Set.InjOn keccak (Insert.insert [0x80] (formed keccak m₁ ∪ formed keccak m₂)) → m₁ ≠ m₂ →
        (Disk.hash keccak n₁).1 ≠ (Disk.hash keccak n₂).1) := by
  obtain ⟨written₁, n₁, hn₁, -, hstands₁⟩ := run_standsFor disk₁ hfree₁ hm₁
  obtain ⟨written₂, n₂, hn₂, -, hstands₂⟩ := run_standsFor disk₂ hfree₂ hm₂
  obtain ⟨t₁, ht₁, hhash₁⟩ := hash_of_standsFor hstands₁
  obtain ⟨t₂, ht₂, hhash₂⟩ := hash_of_standsFor hstands₂
  refine ⟨n₁, n₂, hn₁, hn₂, ?_, ?_⟩
  · rintro rfl
    rw [hhash₁, hhash₂, ht₁.unique ht₂]
  · intro hinj hne heq
    rw [hhash₁, hhash₂] at heq
    have hsub : {e | e ∈ encodings keccak t₁ ∨ e ∈ encodings keccak t₂} ⊆ formed keccak m₁ ∪ formed keccak m₂ := by
      rintro e (he | he)
      · exact .inl ⟨t₁, ht₁, he⟩
      · exact .inr ⟨t₂, ht₂, he⟩
    obtain rfl := rootHash_injective ht₁ ht₂ (hinj.mono (Set.insert_subset_insert hsub)) heq
    refine hne ?_
    funext key
    rw [← ht₁.lookup, ht₂.lookup]

end Canonical

/-- A trie that was committed and opened again, and one where the entry was written over. -/
theorem hash_canonical_reopened :
    ∃ n₁ n₂, (Transition.run (World.next coarseHash) (World.start fun _ => none)
        [.on 0 (.update [0x01] [0x02] fits_small), .on 0 .commit, .reopen 0]).tries[1]? = some n₁ ∧
      (Transition.run (World.next coarseHash) (World.start fun _ => none)
        [.on 0 (.update [0x01] [0x03] fits_small), .on 0 .hash, .on 0 (.update [0x01] [0x02] fits_small)]).tries[0]? = some n₂ ∧
      (Disk.hash coarseHash n₁).1 = (Disk.hash coarseHash n₂).1 := by
  obtain ⟨n₁, n₂, hn₁, hn₂, hsame, -⟩ := hash_canonical coarseHash (fun _ => none) (fun _ => none)
    [.on 0 (.update [0x01] [0x02] fits_small), .on 0 .commit, .reopen 0]
    [.on 0 (.update [0x01] [0x03] fits_small), .on 0 .hash, .on 0 (.update [0x01] [0x02] fits_small)] 1 0 _ _
    (collisionFree_coarseHash (cons_ne_nil _ _) fits_small (by
      rintro e ⟨m, hm, he⟩
      rw [mem_singleton.mp hm] at he
      exact he))
    (collisionFree_coarseHash (cons_ne_nil _ _) fits_small (by
      rintro e ⟨m, hm, -⟩
      exact absurd hm not_mem_nil)) rfl rfl
  exact ⟨n₁, n₂, hn₁, hn₂, hsame (Function.update_idem ..).symm⟩

end PadiChain.Trie

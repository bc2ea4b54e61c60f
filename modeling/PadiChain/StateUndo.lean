import PadiChain.StateJournal

/-! What the journal is for. Undoing the entries of a change leads back to the state before it, up to
what was loaded and cached on the way; so a snapshot can be returned to from any later state of the
transaction. -/

namespace PadiChain.State

open Function JournalEntry StateObject

namespace StateObject

structure Alike (o o' : StateObject) : Prop where
  nonce : o'.data.nonce = o.data.nonce
  balance : o'.data.balance = o.data.balance
  code : o'.data.code = o.data.code
  selfDestructed : o'.selfDestructed = o.selfDestructed
  deleted : o'.deleted = o.deleted
  created : o'.created = o.created
  committed : o'.committed = o.committed
  value : o'.value = o.value

variable (o : StateObject) (key : Hash)

theorem Alike.refl : o.Alike o := ⟨rfl, rfl, rfl, rfl, rfl, rfl, rfl, rfl⟩

theorem Alike.trans {o p q : StateObject} (h : o.Alike p) (h' : p.Alike q) : o.Alike q where
  nonce := h'.nonce.trans h.nonce
  balance := h'.balance.trans h.balance
  code := h'.code.trans h.code
  selfDestructed := h'.selfDestructed.trans h.selfDestructed
  deleted := h'.deleted.trans h.deleted
  created := h'.created.trans h.created
  committed := h'.committed.trans h.committed
  value := h'.value.trans h.value

theorem value_setDirty (pending : Option Hash) :
    (o.setDirty key pending).value = update o.value key (pending.getD (o.committed key)) := by
  funext k
  simp only [value, setDirty, update_apply]
  split_ifs with hk
  · rw [hk]
    rfl
  · rfl

theorem committed_eq : o.committed key = if o.created then 0 else o.data.storage key := by
  rw [committed]
  cases horigin : o.originStorage key with
  | none => rfl
  | some v => exact o.cached key v horigin

theorem alike_setOrigin : o.Alike (o.setOrigin key) := by
  have hcommitted : (o.setOrigin key).committed = o.committed := by
    funext k
    rw [committed_eq, committed_eq]
    rfl
  refine ⟨rfl, rfl, rfl, rfl, rfl, rfl, hcommitted, ?_⟩
  funext k
  exact congrArg _ (congrFun hcommitted k)

end StateObject

open StateObject (Alike newObject)

theorem ObjectChange.revert_alike {o o' : StateObject} (h : o.Alike o') (change : ObjectChange) :
    (change.revert o).Alike (change.revert o') := by
  cases change with
  | balance prev => exact { h with balance := rfl }
  | nonce prev => exact { h with nonce := rfl }
  | code prev => exact { h with code := rfl }
  | selfDestruct prev prevBalance => exact { h with balance := rfl, selfDestructed := rfl }
  | storage key prev existed =>
    simp only [revert]
    split
    all_goals
      refine { h with value := ?_ }
      rw [value_setDirty, value_setDirty, h.value, h.committed]

/-- What two states hold for one account, when the second may have loaded more of the trie. -/
inductive Held (account : Option Account) : Option StateObject → Option StateObject → Prop where
  | unloaded : Held account none none
  | same {o o' : StateObject} (h : o.Alike o') : Held account (some o) (some o')
  | loaded {a : Account} {o : StateObject} (haccount : account = some a) (h : (newObject a).Alike o) :
      Held account none (some o)

theorem Held.refl (account : Option Account) (x : Option StateObject) : Held account x x := by
  cases x with
  | none => exact .unloaded
  | some o => exact .same (.refl o)

theorem Held.trans {account : Option Account} {x y z : Option StateObject} (h : Held account x y)
    (h' : Held account y z) : Held account x z := by
  cases h with
  | unloaded => exact h'
  | same h =>
    cases h' with
    | same h' => exact .same (h.trans h')
  | loaded haccount h =>
    cases h' with
    | same h' => exact .loaded haccount (h.trans h')

namespace StateDB

/-- The second state is the first with more loaded and cached. -/
structure Caches (s t : StateDB) : Prop where
  trie : t.trie = s.trie
  refund : t.refund = s.refund
  objects : ∀ addr, Held (s.trie addr) (s.objects addr) (t.objects addr)

theorem Caches.refl (s : StateDB) : s.Caches s := ⟨rfl, rfl, fun _ => Held.refl _ _⟩

theorem Caches.trans {s t u : StateDB} (h : s.Caches t) (h' : t.Caches u) : s.Caches u where
  trie := h'.trie.trans h.trie
  refund := h'.refund.trans h.refund
  objects addr := (h.objects addr).trans (h.trie ▸ h'.objects addr)

theorem Caches.of_eq {s t : StateDB} (htrie : t.trie = s.trie) (hrefund : t.refund = s.refund)
    (hobjects : t.objects = s.objects) : s.Caches t :=
  ⟨htrie, hrefund, fun _ => hobjects ▸ Held.refl _ _⟩

theorem Caches.update {s t s' t' : StateDB} (h : s.Caches t) {addr : Address}
    {x y : Option StateObject} (hheld : Held (s.trie addr) x y)
    (hs : s'.objects = update s.objects addr x) (hstrie : s'.trie = s.trie)
    (ht : t'.objects = update t.objects addr y) (httrie : t'.trie = t.trie)
    (hrefund : t'.refund = s'.refund) : s'.Caches t' := by
  refine ⟨httrie.trans (h.trie.trans hstrie.symm), hrefund, fun other => ?_⟩
  rw [hs, ht, hstrie, update_apply, update_apply]
  split_ifs with hother
  · exact hother ▸ hheld
  · exact h.objects other

end StateDB

def JournalEntry.Finds (s : StateDB) : JournalEntry → Prop
  | object account _ => ∃ o, s.objects account = some o
  | _ => True

theorem StateDB.Caches.loaded {s t : StateDB} (h : s.Caches t) {addr : Address} {o : StateObject}
    (hobj : s.objects addr = some o) : ∃ o', t.objects addr = some o' ∧ o.Alike o' := by
  have hheld := h.objects addr
  rw [hobj] at hheld
  generalize t.objects addr = y at hheld
  cases hheld with
  | same halike => exact ⟨_, rfl, halike⟩

variable {e : JournalEntry} {s t : StateDB}

theorem JournalEntry.Finds.mono (h : s.Caches t) (hs : e.Finds s) : e.Finds t := by
  cases e with
  | createObject account prev | refund prev => trivial
  | object account change =>
    obtain ⟨o, hobj⟩ := hs
    obtain ⟨o', hobj', -⟩ := h.loaded hobj
    exact ⟨o', hobj'⟩

theorem JournalEntry.revert_object {account : Address} {o : StateObject}
    (hobj : s.objects account = some o) (change : ObjectChange) :
    (object account change).revert s = s.putObject account (change.revert o) := by
  simp [revert, hobj]

theorem JournalEntry.revert_mono (h : s.Caches t) (hs : e.Finds s) : (e.revert s).Caches (e.revert t) := by
  cases e with
  | createObject account prev =>
    cases prev with
    | none => exact h.update .unloaded rfl rfl rfl rfl h.refund
    | some prev => exact h.update (.same (.refl prev)) rfl rfl rfl rfl h.refund
  | refund prev => exact ⟨h.trie, rfl, h.objects⟩
  | object account change =>
    obtain ⟨o, hobj⟩ := hs
    obtain ⟨o', hobj', halike⟩ := h.loaded hobj
    rw [revert_object hobj, revert_object hobj']
    exact h.update (.same (change.revert_alike halike)) rfl rfl rfl rfl h.refund

def journalEntries : Undo.Entries StateDB JournalEntry where
  undo e s := e.revert s
  ok e s := e.Finds s
  le := StateDB.Caches
  le_refl := StateDB.Caches.refl
  le_trans := StateDB.Caches.trans
  ok_mono := Finds.mono
  undo_mono := revert_mono

namespace StateDB

/-- The object `getStateObject` answers with. -/
def live (s : StateDB) (addr : Address) : Option StateObject :=
  match s.objects addr with
  | some o => if o.deleted then none else some o
  | none => (s.trie addr).map newObject

def slot (s : StateDB) (addr : Address) (key : Hash) : Hash :=
  (s.live addr).elim 0 fun o => o.value key

/-- The value the gas rules are given as the one the slot had before the transaction. -/
def base (s : StateDB) (addr : Address) (key : Hash) : Hash :=
  (s.live addr).elim 0 fun o => o.committed key

/-- The value a slot had when the block began, or, in an account created since, when that was done. -/
def opening (s : StateDB) (addr : Address) (key : Hash) : Hash :=
  (s.live addr).elim 0 fun o => if o.created then 0 else o.data.storage key

theorem base_eq_opening (s : StateDB) : s.base = s.opening := by
  funext addr key
  simp [base, opening, StateObject.committed_eq]

variable {s t : StateDB} {addr : Address} {x : Option StateObject} {o : StateObject}
  {entry : StateObject → ObjectChange} {f : StateObject → StateObject}

theorem Caches.live (h : s.Caches t) (addr : Address) :
    (s.live addr = none ∧ t.live addr = none) ∨ ∃ o o', s.live addr = some o ∧ t.live addr = some o' ∧ o.Alike o' := by
  have hheld := h.objects addr
  simp only [StateDB.live, h.trie]
  generalize s.objects addr = x at hheld
  generalize t.objects addr = y at hheld
  cases hheld with
  | unloaded =>
    cases s.trie addr with
    | none => exact .inl ⟨rfl, rfl⟩
    | some a => exact .inr ⟨_, _, rfl, rfl, .refl _⟩
  | @same o o' halike =>
    simp only [halike.deleted]
    cases o.deleted with
    | true => exact .inl ⟨rfl, rfl⟩
    | false => exact .inr ⟨o, o', rfl, rfl, halike⟩
  | @loaded a o haccount halike =>
    have hdeleted : o.deleted = false := halike.deleted
    simp only [haccount, hdeleted]
    exact .inr ⟨newObject a, o, rfl, rfl, halike⟩

theorem Caches.slot (h : s.Caches t) : t.slot = s.slot := by
  funext addr key
  rcases h.live addr with ⟨hs, ht⟩ | ⟨o, o', hs, ht, halike⟩
  · rw [StateDB.slot, StateDB.slot, hs, ht]
  · rw [StateDB.slot, StateDB.slot, hs, ht]
    exact congrFun halike.value key

theorem Caches.base (h : s.Caches t) : t.base = s.base := by
  funext addr key
  rcases h.live addr with ⟨hs, ht⟩ | ⟨o, o', hs, ht, halike⟩
  · rw [StateDB.base, StateDB.base, hs, ht]
  · rw [StateDB.base, StateDB.base, hs, ht]
    exact congrFun halike.committed key

/-- The journal leads from the second state back to the first. -/
structure Journaled (s t : StateDB) : Prop where
  entries : ∃ es, t.journal = es ++ s.journal ∧ journalEntries.Back s es t
  revisions : t.revisions = s.revisions

theorem Journaled.trans {u : StateDB} (h : s.Journaled t) (h' : t.Journaled u) : s.Journaled u := by
  obtain ⟨es, hes, hback⟩ := h.entries
  obtain ⟨fs, hfs, hback'⟩ := h'.entries
  refine ⟨⟨fs ++ es, ?_, hback.trans hback'⟩, h'.revisions.trans h.revisions⟩
  rw [hfs, hes, List.append_assoc]

/-- A change that no slot and no counter shows. -/
structure Quiet (s t : StateDB) : Prop extends Journaled s t where
  slot : t.slot = s.slot
  base : t.base = s.base
  refund : t.refund = s.refund
  err : t.err = s.err

theorem Quiet.trans {u : StateDB} (h : s.Quiet t) (h' : t.Quiet u) : s.Quiet u where
  toJournaled := h.toJournaled.trans h'.toJournaled
  slot := h'.slot.trans h.slot
  base := h'.base.trans h.base
  refund := h'.refund.trans h.refund
  err := h'.err.trans h.err

theorem Caches.quiet (h : s.Caches t) (hjournal : t.journal = s.journal)
    (hrevisions : t.revisions = s.revisions) (herr : t.err = s.err) : s.Quiet t where
  entries := ⟨[], hjournal, .of_le h⟩
  revisions := hrevisions
  slot := h.slot
  base := h.base
  refund := h.refund
  err := herr

theorem Quiet.refl (s : StateDB) : s.Quiet s := (Caches.refl s).quiet rfl rfl rfl

/-! Reading -/

theorem objects_eq_update (hobj : s.objects addr = x) : s.objects = update s.objects addr x := by
  rw [← hobj, update_eq_self]

theorem live_of_objects (hobj : s.objects addr = some o) (hdeleted : o.deleted = false) : s.live addr = some o := by
  simp only [live, hobj, hdeleted]
  rfl

/-- What loading an account gives: the object answered is the one then held, and not deleted. -/
theorem getStateObject_spec (s : StateDB) (addr : Address) :
    (s.getStateObject addr).1 = s.live addr ∧ s.Caches (s.getStateObject addr).2 ∧
      s.Quiet (s.getStateObject addr).2 ∧
      ∀ o, s.live addr = some o → (s.getStateObject addr).2.objects addr = some o ∧ o.deleted = false := by
  cases hobj : s.objects addr with
  | some o =>
    have hget : s.getStateObject addr = (s.live addr, s) := by simp [getStateObject, live, hobj]
    rw [hget]
    refine ⟨rfl, .refl s, .refl s, fun o' hlive => ?_⟩
    simp only [live, hobj] at hlive
    split at hlive
    · cases hlive
    · cases hlive
      exact ⟨hobj, by simp_all⟩
  | none =>
    cases htrie : s.trie addr with
    | none =>
      have hget : s.getStateObject addr = (none, s) := by simp [getStateObject, hobj, htrie]
      have hlive : s.live addr = none := by simp [live, hobj, htrie]
      rw [hget, hlive]
      exact ⟨rfl, .refl s, .refl s, nofun⟩
    | some a =>
      have hget : s.getStateObject addr = (some (newObject a), s.putObject addr (newObject a)) := by
        simp [getStateObject, hobj, htrie]
      have hlive : s.live addr = some (newObject a) := by simp [live, hobj, htrie]
      have hcaches : s.Caches (s.putObject addr (newObject a)) :=
        (Caches.refl s).update (.loaded htrie (.refl _)) (objects_eq_update hobj) rfl rfl rfl rfl
      rw [hget, hlive]
      refine ⟨rfl, hcaches, hcaches.quiet rfl rfl rfl, fun o h => ?_⟩
      cases h
      exact ⟨update_self .., rfl⟩

/-- The same, with a name for what is answered and for the state after it. -/
theorem getStateObject_cases (s : StateDB) (addr : Address) : ∃ found t, s.getStateObject addr = (found, t) ∧
    found = s.live addr ∧ s.Caches t ∧ s.Quiet t ∧
      ∀ o, s.live addr = some o → t.objects addr = some o ∧ o.deleted = false :=
  ⟨_, _, rfl, s.getStateObject_spec addr⟩

theorem committedState_spec (hobj : s.objects addr = some o) (key : Hash) :
    (s.committedState addr o key).1 = o.committed key ∧ s.Caches (s.committedState addr o key).2 ∧
      s.Quiet (s.committedState addr o key).2 := by
  cases horigin : o.originStorage key with
  | some v =>
    have hget : s.committedState addr o key = (o.committed key, s) := by
      simp [committedState, committed, horigin]
    rw [hget]
    exact ⟨rfl, .refl s, .refl s⟩
  | none =>
    have hget : s.committedState addr o key = (o.committed key, s.putObject addr (o.setOrigin key)) := by
      simp [committedState, committed, horigin]
    have hcaches : s.Caches (s.putObject addr (o.setOrigin key)) :=
      (Caches.refl s).update (.same (o.alike_setOrigin key)) (objects_eq_update hobj) rfl rfl rfl rfl
    rw [hget]
    exact ⟨rfl, hcaches, hcaches.quiet rfl rfl rfl⟩

theorem getCommittedState_spec (s : StateDB) (addr : Address) (key : Hash) :
    (s.getCommittedState addr key).1 = s.base addr key ∧ s.Caches (s.getCommittedState addr key).2 ∧
      s.Quiet (s.getCommittedState addr key).2 := by
  obtain ⟨found, t, hget, hfst, hcaches, hquiet, hlive⟩ := s.getStateObject_cases addr
  simp only [getCommittedState, hget, base, ← hfst]
  cases found with
  | none => exact ⟨rfl, hcaches, hquiet⟩
  | some o =>
    obtain ⟨hvalue, hcaches', hquiet'⟩ := committedState_spec (hlive o hfst.symm).1 key
    exact ⟨hvalue, hcaches.trans hcaches', hquiet.trans hquiet'⟩

theorem getState_spec (s : StateDB) (addr : Address) (key : Hash) :
    (s.getState addr key).1 = s.slot addr key ∧ s.Caches (s.getState addr key).2 ∧ s.Quiet (s.getState addr key).2 := by
  obtain ⟨found, t, hget, hfst, hcaches, hquiet, hlive⟩ := s.getStateObject_cases addr
  simp only [getState, hget, slot, ← hfst]
  cases found with
  | none => exact ⟨rfl, hcaches, hquiet⟩
  | some o =>
    simp only [Option.elim, StateObject.value]
    cases hdirty : o.dirtyStorage key with
    | some v => exact ⟨rfl, hcaches, hquiet⟩
    | none =>
      obtain ⟨hvalue, hcaches', hquiet'⟩ := committedState_spec (hlive o hfst.symm).1 key
      exact ⟨hvalue, hcaches.trans hcaches', hquiet.trans hquiet'⟩

/-! Writing -/

theorem slot_put (htrie : t.trie = s.trie)
    (hobj : t.objects = update s.objects addr (some o)) (hdeleted : o.deleted = false) :
    t.slot = update s.slot addr o.value ∧ t.base = update s.base addr o.committed := by
  have hself : t.live addr = some o := live_of_objects (by rw [hobj, update_self]) hdeleted
  have hother : ∀ other, other ≠ addr → t.live other = s.live other := by
    intro other hne
    simp [live, hobj, htrie, update_of_ne hne]
  constructor
  all_goals
    funext other
    by_cases hne : other = addr
    · subst hne
      rw [update_self]
      funext key
      simp [slot, base, hself]
    · rw [update_of_ne hne]
      funext key
      simp [slot, base, hother other hne]

/-- The entry of a creation leads back to what the creation displaced. -/
theorem caches_revert_create (hobj : t.objects = update s.objects addr x) (htrie : t.trie = s.trie)
    (hrefund : t.refund = s.refund) : s.Caches (revert t (.createObject addr (s.objects addr))) := by
  have hobjects : update t.objects addr (s.objects addr) = s.objects := by
    rw [hobj, update_idem, update_eq_self]
  generalize s.objects addr = prev at hobjects
  cases prev with
  | none | some _ => exact .of_eq htrie hrefund hobjects

theorem journaled_create (hjournal : t.journal = .createObject addr (s.objects addr) :: s.journal)
    (hobj : t.objects = update s.objects addr x) (htrie : t.trie = s.trie)
    (hrefund : t.refund = s.refund) (hrevisions : t.revisions = s.revisions) : s.Journaled t :=
  ⟨⟨[_], hjournal, .of_undo trivial (caches_revert_create hobj htrie hrefund)⟩, hrevisions⟩

theorem createObject_spec (s : StateDB) (addr : Address) :
    s.Journaled (s.createObject addr).2 ∧
      (s.createObject addr).2.slot = update s.slot addr (fun _ => 0) ∧
      (s.createObject addr).2.base = update s.base addr (fun _ => 0) := by
  refine ⟨journaled_create rfl rfl rfl rfl rfl, ?_⟩
  exact slot_put (o := (s.createObject addr).1) rfl rfl rfl

theorem getOrNewStateObject_spec (s : StateDB) (addr : Address) :
    s.Quiet (s.getOrNewStateObject addr).2 ∧
      ∃ o, (s.getOrNewStateObject addr).2.objects addr = some o ∧ o.deleted = false := by
  obtain ⟨found, t, hget, hfst, hcaches, hquiet, hlive⟩ := s.getStateObject_cases addr
  simp only [getOrNewStateObject, hget]
  cases found with
  | some o => exact ⟨hquiet, o, hlive o hfst.symm⟩
  | none =>
    -- an account that is absent answers zero for every slot, as the new one does
    obtain ⟨hjournaled, hslot, hbase⟩ := t.createObject_spec addr
    have habsent : t.live addr = none := by
      rcases hcaches.live addr with ⟨-, ht⟩ | ⟨o, -, hs, -⟩
      · exact ht
      · rw [hs] at hfst
        cases hfst
    have hzero : t.slot addr = (fun _ => 0) ∧ t.base addr = fun _ => 0 := by
      constructor
      all_goals
        funext key
        simp [slot, base, habsent]
    rw [← hzero.1, update_eq_self] at hslot
    rw [← hzero.2, update_eq_self] at hbase
    exact ⟨hquiet.trans ⟨hjournaled, hslot, hbase, rfl, rfl⟩, _, update_self .., rfl⟩

theorem change_eq (entry : StateObject → ObjectChange)
    (f : StateObject → StateObject) (hobj : s.objects addr = some o) :
    s.change addr entry f = ((s.append (.object addr (entry o))).putObject addr (f o)).markDirty addr := by
  simp [change, hobj]

section

variable (hobj : s.objects addr = some o)

include hobj

theorem caches_revert_change (halike : o.Alike ((entry o).revert (f o))) :
    s.Caches (revert (s.change addr entry f) (.object addr (entry o))) := by
  have hchange := change_eq entry f hobj
  have hput : (s.change addr entry f).objects addr = some (f o) := by
    rw [hchange]
    exact update_self ..
  rw [revert_object hput, hchange]
  exact (Caches.refl s).update (.same halike) (objects_eq_update hobj) rfl (update_idem ..) rfl rfl

theorem journaled_change (halike : o.Alike ((entry o).revert (f o))) : s.Journaled (s.change addr entry f) := by
  have hback := caches_revert_change hobj halike
  rw [change_eq entry f hobj] at hback ⊢
  exact ⟨⟨[.object addr (entry o)], rfl, .of_undo ⟨_, update_self ..⟩ hback⟩, rfl⟩

theorem slot_of_objects (hdeleted : o.deleted = false) : s.slot addr = o.value ∧ s.base addr = o.committed := by
  constructor
  all_goals
    funext key
    simp [slot, base, live_of_objects hobj hdeleted]

end

theorem slot_change (entry : StateObject → ObjectChange)
    (hobj : s.objects addr = some o) (hdeleted : (f o).deleted = false) :
    (s.change addr entry f).slot = update s.slot addr (f o).value ∧
      (s.change addr entry f).base = update s.base addr (f o).committed := by
  rw [change_eq entry f hobj]
  exact slot_put rfl rfl hdeleted

theorem quiet_change (hobj : s.objects addr = some o)
    (hdeleted : o.deleted = false) (halike : ∀ o : StateObject, o.Alike ((entry o).revert (f o)))
    (hkeeps : ∀ o, (f o).deleted = o.deleted ∧ (f o).value = o.value ∧ (f o).committed = o.committed) :
    s.Quiet (s.change addr entry f) := by
  obtain ⟨hkeepsDeleted, hvalue, hcommitted⟩ := hkeeps o
  obtain ⟨hslot, hbase⟩ := slot_change entry hobj (hkeepsDeleted.trans hdeleted)
  obtain ⟨hown, hownBase⟩ := slot_of_objects hobj hdeleted
  refine ⟨journaled_change hobj (halike o), ?_, ?_, ?_, ?_⟩
  · rw [hslot, hvalue, ← hown, update_eq_self]
  · rw [hbase, hcommitted, ← hownBase, update_eq_self]
  all_goals rw [change_eq entry f hobj]; rfl

/-- The entry of a write gives the slot back its value, through the pending write or without one. -/
theorem alike_revert_storage (o : StateObject) (key value : Hash) :
    o.Alike ((ObjectChange.storage key (o.value key) (o.dirtyStorage key).isSome).revert
      (o.setDirty key (some value))) := by
  simp only [ObjectChange.revert]
  split
  · rename_i hclean
    simp only [Bool.and_eq_true, Bool.not_eq_true', Option.isSome_eq_false_iff, Option.isNone_iff_eq_none] at hclean
    refine ⟨rfl, rfl, rfl, rfl, rfl, rfl, rfl, ?_⟩
    have hvalue : o.committed key = o.value key := by
      rw [StateObject.value, hclean.1]
      rfl
    rw [value_setDirty, value_setDirty, update_idem]
    change update o.value key (o.committed key) = o.value
    rw [hvalue, update_eq_self]
  · refine ⟨rfl, rfl, rfl, rfl, rfl, rfl, rfl, ?_⟩
    rw [value_setDirty, value_setDirty, update_idem, Option.getD_some,
      update_eq_self]

section

variable (s addr)

theorem quiet_getOrNew_change (halike : ∀ o : StateObject, o.Alike ((entry o).revert (f o)))
    (hkeeps : ∀ o, (f o).deleted = o.deleted ∧ (f o).value = o.value ∧ (f o).committed = o.committed) :
    s.Quiet ((s.getOrNewStateObject addr).2.change addr entry f) := by
  obtain ⟨hquiet, o, hobj, hdeleted⟩ := s.getOrNewStateObject_spec addr
  exact hquiet.trans (quiet_change hobj hdeleted halike hkeeps)

theorem quiet_getStateObject : s.Quiet (s.getStateObject addr).2 :=
  (s.getStateObject_spec addr).2.2.1

theorem quiet_addBalance (amount : Int) : s.Quiet (s.addBalance addr amount) := by
  have hexist : s.Quiet (s.exist addr).2 := s.quiet_getStateObject addr
  simp only [addBalance]
  split
  · split
    · exact hexist.trans (getOrNewStateObject_spec _ addr).1
    · exact hexist
  · exact s.quiet_getOrNew_change addr .refl fun _ => ⟨rfl, rfl, rfl⟩

theorem quiet_subBalance (amount : Int) : s.Quiet (s.subBalance addr amount) := by
  simp only [subBalance]
  split
  · exact .refl s
  · exact s.quiet_getOrNew_change addr .refl fun _ => ⟨rfl, rfl, rfl⟩

theorem quiet_setNonce (nonce : Nat) : s.Quiet (s.setNonce addr nonce) :=
  s.quiet_getOrNew_change addr .refl fun _ => ⟨rfl, rfl, rfl⟩

theorem quiet_setCode (code : Bytes) : s.Quiet (s.setCode addr code) :=
  s.quiet_getOrNew_change addr .refl fun _ => ⟨rfl, rfl, rfl⟩

theorem quiet_selfDestruct : s.Quiet (s.selfDestruct addr) := by
  obtain ⟨found, t, hget, hfst, -, hquiet, hlive⟩ := s.getStateObject_cases addr
  simp only [selfDestruct, hget]
  cases found with
  | none => exact hquiet
  | some o =>
    obtain ⟨hobj, hdeleted⟩ := hlive o hfst.symm
    exact hquiet.trans (quiet_change hobj hdeleted .refl fun _ => ⟨rfl, rfl, rfl⟩)

theorem createAccount_spec :
    s.Journaled (s.createAccount addr) ∧
      (s.createAccount addr).slot = update s.slot addr (fun _ => 0) ∧
      (s.createAccount addr).base = update s.base addr (fun _ => 0) ∧
      (s.createAccount addr).refund = s.refund ∧ (s.createAccount addr).err = s.err := by
  have hquiet := s.quiet_getStateObject addr
  rcases hget : s.getStateObject addr with ⟨found, t⟩
  rw [hget] at hquiet
  simp only [createAccount, hget]
  rw [← hquiet.slot, ← hquiet.base, ← hquiet.refund, ← hquiet.err]
  cases found with
  | none =>
    obtain ⟨hjournaled, hslot, hbase⟩ := t.createObject_spec addr
    exact ⟨hquiet.toJournaled.trans hjournaled, hslot, hbase, rfl, rfl⟩
  | some prev =>
    let obj : StateObject :=
      { (t.createObject addr).1 with data := { (t.createObject addr).1.data with balance := prev.data.balance } }
    have hobjects : ((t.createObject addr).2.putObject addr obj).objects =
        update t.objects addr (some obj) := update_idem ..
    obtain ⟨hslot, hbase⟩ := slot_put (s := t) (t := (t.createObject addr).2.putObject addr obj) rfl hobjects rfl
    exact ⟨hquiet.toJournaled.trans (journaled_create rfl hobjects rfl rfl rfl), hslot, hbase, rfl, rfl⟩

theorem setState_spec (key value : Hash) :
    s.Journaled (s.setState addr key value) ∧
      (s.setState addr key value).slot =
        update s.slot addr (update (s.slot addr) key value) ∧
      (s.setState addr key value).base = s.base ∧
      (s.setState addr key value).refund = s.refund ∧ (s.setState addr key value).err = s.err := by
  obtain ⟨hquiet, o, hobj, hdeleted⟩ := s.getOrNewStateObject_spec addr
  obtain ⟨hprev, hcaches, hquiet'⟩ := (s.getOrNewStateObject addr).2.getState_spec addr key
  rcases hget : (s.getOrNewStateObject addr).2.getState addr key with ⟨prev, t⟩
  simp only [hget] at hprev hcaches hquiet'
  obtain ⟨o', hobj', halike⟩ := hcaches.loaded hobj
  have hdeleted' : o'.deleted = false := halike.deleted.trans hdeleted
  have hread : s.Quiet t := hquiet.trans hquiet'
  obtain ⟨hown, hownBase⟩ := slot_of_objects hobj' hdeleted'
  have hprev' : prev = o'.value key := by
    rw [hprev, hquiet.slot, ← hread.slot, hown]
  simp only [setState, hget]
  rw [← hread.slot, ← hread.base, ← hread.refund, ← hread.err, hown]
  split_ifs with hsame
  · rw [← hsame, hprev', update_eq_self, ← hown, update_eq_self]
    exact ⟨hread.toJournaled, rfl, rfl, rfl, rfl⟩
  · rw [hprev']
    obtain ⟨hslot, hbase⟩ := slot_change
      (fun o => .storage key (o'.value key) (o.dirtyStorage key).isSome)
      (f := fun o => o.setDirty key (some value)) hobj' hdeleted'
    refine ⟨hread.toJournaled.trans (journaled_change hobj' (alike_revert_storage o' key value)), ?_, ?_, ?_, ?_⟩
    · rw [hslot, value_setDirty, Option.getD_some]
    · rw [hbase]
      change update t.base addr o'.committed = t.base
      rw [← hownBase, update_eq_self]
    all_goals rw [change_eq _ _ hobj']; rfl

end

/-- A new value of the refund counter, with the old one in the journal. -/
theorem journaled_refund (hjournal : t.journal = .refund s.refund :: s.journal)
    (hobjects : t.objects = s.objects) (htrie : t.trie = s.trie) (hrevisions : t.revisions = s.revisions) :
    s.Journaled t :=
  ⟨⟨[.refund s.refund], hjournal, .of_undo trivial (.of_eq htrie rfl hobjects)⟩, hrevisions⟩

/-! Snapshots -/

/-- At every revision that can still be returned to, the state had the property. -/
structure Marks (P : StateDB → Prop) (s : StateDB) : Prop where
  undoable : journalEntries.Undoable s.journal s
  marked : journalEntries.Marked P s.journal (s.revisions.map Prod.snd) s
  sorted : s.revisions.Pairwise fun newer older => older.2 ≤ newer.2

variable {P : StateDB → Prop}

theorem Marks.journaled (hP : ∀ s t, Caches s t → P s → P t) (hs : Marks P s) (h : s.Journaled t) : Marks P t := by
  obtain ⟨es, hjournal, hback⟩ := h.entries
  refine ⟨?_, ?_, ?_⟩
  · rw [hjournal]
    exact hback.undoable hs.undoable
  · rw [hjournal, h.revisions]
    exact Undo.Entries.Marked.back hP hs.undoable hs.marked hback
  · rw [h.revisions]
    exact hs.sorted

theorem Marks.snapshot (hP : ∀ s t, Caches s t → P s → P t) (hs : Marks P s) (h : P s) : Marks P s.snapshot.2 := by
  have hsame : s.Caches s.snapshot.2 := .of_eq rfl rfl rfl
  refine ⟨hs.undoable.mono hsame, ?_, List.pairwise_cons.mpr ⟨fun older holder => ?_, hs.sorted⟩⟩
  · exact Undo.Entries.Marked.back hP hs.undoable (hs.marked.mark h) (.of_le hsame)
  · exact (hs.marked older.2 (List.mem_map_of_mem holder)).1

theorem rollback_eq_foldl (es : List JournalEntry) (s : StateDB) :
    journalEntries.rollback es s = es.foldl revert s := by
  induction es generalizing s with
  | nil => rfl
  | cons e es ih => exact ih (e.revert s)

theorem revert_err (s : StateDB) (e : JournalEntry) : (e.revert s).err = s.err := by
  cases e with
  | refund prev => rfl
  | createObject account prev => cases prev <;> rfl
  | object account change =>
    simp only [revert]
    split <;> rfl

theorem foldl_revert_err {es : List JournalEntry} (s : StateDB) : (es.foldl revert s).err = s.err := by
  induction es generalizing s with
  | nil => rfl
  | cons e es ih => exact (ih (e.revert s)).trans (revert_err s e)

/-- What returning to a snapshot gives: the property that held there, and an error that stays. -/
theorem Marks.revertToSnapshot (hP : ∀ s t, Caches s t → P s → P t) (hs : Marks P s)
    {id : Nat} (h : s.revertToSnapshot id = some t) : P t ∧ Marks P t ∧ t.err = s.err := by
  simp only [StateDB.revertToSnapshot] at h
  split at h
  · cases h
  · rename_i r older hdrop
    split at h
    · cases h
      have hsuffix : (r :: older) <:+ s.revisions := hdrop ▸ List.dropWhile_suffix _
      have hsorted := List.pairwise_cons.mp (hs.sorted.sublist hsuffix.sublist)
      have hbelow : ∀ m ∈ older.map Prod.snd, m ∈ s.revisions.map Prod.snd ∧ m ≤ r.2 := by
        intro m hm
        obtain ⟨q, hq, rfl⟩ := List.mem_map.mp hm
        exact ⟨List.mem_map_of_mem (hsuffix.subset (List.mem_cons_of_mem r hq)), hsorted.1 q hq⟩
      obtain ⟨hlength, hprop⟩ :=
        hs.marked r.2 (List.mem_map_of_mem (hsuffix.subset List.mem_cons_self))
      -- the state reached differs from the one undone only in its journal and revisions
      have hsame : Caches (journalEntries.rollback (s.journal.take (s.journal.length - r.2)) s)
          { s.revertJournal r.2 with revisions := older } := by
        rw [rollback_eq_foldl]
        exact .of_eq rfl rfl rfl
      have hundoable := hs.undoable.drop (s.journal.length - r.2)
      refine ⟨hP _ _ hsame hprop, ⟨hundoable.mono hsame, ?_, hsorted.2⟩, foldl_revert_err s⟩
      exact Undo.Entries.Marked.back hP hundoable (hs.marked.cut hlength hbelow) (.of_le hsame)
    · cases h

end StateDB

end PadiChain.State

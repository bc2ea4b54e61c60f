import PadiChain.StateTx

/-! What the set of touched accounts does to a return to a snapshot. The set is not journaled: an account that
only undone operations have touched stays in it, and the next `Finalise` looks at it. This tracks, through the
journal, which accounts may have entered the set; where those were not empty, the next commit is as before. -/

namespace PadiChain.State

open Function StateObject JournalEntry

open StateObject (Alike newObject createdObject)

/-- A created account has nothing in its storage trie. -/
def StateObject.Bare (o : StateObject) : Prop := o.created = true → ∀ key, o.data.storage key = 0

theorem StateObject.bare_newObject (a : Account) : (newObject a).Bare := nofun

theorem StateObject.bare_createdObject : createdObject.Bare := fun _ _ => rfl

def StateObject.account (o : StateObject) : Account := ⟨o.data.nonce, o.data.balance, o.data.code, o.value⟩

variable {o o' : StateObject} {e : JournalEntry} {s t : StateDB} {may : Address → Prop}

theorem StateObject.Alike.account (h : o.Alike o') : o'.account = o.account := by
  rw [StateObject.account, StateObject.account, h.nonce, h.balance, h.code, h.value]

theorem StateObject.Alike.isEmpty (h : o.Alike o') : o'.data.isEmpty = o.data.isEmpty := by
  rw [Account.isEmpty, Account.isEmpty, h.nonce, h.balance, h.code]

theorem StateObject.Bare.written (h : o.Bare) :
    (fun key => (o.dirtyStorage key).getD (o.data.storage key)) = o.value := by
  funext key
  rw [StateObject.value, committed_eq]
  cases hcreated : o.created with
  | false => rfl
  | true =>
    rw [h hcreated key]
    rfl

theorem StateObject.alike_settle (hdestructed : o.selfDestructed = false) (hdeleted : o.deleted = false) :
    (newObject o.account).Alike o.settle := by
  have hcommitted : o.settle.committed = (newObject o.account).committed := by
    funext key
    rw [committed_eq, committed_eq]
    rfl
  refine ⟨rfl, rfl, rfl, hdestructed, hdeleted, rfl, hcommitted, ?_⟩
  funext key
  exact congrFun hcommitted key

theorem ObjectChange.bare_revert (h : o.Bare) (change : ObjectChange) : (change.revert o).Bare := by
  cases change with
  | storage key prev existed =>
    simp only [revert]
    split
    · exact h
    · exact h
  | _ => exact h

/-- What the objects of a state say about its trie: one that was not touched is the account in the trie. -/
structure StateDB.Coherent (s : StateDB) : Prop where
  untouched : ∀ addr o, s.objects addr = some o → s.objectsDirty addr = false →
    (o.deleted = true ∧ s.trie addr = none) ∨ ∃ a, s.trie addr = some a ∧ (newObject a).Alike o
  bare : ∀ addr o, s.objects addr = some o → o.Bare
  touched : ∀ addr, s.objectsDirty addr = true → ∃ o, s.objects addr = some o

/-- An entry finds its account loaded and in the set of touched accounts. -/
def JournalEntry.Fits (s : StateDB) : JournalEntry → Prop
  | object addr _ => (∃ o, s.objects addr = some o) ∧ s.objectsDirty addr = true
  | createObject addr (some prev) => s.objectsDirty addr = true ∧ prev.Bare
  | _ => True

namespace StateDB

namespace Coherent

variable {s t : StateDB}

variable (h : s.Coherent)

include h

theorem clean {addr : Address} (hobj : s.objects addr = none) : s.objectsDirty addr = false := by
  cases hdirty : s.objectsDirty addr with
  | false => rfl
  | true =>
    obtain ⟨o, ho⟩ := h.touched addr hdirty
    rw [hobj] at ho
    cases ho

theorem put {addr : Address} (htrie : t.trie = s.trie) (hobj : t.objects = update s.objects addr (some o))
    (hdirty : ∀ other, other ≠ addr → t.objectsDirty other = s.objectsDirty other) (hbare : o.Bare)
    (huntouched : t.objectsDirty addr = false →
      (o.deleted = true ∧ s.trie addr = none) ∨ ∃ a, s.trie addr = some a ∧ (newObject a).Alike o) : t.Coherent := by
  refine ⟨fun a p hp hclean => ?_, fun a p hp => ?_, fun a hd => ?_⟩
  · rw [htrie]
    rw [hobj, update_apply] at hp
    split_ifs at hp with ha
    · cases hp
      subst ha
      exact huntouched hclean
    · exact h.untouched a p hp ((hdirty a ha).symm.trans hclean)
  · rw [hobj, update_apply] at hp
    split_ifs at hp with ha
    · cases hp
      exact hbare
    · exact h.bare a p hp
  · rw [hobj, update_apply]
    split_ifs with ha
    · exact ⟨o, rfl⟩
    · exact h.touched a ((hdirty a ha).symm.trans hd)

theorem congr (htrie : t.trie = s.trie) (hobj : t.objects = s.objects)
    (hdirty : t.objectsDirty = s.objectsDirty) : t.Coherent := by
  constructor
  · rw [htrie, hobj, hdirty]
    exact h.untouched
  · rw [hobj]
    exact h.bare
  · rw [hobj, hdirty]
    exact h.touched

theorem revert (hfits : e.Fits s) : (e.revert s).Coherent := by
  cases e with
  | refund prev => exact h.congr rfl rfl rfl
  | object addr change =>
    obtain ⟨⟨o, hobj⟩, hdirty⟩ := hfits
    rw [JournalEntry.revert_object hobj]
    refine h.put rfl rfl (fun _ _ => rfl) (change.bare_revert (h.bare addr o hobj)) fun hclean => ?_
    cases hdirty.symm.trans hclean
  | createObject addr prev =>
    cases prev with
    | some prev =>
      refine h.put (o := prev) rfl rfl (fun _ _ => rfl) hfits.2 fun hclean => ?_
      cases hfits.1.symm.trans hclean
    | none =>
      simp only [JournalEntry.revert]
      refine ⟨fun a o hobj hclean => ?_, fun a o hobj => ?_, fun a hdirty => ?_⟩
      all_goals
        have ha : a ≠ addr := by
          rintro rfl
          simp_all
        simp only [update_of_ne ha] at *
      · exact h.untouched a o hobj hclean
      · exact h.bare a o hobj
      · exact h.touched a hdirty

end Coherent

/-- The second state is the first with more loaded and cached, and with more accounts touched, but only such as
`may` allows. -/
structure Tracks (may : Address → Prop) (s t : StateDB) : Prop where
  caches : s.Caches t
  kept : ∀ addr, s.objectsDirty addr = true → t.objectsDirty addr = true
  gained : ∀ addr, t.objectsDirty addr = true → s.objectsDirty addr = true ∨ may addr

namespace Tracks

variable {may : Address → Prop} {s t u : StateDB}

theorem of_eq (h : s.Caches t) (hdirty : t.objectsDirty = s.objectsDirty) : Tracks may s t :=
  ⟨h, fun _ hs => by rw [hdirty]; exact hs, fun _ ht => .inl (by rw [← hdirty]; exact ht)⟩

theorem refl (s : StateDB) : Tracks may s s := .of_eq (.refl s) rfl

theorem trans (h : Tracks may s t) (h' : Tracks may t u) : Tracks may s u where
  caches := h.caches.trans h'.caches
  kept addr hs := h'.kept addr (h.kept addr hs)
  gained addr hu := by
    rcases h'.gained addr hu with ht | hmay
    · exact h.gained addr ht
    · exact .inr hmay

theorem of_update (h : s.Caches t) {addr : Address} (hdirty : t.objectsDirty = update s.objectsDirty addr true)
    (hmay : may addr) : Tracks may s t := by
  refine ⟨h, fun a hs => ?_, fun a ht => ?_⟩
  · rw [hdirty, update_apply]
    split_ifs
    · rfl
    · exact hs
  · by_cases ha : a = addr
    · exact .inr (ha ▸ hmay)
    · rw [hdirty, update_of_ne ha] at ht
      exact .inl ht

end Tracks

end StateDB

theorem JournalEntry.Fits.finds (h : e.Fits s) : e.Finds s := by
  cases e with
  | object addr change => exact h.1
  | _ => trivial

theorem JournalEntry.Fits.mono (h : StateDB.Tracks may s t) (hs : e.Fits s) : e.Fits t := by
  cases e with
  | refund prev => trivial
  | object addr change =>
    obtain ⟨o, hobj⟩ := hs.1
    obtain ⟨o', hobj', -⟩ := h.caches.loaded hobj
    exact ⟨⟨o', hobj'⟩, h.kept addr hs.2⟩
  | createObject addr prev =>
    cases prev with
    | none => trivial
    | some prev => exact ⟨h.kept addr hs.1, hs.2⟩

theorem JournalEntry.revert_object_objectsDirty (s : StateDB) (addr : Address) (change : ObjectChange) :
    ((object addr change).revert s).objectsDirty = s.objectsDirty := by
  simp only [revert]
  split <;> rfl

/-- Only undoing the creation of an account that was not there takes it out of the set. -/
theorem JournalEntry.revert_objectsDirty_cases (e : JournalEntry) :
    (∀ s : StateDB, (e.revert s).objectsDirty = s.objectsDirty) ∨
      ∃ addr, ∀ s : StateDB, (e.revert s).objectsDirty = update s.objectsDirty addr false := by
  cases e with
  | refund prev => exact .inl fun _ => rfl
  | object addr change => exact .inl fun s => revert_object_objectsDirty s addr change
  | createObject addr prev =>
    cases prev with
    | some prev => exact .inl fun _ => rfl
    | none => exact .inr ⟨addr, fun _ => rfl⟩

theorem JournalEntry.revert_tracks
    (h : StateDB.Tracks may s t) (hs : e.Fits s) : StateDB.Tracks may (e.revert s) (e.revert t) := by
  have hcaches := JournalEntry.revert_mono h.caches hs.finds
  rcases e.revert_objectsDirty_cases with hsame | ⟨addr, hupdate⟩
  · refine ⟨hcaches, ?_, ?_⟩
    · rw [hsame, hsame]
      exact h.kept
    · rw [hsame, hsame]
      exact h.gained
  · refine ⟨hcaches, fun a => ?_, fun a => ?_⟩
    all_goals
      rw [hupdate, hupdate, update_apply, update_apply]
      split_ifs
    · exact id
    · exact h.kept a
    · nofun
    · exact h.gained a

def trackedEntries (may : Address → Prop) : Undo.Entries StateDB JournalEntry where
  undo e s := e.revert s
  ok e s := e.Fits s
  le := StateDB.Tracks may
  le_refl := StateDB.Tracks.refl
  le_trans := StateDB.Tracks.trans
  ok_mono := Fits.mono
  undo_mono := revert_tracks

namespace StateDB

/-! ### Operations -/

/-- An operation that keeps what the objects say, and that its journal entries lead back from. -/
def Advances (may : Address → Prop) (s t : StateDB) : Prop :=
  s.Coherent → t.Coherent ∧ ∃ es, t.journal = es ++ s.journal ∧ (trackedEntries may).Back s es t

variable {may : Address → Prop}

theorem Advances.trans {u : StateDB} (h : Advances may s t) (h' : Advances may t u) : Advances may s u := by
  intro hs
  obtain ⟨ht, es, hes, hback⟩ := h hs
  obtain ⟨hu, fs, hfs, hback'⟩ := h' ht
  refine ⟨hu, fs ++ es, ?_, hback.trans hback'⟩
  rw [hfs, hes, List.append_assoc]

variable {s t : StateDB} {addr : Address} {o : StateObject} {entry : StateObject → ObjectChange}
  {f : StateObject → StateObject}

theorem Advances.of_caches (hcoherent : s.Coherent → t.Coherent) (h : s.Caches t)
    (hdirty : t.objectsDirty = s.objectsDirty) (hjournal : t.journal = s.journal) : Advances may s t :=
  fun hs => ⟨hcoherent hs, [], hjournal, .of_le (.of_eq h hdirty)⟩

theorem Advances.refl (s : StateDB) : Advances may s s := .of_caches id (.refl s) rfl rfl

theorem advances_getStateObject (s : StateDB) (addr : Address) : Advances may s (s.getStateObject addr).2 := by
  have hcaches := (s.getStateObject_spec addr).2.1
  revert hcaches
  simp only [getStateObject]
  cases hobj : s.objects addr with
  | some o => exact fun _ => .refl s
  | none =>
    cases htrie : s.trie addr with
    | none => exact fun _ => .refl s
    | some a =>
      intro hcaches
      refine .of_caches (fun hs => ?_) hcaches rfl rfl
      refine hs.put rfl rfl (fun _ _ => rfl) (bare_newObject a) fun _ => ?_
      exact .inr ⟨a, htrie, .refl _⟩

theorem advances_load (s : StateDB) (addr : Address) : ∃ found t, s.getStateObject addr = (found, t) ∧
    Advances may s t ∧ ∀ o, found = some o → t.objects addr = some o := by
  have hload : Advances may s (s.getStateObject addr).2 := advances_getStateObject s addr
  obtain ⟨found, t, hget, hfst, -, -, hlive⟩ := s.getStateObject_cases addr
  rw [hget] at hload
  exact ⟨found, t, hget, hload, fun o ho => (hlive o (hfst.symm.trans ho)).1⟩

theorem advances_committedState (hobj : s.objects addr = some o)
    (key : Hash) : Advances may s (s.committedState addr o key).2 := by
  have hcaches := (committedState_spec hobj key).2.1
  revert hcaches
  simp only [committedState]
  cases horigin : o.originStorage key with
  | some v => exact fun _ => .refl s
  | none =>
    intro hcaches
    refine .of_caches (fun hs => ?_) hcaches rfl rfl
    refine hs.put (o := o.setOrigin key) rfl rfl (fun _ _ => rfl) (hs.bare addr o hobj) fun hclean => ?_
    rcases hs.untouched addr o hobj hclean with hdeleted | ⟨a, htrie, halike⟩
    · exact .inl hdeleted
    · exact .inr ⟨a, htrie, halike.trans (o.alike_setOrigin key)⟩

theorem advances_getCommittedState (addr : Address) (key : Hash) :
    Advances may s (s.getCommittedState addr key).2 := by
  obtain ⟨found, t, hget, hload, hfound⟩ := advances_load s addr
  simp only [getCommittedState, hget]
  cases found with
  | none => exact hload
  | some o => exact hload.trans (advances_committedState (hfound o rfl) key)

theorem advances_getState (addr : Address) (key : Hash) : Advances may s (s.getState addr key).2 := by
  obtain ⟨found, t, hget, hload, hfound⟩ := advances_load s addr
  simp only [getState, hget]
  cases found with
  | none => exact hload
  | some o =>
    simp only
    cases hdirty : o.dirtyStorage key with
    | some v => exact hload
    | none => exact hload.trans (advances_committedState (hfound o rfl) key)

theorem advances_create (hjournal : t.journal = .createObject addr (s.objects addr) :: s.journal)
    (hobj : t.objects = update s.objects addr (some o)) (htrie : t.trie = s.trie)
    (hrefund : t.refund = s.refund) (hdirty : t.objectsDirty = update s.objectsDirty addr true)
    (hbare : o.Bare) (hmay : may addr) : Advances may s t := by
  intro hs
  have hself : t.objectsDirty addr = true := by rw [hdirty, update_self]
  have hcaches := caches_revert_create hobj htrie hrefund
  refine ⟨?_, [_], hjournal, ?_⟩
  · refine hs.put htrie hobj (fun other hne => ?_) hbare fun hclean => ?_
    · rw [hdirty, update_of_ne hne]
    · cases hself.symm.trans hclean
  · cases hprev : s.objects addr with
    | some prev =>
      rw [hprev] at hcaches
      have hfits : Fits t (.createObject addr (some prev)) := ⟨hself, hs.bare addr prev hprev⟩
      exact .of_undo hfits (Tracks.of_update hcaches hdirty hmay)
    | none =>
      rw [hprev] at hcaches
      -- an account that was not loaded was not touched: the undoing leaves the set as it was
      have hback : (JournalEntry.revert t (.createObject addr none)).objectsDirty = s.objectsDirty := by
        simp only [JournalEntry.revert, hdirty, update_idem]
        rw [← hs.clean hprev, update_eq_self]
      exact .of_undo trivial (Tracks.of_eq hcaches hback)

theorem advances_createObject (s : StateDB) (hmay : may addr) : Advances may s (s.createObject addr).2 :=
  advances_create rfl rfl rfl rfl rfl bare_createdObject hmay

theorem advances_getOrNewStateObject (s : StateDB) (hmay : may addr) :
    Advances may s (s.getOrNewStateObject addr).2 := by
  obtain ⟨found, t, hget, hload, -⟩ := advances_load s addr
  simp only [getOrNewStateObject, hget]
  cases found with
  | some o => exact hload
  | none => exact hload.trans (advances_createObject t hmay)

theorem getOrNewStateObject_of_live (h : s.live addr = some o) :
    (s.getOrNewStateObject addr).2 = (s.getStateObject addr).2 := by
  have hfst := (s.getStateObject_spec addr).1
  rcases hget : s.getStateObject addr with ⟨found, t⟩
  rw [hget, h] at hfst
  simp only at hfst
  simp [getOrNewStateObject, hget, hfst]

theorem advances_change (hobj : s.objects addr = some o) (halike : o.Alike ((entry o).revert (f o)))
    (hbare : o.Bare → (f o).Bare) (hmay : may addr) : Advances may s (s.change addr entry f) := by
  intro hs
  have hcaches := caches_revert_change hobj halike
  rw [change_eq entry f hobj] at hcaches ⊢
  have hself : (((s.append (.object addr (entry o))).putObject addr (f o)).markDirty addr).objectsDirty addr = true :=
    update_self ..
  refine ⟨?_, [.object addr (entry o)], rfl, ?_⟩
  · refine hs.put rfl rfl (fun other hne => update_of_ne hne ..) (hbare (hs.bare addr o hobj)) fun hclean => ?_
    cases hself.symm.trans hclean
  · have hdirty := revert_object_objectsDirty
      (((s.append (.object addr (entry o))).putObject addr (f o)).markDirty addr) addr (entry o)
    exact .of_undo ⟨⟨_, update_self ..⟩, hself⟩ (Tracks.of_update hcaches hdirty hmay)

theorem advances_getOrNew_change (s : StateDB) (halike : ∀ o : StateObject, o.Alike ((entry o).revert (f o)))
    (hbare : ∀ o : StateObject, o.Bare → (f o).Bare) (hmay : may addr) :
    Advances may s ((s.getOrNewStateObject addr).2.change addr entry f) := by
  obtain ⟨-, o, hobj, -⟩ := s.getOrNewStateObject_spec addr
  exact (advances_getOrNewStateObject s hmay).trans (advances_change hobj (halike o) (hbare o) hmay)

theorem advances_addBalance (amount : Int) (hmay : amount ≠ 0 → may addr) :
    Advances may s (s.addBalance addr amount) := by
  simp only [addBalance]
  split
  · have hload : Advances may s (s.exist addr).2 := advances_getStateObject s addr
    obtain ⟨hfst, hcaches, -⟩ := s.getStateObject_spec addr
    split
    · rename_i hfound
      rcases hcaches.live addr with ⟨hnone, -⟩ | ⟨-, o', -, ht, -⟩
      · rw [show (s.exist addr).1 = (s.live addr).isSome by rw [← hfst]; rfl, hnone] at hfound
        cases hfound
      · have hnew : ((s.exist addr).2.getOrNewStateObject addr).2 = _ := getOrNewStateObject_of_live ht
        rw [hnew]
        exact hload.trans (advances_getStateObject _ addr)
    · exact hload
  · rename_i hamount
    exact advances_getOrNew_change s .refl (fun _ h => h) (hmay hamount)

theorem advances_subBalance (amount : Int) (hmay : amount ≠ 0 → may addr) :
    Advances may s (s.subBalance addr amount) := by
  simp only [subBalance]
  split
  · exact .refl s
  · rename_i hamount
    exact advances_getOrNew_change s .refl (fun _ h => h) (hmay hamount)

/-- A write of the value a slot has, in an account that exists, touches nothing. -/
theorem advances_setState (key value : Hash)
    (hmay : s.live addr = none ∨ s.slot addr key ≠ value → may addr) : Advances may s (s.setState addr key value) := by
  obtain ⟨hquiet, o, hobj, hdeleted⟩ := s.getOrNewStateObject_spec addr
  have hnew : Advances may s (s.getOrNewStateObject addr).2 := by
    cases hlive : s.live addr with
    | none => exact advances_getOrNewStateObject s (hmay (.inl hlive))
    | some o =>
      rw [getOrNewStateObject_of_live hlive]
      exact advances_getStateObject s addr
  obtain ⟨hprev, hcaches, -⟩ := (s.getOrNewStateObject addr).2.getState_spec addr key
  have hread : Advances may (s.getOrNewStateObject addr).2 ((s.getOrNewStateObject addr).2.getState addr key).2 :=
    advances_getState addr key
  rcases hget : (s.getOrNewStateObject addr).2.getState addr key with ⟨prev, t⟩
  simp only [hget] at hprev hcaches hread
  obtain ⟨o', hobj', halike⟩ := hcaches.loaded hobj
  have hprev' : prev = o'.value key := by
    rw [hprev, ← hcaches.slot, (slot_of_objects hobj' (halike.deleted.trans hdeleted)).1]
  simp only [setState, hget]
  split
  · exact hnew.trans hread
  · rename_i hne
    rw [hquiet.slot] at hprev
    rw [hprev']
    refine (hnew.trans hread).trans (advances_change hobj' (alike_revert_storage o' key value) (fun h => h) ?_)
    exact hmay (.inr (hprev ▸ hne))

theorem advances_selfDestruct (hmay : may addr) : Advances may s (s.selfDestruct addr) := by
  obtain ⟨found, t, hget, hload, hfound⟩ := advances_load s addr
  simp only [selfDestruct, hget]
  cases found with
  | none => exact hload
  | some o => exact hload.trans (advances_change (hfound o rfl) (.refl _) (fun h => h) hmay)

theorem advances_createAccount (hmay : may addr) : Advances may s (s.createAccount addr) := by
  obtain ⟨found, t, hget, hload, -⟩ := advances_load s addr
  simp only [createAccount, hget]
  cases found with
  | none => exact hload.trans (advances_createObject t hmay)
  | some prev =>
    refine hload.trans (advances_create (o := ?_) rfl ?_ rfl rfl rfl ?_ hmay)
    · exact { createdObject with data := { createdObject.data with balance := prev.data.balance } }
    · exact update_idem ..
    · exact fun _ _ => rfl

theorem advances_refund (hjournal : t.journal = .refund s.refund :: s.journal)
    (hobjects : t.objects = s.objects) (htrie : t.trie = s.trie) (hdirty : t.objectsDirty = s.objectsDirty) :
    Advances may s t := by
  intro hs
  refine ⟨hs.congr htrie hobjects hdirty, [.refund s.refund], hjournal, .of_undo trivial (Tracks.of_eq ?_ hdirty)⟩
  exact .of_eq htrie rfl hobjects

theorem advances_subRefund (gas : Nat) : Advances may s (s.subRefund gas) := by
  simp only [subRefund]
  split
  all_goals exact advances_refund rfl rfl rfl rfl

/-! ### The end of a transaction or block -/

def outcome (s : StateDB) (deleteEmptyObjects : Bool) (addr : Address) : Option Account :=
  match s.objects addr with
  | none => s.trie addr
  | some o =>
    if s.objectsDirty addr = false then s.trie addr
    else if o.deleted || o.selfDestructed || (deleteEmptyObjects && o.data.isEmpty) then none
    else some { o.data with storage := fun key => (o.dirtyStorage key).getD (o.data.storage key) }

theorem commit_eq (s : StateDB) (deleteEmptyObjects : Bool) :
    s.commit deleteEmptyObjects =
      match s.err with
      | some e => .error e
      | none => .ok (s.outcome deleteEmptyObjects) := by
  have herr : (s.finalise deleteEmptyObjects).err = s.err := rfl
  simp only [commit, herr]
  cases s.err with
  | some e => rfl
  | none =>
    refine congrArg Except.ok ?_
    funext addr
    simp only [outcome, finalise]
    cases s.objects addr with
    | none => rfl
    | some o =>
      simp only [Option.map_some]
      by_cases hdirty : s.objectsDirty addr = true
      · by_cases hgone : (o.selfDestructed || deleteEmptyObjects && o.data.isEmpty) = true
        all_goals
          simp only [hdirty, hgone, Bool.or_assoc]
          simp
      · simp only [Bool.not_eq_true] at hdirty
        simp only [hdirty]
        simp

theorem outcome_of_untouched (h : s.objectsDirty addr = false) (deleteEmptyObjects : Bool) :
    s.outcome deleteEmptyObjects addr = s.trie addr := by
  simp only [outcome, h, if_true]
  split <;> rfl

theorem outcome_of_touched (hobj : s.objects addr = some o)
    (h : s.objectsDirty addr = true) (hbare : o.Bare) (deleteEmptyObjects : Bool) :
    s.outcome deleteEmptyObjects addr =
      if o.deleted || o.selfDestructed || (deleteEmptyObjects && o.data.isEmpty) then none else some o.account := by
  simp only [outcome, hobj, h, hbare.written]
  rfl

/-- Where the accounts that may have been touched besides were not empty, the commit is the same. -/
theorem Tracks.outcome (h : Tracks may s t) (hs : s.Coherent) (ht : t.Coherent)
    (hmay : ∀ addr, may addr → s.objectsDirty addr = true ∨ ∀ o, s.live addr = some o → o.data.isEmpty = false)
    (deleteEmptyObjects : Bool) : t.outcome deleteEmptyObjects = s.outcome deleteEmptyObjects := by
  funext addr
  cases hdirty : t.objectsDirty addr with
  | false =>
    have hclean : s.objectsDirty addr = false := by
      cases hsdirty : s.objectsDirty addr with
      | false => rfl
      | true => cases hdirty.symm.trans (h.kept addr hsdirty)
    rw [outcome_of_untouched hdirty, outcome_of_untouched hclean, h.caches.trie]
  | true =>
    obtain ⟨o', hobj'⟩ := ht.touched addr hdirty
    rw [outcome_of_touched hobj' hdirty (ht.bare addr o' hobj')]
    cases hsdirty : s.objectsDirty addr with
    | true =>
      obtain ⟨o, hobj⟩ := hs.touched addr hsdirty
      obtain ⟨o'', hobj'', halike⟩ := h.caches.loaded hobj
      rw [hobj'] at hobj''
      cases hobj''
      rw [outcome_of_touched hobj hsdirty (hs.bare addr o hobj), halike.deleted, halike.selfDestructed,
        halike.isEmpty, halike.account]
    | false =>
      rw [outcome_of_untouched hsdirty]
      have hstays : ∀ o, s.live addr = some o → o.data.isEmpty = false := by
        rcases h.gained addr hdirty with hfalse | hmayAddr
        · cases hsdirty.symm.trans hfalse
        · rcases hmay addr hmayAddr with hfalse | hstays
          · cases hsdirty.symm.trans hfalse
          · exact hstays
      -- the account is as in the trie and not empty, so it is written back as it was
      have hwritten : ∀ a, s.trie addr = some a → (newObject a).Alike o' → o'.data.isEmpty = false →
          (if o'.deleted || o'.selfDestructed || (deleteEmptyObjects && o'.data.isEmpty) then none
            else some o'.account) = s.trie addr := by
        intro a htrie halike hempty
        rw [halike.deleted, halike.selfDestructed, hempty, halike.account, htrie, Bool.and_false]
        rfl
      have hheld := h.caches.objects addr
      rw [hobj'] at hheld
      generalize hobj : s.objects addr = x at hheld
      cases hheld with
      | @loaded a _ htrie halike =>
        have hlive : s.live addr = some (newObject a) := by
          rw [live, hobj, htrie]
          rfl
        exact hwritten a htrie halike (halike.isEmpty.trans (hstays _ hlive))
      | @same o _ halike =>
        rcases hs.untouched addr o hobj hsdirty with ⟨hdeleted, htrie⟩ | ⟨a, htrie, halike'⟩
        · rw [halike.deleted, hdeleted, htrie]
          rfl
        · have hlive := live_of_objects hobj halike'.deleted
          exact hwritten a htrie (halike'.trans halike) (halike.isEmpty.trans (hstays o hlive))

theorem Coherent.finalise (h : s.Coherent) (deleteEmptyObjects : Bool) : (s.finalise deleteEmptyObjects).Coherent := by
  constructor
  · intro addr o hobj hclean
    have hclean' : s.objectsDirty addr = false := hclean
    simp only [StateDB.finalise, hclean', Bool.false_and, Bool.false_eq_true, if_false, Option.map_id_fun'] at hobj
    exact h.untouched addr o hobj hclean'
  · intro addr o hobj
    obtain ⟨p, hp, hmap⟩ := Option.map_eq_some_iff.mp hobj
    have hbare := h.bare addr p hp
    split at hmap
    all_goals
      rw [← hmap]
      exact hbare
  · intro addr hdirty
    obtain ⟨o, ho⟩ := h.touched addr hdirty
    exact ⟨_, Option.map_eq_some_iff.mpr ⟨o, ho, rfl⟩⟩

theorem Coherent.afterCommit (h : s.Coherent) (deleteEmptyObjects : Bool) :
    (s.afterCommit deleteEmptyObjects (s.outcome deleteEmptyObjects)).Coherent := by
  have hfinal := h.finalise deleteEmptyObjects
  constructor
  · intro addr o hobj _
    obtain ⟨p, hp, hmap⟩ := Option.map_eq_some_iff.mp hobj
    obtain ⟨q, hq, hmap'⟩ := Option.map_eq_some_iff.mp hp
    have hsettled : (s.afterCommit deleteEmptyObjects (s.outcome deleteEmptyObjects)).trie addr =
        s.outcome deleteEmptyObjects addr := rfl
    rw [hsettled]
    cases hdirty : s.objectsDirty addr with
    | false =>
      have hdirty' : (s.finalise deleteEmptyObjects).objectsDirty addr = false := hdirty
      rw [hdirty', Bool.false_and, if_neg Bool.false_ne_true] at hmap
      rw [hdirty, Bool.false_and, if_neg Bool.false_ne_true] at hmap'
      subst hmap hmap'
      rw [outcome_of_untouched hdirty]
      exact h.untouched addr _ hq hdirty
    | true =>
      have hdirty' : (s.finalise deleteEmptyObjects).objectsDirty addr = true := hdirty
      rw [hdirty', Bool.true_and] at hmap
      rw [hdirty, Bool.true_and] at hmap'
      rw [outcome_of_touched hq hdirty (h.bare addr q hq), Bool.or_assoc]
      by_cases hgone : (q.selfDestructed || deleteEmptyObjects && q.data.isEmpty) = true
      · rw [if_pos hgone] at hmap'
        rw [← hmap', if_neg (by simp)] at hmap
        rw [← hmap, hgone, Bool.or_true]
        exact .inl ⟨rfl, rfl⟩
      · rw [if_neg hgone] at hmap'
        subst hmap'
        rw [Bool.eq_false_iff.mpr hgone, Bool.or_false]
        cases hdeleted : q.deleted with
        | true =>
          rw [hdeleted, if_neg (by simp)] at hmap
          subst hmap
          exact .inl ⟨hdeleted, rfl⟩
        | false =>
          rw [hdeleted, Bool.not_false, if_pos rfl] at hmap
          subst hmap
          refine .inr ⟨_, rfl, alike_settle ?_ hdeleted⟩
          exact (Bool.or_eq_false_iff.mp (Bool.eq_false_iff.mpr hgone)).1
  · intro addr o hobj
    obtain ⟨p, hp, hmap⟩ := Option.map_eq_some_iff.mp hobj
    split at hmap
    · rw [← hmap]
      nofun
    · rw [← hmap]
      exact hfinal.bare addr p hp
  · nofun

end StateDB

end PadiChain.State

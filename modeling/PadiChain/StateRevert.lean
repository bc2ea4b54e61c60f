import Mathlib.Data.List.TakeWhile
import PadiChain.StateTracked

/-! Returning to a snapshot, over the whole state of a transaction. The journal entries of the accounts are
carried along with those of transient storage, the logs and the access list, which are undone exactly; nested
snapshots and returns to them keep the way back to the outer one. What is not exact is the set of touched
accounts, and an error that was recorded. -/

namespace PadiChain.State

open Function Transition TxState StateDB List

/-- What two states have besides the accounts is the same. -/
structure TxState.SameRest (s t : TxState) : Prop where
  transient : t.transient = s.transient
  logs : t.logs = s.logs
  logSize : t.logSize = s.logSize
  accessedAddresses : t.accessedAddresses = s.accessedAddresses
  accessedSlots : t.accessedSlots = s.accessedSlots
  thash : t.thash = s.thash
  txIndex : t.txIndex = s.txIndex

theorem TxState.SameRest.refl (s : TxState) : s.SameRest s := ⟨rfl, rfl, rfl, rfl, rfl, rfl, rfl⟩

theorem TxState.SameRest.trans {s t u : TxState} (h : s.SameRest t) (h' : t.SameRest u) : s.SameRest u where
  transient := h'.transient.trans h.transient
  logs := h'.logs.trans h.logs
  logSize := h'.logSize.trans h.logSize
  accessedAddresses := h'.accessedAddresses.trans h.accessedAddresses
  accessedSlots := h'.accessedSlots.trans h.accessedSlots
  thash := h'.thash.trans h.thash
  txIndex := h'.txIndex.trans h.txIndex

theorem TxState.SameRest.revert {s t : TxState} (h : s.SameRest t) (e : TxEntry) :
    (e.revert s).SameRest (e.revert t) := by
  cases e with
  | account entry => exact { h with }
  | transientStorage addr key prev =>
    refine { h with transient := ?_ }
    simp [TxEntry.revert, h.transient]
  | addLog txHash =>
    refine { h with logs := ?_, logSize := ?_ }
    · simp [TxEntry.revert, h.logs]
    · simp [TxEntry.revert, h.logSize]
  | accessListAddAccount address =>
    refine { h with accessedAddresses := ?_, accessedSlots := ?_ }
    · simp [TxEntry.revert, h.accessedAddresses]
    · simp [TxEntry.revert, h.accessedSlots]
  | accessListAddSlot address slot =>
    refine { h with accessedSlots := ?_ }
    simp [TxEntry.revert, h.accessedSlots]

/-- The account entries that a relation between accounts belongs to: they are undone as they are, and the relation
does not look at the journal. -/
structure AccountEntries (E : Undo.Entries StateDB JournalEntry) : Prop where
  undo : ∀ e s, E.undo e s = e.revert s
  journal : ∀ (s : StateDB) (js : List JournalEntry), E.le s { s with journal := js }

theorem accountEntries_tracked (may : Address → Prop) : AccountEntries (trackedEntries may) :=
  ⟨fun _ _ => rfl, fun _ _ => StateDB.Tracks.of_eq (StateDB.Caches.of_eq rfl rfl rfl) rfl⟩

/-- An entry finds what it is to change; only those of accounts look for something. -/
def TxEntry.Ready (ok : JournalEntry → StateDB → Prop) (s : TxState) : TxEntry → Prop
  | account entry => ok entry s.db
  | _ => True

section Entries

variable {E : Undo.Entries StateDB JournalEntry} (hE : AccountEntries E)

/-- The entries of a transaction, over a relation between accounts. -/
def txEntries (hE : AccountEntries E) : Undo.Entries TxState TxEntry where
  undo e s := e.revert s
  ok e s := e.Ready E.ok s
  le s t := E.le s.db t.db ∧ s.SameRest t
  le_refl s := ⟨E.le_refl s.db, .refl s⟩
  le_trans h h' := ⟨E.le_trans h.1 h'.1, h.2.trans h'.2⟩
  ok_mono := by
    intro e s t h hok
    cases e with
    | account entry => exact E.ok_mono h.1 hok
    | _ => trivial
  undo_mono := by
    intro e s t h hok
    refine ⟨?_, h.2.revert e⟩
    cases e with
    | account entry =>
      have hundo := E.undo_mono h.1 hok
      rw [hE.undo, hE.undo] at hundo
      exact hundo
    | _ => exact h.1

variable {hE}

theorem rollback_account (es : List JournalEntry) (s : TxState) :
    (txEntries hE).rollback (es.map .account) s = { s with db := E.rollback es s.db } := by
  induction es generalizing s with
  | nil => rfl
  | cons e es ih =>
    rw [map_cons, Undo.Entries.rollback, Undo.Entries.rollback, ih, hE.undo]
    rfl

variable {es : List JournalEntry} {s t : TxState} {db : StateDB}

theorem undoable_account (h : E.Undoable es s.db) : (txEntries hE).Undoable (es.map .account) s := by
  induction es generalizing s with
  | nil => trivial
  | cons e es ih =>
    refine ⟨h.1, ih ?_⟩
    have hrest := h.2
    rw [hE.undo] at hrest
    exact hrest

/-- The entries that an operation on the accounts leaves lead back from it. -/
theorem back_withAccounts (h : E.Back s.accounts es db) :
    (txEntries hE).Back s (es.map .account) (s.withAccounts db) := by
  have hdb : E.le db (s.withAccounts db).db := hE.journal db []
  refine ⟨undoable_account (h.1.mono hdb), ?_⟩
  rw [rollback_account]
  refine ⟨?_, ⟨rfl, rfl, rfl, rfl, rfl, rfl, rfl⟩⟩
  exact E.le_trans (hE.journal s.db []) (E.le_trans h.2 (h.1.rollback_mono hdb))

/-- The journal of the second state leads back to the first. -/
def TxState.Grows (hE : AccountEntries E) (s t : TxState) : Prop :=
  ∃ es, t.journal = es ++ s.journal ∧ (txEntries hE).Back s es t

theorem TxState.Grows.of_le (hjournal : t.journal = s.journal) (h : (txEntries hE).le s t) :
    s.Grows hE t := ⟨[], hjournal, .of_le h⟩

theorem TxState.Grows.refl (s : TxState) : s.Grows hE s := .of_le rfl ((txEntries hE).le_refl s)

theorem TxState.Grows.trans {u : TxState} (h : s.Grows hE t) (h' : t.Grows hE u) : s.Grows hE u := by
  obtain ⟨es, hes, hback⟩ := h
  obtain ⟨fs, hfs, hback'⟩ := h'
  refine ⟨fs ++ es, ?_, hback.trans hback'⟩
  rw [hfs, hes, append_assoc]

theorem TxState.grows_withAccounts (h : ∃ es, db.journal = es ++ s.accounts.journal ∧ E.Back s.accounts es db) :
    s.Grows hE (s.withAccounts db) := by
  obtain ⟨es, hes, hback⟩ := h
  refine ⟨es.map .account, ?_, back_withAccounts hback⟩
  have hes' : db.journal = es := hes.trans (append_nil es)
  simp [TxState.withAccounts, hes']

theorem TxState.grows_entry {e : TxEntry} (hjournal : t.journal = e :: s.journal)
    (hready : e.Ready E.ok t) (hdb : (e.revert t).db = s.db) (hrest : s.SameRest (e.revert t)) : s.Grows hE t := by
  refine ⟨[e], hjournal, .of_undo hready ⟨?_, hrest⟩⟩
  change E.le s.db (e.revert t).db
  rw [hdb]
  exact E.le_refl s.db

theorem TxState.grows_setTransientState (s : TxState) (addr : Address) (key value : Hash) :
    s.Grows hE (s.setTransientState addr key value) := by
  simp only [TxState.setTransientState]
  split
  · exact .refl s
  · refine grows_entry rfl trivial rfl ⟨?_, rfl, rfl, rfl, rfl, rfl, rfl⟩
    simp [TxEntry.revert, append]

theorem TxState.grows_addLog (s : TxState) (log : Core.Log) (blockNumber : Nat) :
    s.Grows hE (s.addLog log blockNumber) := by
  refine grows_entry rfl trivial rfl ⟨rfl, ?_, rfl, rfl, rfl, rfl, rfl⟩
  simp [TxEntry.revert, TxState.addLog, append]

/-- The slots of an address are in the access list only with the address. -/
def TxState.Warm (s : TxState) : Prop :=
  ∀ addr slot, s.accessedSlots addr slot = true → s.accessedAddresses addr = true

theorem TxState.Warm.cold (h : s.Warm) {addr : Address} (haddr : s.accessedAddresses addr ≠ true) :
    s.accessedSlots addr = fun _ => false := by
  funext slot
  cases hslot : s.accessedSlots addr slot with
  | false => rfl
  | true => exact absurd (h addr slot hslot) haddr

theorem TxState.grows_addAddressToAccessList (h : s.Warm) (addr : Address) :
    s.Grows hE (s.addAddressToAccessList addr) := by
  simp only [TxState.addAddressToAccessList]
  split
  · exact .refl s
  · rename_i hcold
    refine grows_entry rfl trivial rfl ⟨rfl, rfl, rfl, ?_, ?_, rfl, rfl⟩
    · simp only [TxEntry.revert, append, update_idem]
      rw [← Bool.eq_false_iff.mpr hcold, update_eq_self]
    · simp only [TxEntry.revert, append]
      rw [← h.cold hcold, update_eq_self]

theorem TxState.addAddressToAccessList_keeps (s : TxState) (addr : Address) :
    (s.addAddressToAccessList addr).db = s.db ∧ (s.addAddressToAccessList addr).revisions = s.revisions ∧
      (s.addAddressToAccessList addr).nextRevID = s.nextRevID := by
  simp only [TxState.addAddressToAccessList]
  split <;> exact ⟨rfl, rfl, rfl⟩

theorem TxState.addSlotToAccessList_keeps (s : TxState) (addr : Address) (slot : Hash) :
    (s.addSlotToAccessList addr slot).db = s.db ∧ (s.addSlotToAccessList addr slot).revisions = s.revisions ∧
      (s.addSlotToAccessList addr slot).nextRevID = s.nextRevID := by
  have hkeeps := s.addAddressToAccessList_keeps addr
  simp only [TxState.addSlotToAccessList]
  split
  · exact hkeeps
  · exact hkeeps

theorem TxState.Warm.addAddressToAccessList (h : s.Warm) (addr : Address) :
    (s.addAddressToAccessList addr).Warm ∧ (s.addAddressToAccessList addr).accessedAddresses addr = true := by
  simp only [TxState.addAddressToAccessList]
  split
  · exact ⟨h, ‹_›⟩
  · refine ⟨fun a slot hslot => ?_, update_self ..⟩
    by_cases ha : a = addr
    · simp [ha]
    · simp only [update_of_ne ha]
      exact h a slot hslot

theorem TxState.grows_addSlotToAccessList (h : s.Warm) (addr : Address) (slot : Hash) :
    s.Grows hE (s.addSlotToAccessList addr slot) := by
  refine (grows_addAddressToAccessList h addr).trans ?_
  simp only [TxState.addSlotToAccessList]
  split
  · exact .refl _
  · rename_i hcold
    refine grows_entry rfl trivial rfl ⟨rfl, rfl, rfl, rfl, ?_, rfl, rfl⟩
    simp only [TxEntry.revert, append, update_self, update_idem]
    rw [← Bool.eq_false_iff.mpr hcold, update_eq_self, update_eq_self]

theorem TxState.Warm.addSlotToAccessList (h : s.Warm) (addr : Address) (slot : Hash) :
    (s.addSlotToAccessList addr slot).Warm := by
  obtain ⟨hwarm, haddr⟩ := h.addAddressToAccessList addr
  simp only [TxState.addSlotToAccessList]
  split
  · exact hwarm
  · intro a k hk
    by_cases ha : a = addr
    · rw [ha]
      exact haddr
    · simp only [update_of_ne ha] at hk
      exact hwarm a k hk

theorem TxState.Warm.revert (h : s.Warm) (e : TxEntry) : (e.revert s).Warm := by
  cases e with
  | accessListAddAccount address =>
    intro a k hk
    simp only [TxEntry.revert, update_apply] at hk ⊢
    split_ifs at hk ⊢
    exact h a k hk
  | accessListAddSlot address slot =>
    intro a k hk
    simp only [TxEntry.revert, update_apply] at hk
    split_ifs at hk with ha
    · rw [update_apply] at hk
      split_ifs at hk
      exact h a k (ha ▸ hk)
    · exact h a k hk
  | _ => exact h

theorem rollback_tx_eq_foldl (es : List TxEntry) (s : TxState) :
    (txEntries hE).rollback es s = es.foldl TxEntry.revert s := by
  induction es generalizing s with
  | nil => rfl
  | cons e es ih => exact ih (e.revert s)

theorem undoable_of_db {es : List TxEntry} (hdb : t.db = s.db) (h : (txEntries hE).Undoable es s) :
    (txEntries hE).Undoable es t := by
  induction es generalizing s t with
  | nil => trivial
  | cons e es ih =>
    cases e with
    | account entry =>
      refine ⟨?_, ih ?_ h.2⟩
      · change E.ok entry t.db
        rw [hdb]
        exact h.1
      · change entry.revert t.db = entry.revert s.db
        rw [hdb]
    | _ =>
      refine ⟨trivial, ih ?_ h.2⟩
      exact hdb

theorem le_of_marks (s : TxState) {journal : List TxEntry} {revisions : List (Nat × Nat)} {nextRevID : Nat} :
    (txEntries hE).le s { s with journal := journal, revisions := revisions, nextRevID := nextRevID } :=
  ⟨E.le_refl s.db, ⟨rfl, rfl, rfl, rfl, rfl, rfl, rfl⟩⟩

end Entries

theorem TxEntry.revert_nextRevID (s : TxState) (e : TxEntry) : (e.revert s).nextRevID = s.nextRevID := by
  cases e <;> rfl

theorem TxEntry.revert_err (s : TxState) (e : TxEntry) : (e.revert s).db.err = s.db.err := by
  cases e with
  | account entry => exact StateDB.revert_err s.db entry
  | _ => rfl

theorem foldl_revert_nextRevID {es : List TxEntry} (s : TxState) :
    (es.foldl TxEntry.revert s).nextRevID = s.nextRevID :=
  run_preserves (P := fun t => t.nextRevID = s.nextRevID) (fun t e h => (e.revert_nextRevID t).trans h) es rfl

theorem foldl_revert_db_err {es : List TxEntry} (s : TxState) : (es.foldl TxEntry.revert s).db.err = s.db.err :=
  run_preserves (P := fun t => t.db.err = s.db.err) (fun t e h => (e.revert_err t).trans h) es rfl

namespace TxState

/-- What a return to a snapshot finds: the newest revision with the id, and newer ones before it. -/
theorem revertToSnapshot_eq_some {s t : TxState} {id : Nat} (h : s.revertToSnapshot id = some t) :
    ∃ newer r older, s.revisions = newer ++ r :: older ∧ (∀ q ∈ newer, id < q.1) ∧ r.1 = id ∧
      t = { s.revertJournal r.2 with revisions := older } := by
  simp only [revertToSnapshot] at h
  split at h
  · cases h
  · rename_i r older hdrop
    split at h
    · rename_i hid
      cases h
      refine ⟨s.revisions.takeWhile fun r => id < r.1, r, older, ?_, fun q hq => ?_, hid, rfl⟩
      · rw [← hdrop, takeWhile_append_dropWhile]
      · have hnewer := mem_takeWhile_imp hq
        exact of_decide_eq_true hnewer
    · cases h

/-! ### The operations -/

/-- What an operation on the state keeps, snapshots and returns to them apart. -/
structure Proceeds (may : Address → Prop) (s t : TxState) : Prop where
  coherent : t.db.Coherent
  warm : t.Warm
  grows : s.Grows (accountEntries_tracked may) t
  revisions : t.revisions = s.revisions
  nextRevID : t.nextRevID = s.nextRevID

variable {may : Address → Prop} {s : TxState}

theorem coherent_accounts (h : s.db.Coherent) : s.accounts.Coherent := h.congr rfl rfl rfl

theorem proceeds_withAccounts (hcoherent : s.db.Coherent) (hwarm : s.Warm) {db : StateDB}
    (h : Advances may s.accounts db) : s.Proceeds may (s.withAccounts db) := by
  obtain ⟨hdb, hentries⟩ := h (coherent_accounts hcoherent)
  exact ⟨hdb.congr rfl rfl rfl, hwarm, grows_withAccounts hentries, rfl, rfl⟩

theorem accounts_live (s : TxState) : s.accounts.live = s.db.live := rfl

theorem exist_eq (s : TxState) (addr : Address) : (s.exist addr).1 = (s.db.live addr).isSome := by
  simp [exist, getStateObject, (s.accounts.getStateObject_spec addr).1, accounts_live]

theorem getState_eq (s : TxState) (addr : Address) (key : Hash) : (s.getState addr key).1 = s.db.slot addr key :=
  (s.accounts.getState_spec addr key).1

end TxState

namespace TxOp

def touches (s : TxState) : TxOp → Option Address
  | createAccount addr => some addr
  | addBalance addr amount => if amount = 0 then none else some addr
  | subBalance addr amount => if amount = 0 then none else some addr
  | setBalance addr _ => some addr
  | setNonce addr _ => some addr
  | setCode addr _ => some addr
  | setState addr key value =>
    if (s.exist addr).1 = true ∧ (s.getState addr key).1 = value then none else some addr
  | selfDestruct addr => some addr
  | _ => none

def isMark : TxOp → Bool
  | snapshot => true
  | revertToSnapshot _ => true
  | _ => false

end TxOp

namespace TxState

variable {may : Address → Prop} {s : TxState}

variable {op : TxOp} {t : TxState} {older newer : List (Nat × Nat)} {id : Nat}

theorem proceeds_step (hcoherent : s.db.Coherent) (hwarm : s.Warm) (hop : op.isMark = false)
    (hmay : ∀ addr ∈ op.touches s, may addr) : s.Proceeds may (s.step op) := by
  have hput : ∀ {db : StateDB}, Advances may s.accounts db → s.Proceeds may (s.withAccounts db) :=
    fun h => proceeds_withAccounts hcoherent hwarm h
  cases op with
  | getStateObject addr => exact hput (StateDB.advances_getStateObject _ addr)
  | getState addr key => exact hput (StateDB.advances_getState addr key)
  | getCommittedState addr key => exact hput (StateDB.advances_getCommittedState addr key)
  | createAccount addr => exact hput (StateDB.advances_createAccount (hmay addr rfl))
  | addBalance addr amount =>
    refine hput (StateDB.advances_addBalance amount fun hne => hmay addr ?_)
    simp [TxOp.touches, if_neg hne]
  | subBalance addr amount =>
    refine hput (StateDB.advances_subBalance amount fun hne => hmay addr ?_)
    simp [TxOp.touches, if_neg hne]
  | setBalance addr amount | setNonce addr nonce | setCode addr code =>
    exact hput (advances_getOrNew_change _ .refl (fun _ h => h) (hmay addr rfl))
  | setState addr key value =>
    refine hput (StateDB.advances_setState key value fun hwrites => hmay addr ?_)
    have hcond : ¬ ((s.exist addr).1 = true ∧ (s.getState addr key).1 = value) := by
      rintro ⟨hexist, hsame⟩
      rw [exist_eq] at hexist
      rw [getState_eq] at hsame
      rcases hwrites with hnone | hne
      · rw [← accounts_live, hnone] at hexist
        cases hexist
      · exact hne hsame
    simp [TxOp.touches, if_neg hcond]
  | selfDestruct addr => exact hput (StateDB.advances_selfDestruct (hmay addr rfl))
  | addRefund gas => exact hput (StateDB.advances_refund rfl rfl rfl rfl)
  | subRefund gas => exact hput (StateDB.advances_subRefund gas)
  | setTransientState addr key value =>
    have hgrows : s.Grows (accountEntries_tracked may) (s.setTransientState addr key value) :=
      grows_setTransientState s addr key value
    revert hgrows
    simp only [step, setTransientState]
    split
    all_goals exact fun hgrows => ⟨hcoherent, hwarm, hgrows, rfl, rfl⟩
  | addLog log blockNumber => exact ⟨hcoherent, hwarm, grows_addLog s log blockNumber, rfl, rfl⟩
  | addAddressToAccessList addr =>
    obtain ⟨hdb, hrevisions, hnext⟩ := s.addAddressToAccessList_keeps addr
    refine ⟨?_, (hwarm.addAddressToAccessList addr).1, grows_addAddressToAccessList hwarm addr, hrevisions, hnext⟩
    change (s.addAddressToAccessList addr).db.Coherent
    rw [hdb]
    exact hcoherent
  | addSlotToAccessList addr slot =>
    obtain ⟨hdb, hrevisions, hnext⟩ := s.addSlotToAccessList_keeps addr slot
    refine ⟨?_, hwarm.addSlotToAccessList addr slot, grows_addSlotToAccessList hwarm addr slot, hrevisions, hnext⟩
    change (s.addSlotToAccessList addr slot).db.Coherent
    rw [hdb]
    exact hcoherent
  | snapshot | revertToSnapshot id => cases hop

/-! ### States that the operations lead to -/

/-- What holds of every state that is reached: what the objects say, and that the journal can be undone. -/
structure Sane (s : TxState) : Prop where
  coherent : s.db.Coherent
  warm : s.Warm
  undoable : (txEntries (accountEntries_tracked fun _ => True)).Undoable s.journal s
  given : ∀ r ∈ s.revisions, r.1 < s.nextRevID

theorem Sane.proceeds (hs : s.Sane) (h : s.Proceeds (fun _ => True) t) : t.Sane := by
  obtain ⟨es, hjournal, hback⟩ := h.grows
  refine ⟨h.coherent, h.warm, ?_, ?_⟩
  · rw [hjournal]
    exact hback.undoable hs.undoable
  · rw [h.revisions, h.nextRevID]
    exact hs.given

theorem Sane.of_empty (hcoherent : s.db.Coherent) (hwarm : s.Warm) (hjournal : s.journal = [])
    (hrevisions : s.revisions = []) : s.Sane := by
  refine ⟨hcoherent, hwarm, ?_, ?_⟩
  · rw [hjournal]
    trivial
  · rw [hrevisions]
    nofun

theorem sane_new (trie : Address → Option Account) : (new trie).Sane := by
  refine .of_empty ⟨?_, ?_, ?_⟩ ?_ rfl rfl
  all_goals nofun

theorem Sane.snapshot (hs : s.Sane) : s.snapshot.2.Sane := by
  refine ⟨hs.coherent, hs.warm, hs.undoable.mono (le_of_marks s), forall_mem_cons.mpr ⟨Nat.lt_succ_self _, ?_⟩⟩
  exact fun r hr => Nat.lt_succ_of_lt (hs.given r hr)

theorem coherent_rollback {hE : AccountEntries (trackedEntries may)} {es : List TxEntry} (hcoherent : s.db.Coherent)
    (hwarm : s.Warm) (h : (txEntries hE).Undoable es s) :
    ((txEntries hE).rollback es s).db.Coherent ∧ ((txEntries hE).rollback es s).Warm := by
  induction es generalizing s with
  | nil => exact ⟨hcoherent, hwarm⟩
  | cons e es ih =>
    refine ih ?_ (hwarm.revert e) h.2
    cases e with
    | account entry => exact hcoherent.revert h.1
    | _ => exact hcoherent

theorem Sane.cut (hs : s.Sane) (target : Nat) (holder : ∀ r ∈ older, r ∈ s.revisions) :
    Sane { s.revertJournal target with revisions := older } := by
  have hundone := hs.undoable.take (s.journal.length - target)
  have hrest := hs.undoable.drop (s.journal.length - target)
  obtain ⟨hcoherent, hwarm⟩ := coherent_rollback hs.coherent hs.warm hundone
  rw [rollback_tx_eq_foldl] at hrest hcoherent hwarm
  refine ⟨hcoherent, hwarm, hrest.mono (le_of_marks _), fun r hr => ?_⟩
  exact (hs.given r (holder r hr)).trans_eq (foldl_revert_nextRevID s).symm

theorem Sane.revertToSnapshot (hs : s.Sane) (h : s.revertToSnapshot id = some t) : t.Sane := by
  obtain ⟨newer, r, older, hrevisions, -, -, rfl⟩ := revertToSnapshot_eq_some h
  refine hs.cut r.2 fun q hq => ?_
  rw [hrevisions]
  exact mem_append_right _ (mem_cons_of_mem r hq)

/-- A step is no mark, a snapshot, or a return, which may find no snapshot. -/
@[elab_as_elim]
theorem step_rule {P : TxState → Prop} (op : TxOp) (hplain : op.isMark = false → P (s.step op))
    (hsnapshot : op = .snapshot → P s.snapshot.2) (hmissing : P s)
    (hreturn : ∀ id t, op = .revertToSnapshot id → s.revertToSnapshot id = some t → P t) : P (s.step op) := by
  cases op with
  | snapshot => exact hsnapshot rfl
  | revertToSnapshot id =>
    simp only [TxState.step]
    cases hrevert : s.revertToSnapshot id with
    | none => exact hmissing
    | some t => exact hreturn id t rfl hrevert
  | _ => exact hplain rfl

theorem Sane.proceeds_step (hs : s.Sane) (hop : op.isMark = false) : s.Proceeds (fun _ => True) (s.step op) :=
  TxState.proceeds_step hs.coherent hs.warm hop fun _ _ => trivial

theorem Sane.step (hs : s.Sane) (op : TxOp) : (s.step op).Sane :=
  step_rule op (fun hop => hs.proceeds (hs.proceeds_step hop)) (fun _ => hs.snapshot) hs
    fun _ _ _ hrevert => hs.revertToSnapshot hrevert

/-- What additions to the access list keep, `Prepare` keeps once the list is empty. -/
theorem prepare_rule {P : TxState → Prop} (haddr : ∀ s addr, P s → P (s.addAddressToAccessList addr))
    (hslot : ∀ s addr slot, P s → P (s.addSlotToAccessList addr slot)) (sender coinbase : Address)
    (dest : Option Address) (precompiles : List Address) (list : Core.AccessList)
    (hs : P { s with accessedAddresses := fun _ => false, accessedSlots := fun _ _ => false }) :
    P (s.prepare sender coinbase dest precompiles list) := by
  have haddrs := run_preserves haddr (sender :: dest.toList ++ precompiles) hs
  refine haddr _ coinbase (run_preserves (fun s tuple hs => ?_) list haddrs)
  exact run_preserves (fun s => hslot s tuple.1) tuple.2 (haddr s tuple.1 hs)

theorem Sane.prepare (hs : s.Sane) (sender coinbase : Address) (dest : Option Address) (precompiles : List Address)
    (list : Core.AccessList) : (s.prepare sender coinbase dest precompiles list).Sane := by
  refine prepare_rule (fun _ addr hs => hs.step (.addAddressToAccessList addr))
    (fun _ addr slot hs => hs.step (.addSlotToAccessList addr slot)) sender coinbase dest precompiles list ?_
  exact ⟨hs.coherent, nofun, undoable_of_db (s := s) rfl hs.undoable, hs.given⟩

theorem Sane.finalise (hs : s.Sane) (deleteEmptyObjects : Bool) : (s.finalise deleteEmptyObjects).Sane :=
  .of_empty (hs.coherent.finalise deleteEmptyObjects) hs.warm rfl rfl

theorem commit_eq_ok {deleteEmptyObjects : Bool} {trie : Address → Option Account}
    (h : s.commit deleteEmptyObjects = .ok (trie, t)) :
    trie = s.db.outcome deleteEmptyObjects ∧
      t = { s.finalise deleteEmptyObjects with db := s.db.afterCommit deleteEmptyObjects trie } := by
  rw [commit, commit_eq] at h
  cases herr : s.db.err with
  | some e =>
    rw [herr] at h
    cases h
  | none =>
    rw [herr] at h
    cases h
    exact ⟨rfl, rfl⟩

theorem Sane.blockStep (hs : s.Sane) (op : BlockOp) : (s.blockStep op).Sane := by
  cases op with
  | tx op => exact hs.step op
  | prepare sender coinbase dest precompiles list => exact hs.prepare sender coinbase dest precompiles list
  | setTxContext hash index => exact ⟨hs.coherent, hs.warm, undoable_of_db (s := s) rfl hs.undoable, hs.given⟩
  | finalise deleteEmptyObjects => exact hs.finalise deleteEmptyObjects
  | commit deleteEmptyObjects =>
    simp only [TxState.blockStep]
    rcases hcommit : s.commit deleteEmptyObjects with e | ⟨trie, t⟩
    · exact hs.finalise deleteEmptyObjects
    · obtain ⟨rfl, rfl⟩ := commit_eq_ok hcommit
      exact .of_empty (hs.coherent.afterCommit deleteEmptyObjects) hs.warm rfl rfl
  | copy => exact .of_empty hs.coherent hs.warm rfl rfl

def reached (trie : Address → Option Account) (before : List BlockOp) : TxState :=
  run blockStep (new trie) before

theorem sane_reached (trie : Address → Option Account) (before : List BlockOp) : (reached trie before).Sane :=
  run_preserves (fun _ op hs => hs.blockStep op) before (sane_new trie)

/-! ### The way back to a snapshot -/

/-- A snapshot taken in `start` can still be returned to, and the way back leads there. -/
def Open (may : Address → Prop) (start s : TxState) : Prop :=
  ∃ newer es, s.revisions = newer ++ (start.nextRevID, start.journal.length) :: start.revisions ∧
    (∀ r ∈ newer, start.nextRevID < r.1 ∧ start.journal.length ≤ r.2) ∧
    s.journal = es ++ start.journal ∧ (txEntries (accountEntries_tracked may)).Back start es s

/-- The snapshot cannot be returned to any more. -/
def Closed (start s : TxState) : Prop := ∀ r ∈ s.revisions, r.1 ≠ start.nextRevID

variable {start : TxState}

theorem open_snapshot (start : TxState) : Open may start start.snapshot.2 :=
  ⟨[], [], rfl, nofun, rfl, .of_le (le_of_marks start)⟩

theorem Open.proceeds (h : Open may start s) (hst : s.Proceeds may t) : Open may start t := by
  obtain ⟨newer, es, hrevisions, hnewer, hjournal, hback⟩ := h
  obtain ⟨fs, hjournal', hback'⟩ := hst.grows
  refine ⟨newer, fs ++ es, hst.revisions.trans hrevisions, hnewer, ?_, hback.trans hback'⟩
  rw [hjournal', hjournal, append_assoc]

theorem Open.snapshot (h : Open may start s) (hid : start.nextRevID < s.nextRevID) : Open may start s.snapshot.2 := by
  obtain ⟨newer, es, hrevisions, hnewer, hjournal, hback⟩ := h
  refine ⟨(s.nextRevID, s.journal.length) :: newer, es, ?_, forall_mem_cons.mpr ⟨⟨hid, ?_⟩, hnewer⟩, hjournal, ?_⟩
  · simp [TxState.snapshot, hrevisions]
  · rw [hjournal, length_append]
    exact Nat.le_add_left _ _
  · exact hback.trans (.of_le (le_of_marks s))

/-- A revision of the list is newer than a given one, or it is that one or an older one. -/
theorem revision_cases {outer newer older given : List (Nat × Nat)} {own r : Nat × Nat}
    (h : outer ++ own :: given = newer ++ r :: older) :
    (∃ inner, outer = newer ++ r :: inner ∧ older = inner ++ own :: given) ∨ r ∈ own :: given ∧ older ⊆ given := by
  rcases append_eq_append_iff.mp h with ⟨mid, -, hrest⟩ | ⟨mid, hmid, hrest⟩
  · right
    cases mid with
    | nil | cons _ _ =>
      cases hrest
      simp
  · cases mid with
    | nil =>
      cases hrest
      exact .inr ⟨mem_cons_self, Subset.refl _⟩
    | cons _ inner =>
      cases hrest
      exact .inl ⟨inner, hmid, rfl⟩

theorem Open.cut (h : Open may start s) {r : Nat × Nat}
    (hrevisions : s.revisions = newer ++ r :: older) (hgiven : ∀ q ∈ start.revisions, q.1 < start.nextRevID)
    (hr : start.nextRevID < r.1) : Open may start { s.revertJournal r.2 with revisions := older } := by
  obtain ⟨outer, es, houter, hnested, hjournal, hback⟩ := h
  -- the revision is one of the nested ones: the others have smaller ids
  obtain ⟨inner, hinner⟩ := (revision_cases (houter.symm.trans hrevisions)).resolve_right fun ⟨hmem, _⟩ => by
    rcases mem_cons.mp hmem with rfl | hmem
    · exact Nat.lt_irrefl _ hr
    · exact Nat.lt_asymm hr (hgiven r hmem)
  have htarget := (hnested r (by rw [hinner.1]; exact mem_append_right _ mem_cons_self)).2
  have hlength : s.journal.length - r.2 ≤ es.length := by
    rw [hjournal, length_append]
    omega
  have htake : s.journal.take (s.journal.length - r.2) = es.take (s.journal.length - r.2) := by
    rw [hjournal] at hlength ⊢
    exact take_append_of_le_length hlength
  have hdrop : s.journal.drop (s.journal.length - r.2) = es.drop (s.journal.length - r.2) ++ start.journal := by
    rw [hjournal] at hlength ⊢
    exact drop_append_of_le_length hlength
  refine ⟨inner, es.drop (s.journal.length - r.2), hinner.2, fun q hq => ?_, hdrop, ?_⟩
  · refine hnested q ?_
    rw [hinner.1]
    exact mem_append_right _ (mem_cons_of_mem r hq)
  · have hpart : (txEntries (accountEntries_tracked may)).Back start (es.drop (s.journal.length - r.2))
        ((txEntries (accountEntries_tracked may)).rollback (es.take (s.journal.length - r.2)) s) := by
      refine ⟨hback.1.drop _, ?_⟩
      rw [← Undo.Entries.rollback_append, take_append_drop]
      exact hback.2
    rw [rollback_tx_eq_foldl, ← htake] at hpart
    exact hpart.trans (.of_le (le_of_marks _))

theorem revertToSnapshot_of_revisions {length : Nat}
    (h : s.revisions = newer ++ (id, length) :: older) (hnewer : ∀ r ∈ newer, id < r.1) :
    s.revertToSnapshot id = some { s.revertJournal length with revisions := older } := by
  have hdrop : (s.revisions.dropWhile fun r => id < r.1) = (id, length) :: older := by
    rw [h, dropWhile_append_of_pos fun r hr => decide_eq_true (hnewer r hr)]
    simp
  simp [TxState.revertToSnapshot, hdrop]

/-- The journal cut back to the length it had in a state that it has grown from. -/
theorem Grows.cut {E : Undo.Entries StateDB JournalEntry} {hE : AccountEntries E} (h : start.Grows hE s)
    (revisions : List (Nat × Nat)) :
    (txEntries hE).le start { s.revertJournal start.journal.length with revisions := revisions } ∧
      (s.revertJournal start.journal.length).journal = start.journal := by
  obtain ⟨es, hjournal, hback⟩ := h
  have hlength : s.journal.length - start.journal.length = es.length := by
    rw [hjournal, length_append, Nat.add_sub_cancel]
  have hundone : s.journal.take (s.journal.length - start.journal.length) = es := by
    rw [hlength, hjournal, take_left]
  constructor
  · have hle := hback.2
    rw [rollback_tx_eq_foldl, ← hundone] at hle
    exact (txEntries hE).le_trans hle (le_of_marks _)
  · change s.journal.drop (s.journal.length - start.journal.length) = start.journal
    rw [hlength, hjournal, drop_left]

theorem Open.back (h : Open may start s) :
    ∃ t, s.revertToSnapshot start.nextRevID = some t ∧ (txEntries (accountEntries_tracked may)).le start t ∧
      t.db.err = s.db.err := by
  obtain ⟨newer, es, hrevisions, hnewer, hjournal, hback⟩ := h
  have hgrows : start.Grows (accountEntries_tracked may) s := ⟨es, hjournal, hback⟩
  exact ⟨_, revertToSnapshot_of_revisions hrevisions fun r hr => (hnewer r hr).1, (hgrows.cut start.revisions).1,
    foldl_revert_db_err s⟩

theorem Closed.revertToSnapshot (h : Closed start s) : s.revertToSnapshot start.nextRevID = none := by
  cases hrevert : s.revertToSnapshot start.nextRevID with
  | none => rfl
  | some t =>
    obtain ⟨newer, r, older, hrevisions, -, hid, -⟩ := revertToSnapshot_eq_some hrevert
    refine absurd hid (h r ?_)
    rw [hrevisions]
    exact mem_append_right _ mem_cons_self

theorem Closed.step (h : Closed start s) (hid : start.nextRevID < s.nextRevID) (hs : s.Sane) (op : TxOp) :
    Closed start (s.step op) := by
  refine step_rule op (fun hop => ?_) (fun _ => forall_mem_cons.mpr ⟨Nat.ne_of_gt hid, h⟩) h fun id t _ hrevert => ?_
  · rw [Closed, (hs.proceeds_step hop).revisions]
    exact h
  · obtain ⟨newer, r, older, hrevisions, -, -, rfl⟩ := revertToSnapshot_eq_some hrevert
    intro q hq
    refine h q ?_
    rw [hrevisions]
    exact mem_append_right _ (mem_cons_of_mem r hq)

/-- A return to the snapshot itself, or to an older one, leaves it behind. -/
theorem Open.leave (h : Open may start s) (hgiven : ∀ q ∈ start.revisions, q.1 < start.nextRevID)
    (hrevert : s.revertToSnapshot id = some t) (hid : id ≤ start.nextRevID) : Closed start t := by
  obtain ⟨outer, es, houter, hnested, -, -⟩ := h
  obtain ⟨newer, r, older, hrevisions, -, hr, rfl⟩ := revertToSnapshot_eq_some hrevert
  obtain ⟨-, holder⟩ := (revision_cases (houter.symm.trans hrevisions)).resolve_left fun ⟨inner, hinner, _⟩ => by
    have hlt := (hnested r (by rw [hinner]; exact mem_append_right _ mem_cons_self)).1
    omega
  exact fun q hq => Nat.ne_of_lt (hgiven q (holder hq))

theorem revertToSnapshot_nextRevID (h : s.revertToSnapshot id = some t) : t.nextRevID = s.nextRevID := by
  obtain ⟨newer, r, older, -, -, -, rfl⟩ := revertToSnapshot_eq_some h
  exact foldl_revert_nextRevID s

theorem nextRevID_le_step (hs : s.Sane) (op : TxOp) : s.nextRevID ≤ (s.step op).nextRevID :=
  step_rule op (fun hop => (hs.proceeds_step hop).nextRevID.ge) (fun _ => Nat.le_succ _) (Nat.le_refl _)
    fun _ _ _ hrevert => (revertToSnapshot_nextRevID hrevert).ge

/-- A step keeps the way back open, unless it is itself a return to the snapshot or to an older one. -/
theorem Open.step (h : Open may start s) (hid : start.nextRevID < s.nextRevID) (hs : s.Sane)
    (hgiven : ∀ q ∈ start.revisions, q.1 < start.nextRevID) (hmay : ∀ addr ∈ op.touches s, may addr) :
    Open may start (s.step op) ∨ (Closed start (s.step op) ∧ ∃ id, op = .revertToSnapshot id ∧ id ≤ start.nextRevID) := by
  refine step_rule op (fun hop => .inl (h.proceeds (proceeds_step hs.coherent hs.warm hop hmay)))
    (fun _ => .inl (h.snapshot hid)) (.inl h) fun id t hop hrevert => ?_
  rcases Nat.lt_or_ge start.nextRevID id with hlt | hle
  · obtain ⟨newer, r, older, hrevisions, -, rfl, rfl⟩ := revertToSnapshot_eq_some hrevert
    exact .inl (h.cut hrevisions hgiven hlt)
  · exact .inr ⟨h.leave hgiven hrevert hle, id, hop, hle⟩

end TxState

/-! ### Exactness -/

namespace TxState

/-- An empty account of the trie that nothing has touched yet. -/
def Idle (s : TxState) (addr : Address) : Prop :=
  s.db.objectsDirty addr = false ∧ (s.exist addr).1 = true ∧ (s.empty addr).1 = true

instance (s : TxState) (addr : Address) : Decidable (s.Idle addr) := inferInstanceAs (Decidable (_ ∧ _))

theorem getStateObject_eq (s : TxState) (addr : Address) : (s.getStateObject addr).1 = s.db.live addr :=
  (s.accounts.getStateObject_spec addr).1

/-- States whose accounts answer alike cannot be told apart, but for the next commit and a recorded error. -/
theorem observe_of_le {s t : TxState} (h : (txEntries (accountEntries_tracked may)).le s t) :
    { t.observe with error := s.observe.error, root := s.observe.root } = s.observe := by
  obtain ⟨htracks, hrest⟩ := h
  have hcaches : s.db.Caches t.db := htracks.caches
  have hobject : ∀ {α : Type} (absent : α) (f : StateObject → α), (∀ {o o' : StateObject}, o.Alike o' → f o' = f o) →
      ∀ addr, (t.getStateObject addr).1.elim absent f = (s.getStateObject addr).1.elim absent f := by
    intro α absent f hf addr
    rw [getStateObject_eq, getStateObject_eq]
    rcases hcaches.live addr with ⟨hs, ht⟩ | ⟨o, o', hs, ht, halike⟩
    · rw [hs, ht]
    · rw [hs, ht]
      exact hf halike
  simp only [observe, Observed.mk.injEq, and_true]
  refine ⟨?_, ?_, ?_, ?_, ?_, ?_, ?_, ?_, hrest.transient, hcaches.refund, hrest.logs, hrest.logSize,
    hrest.accessedAddresses, ?_⟩
  · funext addr
    rw [exist_eq, exist_eq]
    rcases hcaches.live addr with ⟨hs, ht⟩ | ⟨o, o', hs, ht, -⟩
    · rw [hs, ht]
    · rw [hs, ht]
      rfl
  · funext addr
    exact hobject true _ (fun halike => halike.isEmpty) addr
  · funext addr
    exact hobject 0 _ (fun halike => halike.balance) addr
  · funext addr
    exact hobject 0 _ (fun halike => halike.nonce) addr
  · funext addr
    exact hobject [] _ (fun halike => halike.code) addr
  · funext addr key
    rw [getState_eq, getState_eq, hcaches.slot]
  · funext addr key
    change (t.accounts.getCommittedState addr key).1 = (s.accounts.getCommittedState addr key).1
    rw [(t.accounts.getCommittedState_spec addr key).1, (s.accounts.getCommittedState_spec addr key).1]
    exact congrFun (congrFun hcaches.base addr) key
  · funext addr
    exact hobject false _ (fun halike => halike.selfDestructed) addr
  · funext addr slot
    simp [slotInAccessList, hrest.accessedAddresses, hrest.accessedSlots]

/-- States whose accounts answer alike, and whose next commit is the same, cannot be told apart. -/
theorem observe_eq {s t : TxState} (hs : s.db.Coherent) (ht : t.db.Coherent)
    (h : (txEntries (accountEntries_tracked fun addr => ¬ s.Idle addr)).le s t) (herr : t.db.err = s.db.err) :
    t.observe = s.observe := by
  have htracks := h.1
  have houtcome : ∀ deleteEmptyObjects, t.db.outcome deleteEmptyObjects = s.db.outcome deleteEmptyObjects := by
    intro deleteEmptyObjects
    refine htracks.outcome hs ht (fun addr hidle => ?_) deleteEmptyObjects
    cases hdirty : s.db.objectsDirty addr with
    | true => exact .inl rfl
    | false =>
      refine .inr fun o hlive => ?_
      cases hempty : o.data.isEmpty with
      | false => rfl
      | true =>
        refine absurd ⟨hdirty, ?_, ?_⟩ hidle
        · rw [exist_eq, hlive]
          rfl
        · simp only [empty, getStateObject_eq, hlive]
          exact hempty
  have hroot : t.observe.root = s.observe.root := by
    funext deleteEmptyObjects
    simp only [observe, commit, commit_eq, herr, houtcome]
    cases s.db.err with
    | some _ | none => rfl
  have herror : t.observe.error = s.observe.error := herr
  rw [← observe_of_le h, ← hroot, ← herror]

end TxState

def TxOp.removes : TxOp → Nat
  | subRefund gas => gas
  | _ => 0

/-- The operation touches no account that stood empty and untouched when the snapshot was taken, and takes back no
more refund than there is. -/
def TxOp.Harmless (start s : TxState) (op : TxOp) : Prop :=
  (∀ addr ∈ op.touches s, ¬ start.Idle addr) ∧ op.removes ≤ s.db.refund

namespace TxState

variable {op : TxOp} {start : TxState} {ops : List TxOp}

theorem step_err {s : TxState} (h : op.removes ≤ s.db.refund) : (s.step op).db.err = s.db.err := by
  cases op with
  | getStateObject addr => exact (s.accounts.quiet_getStateObject addr).err
  | getState addr key => exact (s.accounts.getState_spec addr key).2.2.err
  | getCommittedState addr key => exact (s.accounts.getCommittedState_spec addr key).2.2.err
  | createAccount addr => exact (s.accounts.createAccount_spec addr).2.2.2.2
  | addBalance addr amount => exact (s.accounts.quiet_addBalance addr amount).err
  | subBalance addr amount => exact (s.accounts.quiet_subBalance addr amount).err
  | setBalance addr amount =>
    have hquiet : s.accounts.Quiet ((s.accounts.getOrNewStateObject addr).2.setBalance addr fun _ => amount) :=
      s.accounts.quiet_getOrNew_change addr .refl fun _ => ⟨rfl, rfl, rfl⟩
    exact hquiet.err
  | setNonce addr nonce => exact (s.accounts.quiet_setNonce addr nonce).err
  | setCode addr code => exact (s.accounts.quiet_setCode addr code).err
  | setState addr key value => exact (s.accounts.setState_spec addr key value).2.2.2.2
  | selfDestruct addr => exact (s.accounts.quiet_selfDestruct addr).err
  | addRefund gas | addLog log blockNumber | snapshot => rfl
  | subRefund gas =>
    have henough : ¬ s.accounts.refund < gas := Nat.not_lt.mpr h
    simp only [step, subRefund, StateDB.subRefund, if_neg henough]
    rfl
  | setTransientState addr key value =>
    simp only [step, setTransientState]
    split <;> rfl
  | addAddressToAccessList addr => exact congrArg err (s.addAddressToAccessList_keeps addr).1
  | addSlotToAccessList addr slot => exact congrArg err (s.addSlotToAccessList_keeps addr slot).1
  | revertToSnapshot id =>
    simp only [step]
    cases hrevert : s.revertToSnapshot id with
    | none => rfl
    | some t =>
      obtain ⟨newer, r, older, -, -, -, rfl⟩ := revertToSnapshot_eq_some hrevert
      exact foldl_revert_db_err s

structure Underway (start s : TxState) : Prop where
  sane : s.Sane
  newer : start.nextRevID < s.nextRevID
  err : s.db.err = start.db.err
  way : Open (fun addr => ¬ start.Idle addr) start s ∨ Closed start s

theorem underway_snapshot (h : start.Sane) : Underway start start.snapshot.2 :=
  ⟨h.snapshot, Nat.lt_succ_self _, rfl, .inl (open_snapshot start)⟩

theorem Underway.step {s : TxState} (h : Underway start s) (hstart : start.Sane)
    (hop : op.Harmless start s) : Underway start (s.step op) := by
  refine ⟨h.sane.step op, h.newer.trans_le (nextRevID_le_step h.sane op), (step_err hop.2).trans h.err, ?_⟩
  rcases h.way with hopen | hclosed
  · rcases hopen.step h.newer h.sane hstart.given hop.1 with hopen | ⟨hclosed, -⟩
    · exact .inl hopen
    · exact .inr hclosed
  · exact .inr (hclosed.step h.newer h.sane op)

theorem underway_run (hstart : start.Sane) (h : Steps step (TxOp.Harmless start) start.snapshot.2 ops) :
    Underway start (run step start.snapshot.2 ops) :=
  run_invariant (fun _ _ hop hs => hs.step hstart hop) h (underway_snapshot hstart)

/-- Nested snapshots are returned to, not the outer one or those below it: the way back stays open. -/
theorem open_run (hstart : start.Sane) (h : Steps step (TxOp.Harmless start) start.snapshot.2 ops)
    (hnested : ∀ id, TxOp.revertToSnapshot id ∈ ops → start.nextRevID < id) :
    Open (fun addr => ¬ start.Idle addr) start (run step start.snapshot.2 ops) := by
  have hids : ∀ op ∈ ops, ∀ id, op = TxOp.revertToSnapshot id → start.nextRevID < id := by
    rintro op hop id rfl
    exact hnested id hop
  refine (run_invariant (P := fun s => Underway start s ∧ Open (fun addr => ¬ start.Idle addr) start s) ?_
    (h.and (steps_of_forall_mem hids _)) ⟨underway_snapshot hstart, open_snapshot start⟩).2
  rintro s op ⟨hop, hid⟩ ⟨hs, hopen⟩
  refine ⟨hs.step hstart hop, ?_⟩
  rcases hopen.step hs.newer hs.sane hstart.given hop.1 with hopen | ⟨-, id, heq, hle⟩
  · exact hopen
  · exact absurd (hid id heq) (Nat.not_lt.mpr hle)

end TxState

end PadiChain.State

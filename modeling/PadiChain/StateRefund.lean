import Mathlib.Data.Finset.Prod
import PadiChain.LibTransition
import PadiChain.StateUndo

/-! The refund counter over a block. `SSTORE` is charged against the value the slot is said to have had
before the transaction, and takes back refunds it gave; a counter that would go below zero is recorded
as an error that the commit of the block then reports. The counter always covers the slots that stand
cleared, as long as that value is the right one. -/

namespace PadiChain.State

open Function Transition

def gasColdSloadCost : Nat := 2100
def gasWarmStorageRead : Nat := 100
def gasSstoreSet : Nat := 20000
def gasSstoreReset : Nat := 5000
def gasSstoreClear : Nat := 4800
def gasCallStipend : Nat := 2300

def sstoreGas (original current value : Hash) (cold : Bool) : Nat × Int :=
  let surcharge := if cold then gasColdSloadCost else 0
  if current = value then (surcharge + gasWarmStorageRead, 0)
  else if original = current then
    if original = 0 then (surcharge + gasSstoreSet, 0)
    else (surcharge + gasSstoreReset, if value = 0 then gasSstoreClear else 0)
  else
    let clearing : Int :=
      if original ≠ 0 then
        if current = 0 then -gasSstoreClear else if value = 0 then gasSstoreClear else 0
      else 0
    let restoring : Int :=
      if original = value then
        if original = 0 then gasSstoreSet - gasWarmStorageRead
        else gasSstoreReset - gasColdSloadCost - gasWarmStorageRead
      else 0
    (surcharge + gasWarmStorageRead, clearing + restoring)

/-- One `SSTORE`, with what its frame has at hand: the gas left, whether the frame may write, and the
snapshot the frame was entered with. -/
structure Sstore where
  address : Address
  key : Hash
  value : Hash
  cold : Bool
  readOnly : Bool
  gas : Nat
  snapshot : Nat
  deriving DecidableEq

namespace Sstore

/-- The cost and the refund `gasCost` computes, and the state its reads leave. -/
def charge (c : Sstore) (s : StateDB) : (Nat × Int) × StateDB :=
  let (original, s) := s.getCommittedState c.address c.key
  let (current, s) := s.getState c.address c.key
  (sstoreGas original current c.value c.cold, s)

/-- The refund is booked before the gas is taken. -/
def gasCost (c : Sstore) (s : StateDB) : Nat × StateDB :=
  let ((cost, refund), s) := c.charge s
  (cost,
    if 0 < refund then s.addRefund refund.toNat
    else if refund < 0 then s.subRefund (-refund).toNat
    else s)

/-- An instruction that fails ends its frame, which is reverted as a whole. -/
def execute (c : Sstore) (s : StateDB) : Option StateDB :=
  if c.readOnly then s.revertToSnapshot c.snapshot
  else if c.gas ≤ gasCallStipend then s.revertToSnapshot c.snapshot
  else
    let (cost, t) := c.gasCost s
    if c.gas < cost then t.revertToSnapshot c.snapshot
    else some (t.setState c.address c.key c.value)

end Sstore

/-- What a transaction does to the state, one call after the other. A call frame is a snapshot and,
when it fails, the return to it; `setState` is a write of the staking package, which no gas rule
meters. -/
inductive Op where
  | sstore (c : Sstore)
  | getState (addr : Address) (key : Hash)
  | getStateObject (addr : Address)
  | setState (addr : Address) (key value : Hash)
  | addBalance (addr : Address) (amount : Int)
  | subBalance (addr : Address) (amount : Int)
  | setNonce (addr : Address) (nonce : Nat)
  | setCode (addr : Address) (code : Bytes)
  | createAccount (addr : Address)
  | selfDestruct (addr : Address)
  | snapshot
  | revertToSnapshot (id : Nat)
  deriving DecidableEq

def Op.sstore? : Op → Option Sstore
  | .sstore c => some c
  | _ => none

/-- The slot that is written without a charge. -/
def Op.unmetered? : Op → Option (Address × Hash)
  | .setState addr key _ => some (addr, key)
  | _ => none

namespace StateDB

/-- An unknown snapshot panics: nothing is executed. -/
def step (s : StateDB) : Op → StateDB
  | .sstore c => (c.execute s).getD s
  | .getState addr key => (s.getState addr key).2
  | .getStateObject addr => (s.getStateObject addr).2
  | .setState addr key value => s.setState addr key value
  | .addBalance addr amount => s.addBalance addr amount
  | .subBalance addr amount => s.subBalance addr amount
  | .setNonce addr nonce => s.setNonce addr nonce
  | .setCode addr code => s.setCode addr code
  | .createAccount addr => s.createAccount addr
  | .selfDestruct addr => s.selfDestruct addr
  | .snapshot => s.snapshot.2
  | .revertToSnapshot id => (s.revertToSnapshot id).getD s

def transact (s : StateDB) (tx : List Op) : StateDB := (run step s tx).finalise true

end StateDB

/-- Each slot the transaction stores to still has the value it had when the block began, or zero in an
account created since. A slot of an account that the transaction creates is zero, and the staking
package does not write the slot behind the gas rules. -/
def Fresh (s : StateDB) (tx : List Op) : Prop :=
  ∀ c ∈ tx.filterMap Op.sstore?,
    (s.getState c.address c.key).1 = s.opening c.address c.key ∧
    (Op.createAccount c.address ∈ tx → (s.getState c.address c.key).1 = 0) ∧
    (c.address, c.key) ∉ tx.filterMap Op.unmetered?

instance (s : StateDB) (tx : List Op) : Decidable (Fresh s tx) := by
  unfold Fresh
  infer_instance

/-- Every `SSTORE` of the transaction is charged against the value its slot had when the transaction
began, and takes no more back than the counter holds. -/
def WellCharged (s : StateDB) (tx : List Op) : Prop :=
  ∀ ops c rest, tx = ops ++ .sstore c :: rest →
    ((run StateDB.step s ops).getCommittedState c.address c.key).1 =
        (s.getState c.address c.key).1 ∧
      0 ≤ ((run StateDB.step s ops).refund : Int) +
        (c.charge (run StateDB.step s ops)).1.2

/-- A refund is at least what a slot that becomes cleared needs, less what one that was cleared had. -/
theorem le_sstoreGas (original current value : Hash) (cold : Bool) :
    ((if original ≠ 0 ∧ value = 0 then gasSstoreClear else 0 : Nat) : Int) -
        ((if original ≠ 0 ∧ current = 0 then gasSstoreClear else 0 : Nat) : Int) ≤
      (sstoreGas original current value cold).2 := by
  unfold sstoreGas gasSstoreClear gasSstoreSet gasSstoreReset gasWarmStorageRead gasColdSloadCost
  by_cases hsame : current = value
  · rw [if_pos hsame, hsame, sub_self]
  · rw [if_neg hsame]
    split
    · grind
    · grind

/-- The state of a transaction that began with the slot values `original`, over the slots it stores to:
base values are those, and the counter holds a clearing refund for every slot that stands cleared. -/
structure Metered (stored : Address → Hash → Prop) (original : Address → Hash → Hash) (s : StateDB) :
    Prop where
  base : ∀ addr key, stored addr key → s.base addr key = original addr key
  covered : ∃ cleared : Finset (Address × Hash),
    (∀ addr key, stored addr key → original addr key ≠ 0 → s.slot addr key = 0 → (addr, key) ∈ cleared) ∧
      gasSstoreClear * cleared.card ≤ s.refund

namespace Metered

variable {stored : Address → Hash → Prop} {original : Address → Hash → Hash} {s t : StateDB}

theorem congr (h : Metered stored original s)
    (hslot : ∀ addr key, stored addr key → original addr key ≠ 0 → t.slot addr key = s.slot addr key)
    (hbase : ∀ addr key, stored addr key → t.base addr key = s.base addr key) (hrefund : t.refund = s.refund) :
    Metered stored original t := by
  obtain ⟨cleared, hmem, hcard⟩ := h.covered
  refine ⟨fun addr key hstored => (hbase addr key hstored).trans (h.base addr key hstored), cleared, ?_, ?_⟩
  · intro addr key hstored horiginal hzero
    exact hmem addr key hstored horiginal ((hslot addr key hstored horiginal).symm.trans hzero)
  · rw [hrefund]
    exact hcard

theorem quiet (h : Metered stored original s) (hquiet : s.Quiet t) : Metered stored original t :=
  h.congr (fun addr key _ _ => by rw [hquiet.slot]) (fun addr key _ => by rw [hquiet.base]) hquiet.refund

theorem of_caches (s t : StateDB) (h : s.Caches t) (hs : Metered stored original s) : Metered stored original t :=
  hs.congr (fun addr key _ _ => by rw [h.slot]) (fun addr key _ => by rw [h.base]) h.refund

variable {addr : Address} {key : Hash}

theorem refund_nonneg (h : Metered stored original s) (hstored : stored addr key) (value : Hash) (cold : Bool) :
    0 ≤ (s.refund : Int) + (sstoreGas (s.base addr key) (s.slot addr key) value cold).2 := by
  obtain ⟨cleared, hmem, hcard⟩ := h.covered
  have hge := le_sstoreGas (s.base addr key) (s.slot addr key) value cold
  by_cases hcleared : s.base addr key ≠ 0 ∧ s.slot addr key = 0
  · have hone : 1 ≤ cleared.card := by
      apply Finset.card_pos.mpr
      refine ⟨(addr, key), hmem addr key hstored ?_ hcleared.2⟩
      rw [← h.base addr key hstored]
      exact hcleared.1
    have hrefund : gasSstoreClear ≤ s.refund :=
      calc
        gasSstoreClear = gasSstoreClear * 1 := (Nat.mul_one _).symm
        _ ≤ gasSstoreClear * cleared.card := Nat.mul_le_mul_left _ hone
        _ ≤ s.refund := hcard
    rw [if_pos hcleared] at hge
    omega
  · rw [if_neg hcleared] at hge
    omega

/-- A store keeps the counter covering: a slot that becomes cleared pays in what a cleared one that is
filled takes out. -/
theorem store (h : Metered stored original s) (hstored : stored addr key) {value : Hash} {cold : Bool}
    (hslot : t.slot = update s.slot addr (update (s.slot addr) key value)) (hbase : t.base = s.base)
    (hrefund : (t.refund : Int) =
      s.refund + (sstoreGas (s.base addr key) (s.slot addr key) value cold).2) : Metered stored original t := by
  obtain ⟨cleared, hmem, hcard⟩ := h.covered
  refine ⟨fun a k hak => by rw [hbase, h.base a k hak], ?_⟩
  have hge := le_sstoreGas (s.base addr key) (s.slot addr key) value cold
  rw [h.base addr key hstored] at hge hrefund
  have hself : t.slot addr key = value := by rw [hslot, update_self, update_self]
  have hother : ∀ a k, (a, k) ≠ (addr, key) → t.slot a k = s.slot a k := by
    intro a k hne
    rw [hslot, update_apply]
    split_ifs with ha
    · subst ha
      rw [update_of_ne fun hk => hne (by rw [hk])]
    · rfl
  have hbefore : original addr key ≠ 0 ∧ s.slot addr key = 0 → (addr, key) ∈ cleared :=
    fun hcleared => hmem addr key hstored hcleared.1 hcleared.2
  by_cases hafter : original addr key ≠ 0 ∧ value = 0
  · refine ⟨insert (addr, key) cleared, fun a k hak hne hzero => ?_, ?_⟩
    · by_cases heq : (a, k) = (addr, key)
      · exact heq ▸ Finset.mem_insert_self _ _
      · exact Finset.mem_insert_of_mem (hmem a k hak hne ((hother a k heq).symm.trans hzero))
    · rw [if_pos hafter] at hge
      by_cases hcleared : original addr key ≠ 0 ∧ s.slot addr key = 0
      · rw [if_pos hcleared] at hge
        rw [Finset.insert_eq_self.mpr (hbefore hcleared)]
        omega
      · rw [if_neg hcleared] at hge
        have hinsert : gasSstoreClear * (insert (addr, key) cleared).card ≤ gasSstoreClear * (cleared.card + 1) :=
          Nat.mul_le_mul_left _ (Finset.card_insert_le _ _)
        rw [Nat.mul_succ] at hinsert
        omega
  · refine ⟨cleared.erase (addr, key), fun a k hak hne hzero => ?_, ?_⟩
    · have heq : (a, k) ≠ (addr, key) := by
        rintro ⟨⟩
        exact hafter ⟨hne, hself.symm.trans hzero⟩
      exact Finset.mem_erase_of_ne_of_mem heq (hmem a k hak hne ((hother a k heq).symm.trans hzero))
    · rw [if_neg hafter] at hge
      by_cases hcleared : original addr key ≠ 0 ∧ s.slot addr key = 0
      · rw [if_pos hcleared] at hge
        have hcard' := Finset.card_erase_add_one (hbefore hcleared)
        rw [← hcard', Nat.mul_succ] at hcard
        omega
      · rw [if_neg hcleared] at hge
        have herase : gasSstoreClear * (cleared.erase (addr, key)).card ≤ gasSstoreClear * cleared.card :=
          Nat.mul_le_mul_left _ Finset.card_erase_le
        omega

end Metered

namespace Sstore

theorem charge_spec (c : Sstore) (s : StateDB) :
    (c.charge s).1 = sstoreGas (s.base c.address c.key) (s.slot c.address c.key) c.value c.cold ∧
      s.Quiet (c.charge s).2 := by
  obtain ⟨hbase, -, hquiet⟩ := s.getCommittedState_spec c.address c.key
  obtain ⟨hslot, -, hquiet'⟩ := (s.getCommittedState c.address c.key).2.getState_spec c.address c.key
  refine ⟨?_, hquiet.trans hquiet'⟩
  simp only [charge]
  rw [hbase, hslot, hquiet.slot]

theorem gasCost_spec (c : Sstore) {s : StateDB} (h : 0 ≤ (s.refund : Int) + (c.charge s).1.2) :
    s.Journaled (c.gasCost s).2 ∧ (c.gasCost s).2.slot = s.slot ∧ (c.gasCost s).2.base = s.base ∧
      ((c.gasCost s).2.refund : Int) = s.refund + (c.charge s).1.2 ∧ (c.gasCost s).2.err = s.err := by
  have hquiet := (c.charge_spec s).2
  rcases hcharge : c.charge s with ⟨⟨cost, refund⟩, t⟩
  simp only [hcharge] at h hquiet
  simp only [gasCost, hcharge]
  rw [← hquiet.slot, ← hquiet.base, ← hquiet.refund, ← hquiet.err]
  rw [← hquiet.refund] at h
  split
  · refine ⟨hquiet.toJournaled.trans (StateDB.journaled_refund rfl rfl rfl rfl), rfl, rfl, ?_, rfl⟩
    simp only [StateDB.addRefund]
    omega
  · by_cases hsub : refund < 0
    · have henough : ¬ t.refund < (-refund).toNat := by omega
      rw [if_pos hsub]
      simp only [StateDB.subRefund, if_neg henough]
      refine ⟨hquiet.toJournaled.trans (StateDB.journaled_refund rfl rfl rfl rfl), rfl, rfl, ?_, rfl⟩
      omega
    · rw [if_neg hsub]
      exact ⟨hquiet.toJournaled, rfl, rfl, by omega, rfl⟩

end Sstore

/-- The invariant of a transaction: it is metered now and at every snapshot, and nothing underflowed. -/
structure Sound (stored : Address → Hash → Prop) (original : Address → Hash → Hash) (s : StateDB) :
    Prop where
  metered : Metered stored original s
  marks : StateDB.Marks (Metered stored original) s
  err : s.err = none

namespace Sound

variable {stored : Address → Hash → Prop} {original : Address → Hash → Hash} {s t : StateDB}

theorem quiet (h : Sound stored original s) (hquiet : s.Quiet t) : Sound stored original t :=
  ⟨h.metered.quiet hquiet, h.marks.journaled Metered.of_caches hquiet.toJournaled,
    hquiet.err.trans h.err⟩

theorem revertToSnapshot (hmarks : StateDB.Marks (Metered stored original) s) (herr : s.err = none) {id : Nat}
    (h : s.revertToSnapshot id = some t) : Sound stored original t := by
  obtain ⟨hmetered, hmarks', herr'⟩ := hmarks.revertToSnapshot Metered.of_caches h
  exact ⟨hmetered, hmarks', herr'.trans herr⟩

variable (h : Sound stored original s)

include h

theorem refund_nonneg (c : Sstore) (hstored : stored c.address c.key) : 0 ≤ (s.refund : Int) + (c.charge s).1.2 := by
  rw [(c.charge_spec s).1]
  exact h.metered.refund_nonneg hstored c.value c.cold

theorem execute (c : Sstore) (hstored : stored c.address c.key)
    (ht : c.execute s = some t) : Sound stored original t := by
  obtain ⟨hjournaled, hslot, hbase, hrefund, herr⟩ := c.gasCost_spec (h.refund_nonneg c hstored)
  have hmarks := h.marks.journaled Metered.of_caches hjournaled
  simp only [Sstore.execute] at ht
  split at ht
  · exact revertToSnapshot h.marks h.err ht
  · split at ht
    · exact revertToSnapshot h.marks h.err ht
    · split at ht
      · exact revertToSnapshot hmarks (herr.trans h.err) ht
      · cases ht
        obtain ⟨hjournaled', hslot', hbase', hrefund', herr'⟩ :=
          (c.gasCost s).2.setState_spec c.address c.key c.value
        rw [hslot] at hslot'
        rw [← hrefund', (c.charge_spec s).1] at hrefund
        refine ⟨h.metered.store hstored hslot' (hbase'.trans hbase) hrefund, ?_, herr'.trans (herr.trans h.err)⟩
        exact hmarks.journaled Metered.of_caches hjournaled'

/-- An account is created only where the transaction found no storage. -/
theorem createAccount {addr : Address}
    (hclean : ∀ key, stored addr key → original addr key = 0) : Sound stored original (s.createAccount addr) := by
  obtain ⟨hjournaled, hslot, hbase, hrefund, herr⟩ := s.createAccount_spec addr
  refine ⟨h.metered.congr ?_ ?_ hrefund, h.marks.journaled Metered.of_caches hjournaled,
    herr.trans h.err⟩
  · intro a k hak hne
    rw [hslot, update_of_ne]
    rintro rfl
    exact hne (hclean k hak)
  · intro a k hak
    rw [hbase, update_apply]
    split_ifs with ha
    · subst ha
      rw [h.metered.base a k hak, hclean k hak]
    · rfl

theorem setState {addr : Address} {key : Hash} (hfree : ¬ stored addr key)
    (value : Hash) : Sound stored original (s.setState addr key value) := by
  obtain ⟨hjournaled, hslot, hbase, hrefund, herr⟩ := s.setState_spec addr key value
  refine ⟨h.metered.congr ?_ (fun a k _ => by rw [hbase]) hrefund,
    h.marks.journaled Metered.of_caches hjournaled, herr.trans h.err⟩
  intro a k hak _
  rw [hslot, update_apply]
  split_ifs with ha
  · subst ha
    rw [update_of_ne]
    rintro rfl
    exact hfree hak
  · rfl

/-- What the operations of a transaction have to respect. -/
def Allows (stored : Address → Hash → Prop) (original : Address → Hash → Hash) : Op → Prop
  | .sstore c => stored c.address c.key
  | .setState addr key _ => ¬ stored addr key
  | .createAccount addr => ∀ key, stored addr key → original addr key = 0
  | _ => True

theorem step (op : Op) (hop : Allows stored original op) : Sound stored original (s.step op) := by
  cases op with
  | sstore c =>
    simp only [StateDB.step]
    cases hexec : c.execute s with
    | none => exact h
    | some t => exact h.execute c hop hexec
  | getState addr key => exact h.quiet (s.getState_spec addr key).2.2
  | getStateObject addr => exact h.quiet (s.quiet_getStateObject addr)
  | setState addr key value => exact h.setState hop value
  | addBalance addr amount => exact h.quiet (s.quiet_addBalance addr amount)
  | subBalance addr amount => exact h.quiet (s.quiet_subBalance addr amount)
  | setNonce addr nonce => exact h.quiet (s.quiet_setNonce addr nonce)
  | setCode addr code => exact h.quiet (s.quiet_setCode addr code)
  | createAccount addr => exact h.createAccount hop
  | selfDestruct addr => exact h.quiet (s.quiet_selfDestruct addr)
  | snapshot =>
    have hsame : s.Caches s.snapshot.2 := .of_eq rfl rfl rfl
    exact ⟨Metered.of_caches _ _ hsame h.metered, h.marks.snapshot Metered.of_caches h.metered, h.err⟩
  | revertToSnapshot id =>
    simp only [StateDB.step]
    cases hrevert : s.revertToSnapshot id with
    | none => exact h
    | some t => exact revertToSnapshot h.marks h.err hrevert

theorem run {ops : List Op} (hops : ∀ op ∈ ops, Allows stored original op) :
    Sound stored original (run StateDB.step s ops) :=
  run_invariant (fun _ op hop hs => hs.step op hop) (steps_of_forall_mem hops s) h

end Sound

def Stored (tx : List Op) (addr : Address) (key : Hash) : Prop :=
  ∃ c ∈ tx.filterMap Op.sstore?, c.address = addr ∧ c.key = key

theorem mem_sstores {tx : List Op} {c : Sstore} : c ∈ tx.filterMap Op.sstore? ↔ Op.sstore c ∈ tx := by
  rw [List.mem_filterMap]
  constructor
  · rintro ⟨op, hop, hsome⟩
    cases op <;> cases hsome
    exact hop
  · exact fun h => ⟨_, h, rfl⟩

section Transaction

variable {s : StateDB} {tx : List Op}

/-- Between transactions: no entry to undo, nothing refunded, nothing recorded. -/
structure Settled (s : StateDB) : Prop where
  journal : s.journal = []
  revisions : s.revisions = []
  refund : s.refund = 0
  err : s.err = none

theorem Fresh.allows (h : Fresh s tx) : ∀ op ∈ tx, Sound.Allows (Stored tx) s.slot op := by
  intro op hop
  cases op with
  | sstore c => exact ⟨c, mem_sstores.mpr hop, rfl, rfl⟩
  | setState addr key value =>
    rintro ⟨c, hc, rfl, rfl⟩
    exact (h c hc).2.2 (List.mem_filterMap.mpr ⟨_, hop, rfl⟩)
  | createAccount addr =>
    rintro key ⟨c, hc, rfl, rfl⟩
    rw [← (s.getState_spec c.address c.key).1]
    exact (h c hc).2.1 hop
  | _ => trivial

theorem Settled.sound (hs : Settled s) (h : Fresh s tx) : Sound (Stored tx) s.slot s := by
  refine ⟨⟨?_, ∅, ?_, ?_⟩, ⟨?_, ?_, ?_⟩, hs.err⟩
  · rintro addr key ⟨c, hc, rfl, rfl⟩
    rw [s.base_eq_opening, ← (h c hc).1, (s.getState_spec c.address c.key).1]
  · exact fun addr key _ hne hzero => absurd hzero hne
  · exact Nat.zero_le _
  · rw [hs.journal]
    trivial
  · rw [hs.revisions]
    nofun
  · rw [hs.revisions]
    exact .nil

theorem Settled.wellCharged (hs : Settled s) (h : Fresh s tx) : WellCharged s tx := by
  rintro ops c rest rfl
  have hallows := h.allows
  have hsound : Sound (Stored (ops ++ .sstore c :: rest)) s.slot (run StateDB.step s ops) :=
    (hs.sound h).run fun op hop => hallows op (List.mem_append_left _ hop)
  have hstored := hallows (.sstore c) (List.mem_append_right _ List.mem_cons_self)
  refine ⟨?_, hsound.refund_nonneg c hstored⟩
  rw [(StateDB.getCommittedState_spec _ c.address c.key).1, (s.getState_spec c.address c.key).1]
  exact hsound.metered.base c.address c.key hstored

theorem Settled.transact (hs : Settled s) (h : Fresh s tx) : Settled (s.transact tx) :=
  ⟨rfl, rfl, rfl, ((hs.sound h).run h.allows).err⟩

end Transaction

theorem settled_new (trie : Address → Option Account) : Settled (StateDB.new trie) := ⟨rfl, rfl, rfl, rfl⟩

theorem StateDB.commit_eq_error {s : StateDB} {deleteEmptyObjects : Bool} {e : StateError}
    (h : s.commit deleteEmptyObjects = .error e) : s.err = some e := by
  simp only [commit] at h
  split at h
  · rename_i e' herr
    cases h
    exact herr
  · cases h

/-- In a block whose transactions each store only to slots no earlier one has changed, every `SSTORE` is
charged against the value its transaction began with, and the block commits without an underflow. -/
theorem block_well_charged (trie : Address → Option Account) (txs : List (List Op))
    (h : Transition.Steps StateDB.transact Fresh (.new trie) txs) :
    (∀ before tx after, txs = before ++ tx :: after →
      WellCharged (Transition.run StateDB.transact (.new trie) before) tx) ∧
    ∀ removing counter,
      (Transition.run StateDB.transact (.new trie) txs).commit true ≠ .error (.refundUnderflow removing counter) := by
  have hsettled : ∀ {txs}, Transition.Steps StateDB.transact Fresh (.new trie) txs →
      Settled (Transition.run StateDB.transact (.new trie) txs) := fun hsteps =>
    Transition.run_invariant (fun s tx htx hs => hs.transact htx) hsteps (settled_new trie)
  constructor
  · rintro before tx after rfl
    obtain ⟨hbefore, htx, -⟩ := Transition.steps_append.mp h
    exact (hsettled hbefore).wellCharged htx
  · intro removing counter hcommit
    have herr := StateDB.commit_eq_error hcommit
    rw [(hsettled h).err] at herr
    cases herr

namespace RefundExample

def trie : Address → Option Account := fun addr =>
  if addr = 1 then some ⟨1, 0, [0], fun key => if key.toNat < 2 then 5 else 0⟩ else none

def store (key value : Hash) : Op := .sstore ⟨1, key, value, false, false, 50000, 0⟩

def call (key value : Hash) : List Op := [.snapshot, store key value]

end RefundExample

open RefundExample in
/-- Two transactions that each clear a slot of their own. -/
theorem block_well_charged_two_slots :
    Transition.Steps StateDB.transact Fresh (.new trie) [call 0 0, call 1 0] ∧
      WellCharged (Transition.run StateDB.transact (.new trie) [call 0 0]) (call 1 0) := by
  have hfresh : Transition.Steps StateDB.transact Fresh (.new trie) [call 0 0, call 1 0] := by decide
  exact ⟨hfresh, (block_well_charged trie _ hfresh).1 [call 0 0] (call 1 0) [] rfl⟩

open RefundExample in
/-- The first transaction clears a slot, the second fills it again: the store of the second is charged
against the value from before the block, takes back a refund of the first, and the block cannot be
committed. -/
theorem cleared_then_filled_underflows :
    ¬ WellCharged (Transition.run StateDB.transact (.new trie) [call 0 0]) (call 0 7) ∧
      (Transition.run StateDB.transact (.new trie) [call 0 0, call 0 7]).commit true =
        .error (.refundUnderflow 4800 0) := by
  constructor
  · intro h
    exact absurd (h [.snapshot] _ [] rfl).1 (by decide)
  · rfl

end PadiChain.State

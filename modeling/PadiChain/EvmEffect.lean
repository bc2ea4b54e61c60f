import PadiChain.EvmInterpreter
import PadiChain.StateLedger

/-! What execution can do to the state, whatever the code. The relation lists it: the single acts of instructions,
calls and creations, one after another, inside snapshots that are kept or returned to. All that is said about the state
after an execution is derived from this list, and that the interpreter keeps to it is shown once. The acts are labelled
with the instructions that they belong to. -/

namespace PadiChain.State

/-- What a static frame does to the state: it reads, warms addresses and slots, and creates accounts that are not
there. -/
def TxOp.Mild (s : TxState) : TxOp → Prop
  | getStateObject _ | getState _ _ | getCommittedState _ _ | addAddressToAccessList _ | addSlotToAccessList _ _ => True
  | createAccount addr => s.ledger addr = none
  | _ => False

/-- Writes that move no value, count no nonce and place no code. -/
def TxOp.stores : TxOp → Bool
  | setState _ _ _ | setTransientState _ _ _ | addLog _ _ | addRefund _ | subRefund _ => true
  | _ => false

theorem TxOp.Mild.isMark {s : TxState} {op : TxOp} (h : op.Mild s) : op.isMark = false := by
  cases op <;> first | rfl | cases h

theorem TxOp.isMark_of_stores {op : TxOp} (h : op.stores = true) : op.isMark = false := by
  cases op <;> first | rfl | cases h

/-- The later state has the revisions of the earlier one, and newer ones before them. -/
structure TxState.Reaches (s t : TxState) : Prop where
  revisions : ∃ newer, t.revisions = newer ++ s.revisions ∧ ∀ r ∈ newer, s.nextRevID ≤ r.1
  nextRevID : s.nextRevID ≤ t.nextRevID

namespace TxState

variable {s t u : TxState} {op : TxOp} {ops : List TxOp}

theorem Reaches.of_eq (hrevisions : t.revisions = s.revisions) (hnext : t.nextRevID = s.nextRevID) :
    s.Reaches t := ⟨⟨[], hrevisions, nofun⟩, hnext.ge⟩

theorem Reaches.trans (h : s.Reaches t) (h' : t.Reaches u) : s.Reaches u := by
  obtain ⟨newer, hrevisions, hnewer⟩ := h.revisions
  obtain ⟨newest, hrevisions', hnewest⟩ := h'.revisions
  refine ⟨⟨newest ++ newer, ?_, List.forall_mem_append.mpr ⟨fun r hr => ?_, hnewer⟩⟩, h.nextRevID.trans h'.nextRevID⟩
  · rw [hrevisions', hrevisions, List.append_assoc]
  · exact h.nextRevID.trans (hnewest r hr)

theorem reaches_step (s : TxState) (hop : op.isMark = false) : s.Reaches (s.step op) := by
  cases op with
  | snapshot | revertToSnapshot => cases hop
  | setTransientState addr key value =>
    simp only [step, setTransientState]
    split <;> exact .of_eq rfl rfl
  | addAddressToAccessList addr =>
    obtain ⟨-, hrevisions, hnext⟩ := s.addAddressToAccessList_keeps addr
    exact .of_eq hrevisions hnext
  | addSlotToAccessList addr slot =>
    obtain ⟨-, hrevisions, hnext⟩ := s.addSlotToAccessList_keeps addr slot
    exact .of_eq hrevisions hnext
  | _ => exact .of_eq rfl rfl

theorem reaches_run (hops : ∀ op ∈ ops, op.isMark = false) (s : TxState) : s.Reaches (Transition.run step s ops) :=
  Transition.run_invariant (P := s.Reaches) (fun t _ hop ht => ht.trans (t.reaches_step hop))
    (Transition.steps_of_forall_mem hops s) (.of_eq rfl rfl)

theorem grows_step (hs : s.Sane) (hop : op.isMark = false) :
    s.Grows (accountEntries_tracked fun _ => True) (s.step op) := by
  have hfirst : s.Proceeds (fun _ => True) (s.step op) :=
    proceeds_step hs.coherent hs.warm hop fun _ _ => trivial
  exact hfirst.grows

theorem grows_run (hops : ∀ op ∈ ops, op.isMark = false) (hs : s.Sane) :
    s.Grows (accountEntries_tracked fun _ => True) (Transition.run step s ops) := by
  refine (Transition.run_invariant (P := fun t => s.Grows (accountEntries_tracked fun _ => True) t ∧ t.Sane) ?_
    (Transition.steps_of_forall_mem hops s) ⟨.refl s, hs⟩).1
  exact fun t op hop ht => ⟨ht.1.trans (grows_step ht.2 hop), ht.2.step op⟩

theorem sane_run (ops : List TxOp) (hs : s.Sane) : (Transition.run step s ops).Sane :=
  Transition.run_preserves (fun _ op hs => hs.step op) ops hs

variable (h : s.snapshot.2.Reaches t)

include h

theorem Reaches.kept : s.Reaches t := by
  obtain ⟨newer, hrevisions, hnewer⟩ := h.revisions
  refine ⟨⟨newer ++ [(s.nextRevID, s.journal.length)], ?_, ?_⟩, (Nat.le_succ _).trans h.nextRevID⟩
  · rw [List.append_assoc]
    exact hrevisions
  · exact List.forall_mem_append.mpr ⟨fun r hr => (Nat.le_succ _).trans (hnewer r hr), List.forall_mem_singleton.mpr le_rfl⟩

theorem Reaches.returned :
    t.revertToSnapshot s.snapshot.1 = some { t.revertJournal s.journal.length with revisions := s.revisions } := by
  obtain ⟨newer, hrevisions, hnewer⟩ := h.revisions
  exact revertToSnapshot_of_revisions hrevisions fun r hr => Nat.lt_of_succ_le (hnewer r hr)

theorem Reaches.of_returned (hu : t.revertToSnapshot s.snapshot.1 = some u) : s.Reaches u := by
  cases h.returned.symm.trans hu
  refine ⟨⟨[], rfl, nofun⟩, (Nat.le_succ _).trans (h.nextRevID.trans_eq ?_)⟩
  exact (foldl_revert_nextRevID t).symm

theorem Reaches.world_returned (hgrows : s.snapshot.2.Grows (accountEntries_tracked fun _ => True) t)
    (hu : t.revertToSnapshot s.snapshot.1 = some u) : u.world = s.world := by
  obtain ⟨hle, -⟩ := hgrows.cut s.revisions
  cases h.returned.symm.trans hu
  exact world_of_le ((txEntries _).le_trans (le_of_marks s) hle)

end TxState

end PadiChain.State

namespace PadiChain.Evm

open State (TxState TxOp Ledger Entry accountEntries_tracked txEntries)

/-- What a frame may do: whether it may not write, whether amounts are checked to be not negative, and the account that
it acts for. -/
structure Rights where
  static : Bool
  checked : Bool
  self : Address

def Rights.of (rights : Rights) (addr : Address) : Rights := { rights with self := addr }

inductive Act (rights : Rights) (s : TxState) : List OpCode → List TxOp → Prop
  | idle (op : OpCode) : Act rights s [op] []
  | mild {op : TxOp} (h : op.Mild s) : Act rights s [] [op]
  | store {op : TxOp} (hstatic : rights.static = false) (h : op.stores = true) : Act rights s [] [op]
  | install (hstatic : rights.static = false) (code : Bytes) : Act rights s [] [.setCode rights.self code]
  | bump {op : OpCode} (hstatic : rights.static = false) (h : op = .create ∨ op = .create2) :
      Act rights s [op]
        [.getStateObject rights.self, .setNonce rights.self ((s.ledger.nonce rights.self + 1) % 2 ^ 64)]
  | transfer (hstatic : rights.static = false) {sender : Address} {amount : Int}
      (hsign : rights.checked = true → 0 ≤ amount) (h : amount ≤ s.ledger.balance sender) (recipient : Address) :
      Act rights s [] [.subBalance sender amount, .addBalance recipient amount]
  | destroy (hstatic : rights.static = false) (beneficiary : Address) :
      Act rights s [.selfdestruct]
        [.getStateObject rights.self, .addBalance beneficiary (s.ledger.balance rights.self), .selfDestruct rights.self]

def founded (s : TxState) (addr : Address) : TxState := (s.createAccount addr).setNonce addr 1

/-- One act after another, inside snapshots that are kept or returned to. Another account acts only if its code is
called, or if it is being created. The labels are kept newest first. -/
inductive Effect : Rights → List OpCode → TxState → TxState → Prop
  | refl {rights : Rights} (s : TxState) : Effect rights [] s s
  | act {rights : Rights} {es : List OpCode} {s : TxState} {ops : List TxOp} (h : Act rights s es ops) :
      Effect rights es s (Transition.run TxState.step s ops)
  | trans {rights : Rights} {es fs : List OpCode} {s t u : TxState} (h : Effect rights es s t)
      (h' : Effect rights fs t u) : Effect rights (fs ++ es) s u
  | kept {rights : Rights} {es : List OpCode} {s t : TxState} (h : Effect rights es s.snapshot.2 t) :
      Effect rights es s t
  | returned {rights : Rights} {es : List OpCode} {s t u : TxState} (h : Effect rights es s.snapshot.2 t)
      (hu : t.revertToSnapshot s.snapshot.1 = some u) : Effect rights es s u
  | called {rights : Rights} {es : List OpCode} {s t : TxState} {addr : Address} (hcode : s.ledger.code addr ≠ [])
      (h : Effect (rights.of addr) es s t) : Effect rights es s t
  | created {rights : Rights} {es : List OpCode} {s t : TxState} {addr : Address} (hstatic : rights.static = false)
      (hnonce : s.ledger.nonce addr = 0) (h : Effect (rights.of addr) es (founded s addr) t) : Effect rights es s t

variable {rights : Rights} {es : List OpCode} {s t u : TxState}

theorem Act.isMark {ops : List TxOp} (h : Act rights s es ops) : ∀ op ∈ ops, op.isMark = false := by
  cases h with
  | idle => exact List.forall_mem_nil _
  | mild h => exact List.forall_mem_singleton.mpr h.isMark
  | store hstatic h => exact List.forall_mem_singleton.mpr (TxOp.isMark_of_stores h)
  | install | bump | transfer | destroy => simp [TxOp.isMark]

theorem ledger_run {ops : List TxOp} (h : ∀ op ∈ ops, op.isMark = false) (s : TxState) :
    (Transition.run TxState.step s ops).ledger = Transition.run Ledger.step s.ledger ops := by
  induction ops generalizing s with
  | nil => rfl
  | cons op ops ih =>
    rw [Transition.run_cons, Transition.run_cons, ← s.ledger_step op (h op List.mem_cons_self)]
    exact ih (fun other hother => h other (List.mem_cons_of_mem op hother)) _

theorem ledger_founded (s : TxState) (addr : Address) :
    (founded s addr).ledger = (s.ledger.step (.createAccount addr)).step (.setNonce addr 1) := by
  refine (TxState.ledger_step _ (.setNonce addr 1) rfl).trans ?_
  exact congrArg (Ledger.step · _) (s.ledger_step (.createAccount addr) rfl)

theorem sane_founded (hs : s.Sane) (addr : Address) : (founded s addr).Sane :=
  (hs.step (.createAccount addr)).step (.setNonce addr 1)

namespace Effect

section

variable (h : Effect rights es s t)

include h

theorem reaches : s.Reaches t := by
  induction h with
  | refl s => exact .of_eq rfl rfl
  | act h => exact TxState.reaches_run h.isMark _
  | trans h h' ih ih' => exact ih.trans ih'
  | kept h ih => exact ih.kept
  | returned h hu ih => exact ih.of_returned hu
  | called hcode h ih => exact ih
  | @created rights es s t addr hstatic hnonce h ih =>
    have hcreate : s.Reaches (s.step (.createAccount addr)) := s.reaches_step rfl
    have hnumber : (s.createAccount addr).Reaches ((s.createAccount addr).step (.setNonce addr 1)) :=
      TxState.reaches_step _ rfl
    exact hcreate.trans (hnumber.trans ih)

theorem sane (hs : s.Sane) : t.Sane := by
  induction h with
  | refl s => exact hs
  | act h => exact TxState.sane_run _ hs
  | trans h h' ih ih' => exact ih' (ih hs)
  | kept h ih => exact ih hs.snapshot
  | returned h hu ih => exact (ih hs.snapshot).revertToSnapshot hu
  | called hcode h ih => exact ih hs
  | @created rights es s t addr hstatic hnonce h ih => exact ih (sane_founded hs addr)

theorem grows (hs : s.Sane) : s.Grows (accountEntries_tracked fun _ => True) t := by
  induction h with
  | refl s => exact .refl s
  | act h => exact TxState.grows_run h.isMark hs
  | trans h h' ih ih' => exact (ih hs).trans (ih' (h.sane hs))
  | @kept rights es s t h ih =>
    have hmark : s.Grows (accountEntries_tracked fun _ => True) s.snapshot.2 := .of_le rfl (State.le_of_marks s)
    exact hmark.trans (ih hs.snapshot)
  | @returned rights es s t u h hu ih =>
    obtain ⟨hle, hjournal⟩ := (ih hs.snapshot).cut s.revisions
    cases h.reaches.returned.symm.trans hu
    exact .of_le hjournal ((txEntries _).le_trans (State.le_of_marks s) hle)
  | called hcode h ih => exact ih hs
  | @created rights es s t addr hstatic hnonce h ih => 
      have hcreate : s.Grows _ (s.step (.createAccount addr)) := TxState.grows_step hs rfl
      have hnumber : (s.createAccount addr).Grows _ ((s.createAccount addr).step (.setNonce addr 1)) :=
        TxState.grows_step (hs.step (.createAccount addr)) rfl
      exact hcreate.trans (hnumber.trans (ih (sane_founded hs addr)))

end

theorem world_returned (h : Effect rights es s.snapshot.2 t) (hu : t.revertToSnapshot s.snapshot.1 = some u)
    (hs : s.Sane) : u.world = s.world := h.reaches.world_returned (h.grows hs.snapshot) hu

end Effect

end PadiChain.Evm

import PadiChain.EvmHalt

/-! What execution keeps. A static call leaves all accounts as they were, with what lives as long as the transaction.
No execution makes coins: value is moved between accounts that can pay it, and burnt only by self-destruction. A nonce
never goes back, as long as it does not wrap. -/

open Function

namespace PadiChain.State

namespace Ledger

/-- An account as it is told of: one that is not there is told of as a fresh one. -/
def look (l : Ledger) (addr : Address) : Entry := (l addr).getD .fresh

theorem look_update_fresh {l : Ledger} {addr : Address} (h : l addr = none) :
    look (update l addr (some .fresh)) = l.look := by
  funext other
  simp only [look, update_apply]
  split_ifs with hother
  · rw [hother, h]
    rfl
  · rfl

end Ledger

namespace TxState

/-- All that is told of accounts, and of the transaction, is the same. What has become warm does not count. -/
structure Undisturbed (s t : TxState) : Prop where
  look : t.ledger.look = s.ledger.look
  transient : t.transient = s.transient
  refund : t.db.refund = s.db.refund
  logs : t.logs = s.logs
  logSize : t.logSize = s.logSize

theorem Undisturbed.refl (s : TxState) : s.Undisturbed s := ⟨rfl, rfl, rfl, rfl, rfl⟩

theorem Undisturbed.trans {s t u : TxState} (h : s.Undisturbed t) (h' : t.Undisturbed u) : s.Undisturbed u where
  look := h'.look.trans h.look
  transient := h'.transient.trans h.transient
  refund := h'.refund.trans h.refund
  logs := h'.logs.trans h.logs
  logSize := h'.logSize.trans h.logSize

theorem Undisturbed.of_world {s t : TxState} (h : t.world = s.world) : s.Undisturbed t := by
  simp only [world, World.mk.injEq] at h
  obtain ⟨hledger, htransient, hrefund, hlogs, hlogSize, -, -⟩ := h
  exact ⟨congrArg Ledger.look hledger, htransient, hrefund, hlogs, hlogSize⟩

theorem undisturbed_step {s : TxState} {op : TxOp} (h : op.Mild s) : s.Undisturbed (s.step op) := by
  have hledger := s.ledger_step op h.isMark
  cases op with
  | getStateObject addr =>
    exact ⟨congrArg Ledger.look hledger, rfl, (s.accounts.getStateObject_spec addr).2.1.refund, rfl, rfl⟩
  | getState addr key =>
    exact ⟨congrArg Ledger.look hledger, rfl, (s.accounts.getState_spec addr key).2.1.refund, rfl, rfl⟩
  | getCommittedState addr key =>
    exact ⟨congrArg Ledger.look hledger, rfl, (s.accounts.getCommittedState_spec addr key).2.1.refund, rfl, rfl⟩
  | createAccount addr =>
    have habsent : s.ledger addr = none := h
    refine ⟨?_, rfl, (s.accounts.createAccount_spec addr).2.2.2.1, rfl, rfl⟩
    have hzero : s.ledger.balance addr = 0 := by
      rw [Ledger.balance, habsent]
      rfl
    rw [hledger, Ledger.step, hzero]
    exact Ledger.look_update_fresh habsent
  | addAddressToAccessList addr =>
    refine ⟨congrArg Ledger.look hledger, ?_, congrArg StateDB.refund (s.addAddressToAccessList_keeps addr).1, ?_, ?_⟩
    all_goals
      simp only [step, addAddressToAccessList]
      split <;> rfl
  | addSlotToAccessList addr slot =>
    refine ⟨congrArg Ledger.look hledger, ?_, congrArg StateDB.refund (s.addSlotToAccessList_keeps addr slot).1, ?_, ?_⟩
    all_goals
      simp only [step, addSlotToAccessList, addAddressToAccessList]
      repeat' split
      all_goals rfl
  | _ => cases h

namespace Undisturbed

variable {s t : TxState} (h : s.Undisturbed t)

include h

/-- What is answered for an object is answered for the account it stands for. -/
theorem object {α : Type} {absent : α} {f : StateObject → α} (g : Entry → α) (hf : ∀ o, f o = g o.entry)
    (habsent : absent = g .fresh) (addr : Address) :
    (t.db.live addr).elim absent f = (s.db.live addr).elim absent f := by
  have hlook : ∀ u : TxState, (u.db.live addr).elim absent f = g (u.ledger.look addr) := by
    intro u
    rw [Ledger.look, ledger, StateDB.ledger]
    cases u.db.live addr with
    | none => exact habsent
    | some o => exact hf o
  rw [hlook, hlook, h.look]

theorem balance : t.observe.balance = s.observe.balance := by
  funext addr
  simp only [observe, getBalance, getStateObject_eq]
  exact h.object (fun e => e.account.balance) (fun _ => rfl) rfl addr

theorem nonce : t.observe.nonce = s.observe.nonce := by
  funext addr
  simp only [observe, getNonce, getStateObject_eq]
  exact h.object (fun e => e.account.nonce) (fun _ => rfl) rfl addr

theorem code : t.observe.code = s.observe.code := by
  funext addr
  simp only [observe, getCode, getStateObject_eq]
  exact h.object (fun e => e.account.code) (fun _ => rfl) rfl addr

theorem selfDestructed : t.observe.selfDestructed = s.observe.selfDestructed := by
  funext addr
  simp only [observe, hasSelfDestructed, getStateObject_eq]
  exact h.object (fun e => e.selfDestructed) (fun _ => rfl) rfl addr

theorem state : t.observe.state = s.observe.state := by
  funext addr key
  simp only [observe, getState_eq]
  exact h.object (fun e => e.account.storage key) (fun _ => rfl) rfl addr

theorem committedState : t.observe.committedState = s.observe.committedState := by
  funext addr key
  change (t.accounts.getCommittedState addr key).1 = (s.accounts.getCommittedState addr key).1
  rw [(t.accounts.getCommittedState_spec addr key).1, (s.accounts.getCommittedState_spec addr key).1]
  exact h.object (fun e => e.committed key) (fun _ => rfl) rfl addr

end Undisturbed

end TxState

end PadiChain.State

namespace PadiChain.Evm

open State (TxState TxOp Ledger)

variable {rights : Rights} {es : List OpCode} {s t : TxState}

theorem Effect.undisturbed (h : Effect rights es s t) (hrights : rights.static = true) (hs : s.Sane) :
    s.Undisturbed t := by
  induction h with
  | refl s => exact .refl s
  | @act rights es s ops h =>
    cases h with
    | idle op => exact .refl s
    | mild h => exact TxState.undisturbed_step h
    | store hstatic | install hstatic | bump hstatic | transfer hstatic | destroy hstatic =>
      exact absurd (hrights.symm.trans hstatic) nofun
  | trans h h' ih ih' => exact (ih hrights hs).trans (ih' hrights (h.sane hs))
  | @kept rights es s t h ih =>
    have hmark : s.Undisturbed s.snapshot.2 := ⟨rfl, rfl, rfl, rfl, rfl⟩
    exact hmark.trans (ih hrights hs.snapshot)
  | returned h hu ih => exact .of_world (h.world_returned hu hs)
  | called hcode h ih => exact ih hrights hs
  | created hstatic => exact absurd (hrights.symm.trans hstatic) nofun

/-- A static call, with all calls and creations that are tried inside it, leaves every balance, nonce, code, slot and
mark of self-destruction, the transient storage, the logs and the refund as they were, however it ends. -/
theorem staticCall_undisturbed (env : Env) (depth : Nat) (caller addr : Address) (input : Bytes) (gas : UInt64)
    (trie : Address → Option State.Account) (before : List State.BlockOp) :
    ∃ r, (∀ rounds, gas.toNat < rounds →
        staticCall env (run env rounds) depth caller addr input gas.toNat (TxState.reached trie before) = .ok r) ∧
      r.state.observe.balance = (TxState.reached trie before).observe.balance ∧
      r.state.observe.nonce = (TxState.reached trie before).observe.nonce ∧
      r.state.observe.code = (TxState.reached trie before).observe.code ∧
      r.state.observe.state = (TxState.reached trie before).observe.state ∧
      r.state.observe.committedState = (TxState.reached trie before).observe.committedState ∧
      r.state.observe.selfDestructed = (TxState.reached trie before).observe.selfDestructed ∧
      r.state.observe.transientState = (TxState.reached trie before).observe.transientState ∧
      r.state.observe.logs = (TxState.reached trie before).observe.logs ∧
      r.state.observe.logSize = (TxState.reached trie before).observe.logSize ∧
      r.state.observe.refund = (TxState.reached trie before).observe.refund := by
  have hs := TxState.sane_reached trie before
  generalize TxState.reached trie before = s at hs ⊢
  obtain ⟨r, hr, hsettled⟩ : ∃ r, (∀ rounds, gas.toNat < rounds →
      staticCall env (run env rounds) depth caller addr input gas.toNat s = .ok r) ∧
        FrameResult.Settled ⟨true, false, caller⟩ gas.toNat s r :=
    exists_result env (f := fun run => staticCall env run depth caller addr input gas.toNat s)
      (fun h => below_staticCall h env depth _ s caller addr input)
      fun rounds => ends_staticCall (run_keeps env rounds ⟨true, false, caller⟩) depth gas.toNat_lt caller addr input
  have hsame := hsettled.effect.undisturbed rfl hs
  exact ⟨r, hr, hsame.balance, hsame.nonce, hsame.code, hsame.state, hsame.committedState, hsame.selfDestructed,
    hsame.transient, hsame.logs, hsame.logSize, hsame.refund⟩

/-! ### Coins -/

variable {op : TxOp} {ops : List TxOp} {l l' : Ledger} {value : Int}

theorem TxOp.Mild.pays (h : op.Mild s) : op.pays = false := by
  cases op <;> first | rfl | cases h

theorem pays_of_stores (h : op.stores = true) : op.pays = false := by
  cases op <;> first | rfl | cases h

theorem balance_run (h : ∀ op ∈ ops, op.pays = false) (l : Ledger) :
    (Transition.run Ledger.step l ops).balance = l.balance :=
  Transition.run_invariant (P := fun m => m.balance = l.balance)
    (fun _ _ hop hm => (Ledger.balance_step hop).trans hm) (Transition.steps_of_forall_mem h l) rfl

/-- No balance becomes negative and none comes from nothing; coins go only with a self-destruction. -/
structure Conserves (es : List OpCode) (l l' : Ledger) : Prop where
  solvent : ∀ addr, 0 ≤ l'.balance addr
  supply : l'.supply ≤ l.supply
  burnt : .selfdestruct ∉ es → l'.supply = l.supply

theorem supply_of_balance (h : l'.balance = l.balance) : l'.supply = l.supply := by
  rw [Ledger.supply, Ledger.supply, h]

theorem supply_transfer (l : Ledger) (sender recipient : Address) (amount : Int) :
    ((l.step (.subBalance sender amount)).step (.addBalance recipient amount)).supply = l.supply := by
  rw [Ledger.supply, Ledger.balance_step_addBalance, Ledger.balance_step_subBalance, Ledger.sum_update, Ledger.sum_update,
    Ledger.supply]
  ring

theorem solvent_transfer {sender recipient : Address} {amount : Int} (hl : ∀ addr, 0 ≤ l.balance addr)
    (hsign : 0 ≤ amount) (hbalance : amount ≤ l.balance sender) (addr : Address) :
    0 ≤ ((l.step (.subBalance sender amount)).step (.addBalance recipient amount)).balance addr := by
  have hkept : ∀ addr, 0 ≤ update l.balance sender (l.balance sender - amount) addr := by
    refine (forall_update_iff _ fun _ balance => 0 ≤ balance).mpr ⟨?_, fun addr _ => hl addr⟩
    omega
  rw [Ledger.balance_step_addBalance, Ledger.balance_step_subBalance]
  refine (forall_update_iff _ fun _ balance => 0 ≤ balance).mpr ⟨?_, fun addr _ => hkept addr⟩ addr
  exact Int.add_nonneg (hkept recipient) hsign

/-- The balance is paid out before it is cleared: what an account leaves to itself is burnt. -/
theorem solvent_destroy (addr beneficiary : Address) (hl : ∀ addr, 0 ≤ l.balance addr) :
    (∀ other, 0 ≤ ((l.step (.addBalance beneficiary (l.balance addr))).step (.selfDestruct addr)).balance other) ∧
      ((l.step (.addBalance beneficiary (l.balance addr))).step (.selfDestruct addr)).supply ≤ l.supply := by
  have hbalances := Ledger.balance_step_selfDestruct (l := l.step (.addBalance beneficiary (l.balance addr))) addr
  rw [Ledger.balance_step_addBalance] at hbalances
  have hleft : ∀ other, l.balance other ≤
      update l.balance beneficiary (l.balance beneficiary + l.balance addr) other := by
    refine (forall_update_iff _ fun other balance => l.balance other ≤ balance).mpr ⟨?_, fun _ _ => le_rfl⟩
    have := hl addr
    omega
  refine ⟨fun other => ?_, ?_⟩
  · rw [hbalances]
    refine (forall_update_iff _ fun _ (balance : Int) => 0 ≤ balance).mpr ⟨le_rfl, fun other _ => ?_⟩ other
    exact (hl other).trans (hleft other)
  · rw [Ledger.supply, hbalances, Ledger.sum_update, Ledger.sum_update, Ledger.supply]
    have := hleft addr
    omega

theorem balance_founded (s : TxState) (addr : Address) : (founded s addr).ledger.balance = s.ledger.balance := by
  rw [ledger_founded, Ledger.balance_step rfl, Ledger.balance_step rfl]

/-- What is done at once changes no balance, or moves value, or destroys an account. -/
theorem Act.pays (h : Act rights s es ops) :
    (∀ op ∈ ops, op.pays = false) ∨
      (∃ sender recipient amount, (rights.checked = true → 0 ≤ amount) ∧ amount ≤ s.ledger.balance sender ∧
        ops = [.subBalance sender amount, .addBalance recipient amount]) ∨
      ∃ addr beneficiary, es = [.selfdestruct] ∧
        ops = [.getStateObject addr, .addBalance beneficiary (s.ledger.balance addr), .selfDestruct addr] := by
  cases h with
  | idle => exact .inl nofun
  | mild h => exact .inl (List.forall_mem_singleton.mpr (TxOp.Mild.pays h))
  | store hstatic h => exact .inl (List.forall_mem_singleton.mpr (pays_of_stores h))
  | install | bump =>
    left
    simp [TxOp.pays]
  | transfer hstatic hsign hbalance recipient => exact .inr (.inl ⟨_, recipient, _, hsign, hbalance, rfl⟩)
  | destroy hstatic beneficiary => exact .inr (.inr ⟨_, beneficiary, rfl, rfl⟩)

section

variable (h : Effect rights es s t)

include h

theorem Effect.supply_eq (hs : s.Sane) (hes : .selfdestruct ∉ es) : t.ledger.supply = s.ledger.supply := by
  induction h with
  | refl s => rfl
  | @act rights es s ops h =>
    rw [ledger_run h.isMark s]
    rcases h.pays with hquiet | ⟨sender, recipient, amount, -, -, rfl⟩ | ⟨addr, beneficiary, rfl, -⟩
    · exact supply_of_balance (balance_run hquiet _)
    · exact supply_transfer s.ledger sender recipient amount
    · exact absurd List.mem_cons_self hes
  | trans h h' ih ih' =>
    rw [List.mem_append, not_or] at hes
    exact (ih' (h.sane hs) hes.1).trans (ih hs hes.2)
  | kept h ih => exact ih hs.snapshot hes
  | returned h hu ih => exact congrArg Ledger.supply (congrArg State.World.ledger (h.world_returned hu hs))
  | called hcode h ih => exact ih hs hes
  | @created rights es s t addr hstatic hnonce h ih =>
    exact (ih (sane_founded hs addr) hes).trans (supply_of_balance (balance_founded s addr))

variable (hrights : rights.checked = true) (hs : s.Sane) (hsolvent : ∀ addr, 0 ≤ s.ledger.balance addr)

include hrights hs hsolvent

/-- Amounts that are checked leave nobody with a debt, and make no coins. -/
theorem Effect.solvent : (∀ addr, 0 ≤ t.ledger.balance addr) ∧ t.ledger.supply ≤ s.ledger.supply := by
  induction h with
  | refl s => exact ⟨hsolvent, Int.le_refl _⟩
  | @act rights es s ops h =>
    rw [ledger_run h.isMark s]
    rcases h.pays with hquiet | ⟨sender, recipient, amount, hsign, hbalance, rfl⟩ | ⟨addr, beneficiary, -, rfl⟩
    · have hsame := balance_run hquiet s.ledger
      exact ⟨fun addr => hsame ▸ hsolvent addr, (supply_of_balance hsame).le⟩
    · exact ⟨solvent_transfer hsolvent (hsign hrights) hbalance, (supply_transfer s.ledger sender recipient amount).le⟩
    · exact solvent_destroy addr beneficiary hsolvent
  | trans h h' ih ih' =>
    obtain ⟨hfirst, hless⟩ := ih hrights hs hsolvent
    obtain ⟨hsecond, hless'⟩ := ih' hrights (h.sane hs) hfirst
    exact ⟨hsecond, hless'.trans hless⟩
  | kept h ih => exact ih hrights hs.snapshot hsolvent
  | @returned rights es s t u h hu ih =>
    have hledger : u.ledger = s.ledger := congrArg State.World.ledger (h.world_returned hu hs)
    rw [hledger]
    exact ⟨hsolvent, Int.le_refl _⟩
  | called hcode h ih => exact ih hrights hs hsolvent
  | @created rights es s t addr hstatic hnonce h ih =>
    have hsame := balance_founded s addr
    obtain ⟨hrest, hless⟩ := ih hrights (sane_founded hs addr) fun other => hsame ▸ hsolvent other
    exact ⟨hrest, hless.trans (supply_of_balance hsame).le⟩

theorem Effect.conserves : Conserves es s.ledger t.ledger :=
  have hsafe := h.solvent hrights hs hsolvent
  ⟨hsafe.1, hsafe.2, h.supply_eq hs⟩

end

/-- Calls and creations with a value make no coins: from any state without negative balances they end in one, and the
sum of all balances does not grow, and shrinks only if an account has destroyed itself. One that fails leaves the state
as it was, but for the creator's nonce. -/
def MakesNoCoins (value : Int) : Prop :=
  ∀ (env : Env) (depth : Nat) (readOnly : Bool) (caller : Address) (gas : UInt64)
    (trie : Address → Option State.Account) (before : List State.BlockOp),
    (∀ addr, 0 ≤ (TxState.reached trie before).ledger.balance addr) →
    (∀ addr input, ∃ r, (∀ rounds, gas.toNat < rounds → call env (run env rounds) depth readOnly caller addr input
          gas.toNat value (TxState.reached trie before) = .ok r) ∧
        Conserves r.executed (TxState.reached trie before).ledger r.state.ledger ∧
        (r.err.isSome = true → r.state.world = (TxState.reached trie before).world)) ∧
    (∀ code, ∃ r, (∀ rounds, gas.toNat < rounds → create env (run env rounds) depth readOnly caller code gas.toNat value
          (TxState.reached trie before) = .ok r) ∧
        Conserves r.2.executed (TxState.reached trie before).ledger r.2.state.ledger ∧
        (r.2.err.isSome = true → r.2.state.world = (TxState.reached trie before).world ∨
          r.2.state.world = raised (TxState.reached trie before) caller)) ∧
    (∀ code salt, ∃ r, (∀ rounds, gas.toNat < rounds → create2 env (run env rounds) depth readOnly caller code gas.toNat
          value salt (TxState.reached trie before) = .ok r) ∧
        Conserves r.2.executed (TxState.reached trie before).ledger r.2.state.ledger ∧
        (r.2.err.isSome = true → r.2.state.world = (TxState.reached trie before).world ∨
          r.2.state.world = raised (TxState.reached trie before) caller))

theorem Conserves.unlabelled {op : OpCode} (h : Conserves (es ++ [op]) l l')
    (hop : op = .create ∨ op = .create2) : Conserves es l l' := by
  refine ⟨h.solvent, h.supply, fun hes => h.burnt fun hmem => ?_⟩
  rcases List.mem_append.mp hmem with hmem | hmem
  · exact hes hmem
  · rw [List.mem_singleton] at hmem
    rcases hop with rfl | rfl <;> cases hmem

theorem makesNoCoins_of_nonneg (h : 0 ≤ value) : MakesNoCoins value := by
  intro env depth readOnly caller gas trie before hsolvent
  have hs := TxState.sane_reached trie before
  generalize TxState.reached trie before = s at hs hsolvent ⊢
  have hkeeps : ∀ rounds, (run env rounds).Keeps ⟨false, true, caller⟩ rounds :=
    fun rounds => run_keeps env rounds ⟨false, true, caller⟩
  have hread : (⟨false, true, caller⟩ : Rights).static = true → readOnly = true := nofun
  have hcreated : ∀ {f : Runner → Outcome Empty (Address × FrameResult)} {op : OpCode} {refusal : Prop},
      op = .create ∨ op = .create2 →
      (∀ {run run' : Runner}, run.Below run' → (f run).Below (f run')) →
      (∀ rounds, (f (run env rounds)).Ends (fun r => r.2.Created ⟨false, true, caller⟩ op caller refusal gas.toNat s)
        (rounds ≤ gas.toNat)) →
      ∃ r, (∀ rounds, gas.toNat < rounds → f (run env rounds) = .ok r) ∧
        Conserves r.2.executed s.ledger r.2.state.ledger ∧
        (r.2.err.isSome = true → r.2.state.world = s.world ∨ r.2.state.world = raised s caller) := by
    intro f op refusal hop hmono hends
    obtain ⟨r, hr, hcreated⟩ := exists_result env hmono hends
    exact ⟨r, hr, (hcreated.effect.conserves rfl hs hsolvent).unlabelled hop, fun herr => hcreated.failed herr hs⟩
  refine ⟨fun addr input => ?_, fun code => ?_, fun code salt => ?_⟩
  · obtain ⟨r, hr, hsettled⟩ : ∃ r, (∀ rounds, gas.toNat < rounds →
        call env (run env rounds) depth readOnly caller addr input gas.toNat value s = .ok r) ∧
          FrameResult.Settled ⟨false, true, caller⟩ gas.toNat s r :=
      exists_result env (f := fun run => call env run depth readOnly caller addr input gas.toNat value s)
        (fun h => below_call h env depth readOnly _ s caller addr input value)
        fun rounds => ends_call (hkeeps rounds) depth hread gas.toNat_lt caller addr input nofun fun _ => h
    exact ⟨r, hr, hsettled.effect.conserves rfl hs hsolvent, fun herr => hsettled.failed herr hs⟩
  · exact hcreated (.inl rfl) (fun h => below_create h env depth readOnly _ s caller code value) fun rounds =>
      ends_create (hkeeps rounds) depth hread gas.toNat_lt rfl rfl code fun _ => h
  · exact hcreated (.inr rfl) (fun h => below_createAt h env depth readOnly _ s caller code value) fun rounds =>
      ends_create2 (hkeeps rounds) depth hread gas.toNat_lt rfl rfl code (fun _ => h) salt

/-- Nobody has anything, and a negative value is called for: the caller is paid by the account that it calls. -/
theorem call_negative (h : value < 0) {env : Env} (hprecompile : env.precompile 1 = none)
    (hwrites : env.readOnly = false) (run : Runner) :
    ∃ r, call env run 0 false 0 1 [] 0 value (TxState.reached (fun _ => none) []) = .ok r ∧
      r.state.ledger.balance 1 = value := by
  have hne : value ≠ 0 := h.ne
  have henough : affordable (TxState.reached (fun _ => none) []) 0 value =
      (true, TxState.reached (fun _ => none) []) := by
    rw [affordable, if_neg hne]
    change (decide (value ≤ 0), TxState.reached (fun _ => none) []) = _
    rw [decide_eq_true h.le]
  have hexist : ((TxState.reached (fun _ => none) []).snapshot.2.exist 1).1 = false := rfl
  have hcode : ((pay ((TxState.reached (fun _ => none) []).snapshot.2.exist 1).2 false 0 1 value).getCode 1).1 = [] := by
    simp only [pay, transfer, if_neg hne, TxState.subBalance, TxState.addBalance, State.StateDB.subBalance,
      State.StateDB.addBalance]
    rfl
  have hbalance : ((pay ((TxState.reached (fun _ => none) []).snapshot.2.exist 1).2 false 0 1 value).getCode
      1).2.ledger.balance 1 = value := by
    simp only [pay, transfer, if_neg hne, TxState.subBalance, TxState.addBalance, State.StateDB.subBalance,
      State.StateDB.addBalance]
    exact Int.zero_add value
  refine ⟨⟨[], none, 0, _, []⟩, ?_, hbalance⟩
  simp only [call, Nat.not_lt_zero, henough, hprecompile, hwrites, hexist, hcode, hne, Bool.not_true, Bool.not_false,
    Bool.false_and, Bool.true_and, Bool.false_eq_true, decide_false, if_false, if_true]

def bareEnv : Env where
  keccak _ := 0
  getHash _ := 0
  coinbase := 0
  gasLimit := 0
  blockNumber := 0
  time := 0
  baseFee := 0
  random := 0
  origin := 0
  gasPrice := 0
  chainID := 0
  precompile _ := none
  abort := false
  readOnly := false

theorem not_makesNoCoins (h : value < 0) : ¬ MakesNoCoins value := by
  intro hsafe
  obtain ⟨hcalls, -⟩ := hsafe bareEnv 0 false 0 0 (fun _ => none) [] fun _ => Int.le_refl 0
  obtain ⟨r, hr, hconserves, -⟩ := hcalls 1 []
  obtain ⟨r', hr', hbalance⟩ := @call_negative value h bareEnv rfl rfl (run bareEnv 1)
  have hsame := (hr 1 Nat.zero_lt_one).symm.trans hr'
  cases hsame
  have hsolvent := hconserves.solvent 1
  rw [hbalance] at hsolvent
  exact absurd hsolvent (Int.not_le.mpr h)

end PadiChain.Evm

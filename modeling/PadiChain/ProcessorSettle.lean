import PadiChain.ProcessorMessage

/-! What applying a message does, from the state it finds. A message is refused before anything is taken from it, or
after the gas has been bought, or it is executed and settled. -/

namespace PadiChain.State

/-- The hash of an account's code; zero for an account that does not exist. -/
def Ledger.codeHash (keccak : Bytes → Hash) (l : Ledger) (addr : Address) : Hash :=
  (l addr).elim 0 fun e => keccak e.account.code

namespace TxState

variable (s : TxState)

theorem world_subBalance (addr : Address) (amount : Int) :
    (s.subBalance addr amount).world = { s.world with ledger := s.ledger.step (.subBalance addr amount) } := by
  have hledger := s.accounts.ledger_subBalance addr amount
  refine (s.world_withAccounts (s.accounts.quiet_subBalance addr amount).refund).trans ?_
  rw [hledger]
  rfl

theorem getCodeHash_eq (keccak : Bytes → Hash) (addr : Address) :
    (Evm.getCodeHash keccak s addr).1 = s.ledger.codeHash keccak addr := by
  simp only [Evm.getCodeHash, getStateObject_eq, Ledger.codeHash, ledger, StateDB.ledger]
  cases s.db.live addr with
  | none | some _ => rfl

end TxState

end PadiChain.State

namespace PadiChain.Executor

open State (TxState TxOp Ledger World)
open Evm (Effect Rights OpCode Refuses raised)
open Processor (TxError intrinsicGas maxInitCodeSize gasExit refundQuotient)
open Command

variable {host : Host} {msg : Message} {st : StateTransition}

section Rules

variable {α : Type} {R : TxError → StateTransition → Prop} {D : Prop}

variable {Q : Unit → StateTransition → Prop}

theorem wp_modifyState (f : TxState → TxState) :
    wp (modifyState f) Q R D st ↔ Q () { st with state := f st.state } := Iff.rfl

theorem wp_ask {Q : α → StateTransition → Prop} (f : TxState → α × TxState) :
    wp (ask f) Q R D st ↔ Q (f st.state).1 { st with state := (f st.state).2 } := Iff.rfl

theorem wp_useGas {Q : Bool → StateTransition → Prop} (amount : Nat) :
    wp (useGas amount) Q R D st ↔
      (st.gas < amount → Q false st) ∧ (¬ st.gas < amount → Q true { st with gas := st.gas - amount }) := by
  rw [useGas, wp_bind, wp_get, wp_ite]
  exact Iff.rfl

theorem wp_runFrame {result : α → Evm.FrameResult} {f : Nat → TxState → Outcome Empty α} {r : α}
    {Q : Execution → StateTransition → Prop} (h : f st.gas st.state = .ok r)
    (hQ : Q ⟨(result r).err.map .vm, (result r).ret, (result r).executed⟩
      { st with state := (result r).state, gas := (result r).gas }) : wp (runFrame result f) Q R D st := by
  simp only [wp, runFrame, h]
  exact hQ

theorem wp_revertToSnapshot {id : Nat} {s : TxState}
    (h : st.state.revertToSnapshot id = some s) (hQ : Q () { st with state := s }) :
    wp (revertToSnapshot id) Q R D st := by
  rw [revertToSnapshot, wp_bind, wp_get, wp_bind, wp_orCrash]
  exact ⟨s, h, hQ⟩

end Rules

/-! ### Buying gas -/

/-- The machine has been left alone, and the state has only been asked. -/
structure StateTransition.Asked (st st' : StateTransition) : Prop where
  gasPool : st'.gasPool = st.gasPool
  gas : st'.gas = st.gas
  initialGas : st'.initialGas = st.initialGas
  world : st'.state.world = st.state.world
  sane : st.state.Sane → st'.state.Sane

namespace StateTransition

theorem Asked.refl (st : StateTransition) : st.Asked st := ⟨rfl, rfl, rfl, rfl, id⟩

theorem Asked.trans {st' st'' : StateTransition} (h : st.Asked st') (h' : st'.Asked st'') : st.Asked st'' where
  gasPool := h'.gasPool.trans h.gasPool
  gas := h'.gas.trans h.gas
  initialGas := h'.initialGas.trans h.initialGas
  world := h'.world.trans h.world
  sane := h'.sane ∘ h.sane

theorem asked_object (st : StateTransition) (addr : Address) :
    st.Asked { st with state := (st.state.getStateObject addr).2 } :=
  ⟨rfl, rfl, rfl, st.state.world_getStateObject addr, fun hs => hs.step (.getStateObject addr)⟩

theorem Asked.ledger {st' : StateTransition} (h : st.Asked st') : st'.state.ledger = st.state.ledger :=
  congrArg World.ledger h.world

end StateTransition

/-- The checks of a message that is not simulated. -/
structure Checked (host : Host) (msg : Message) (l : Ledger) : Prop where
  nonce : l.nonce msg.sender = msg.nonce.toNat
  external : isExternal host (l.codeHash host.env.keccak msg.sender) = true
  tip : msg.tipAboveFeeCap = false
  baseFee : feeCapBelowBaseFee host msg = false
  funds : msg.maxCost + msg.value ≤ l.balance msg.sender

/-- A message that gas is bought for. -/
structure Admitted (host : Host) (msg : Message) (gasPool : Nat) (l : Ledger) : Prop where
  checked : msg.skipChecks = false → Checked host msg l
  gasPool : msg.gasLimit.toNat ≤ gasPool

def Message.bought (msg : Message) (l : Ledger) : Ledger :=
  if msg.skipChecks then l else l.step (.subBalance msg.sender msg.maxCost)

theorem wp_checkMessage (host : Host) (msg : Message) (st : StateTransition) :
    wp (checkMessage host msg) (fun _ st' => st.Asked st' ∧ (msg.skipChecks = false →
        st.state.ledger.nonce msg.sender = msg.nonce.toNat ∧
        isExternal host (st.state.ledger.codeHash host.env.keccak msg.sender) = true ∧
        msg.tipAboveFeeCap = false ∧ feeCapBelowBaseFee host msg = false))
      (fun _ st' => st.Asked st' ∧ msg.skipChecks = false ∧ ¬ Checked host msg st.state.ledger) False st := by
  rw [checkMessage, wp_ite]
  refine ⟨fun hskip => ⟨.refl st, fun h => ?_⟩, fun hchecks => ?_⟩
  · rw [hskip] at h
    cases h
  · rw [Bool.not_eq_true] at hchecks
    have hasked : st.Asked { st with state := (st.state.getNonce msg.sender).2 } := st.asked_object msg.sender
    rw [wp_bind, wp_ask, st.state.getNonce_eq, wp_ite, wp_ite]
    refine ⟨fun hhigh => ⟨hasked, hchecks, fun h => ?_⟩, fun hhigh => ⟨fun hlow => ⟨hasked, hchecks, fun h => ?_⟩,
      fun hlow => ?_⟩⟩
    · exact hhigh.ne h.nonce
    · exact hlow.ne' h.nonce
    · generalize ({ st with state := (st.state.getNonce msg.sender).2 } : StateTransition) = st₁ at *
      have hasked' := hasked.trans (st₁.asked_object msg.sender)
      have hhash := st₁.state.getCodeHash_eq host.env.keccak msg.sender
      rw [hasked.ledger] at hhash
      rw [wp_bind, wp_ask, hhash, wp_ite, wp_ite, wp_ite]
      refine ⟨fun hcode => ⟨hasked', hchecks, fun h => ?_⟩, fun hcode => ⟨fun htip => ⟨hasked', hchecks, fun h => ?_⟩,
        fun htip => ⟨fun hfee => ⟨hasked', hchecks, fun h => ?_⟩, fun hfee => ⟨hasked', fun _ => ?_⟩⟩⟩⟩
      · rw [h.external] at hcode
        cases hcode
      · rw [h.tip] at htip
        cases htip
      · rw [h.baseFee] at hfee
        cases hfee
      · rw [Bool.not_eq_true] at htip hfee
        rw [Bool.not_eq_true, Bool.not_eq_false'] at hcode
        exact ⟨by omega, hcode, htip, hfee⟩

theorem wp_checkFunds (msg : Message) (st : StateTransition) :
    wp (checkFunds msg) (fun _ st' => st.Asked st' ∧
        (msg.skipChecks = false → msg.maxCost + msg.value ≤ st.state.ledger.balance msg.sender))
      (fun _ st' => st.Asked st' ∧ msg.skipChecks = false ∧
        ¬ msg.maxCost + msg.value ≤ st.state.ledger.balance msg.sender) False st := by
  rw [checkFunds, wp_ite]
  refine ⟨fun hskip => ⟨.refl st, fun h => ?_⟩, fun hchecks => ?_⟩
  · rw [hskip] at h
    cases h
  · have hasked := st.asked_object msg.sender
    rw [wp_bind, wp_ask, st.state.getBalance_eq, wp_ite]
    refine ⟨fun hpoor => ⟨hasked, Bool.eq_false_iff.mpr hchecks, Int.not_le.mpr hpoor⟩, fun henough => ?_⟩
    exact ⟨hasked, fun _ => Int.not_lt.mp henough⟩

structure Bought (msg : Message) (st st' : StateTransition) : Prop where
  gas : st'.gas = msg.gasLimit.toNat
  initialGas : st'.initialGas = msg.gasLimit.toNat
  gasPool : st'.gasPool = st.gasPool - msg.gasLimit.toNat
  world : st'.state.world = { st.state.world with ledger := msg.bought st.state.ledger }
  sane : st.state.Sane → st'.state.Sane

theorem wp_preCheck (host : Host) (msg : Message) :
    wp (preCheck host msg) (fun _ st' => Admitted host msg st.gasPool st.state.ledger ∧ Bought msg st st')
      (fun _ st' => st.Asked st' ∧ ¬ Admitted host msg st.gasPool st.state.ledger) False st := by
  rw [preCheck, wp_bind]
  refine wp_mono (wp_checkMessage host msg st) (fun _ st₁ h₁ => ?_) (fun _ st₁ h₁ => ⟨h₁.1, fun h => ?_⟩) id
  · obtain ⟨hasked₁, hmessage⟩ := h₁
    rw [buyGas, wp_bind]
    refine wp_mono (wp_checkFunds msg st₁) (fun _ st₂ h₂ => ?_) (fun _ st₂ h₂ => ⟨hasked₁.trans h₂.1, fun h => ?_⟩) id
    · obtain ⟨hasked₂, hfunds⟩ := h₂
      have hasked := hasked₁.trans hasked₂
      rw [hasked₁.ledger] at hfunds
      have hchecked : msg.skipChecks = false → Checked host msg st.state.ledger := by
        intro hskip
        obtain ⟨hnonce, hexternal, htip, hfee⟩ := hmessage hskip
        exact ⟨hnonce, hexternal, htip, hfee, hfunds hskip⟩
      rw [wp_bind, subGas, wp_bind, wp_get, wp_ite]
      refine ⟨fun hpool => ⟨hasked, fun h => ?_⟩, fun hpool => ?_⟩
      · have hlimit := h.gasPool
        rw [hasked.gasPool] at hpool
        omega
      · rw [hasked.gasPool, Nat.not_lt] at hpool
        rw [wp_modify, wp_bind, wp_modify, wp_ite]
        refine ⟨fun hskip => ⟨⟨hchecked, hpool⟩, rfl, rfl, ?_, ?_, hasked.sane⟩,
          fun hskip => ⟨⟨hchecked, hpool⟩, rfl, rfl, ?_, ?_, fun hs => ?_⟩⟩
        · exact congrArg (· - msg.gasLimit.toNat) hasked.gasPool
        · rw [Message.bought, if_pos hskip]
          exact hasked.world
        · exact congrArg (· - msg.gasLimit.toNat) hasked.gasPool
        · rw [Message.bought, if_neg hskip]
          refine (st₂.state.world_subBalance msg.sender msg.maxCost).trans ?_
          rw [hasked.ledger, hasked.world]
        · exact (hasked.sane hs).step (.subBalance msg.sender msg.maxCost)
    · rw [hasked₁.ledger] at h₂
      exact h₂.2.2 (h.checked h₂.2.1).funds
  · exact h₁.2.2 (h.checked h₁.2.1)

/-- A message that can pay what it owes before anything runs, with init code of a size that is allowed. -/
structure Payable (msg : Message) : Prop where
  gas : ∃ intrinsic, intrinsicGas msg.data msg.accessList msg.toAddress.isNone = some intrinsic ∧
    intrinsic ≤ msg.gasLimit.toNat
  size : msg.toAddress = none → msg.data.length ≤ maxInitCodeSize

theorem wp_payIntrinsic (hgas : st.gas = msg.gasLimit.toNat) :
    wp (payIntrinsic msg)
      (fun _ st' => Payable msg ∧ ∃ intrinsic, intrinsicGas msg.data msg.accessList msg.toAddress.isNone = some intrinsic ∧
        intrinsic ≤ msg.gasLimit.toNat ∧ st' = { st with gas := st.gas - intrinsic })
      (fun _ st' => ¬ Payable msg ∧ st'.gasPool = st.gasPool ∧ st'.state = st.state) False st := by
  rw [payIntrinsic]
  cases hintrinsic : intrinsicGas msg.data msg.accessList msg.toAddress.isNone with
  | none =>
    refine ⟨fun h => ?_, rfl, rfl⟩
    obtain ⟨intrinsic, hsome, -⟩ := h.gas
    cases hintrinsic.symm.trans hsome
  | some intrinsic =>
    rw [wp_bind, wp_useGas]
    refine ⟨fun hpoor => ⟨fun h => ?_, rfl, rfl⟩, fun hpaid => ?_⟩
    · obtain ⟨intrinsic', hsome, hle⟩ := h.gas
      cases hintrinsic.symm.trans hsome
      omega
    · rw [Bool.not_true, if_neg Bool.false_ne_true, wp_ite]
      have hle : intrinsic ≤ msg.gasLimit.toNat := by omega
      refine ⟨fun hlarge => ⟨fun h => ?_, rfl, rfl⟩, fun hsmall => ⟨⟨⟨intrinsic, hintrinsic, hle⟩, fun hcreate => ?_⟩,
        intrinsic, rfl, hle, rfl⟩⟩
      · rw [Bool.and_eq_true, decide_eq_true_eq, Option.isNone_iff_eq_none] at hlarge
        have hsize := h.size hlarge.1
        omega
      · rw [hcreate, Option.isNone_none, Bool.true_and, decide_eq_true_eq] at hsmall
        exact Nat.not_lt.mp hsmall

/-! ### Execution -/

/-- The operations of a staking call: none counts a nonce, places code or destroys an account. -/
def stakes : TxOp → Bool
  | .getStateObject _ | .getState _ _ | .setState _ _ _ | .addBalance _ _ | .subBalance _ _ => true
  | _ => false

theorem isMark_of_stakes {op : TxOp} (h : stakes op = true) : op.isMark = false := by
  cases op <;> first | rfl | cases h

theorem StakingOp.stakes_op (op : StakingOp) : stakes op.op = true := by
  cases op <;> rfl

/-- What execution has done to the state. A creation may have been refused before the nonce was counted; otherwise the
sender's nonce is counted first, and then others act. -/
inductive Happened (host : Host) (msg : Message) (s : TxState) (es : List OpCode) (t : TxState) : Prop
  | refused (hrefuses : Refuses host.env 0 msg.sender msg.value s) (hcreate : msg.toAddress = none)
      (h : t.world = s.world)
  | ran (mid : TxState) (hmid : mid.world = raised s msg.sender) (hsane : mid.Sane)
      (h : ∀ self, Effect ⟨false, decide (0 ≤ msg.value), self⟩ es mid t)
  | staked (hcall : msg.isStakingCall = true) (ops : List TxOp) (hops : ∀ op ∈ ops, stakes op = true)
      (h : t.ledger = Transition.run Ledger.step (raised s msg.sender).ledger ops)

structure Ran (host : Host) (msg : Message) (st : StateTransition) (x : Execution) (st' : StateTransition) : Prop where
  gasPool : st'.gasPool = st.gasPool
  initialGas : st'.initialGas = st.initialGas
  gas : st'.gas ≤ st.gas
  executed : x.executed.length ≤ st.gas + 1
  sane : st'.state.Sane
  happened : Happened host msg st.state x.executed st'.state

section Execute

variable {R : TxError → StateTransition → Prop} {D : Prop}

theorem wp_countNonce {Q : Unit → StateTransition → Prop} (hs : st.state.Sane)
    (hQ : ∀ s : TxState, s.world = raised st.state msg.sender → s.Sane → Q () { st with state := s }) :
    wp (countNonce msg) Q R D st := by
  rw [countNonce, wp_bind, wp_ask, st.state.getNonce_eq, wp_modifyState]
  refine hQ _ ?_ ((hs.step (.getStateObject msg.sender)).step (.setNonce msg.sender _))
  have hworld : (st.state.getNonce msg.sender).2.world = st.state.world := st.state.world_getStateObject msg.sender
  have hledger : (st.state.getNonce msg.sender).2.ledger = st.state.ledger := congrArg World.ledger hworld
  refine (TxState.world_setNonce _ msg.sender _).trans ?_
  rw [hworld, hledger]
  rfl

/-- The value is moved and the operation carried out by operations that stake. -/
structure Staked (st st' : StateTransition) : Prop where
  gasPool : st'.gasPool = st.gasPool
  gas : st'.gas = st.gas
  initialGas : st'.initialGas = st.initialGas
  state : ∃ ops : List TxOp, (∀ op ∈ ops, stakes op = true) ∧ st'.state = Transition.run TxState.step st.state ops

theorem Staked.more {st' : StateTransition} (h : Staked st st') (ops : List TxOp)
    (hops : ∀ op ∈ ops, stakes op = true) :
    Staked st { st' with state := Transition.run TxState.step st'.state ops } := by
  obtain ⟨before, hbefore, hstate⟩ := h.state
  refine ⟨h.gasPool, h.gas, h.initialGas, before ++ ops, List.forall_mem_append.mpr ⟨hbefore, hops⟩, ?_⟩
  rw [Transition.run_append, ← hstate]

theorem Staked.one {st' : StateTransition} (h : Staked st st') (op : TxOp) (hop : stakes op = true) :
    Staked st { st' with state := st'.state.step op } :=
  h.more [op] fun _ hother => List.mem_singleton.mp hother ▸ hop

theorem wp_moveValue (msg : Message) (st : StateTransition) :
    wp (moveValue msg) (fun _ st' => Staked st st') R D st := by
  have hstart : Staked st st := ⟨rfl, rfl, rfl, [], nofun, rfl⟩
  rw [moveValue, wp_ite]
  refine ⟨fun _ => hstart, fun _ => ?_⟩
  have hasked : Staked st { st with state := (st.state.getBalance msg.sender).2 } :=
    hstart.one (.getStateObject msg.sender) rfl
  rw [wp_bind, wp_ask, wp_ite]
  refine ⟨fun _ => hasked, fun _ => ?_⟩
  exact (hasked.one (.subBalance msg.sender msg.value) rfl).one (.addBalance Staking.stakingAddress msg.value) rfl

theorem wp_stakingOperation (host : Host) (msg : Message) :
    wp (stakingOperation host msg) (fun _ st' => Staked st st') R D st := by
  rw [stakingOperation, wp_bind]
  refine wp_mono (wp_moveValue msg st) (fun refused st₁ h₁ => ?_) (fun _ _ h => h) id
  cases refused with
  | some e => exact h₁
  | none =>
    rw [wp_bind, wp_get, wp_bind, wp_modifyState]
    have hops : ∀ op ∈ (host.applyStakingCall msg st₁.state).ops.map StakingOp.op, stakes op = true := by
      intro op hop
      obtain ⟨stakingOp, -, rfl⟩ := List.mem_map.mp hop
      exact stakingOp.stakes_op
    have hcarried := h₁.more _ hops
    split
    · exact hcarried
    · exact hcarried

/-- A staking call, whether it is accepted or returned to the state before it. -/
theorem wp_runStakingCall (host : Host) (hcall : msg.isStakingCall = true) (hs : st.state.Sane) :
    wp (runStakingCall host msg) (fun x st' => Ran host msg st x st') (fun _ _ => False) False st := by
  rw [runStakingCall, wp_bind]
  refine wp_countNonce hs fun s hworld hsane => ?_
  rw [wp_bind, wp_ask, wp_bind]
  refine wp_mono (wp_stakingOperation host msg) (fun r st₁ h₁ => ?_) (fun _ _ h => h) id
  obtain ⟨ops, hops, hstate⟩ := h₁.state
  have hmarks : ∀ op ∈ ops, op.isMark = false := fun op hop => isMark_of_stakes (hops op hop)
  have hsane₁ : st₁.state.Sane := hstate ▸ TxState.sane_run ops hsane.snapshot
  have hreaches : s.snapshot.2.Reaches st₁.state := hstate ▸ TxState.reaches_run hmarks s.snapshot.2
  have hgrows := TxState.grows_run hmarks hsane.snapshot
  rw [← hstate] at hgrows
  obtain ⟨u, hu⟩ : ∃ u, st₁.state.revertToSnapshot s.snapshot.1 = some u := ⟨_, hreaches.returned⟩
  have hreturned : u.ledger = Transition.run Ledger.step (raised st.state msg.sender).ledger [] := by
    exact congrArg World.ledger ((hreaches.world_returned hgrows hu).trans hworld)
  have hkept : st₁.state.ledger = Transition.run Ledger.step (raised st.state msg.sender).ledger ops := by
    have hledger : s.snapshot.2.ledger = (raised st.state msg.sender).ledger := congrArg World.ledger hworld
    rw [hstate, Evm.ledger_run hmarks, hledger]
  have hsane_u : u.Sane := hsane₁.revertToSnapshot hu
  rw [wp_bind, wp_useGas]
  refine ⟨fun hpoor => ?_, fun hpaid => ?_⟩
  · rw [Bool.not_false, if_pos rfl, wp_bind]
    refine wp_revertToSnapshot hu ?_
    exact ⟨h₁.gasPool, h₁.initialGas, Nat.zero_le _, Nat.zero_le _, hsane_u, .staked hcall [] nofun hreturned⟩
  · rw [Bool.not_true, if_neg Bool.false_ne_true, wp_bind, revertIf, wp_ite]
    have hgas : st₁.gas - r.1 ≤ st.gas := (Nat.sub_le _ _).trans h₁.gas.le
    refine ⟨fun _ => wp_revertToSnapshot hu ?_, fun _ => ?_⟩
    · exact ⟨h₁.gasPool, h₁.initialGas, hgas, Nat.zero_le _, hsane_u, .staked hcall [] nofun hreturned⟩
    · exact ⟨h₁.gasPool, h₁.initialGas, hgas, Nat.zero_le _, hsane₁, .staked hcall ops hops hkept⟩

theorem wp_runMachine (host : Host) (msg : Message) (hs : st.state.Sane) (hgas : st.gas < 2 ^ 64) :
    wp (runMachine host msg) (fun x st' => Ran host msg st x st') (fun _ _ => False) False st := by
  have hrounds : ¬ st.gas + 1 ≤ st.gas := Nat.not_succ_le_self _
  have hsign : decide (0 ≤ msg.value) = true → 0 ≤ msg.value := of_decide_eq_true
  rw [runMachine]
  cases hdest : msg.toAddress with
  | none =>
    have hends := @Evm.ends_create ⟨false, decide (0 ≤ msg.value), msg.sender⟩ st.state msg.sender msg.value host.env
      (Evm.run host.env (st.gas + 1)) (st.gas + 1) (Evm.run_keeps host.env _ _) 0 false nofun st.gas hgas
      rfl rfl msg.data hsign
    obtain ⟨r, hr, hcreated⟩ := hends.exists_ok hrounds
    refine wp_runFrame hr ⟨rfl, rfl, hcreated.gas, (Nat.le_add_right _ _).trans hcreated.executed,
      hcreated.effect.sane hs, ?_⟩
    rcases hcreated.steps with ⟨hrefuses, hreads⟩ | ⟨mid, hmid, hsane, hrest⟩
    · exact .refused hrefuses hdest hreads.world
    · exact .ran mid hmid (hsane hs) hrest
  | some dest =>
    rw [wp_bind]
    refine wp_countNonce hs fun s hworld hsane => ?_
    have hends : ∀ self : Address, (Evm.call host.env (Evm.run host.env (st.gas + 1)) 0 false msg.sender dest msg.data
        st.gas msg.value s).Ends (Evm.FrameResult.Settled ⟨false, decide (0 ≤ msg.value), self⟩ st.gas s)
          (st.gas + 1 ≤ st.gas) := fun self =>
      @Evm.ends_call ⟨false, decide (0 ≤ msg.value), self⟩ s host.env (Evm.run host.env (st.gas + 1)) (st.gas + 1)
        (Evm.run_keeps host.env _ _) 0 false nofun st.gas hgas msg.sender dest msg.data msg.value
        nofun hsign
    obtain ⟨r, hr, hall⟩ := Outcome.Ends.exists_ok_forall hends hrounds
    have hsettled := hall msg.sender
    exact wp_runFrame hr ⟨rfl, rfl, hsettled.gas, (Nat.le_add_right _ _).trans hsettled.executed,
      hsettled.effect.sane hsane, .ran s hworld hsane fun self => (hall self).effect⟩

theorem wp_execute (host : Host) (msg : Message) (hs : st.state.Sane) (hgas : st.gas < 2 ^ 64) :
    wp (execute host msg) (fun x st' => Ran host msg st x st') (fun _ _ => False) False st := by
  rw [execute, wp_ite]
  exact ⟨fun hcall => wp_runStakingCall host hcall hs, fun _ => wp_runMachine host msg hs hgas⟩

end Execute

/-! ### Settlement -/

/-- The gas that is left in the end: what execution has left and the storage refund, which is capped. -/
def gasLeft (st : StateTransition) : Nat :=
  st.gas + min st.state.db.refund ((st.initialGas - st.gas) / refundQuotient)

theorem gasLeft_le (h : st.gas ≤ st.initialGas) : gasLeft st ≤ st.initialGas := by
  have hcap : min st.state.db.refund ((st.initialGas - st.gas) / refundQuotient) ≤ st.initialGas - st.gas :=
    (Nat.min_le_right _ _).trans (Nat.div_le_self _ _)
  rw [gasLeft]
  omega

/-- What is paid in the end: the unused gas back, the proposer's share, and what was paid above the price. -/
def payments (host : Host) (msg : Message) (left used : Nat) : List TxOp :=
  if msg.skipChecks then []
  else
    [.addBalance msg.sender (left * msg.feeCap), .addBalance host.env.coinbase (used * tip host msg)] ++
      if 0 < msg.feeCap - msg.gasPrice then [.addBalance msg.sender (used * (msg.feeCap - msg.gasPrice))] else []

structure Settles (host : Host) (msg : Message) (st : StateTransition) (used : Nat) (st' : StateTransition) : Prop where
  used : used = st.initialGas - gasLeft st
  gasPool : st'.gasPool = st.gasPool + gasLeft st
  ledger : st'.state.ledger =
    Transition.run Ledger.step st.state.ledger (payments host msg (gasLeft st) (st.initialGas - gasLeft st))
  sane : st.state.Sane → st'.state.Sane

theorem wp_settle (host : Host) (msg : Message) (x : Execution) (st : StateTransition) :
    wp (do
      refundGas msg
      payProposer host msg
      let st ← get
      pure (⟨st.initialGas - st.gas, x.err, x.returnData⟩ : ExecutionResult))
      (fun r st' => r.err = x.err ∧ Settles host msg st r.usedGas st') (fun _ _ => False) False st := by
  have hadd : ∀ (s : TxState) addr amount,
      (s.addBalance addr amount).ledger = s.ledger.step (.addBalance addr amount) :=
    fun s addr amount => s.ledger_step (.addBalance addr amount) rfl
  rw [wp_bind, refundGas, wp_bind, wp_modify, wp_bind, wp_get, wp_bind, payUnused, payProposer]
  cases hskip : msg.skipChecks with
  | true =>
    refine ⟨rfl, rfl, rfl, ?_, id⟩
    rw [payments, hskip]
    rfl
  | false =>
    rw [if_neg Bool.false_ne_true, wp_modifyState, wp_modify, if_neg Bool.false_ne_true, wp_bind,
      wp_bind, wp_get, wp_bind, wp_modifyState, payBack, wp_ite]
    refine ⟨fun hover => ⟨rfl, rfl, rfl, ?_, fun hs => ?_⟩, fun hover => ⟨rfl, rfl, rfl, ?_, fun hs => ?_⟩⟩
    · rw [payments, hskip, if_neg Bool.false_ne_true, if_pos hover]
      refine (hadd _ _ _).trans ?_
      rw [hadd, hadd]
      rfl
    · exact ((hs.step (.addBalance _ _)).step (.addBalance _ _)).step (.addBalance _ _)
    · rw [payments, hskip, if_neg Bool.false_ne_true, if_neg hover]
      refine (hadd _ _ _).trans ?_
      rw [hadd]
      rfl
    · exact (hs.step (.addBalance _ _)).step (.addBalance _ _)

/-! ### The whole message -/

structure Started (msg : Message) (gasPool : Nat) (s : TxState) (st : StateTransition) : Prop where
  gas : ∃ intrinsic, intrinsicGas msg.data msg.accessList msg.toAddress.isNone = some intrinsic ∧
    intrinsic ≤ msg.gasLimit.toNat ∧ st.gas = msg.gasLimit.toNat - intrinsic
  initialGas : st.initialGas = msg.gasLimit.toNat
  gasPool : st.gasPool = gasPool - msg.gasLimit.toNat
  ledger : st.state.ledger = msg.bought s.ledger
  refund : st.state.db.refund = s.db.refund
  sane : st.state.Sane

structure Applied (host : Host) (msg : Message) (gasPool : Nat) (s : TxState) (r : ExecutionResult)
    (st' : StateTransition) : Prop where
  admitted : Admitted host msg gasPool s.ledger
  payable : Payable msg
  steps : ∃ before x after, Started msg gasPool s before ∧ execute host msg before = .ok (x, after) ∧
    Ran host msg before x after ∧ r.err = x.err ∧ Settles host msg after r.usedGas st'

variable {s : TxState} {gasPool : Nat}

/-- A message is refused without a trace, or once its gas is bought, or it is applied. -/
theorem wp_run (host : Host) (msg : Message) (gasPool : Nat) (hs : s.Sane) :
    wp (run host msg) (fun r st' => Applied host msg gasPool s r st')
      (fun _ st' => ¬ Admitted host msg gasPool s.ledger ∧ st'.gasPool = gasPool ∧ st'.state.world = s.world ∨
        Admitted host msg gasPool s.ledger ∧ ¬ Payable msg ∧ st'.gasPool = gasPool - msg.gasLimit.toNat ∧
          st'.state.world = { s.world with ledger := msg.bought s.ledger }) False ⟨s, gasPool, 0, 0⟩ := by
  rw [run, wp_bind]
  refine wp_mono (wp_preCheck host msg) (fun _ st₁ h₁ => ?_) (fun _ st₁ h₁ => ?_) id
  · obtain ⟨hadmitted, hbought⟩ := h₁
    rw [wp_bind]
    refine wp_mono (wp_payIntrinsic hbought.gas) (fun _ st₂ h₂ => ?_) (fun _ st₂ h₂ => ?_) id
    · obtain ⟨hpayable, intrinsic, hintrinsic, hle, rfl⟩ := h₂
      rw [wp_bind, wp_modifyState, wp_bind]
      have hdb := st₁.state.db_prepare msg.sender host.env.coinbase msg.toAddress host.precompileAddresses msg.accessList
      have hsane := (hbought.sane hs).prepare msg.sender host.env.coinbase msg.toAddress host.precompileAddresses
        msg.accessList
      generalize st₁.state.prepare msg.sender host.env.coinbase msg.toAddress host.precompileAddresses msg.accessList =
        s₂ at hdb hsane ⊢
      have hledger : s₂.ledger = msg.bought s.ledger := by
        rw [TxState.ledger, hdb]
        exact congrArg World.ledger hbought.world
      have hrefund : s₂.db.refund = s.db.refund := by
        rw [hdb]
        exact congrArg World.refund hbought.world
      have hstarted : Started msg gasPool s ⟨s₂, st₁.gasPool, st₁.gas - intrinsic, st₁.initialGas⟩ := by
        refine ⟨⟨intrinsic, hintrinsic, hle, ?_⟩, hbought.initialGas, hbought.gasPool, hledger, hrefund, hsane⟩
        exact congrArg (· - intrinsic) hbought.gas
      have hfits : st₁.gas - intrinsic < 2 ^ 64 := by
        have hlimit : msg.gasLimit.toNat < 2 ^ 64 := msg.gasLimit.toNat_lt
        rw [hbought.gas]
        omega
      obtain ⟨x, st₃, hx, hran⟩ := exists_ok_of_wp (@wp_execute ⟨s₂, _, _, _⟩ host msg hsane hfits)
      refine wp_of_ok hx ?_
      refine wp_mono (wp_settle host msg x st₃) (fun r st₄ h₄ => ?_) (fun _ _ h => h.elim) id
      exact ⟨hadmitted, hpayable, _, x, st₃, hstarted, hx, hran, h₄.1, h₄.2⟩
    · obtain ⟨hpayable, hpool, hstate⟩ := h₂
      refine .inr ⟨hadmitted, hpayable, hpool.trans hbought.gasPool, ?_⟩
      rw [hstate]
      exact hbought.world
  · exact .inl ⟨h₁.2, h₁.1.gasPool, h₁.1.world⟩

/-! ### Refused messages -/

/-- A message that is refused leaves every account, the refund counter and the gas pool as they were. -/
def LeavesNoTrace (host : Host) (msg : Message) (gasPool : Nat) (s : TxState) : Prop :=
  ∀ e st', applyMessage host msg gasPool s = .error (e, st') → st'.state.world = s.world ∧ st'.gasPool = gasPool

theorem bought_of_gasLimit_eq_zero (h : msg.gasLimit.toNat = 0) (l : Ledger) : msg.bought l = l := by
  have hcost : msg.maxCost = 0 := by
    rw [Message.maxCost, h]
    exact Int.zero_mul _
  rw [Message.bought, hcost]
  split
  · rfl
  · rw [Ledger.step, if_pos rfl]

theorem leavesNoTrace_of (hs : s.Sane)
    (h : Admitted host msg gasPool s.ledger → msg.gasLimit.toNat = 0 ∨ Payable msg) : LeavesNoTrace host msg gasPool s := by
  intro e st' herror
  rcases wp_error (wp_run host msg gasPool hs) herror with ⟨-, hpool, hworld⟩ | ⟨hadmitted, hpayable, hpool, hworld⟩
  · exact ⟨hworld, hpool⟩
  · rcases h hadmitted with hzero | hpays
    · rw [bought_of_gasLimit_eq_zero hzero] at hworld
      rw [hzero] at hpool
      exact ⟨hworld, hpool⟩
    · exact absurd hpays hpayable

/-- The gas that was bought for a message that cannot pay what it owes is gone from the pool. -/
theorem not_leavesNoTrace (hs : s.Sane) (hadmitted : Admitted host msg gasPool s.ledger)
    (hlimit : msg.gasLimit.toNat ≠ 0) (hpayable : ¬ Payable msg) : ¬ LeavesNoTrace host msg gasPool s := by
  intro h
  have hspec := wp_run host msg gasPool hs
  rw [wp] at hspec
  split at hspec
  · exact hpayable hspec.payable
  · rename_i e st' herror
    rcases hspec with ⟨hrefused, -⟩ | ⟨-, -, hpool, -⟩
    · exact hrefused hadmitted
    · have hkept := (h e st' herror).2
      have henough := hadmitted.gasPool
      omega
  · exact hspec
  · exact hspec

/-- A refused message leaves no trace exactly if the gas is not bought, or is none, or buys what the message owes. -/
theorem leavesNoTrace_iff (host : Host) (msg : Message) (gasPool : Nat) (trie : Address → Option State.Account)
    (before : List State.BlockOp) :
    LeavesNoTrace host msg gasPool (TxState.reached trie before) ↔
      (Admitted host msg gasPool (TxState.reached trie before).ledger → msg.gasLimit.toNat = 0 ∨ Payable msg) := by
  have hs := TxState.sane_reached trie before
  refine ⟨fun h hadmitted => ?_, leavesNoTrace_of hs⟩
  by_contra hneither
  rw [not_or] at hneither
  exact not_leavesNoTrace hs hadmitted hneither.1 hneither.2 h

def bareHost : Host := ⟨Evm.bareEnv, false, [], fun _ _ => ⟨[], .error .noSelector⟩⟩

def cheapMessage : Message := ⟨1, some 2, 0, 0, 20000, 1, some 1, some 1, [], [], false⟩

def richTrie : Address → Option State.Account :=
  fun addr => if addr = 1 then some ⟨0, 20000, [], fun _ => 0⟩ else none

/-- The message is refused for its gas limit, after the gas was paid for and taken from the pool. -/
theorem refused_message_pays : ¬ ∀ (host : Host) (msg : Message) (gasPool : Nat)
    (trie : Address → Option State.Account) (before : List State.BlockOp),
    LeavesNoTrace host msg gasPool (TxState.reached trie before) := by
  intro h
  have hadmitted : Admitted bareHost cheapMessage 20000 (TxState.reached richTrie []).ledger :=
    ⟨fun _ => ⟨rfl, rfl, rfl, rfl, Int.le_refl _⟩, Nat.le_refl _⟩
  have hpayable : ¬ Payable cheapMessage := by
    rintro ⟨⟨intrinsic, hintrinsic, hle⟩, -⟩
    cases hintrinsic
    exact absurd hle (by decide)
  exact not_leavesNoTrace (TxState.sane_reached richTrie []) hadmitted (by decide) hpayable (h _ _ _ richTrie [])

end PadiChain.Executor

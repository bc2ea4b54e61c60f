import PadiChain.ProcessorSettle

/-! Where the money of a transaction goes. The sender pays for the gas used at the effective price, the proposer gets the
tip, and the base fee is burnt; besides there is only what execution itself has moved or destroyed. The gas taken from
the pool of a block is the gas its transactions have used. -/

namespace PadiChain.State.Ledger

variable (l : Ledger) (addr : Address) (amount : Int)

theorem balance_addBalance (other : Address) :
    (l.step (.addBalance addr amount)).balance other = l.balance other + if other = addr then amount else 0 := by
  rw [balance_step_addBalance, Function.update_apply]
  split_ifs with hother
  · rw [hother]
  · rw [Int.add_zero]

theorem balance_subBalance (other : Address) :
    (l.step (.subBalance addr amount)).balance other = l.balance other - if other = addr then amount else 0 := by
  rw [balance_step_subBalance, Function.update_apply]
  split_ifs with hother
  · rw [hother]
  · rw [Int.sub_zero]

theorem supply_addBalance : (l.step (.addBalance addr amount)).supply = l.supply + amount := by
  rw [supply, balance_step_addBalance, sum_update, supply]
  ring

theorem supply_subBalance : (l.step (.subBalance addr amount)).supply = l.supply - amount := by
  rw [supply, balance_step_subBalance, sum_update, supply]
  ring

end PadiChain.State.Ledger

namespace PadiChain.Executor

open State (TxState TxOp Ledger World)
open Core (TxData)
open Evm (Conserves raised)
open Processor (TxError intrinsicGas refundQuotient)
open Command

variable {host : Host} {msg : Message}

structure Priced (host : Host) (msg : Message) : Prop where
  noBaseFee : host.noBaseFee = false
  baseFee : host.env.baseFee ≤ msg.gasPrice
  feeCap : msg.gasPrice ≤ msg.feeCap
  skipChecks : msg.skipChecks = false

variable {b : BlockHost} {sender : Address} {tx : TxData} {s t : TxState} {es : List Evm.OpCode} {gasPool : Nat}
  {r : ExecutionResult} {st' : StateTransition}

theorem priced_messageFromTx
    (hmsg : msg = messageFromTx sender tx b.baseFee) (h : feeCapBelowBaseFee (b.reset msg) msg = false) :
    Priced (b.reset msg) msg := by
  subst hmsg
  cases tx with
  | legacy tx =>
    have hfee : ¬ ((tx.gasPrice : Int) < b.baseFee) := of_decide_eq_false ((Bool.true_and _).symm.trans h)
    exact ⟨rfl, Int.not_lt.mp hfee, Int.le_refl _, rfl⟩
  | dynamicFee tx =>
    have hfee : ¬ ((tx.gasFeeCap : Int) < b.baseFee) := of_decide_eq_false ((Bool.true_and _).symm.trans h)
    refine ⟨rfl, ?_, ?_, rfl⟩
    · change (b.baseFee : Int) ≤ (min (tx.gasFeeCap - b.baseFee) tx.gasTipCap + b.baseFee : Nat)
      omega
    · change ((min (tx.gasFeeCap - b.baseFee) tx.gasTipCap + b.baseFee : Nat) : Int) ≤ tx.gasFeeCap
      omega

theorem Priced.tip (h : Priced host msg) : tip host msg = msg.gasPrice - host.env.baseFee := by
  have hbaseFee := h.baseFee
  rw [Executor.tip, h.noBaseFee, if_neg Bool.false_ne_true]
  omega

/-! ### Payments -/

section Payments

variable (h : Priced host msg) (l : Ledger) {left used : Nat}

include h

theorem run_payments : (Transition.run Ledger.step l (payments host msg left used)).balance =
    (((l.step (.addBalance msg.sender (left * msg.feeCap))).step (.addBalance host.env.coinbase (used * tip host msg))).step
      (.addBalance msg.sender (used * (msg.feeCap - msg.gasPrice)))).balance := by
  rw [payments, h.skipChecks, if_neg Bool.false_ne_true]
  split
  · rfl
  · rename_i hover
    have hzero : msg.feeCap - msg.gasPrice = 0 := by
      have := h.feeCap
      omega
    rw [hzero, Int.mul_zero, List.append_nil]
    refine congrArg Ledger.balance ?_
    rfl

variable (hlimit : left + used = msg.gasLimit.toNat)

include hlimit

/-- What was bought and not used is paid back, and what was used is paid at the price. -/
theorem balance_payments (l₁ : Ledger) (l₂ : Ledger) (hl₁ : l₁ = msg.bought l) (addr : Address) :
    (Transition.run Ledger.step l₂ (payments host msg left used)).balance addr =
      l.balance addr + (l₂.balance addr - l₁.balance addr) - (if addr = msg.sender then used * msg.gasPrice else 0) +
        if addr = host.env.coinbase then used * (msg.gasPrice - host.env.baseFee) else 0 := by
  have hcost : msg.maxCost = left * msg.feeCap + used * msg.feeCap := by
    rw [Message.maxCost, ← hlimit, Nat.cast_add, add_mul]
  rw [run_payments h, Ledger.balance_addBalance, Ledger.balance_addBalance, Ledger.balance_addBalance, hl₁, Message.bought,
    h.skipChecks, if_neg Bool.false_ne_true, Ledger.balance_subBalance, hcost, h.tip]
  split
  · ring
  · ring

theorem supply_payments (l₁ : Ledger) (l₂ : Ledger) (hl₁ : l₁ = msg.bought l) :
    (Transition.run Ledger.step l₂ (payments host msg left used)).supply =
      l.supply + (l₂.supply - l₁.supply) - used * host.env.baseFee := by
  have hcost : msg.maxCost = left * msg.feeCap + used * msg.feeCap := by
    rw [Message.maxCost, ← hlimit, Nat.cast_add, add_mul]
  have hsupply : (Transition.run Ledger.step l₂ (payments host msg left used)).supply = _ :=
    congrArg (fun balance : Address → Int => ∑ addr, balance addr) (run_payments h l₂)
  refine hsupply.trans ?_
  rw [← Ledger.supply, Ledger.supply_addBalance, Ledger.supply_addBalance, Ledger.supply_addBalance, hl₁, Message.bought,
    h.skipChecks, if_neg Bool.false_ne_true, Ledger.supply_subBalance, hcost, h.tip]
  ring

end Payments

/-! ### Execution -/

/-- The machine destroys coins only with accounts that destroy themselves. -/
theorem Happened.supply_eq (h : Happened host msg s es t)
    (hcall : msg.isStakingCall = false) (hes : .selfdestruct ∉ es) : t.ledger.supply = s.ledger.supply := by
  cases h with
  | refused hrefuses hcreate h => exact congrArg Ledger.supply (congrArg World.ledger h)
  | ran mid hmid hsane h =>
    have hmid : mid.ledger = (raised s msg.sender).ledger := congrArg World.ledger hmid
    refine ((h 0).supply_eq hsane hes).trans ?_
    rw [hmid]
    exact Evm.supply_of_balance (Evm.balance_raised s msg.sender)
  | staked hstaking => exact absurd (hcall.symm.trans hstaking) nofun

theorem Happened.supply_le (h : Happened host msg s es t)
    (hcall : msg.isStakingCall = false) (hvalue : 0 ≤ msg.value) (hsolvent : ∀ addr, 0 ≤ s.ledger.balance addr) :
    t.ledger.supply ≤ s.ledger.supply := by
  cases h with
  | refused hrefuses hcreate h => exact (congrArg Ledger.supply (congrArg World.ledger h)).le
  | ran mid hmid hsane h =>
    have hmid : mid.ledger = (raised s msg.sender).ledger := congrArg World.ledger hmid
    have hbalance : mid.ledger.balance = s.ledger.balance := by
      rw [hmid]
      exact Evm.balance_raised s msg.sender
    have hless := ((h 0).solvent (decide_eq_true hvalue) hsane fun addr => hbalance ▸ hsolvent addr).2
    exact hless.trans (Evm.supply_of_balance hbalance).le
  | staked hstaking => exact absurd (hcall.symm.trans hstaking) nofun

/-! ### The accounts of a message -/

/-- What has become of the money, from the state before the message. Beyond what execution itself has done, the sender
has paid for the gas used and the proposer has got the tip, and all coins together are fewer by the base fee. Execution
destroys coins only where an account destroys itself, unless it was a staking operation. -/
structure Accounted (host : Host) (msg : Message) (gasPool : Nat) (s : TxState) (r : ExecutionResult)
    (st' : StateTransition) (intrinsic : Nat) (before : StateTransition) (x : Execution) (after : StateTransition) :
    Prop where
  owed : intrinsicGas msg.data msg.accessList msg.toAddress.isNone = some intrinsic
  bought : before.state.ledger = s.ledger.step (.subBalance msg.sender (msg.gasLimit.toNat * msg.feeCap))
  execution : execute host msg before = .ok (x, after)
  most : r.usedGas ≤ msg.gasLimit.toNat
  least : intrinsic ≤ r.usedGas + min after.state.db.refund ((msg.gasLimit.toNat - after.gas) / refundQuotient)
  balance : ∀ addr, st'.state.ledger.balance addr =
    s.ledger.balance addr + (after.state.ledger.balance addr - before.state.ledger.balance addr) -
      (if addr = msg.sender then r.usedGas * msg.gasPrice else 0) +
      if addr = host.env.coinbase then r.usedGas * (msg.gasPrice - host.env.baseFee) else 0
  supply : st'.state.ledger.supply =
    s.ledger.supply + (after.state.ledger.supply - before.state.ledger.supply) - r.usedGas * host.env.baseFee
  unburnt : msg.isStakingCall = false → .selfdestruct ∉ x.executed →
    after.state.ledger.supply = before.state.ledger.supply
  burnt : msg.isStakingCall = false → (∀ addr, 0 ≤ s.ledger.balance addr) →
    after.state.ledger.supply ≤ before.state.ledger.supply
  gasPool : st'.gasPool + r.usedGas = gasPool

/-- The sender can still pay the value once the gas is bought, so nobody is in debt. -/
theorem solvent_bought {l : Ledger} (h : Admitted host msg gasPool l) (hvalue : 0 ≤ msg.value)
    (hsolvent : ∀ addr, 0 ≤ l.balance addr) (addr : Address) : 0 ≤ (msg.bought l).balance addr := by
  rw [Message.bought]
  split
  · exact hsolvent addr
  · rename_i hskip
    have hfunds := (h.checked (Bool.eq_false_iff.mpr hskip)).funds
    rw [Ledger.balance_subBalance]
    split
    · rename_i hsender
      rw [hsender]
      omega
    · rw [Int.sub_zero]
      exact hsolvent addr

theorem Applied.accounted (h : Applied host msg gasPool s r st') (hpriced : Priced host msg) (hvalue : 0 ≤ msg.value) :
    ∃ intrinsic before x after, Accounted host msg gasPool s r st' intrinsic before x after := by
  obtain ⟨before, x, after, hstarted, hx, hran, -, hsettles⟩ := h.steps
  obtain ⟨intrinsic, hintrinsic, hle, hgas⟩ := hstarted.gas
  have hinitial : after.initialGas = msg.gasLimit.toNat := hran.initialGas.trans hstarted.initialGas
  have hspent : after.gas + intrinsic ≤ msg.gasLimit.toNat := by
    have hless := hran.gas
    omega
  have hleft : gasLeft after ≤ msg.gasLimit.toNat := hinitial ▸ gasLeft_le (by omega)
  have hused : r.usedGas = msg.gasLimit.toNat - gasLeft after := hinitial ▸ hsettles.used
  have hlimit : gasLeft after + r.usedGas = msg.gasLimit.toNat := by omega
  have hledger := hsettles.ledger
  rw [hinitial, ← hused] at hledger
  have hbought := hstarted.ledger
  refine ⟨intrinsic, before, x, after, hintrinsic, ?_, hx, by omega, ?_, fun addr => ?_, ?_, ?_, ?_, ?_⟩
  · rw [hbought, Message.bought, hpriced.skipChecks]
    rfl
  · rw [gasLeft, hinitial] at hlimit
    omega
  · rw [hledger]
    exact balance_payments hpriced s.ledger hlimit _ _ hbought addr
  · rw [hledger]
    exact supply_payments hpriced s.ledger hlimit _ _ hbought
  · exact fun hcall hes => hran.happened.supply_eq hcall hes
  · intro hcall hsolvent
    refine hran.happened.supply_le hcall hvalue fun addr => ?_
    rw [hbought]
    exact solvent_bought h.admitted hvalue hsolvent addr
  · have hpool : after.gasPool = gasPool - msg.gasLimit.toNat := hran.gasPool.trans hstarted.gasPool
    have henough := h.admitted.gasPool
    rw [hsettles.gasPool, hpool]
    omega

/-! ### Transactions and blocks -/

theorem value_messageFromTx (sender : Address) (tx : TxData) (baseFee : Nat) :
    0 ≤ (messageFromTx sender tx baseFee).value := by
  cases tx with
  | legacy _ | dynamicFee _ => exact Int.natCast_nonneg _

theorem skipChecks_messageFromTx (sender : Address) (tx : TxData) (baseFee : Nat) :
    (messageFromTx sender tx baseFee).skipChecks = false := by
  cases tx <;> rfl

theorem Applied.accounted_tx (hmsg : msg = messageFromTx sender tx b.baseFee)
    (h : Applied (b.reset msg) msg gasPool s r st') :
    ∃ intrinsic before x after, Accounted (b.reset msg) msg gasPool s r st' intrinsic before x after := by
  have hskip : msg.skipChecks = false := hmsg ▸ skipChecks_messageFromTx sender tx b.baseFee
  have hvalue : 0 ≤ msg.value := hmsg ▸ value_messageFromTx sender tx b.baseFee
  exact h.accounted (priced_messageFromTx hmsg (h.admitted.checked hskip).baseFee) hvalue

theorem meets_applyTransaction (b : BlockHost) (index : Nat) (tx : TxData) (gasPool : Nat) (hs : s.Sane) :
    (applyTransaction b index tx gasPool s).Meets fun r =>
      r.2.2.Sane ∧ ∃ sender x st', b.sender tx = some sender ∧ r.1.msg = messageFromTx sender tx b.baseFee ∧
        Applied (b.reset r.1.msg) r.1.msg gasPool (s.setTxContext (b.txHash tx) index) x st' ∧
        r = (⟨r.1.msg, x.usedGas, s.ledger, (st'.state.finalise true).ledger⟩, st'.gasPool, st'.state.finalise true) := by
  have hcontext : (s.setTxContext (b.txHash tx) index).Sane := hs.blockStep (.setTxContext (b.txHash tx) index)
  rw [applyTransaction]
  cases hsender : b.sender tx with
  | none => trivial
  | some sender =>
    have hspec := wp_run (b.reset (messageFromTx sender tx b.baseFee)) (messageFromTx sender tx b.baseFee) gasPool hcontext
    rw [wp] at hspec
    simp only [applyMessage]
    split at hspec
    · rename_i x st' hok
      rw [hok]
      have hsane : (st'.state.finalise true).Sane := by
        obtain ⟨before, x, after, -, -, hran, -, hsettles⟩ := hspec.steps
        exact (hsettles.sane hran.sane).finalise true
      exact ⟨hsane, sender, x, st', rfl, rfl, hspec, rfl⟩
    · rename_i herror
      rw [herror]
      trivial
    · exact hspec.elim
    · exact hspec.elim

theorem meets_applyTransactions (b : BlockHost) (index : Nat) (txs : List TxData) (gasPool : Nat)
    (hs : s.Sane) : (applyTransactions b index txs gasPool s).Meets fun r =>
      r.2.1 + (r.1.map Included.usedGas).sum = gasPool := by
  induction txs generalizing index gasPool s with
  | nil => exact Nat.add_zero gasPool
  | cons tx txs ih =>
    refine (meets_applyTransaction b index tx gasPool hs).bind fun first hfirst => ?_
    obtain ⟨hsane, sender, x, st', -, hmsg, happlied, hresult⟩ := hfirst
    obtain ⟨intrinsic, before, y, after, haccounted⟩ := happlied.accounted_tx hmsg
    have hpool := haccounted.gasPool
    refine (ih (index + 1) first.2.1 hsane).bind fun rest hrest => ?_
    have hfirst : first.2.1 = st'.gasPool := congrArg (fun r => r.2.1) hresult
    have hused : first.1.usedGas = x.usedGas := congrArg (fun r => r.1.usedGas) hresult
    change rest.2.1 + ((first.1 :: rest.1).map Included.usedGas).sum = gasPool
    rw [List.map_cons, List.sum_cons, hused]
    omega

/-- A transaction that is applied with its checks on is accounted for to the last coin, whatever its execution does and
whoever the sender, the recipient and the proposer are; and over a block the gas taken from the pool is the gas used. -/
theorem fees_accounted (b : BlockHost) (trie : Address → Option State.Account) (before : List State.BlockOp) :
    (∀ sender tx gasPool,
      let msg := messageFromTx sender tx b.baseFee
      wp (run (b.reset msg) msg)
        (fun r st' => ∃ intrinsic start x after,
          Accounted (b.reset msg) msg gasPool (TxState.reached trie before) r st' intrinsic start x after)
        (fun _ _ => True) False ⟨TxState.reached trie before, gasPool, 0, 0⟩) ∧
    ∀ txs gasPool, (applyTransactions b 0 txs gasPool (TxState.reached trie before)).Meets fun r =>
      r.2.1 + (r.1.map Included.usedGas).sum = gasPool := by
  have hs := TxState.sane_reached trie before
  refine ⟨fun sender tx gasPool => ?_, fun txs gasPool => meets_applyTransactions b 0 txs gasPool hs⟩
  exact wp_mono (wp_run _ _ gasPool hs) (fun _ _ h => h.accounted_tx rfl) (fun _ _ _ => trivial) id

end PadiChain.Executor

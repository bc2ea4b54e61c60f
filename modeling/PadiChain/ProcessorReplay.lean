import PadiChain.ProcessorFees

/-! Replay protection. Every transaction raises its sender's nonce by one, whatever becomes of its execution, and the
account of a sender is never deleted: it has no code, so nobody acts in its name, and with its nonce it is not empty. So
nobody's nonce goes back, and no two transactions of a chain have the same sender and nonce. A nonce that has reached
the last number of 64 bits starts again. -/

namespace PadiChain.State.Ledger

variable {l : Ledger} {addr : Address} {n : Nat}

/-- An account that has no code and has not destroyed itself, or is not there. -/
def Plain (l : Ledger) (addr : Address) : Prop :=
  ∀ e, l addr = some e → e.account.code = [] ∧ e.selfDestructed = false

theorem Plain.alter (h : l.Plain addr) (other : Address) {f : Account → Account} (hf : ∀ a, (f a).code = a.code) :
    (l.alter other f).Plain addr := by
  intro e he
  rw [Ledger.alter, Function.update_apply] at he
  split_ifs at he with hother
  · cases he
    rw [hf, ← hother]
    cases hentry : l addr with
    | none => exact ⟨rfl, rfl⟩
    | some e => exact h e hentry
  · exact h e he

theorem Plain.subBalance (h : l.Plain addr) (other : Address) (amount : Int) :
    (l.step (.subBalance other amount)).Plain addr := by
  rw [step]
  split
  · exact h
  · exact h.alter other fun _ => rfl

theorem Plain.external (h : l.Plain addr) (n : Nat) : (l.step (.setNonce addr n)).External addr n := by
  refine ⟨_, Function.update_self .., rfl, ?_⟩
  cases hentry : l addr with
  | none => exact ⟨rfl, rfl⟩
  | some e => exact h e hentry

theorem External.stays (h : l.External addr n) (hn : 0 < n) : ¬ ∀ e, l addr = some e → e.Gone := by
  obtain ⟨e, he, hnonce, -, hdestroyed⟩ := h
  intro hgone
  rcases hgone e he with hselfDestructed | hempty
  · rw [hdestroyed] at hselfDestructed
    cases hselfDestructed
  · simp only [Account.isEmpty, hnonce, Bool.and_eq_true, beq_iff_eq] at hempty
    omega

end PadiChain.State.Ledger

namespace PadiChain.Executor

open List

open State (TxState TxOp Ledger World Account)
open Core (TxData)
open Evm (Counts Effect Rights raised)
open Processor (TxError intrinsicGas)

variable {host : Host} {msg : Message} {s t : TxState} {l : Ledger} {addr : Address} {n : Nat}

/-! ### One message -/

variable {op : TxOp} {es : List Evm.OpCode} {gasPool : Nat} {r : ExecutionResult} {st' : StateTransition}
  {sent : List (Address × UInt64)}

theorem reworks_of_stakes (h : stakes op = true) : op.reworks addr = false := by
  cases op <;> first | rfl | cases h

theorem renumbers_of_stakes (h : stakes op = true) : op.renumbers = false := by
  cases op <;> first | rfl | cases h

theorem nonce_run {ops : List TxOp} (h : ∀ op ∈ ops, op.renumbers = false) (l : Ledger) :
    (Transition.run Ledger.step l ops).nonce = l.nonce :=
  Transition.run_invariant (P := fun m => m.nonce = l.nonce) (fun _ _ hop hm => (Ledger.nonce_step hop).trans hm)
    (Transition.steps_of_forall_mem h l) rfl

theorem stakes_payments (host : Host) (msg : Message) {left used : Nat} :
    ∀ op ∈ payments host msg left used, stakes op = true := by
  rw [payments]
  split
  · exact forall_mem_nil _
  · refine forall_mem_append.mpr ⟨forall_mem_cons.mpr ⟨rfl, forall_mem_singleton.mpr rfl⟩, ?_⟩
    split
    · exact forall_mem_singleton.mpr rfl
    · exact forall_mem_nil _

theorem external_raised {creator : Address} (h : s.ledger.External addr n) (hne : creator ≠ addr) :
    (raised s creator).ledger.External addr n := by
  have hstep : (s.ledger.step (.setNonce creator ((s.ledger.nonce creator + 1) % 2 ^ 64))).External addr n :=
    h.step (decide_eq_false hne)
  exact hstep

section

variable (h : Happened host msg s es t)

include h

/-- The sender's account is external once its nonce is counted, and stays so. -/
theorem Happened.sender (hplain : s.ledger.Plain msg.sender)
    (hruns : ¬ Evm.Refuses host.env 0 msg.sender msg.value s) (hwraps : s.ledger.nonce msg.sender + 1 < 2 ^ 64) :
    t.ledger.External msg.sender (s.ledger.nonce msg.sender + 1) := by
  have hcounted : (raised s msg.sender).ledger.External msg.sender (s.ledger.nonce msg.sender + 1) := by
    have hexternal := hplain.external ((s.ledger.nonce msg.sender + 1) % 2 ^ 64)
    rw [Nat.mod_eq_of_lt hwraps] at hexternal
    rw [Evm.raised, Nat.mod_eq_of_lt hwraps]
    exact hexternal
  cases h with
  | refused hrefuses => exact absurd hrefuses hruns
  | ran mid hmid hsane h =>
    have hmid : mid.ledger = (Evm.raised s msg.sender).ledger := congrArg World.ledger hmid
    have hother : msg.sender + 1 ≠ msg.sender := by
      intro heq
      exact absurd (add_eq_left.mp heq) (by decide)
    exact (h (msg.sender + 1)).external hsane hother (Nat.succ_pos _) (hmid ▸ hcounted)
  | staked hcall ops hops h =>
    rw [h]
    exact hcounted.run fun op hop => reworks_of_stakes (hops op hop)

theorem Happened.external (hne : msg.sender ≠ addr) (hn : 0 < n)
    (hexternal : s.ledger.External addr n) : t.ledger.External addr n := by
  cases h with
  | refused hrefuses hcreate h =>
    have hsame : t.ledger = s.ledger := congrArg World.ledger h
    rw [hsame]
    exact hexternal
  | ran mid hmid hsane h =>
    have hmid : mid.ledger = (raised s msg.sender).ledger := congrArg World.ledger hmid
    exact (h msg.sender).external hsane hne hn (hmid ▸ external_raised hexternal hne)
  | staked hcall ops hops h =>
    rw [h]
    exact (external_raised hexternal hne).run fun op hop => reworks_of_stakes (hops op hop)

theorem Happened.nonce_le (hwraps : ∀ addr, s.ledger.nonce addr + es.length + 2 < 2 ^ 64) (addr : Address) :
    s.ledger.nonce addr ≤ t.ledger.nonce addr := by
  have hbump : Counts [.create] s.ledger (raised s msg.sender).ledger := by
    have := hwraps msg.sender
    exact Evm.counts_bump (by omega)
  cases h with
  | refused hrefuses hcreate h => exact (congrArg (fun w : World => w.ledger.nonce addr) h).ge
  | ran mid hmid hsane h =>
    have hmid : mid.ledger = (raised s msg.sender).ledger := congrArg World.ledger hmid
    rw [← hmid] at hbump
    refine (hbump.least addr).trans (((h addr).counts hsane fun other => ?_).least addr)
    have hmost := hbump.most other
    have := hwraps other
    rw [length_singleton] at hmost
    omega
  | staked hcall ops hops h =>
    rw [h, nonce_run fun op hop => renumbers_of_stakes (hops op hop)]
    exact hbump.least addr

end

/-! ### One transaction -/

theorem le_intrinsicGas {data : Bytes} {accessList : Core.AccessList} {create : Bool} {intrinsic : Nat}
    (h : intrinsicGas data accessList create = some intrinsic) : Processor.txGas ≤ intrinsic := by
  have hflat : Processor.txGas ≤ if create then Processor.txGasContractCreation else Processor.txGas := by
    cases create <;> decide
  simp only [intrinsicGas] at h
  generalize (if create = true then Processor.txGasContractCreation else Processor.txGas) = gas at h hflat
  generalize (if create = true then (data.length + 31) / 32 else 0) = words at h
  iterate 3
    split at h
    · cases h
  have := Option.some.inj h
  omega

/-- Only the code of an account without code has the hash of no code. -/
def Faithful (host : Host) : Prop := ∀ code, isExternal host (host.env.keccak code) = true → code = []

def Intact (l : Ledger) : Prop := ∀ addr e, l addr = some e → e.selfDestructed = false

theorem Checked.plain (h : Checked host msg l) (hfaithful : Faithful host) (hintact : Intact l) :
    l.Plain msg.sender := by
  intro e he
  refine ⟨hfaithful _ ?_, hintact msg.sender e he⟩
  have hexternal := h.external
  rw [Ledger.codeHash, he] at hexternal
  exact hexternal

theorem bought_eq (h : msg.skipChecks = false) (l : Ledger) :
    msg.bought l = l.step (.subBalance msg.sender msg.maxCost) := by
  rw [Message.bought, h]
  rfl

theorem Applied.nonces
    (h : Applied host msg gasPool s r st') (hskip : msg.skipChecks = false) (hwrites : host.env.readOnly = false)
    (hfaithful : Faithful host) (hintact : Intact s.ledger)
    (hroom : ∀ addr, s.ledger.nonce addr + msg.gasLimit.toNat < 2 ^ 64) :
    st'.state.ledger.External msg.sender (msg.nonce.toNat + 1) ∧
      (∀ addr n, msg.sender ≠ addr → 0 < n → s.ledger.External addr n → st'.state.ledger.External addr n) ∧
      ∀ addr, s.ledger.nonce addr ≤ st'.state.ledger.nonce addr := by
  obtain ⟨before, x, after, hstarted, -, hran, -, hsettles⟩ := h.steps
  obtain ⟨intrinsic, hintrinsic, hle, hgas⟩ := hstarted.gas
  have hchecked := h.admitted.checked hskip
  have hbought := hstarted.ledger
  rw [bought_eq hskip] at hbought
  have hnonce : before.state.ledger.nonce = s.ledger.nonce := by
    rw [hbought, Ledger.nonce_step rfl]
  have hflat : 21000 ≤ intrinsic := le_intrinsicGas hintrinsic
  have hexecuted := hran.executed
  have hpaid : ∀ op ∈ payments host msg (gasLeft after) (after.initialGas - gasLeft after), stakes op = true :=
    stakes_payments host msg
  rw [hsettles.ledger]
  refine ⟨?_, fun addr n hne hn hexternal => ?_, fun addr => ?_⟩
  · have hplain : before.state.ledger.Plain msg.sender := by
      rw [hbought]
      exact (hchecked.plain hfaithful hintact).subBalance _ _
    have hruns : ¬ Evm.Refuses host.env 0 msg.sender msg.value before.state := by
      rintro (hdepth | hpoor | hreadOnly | hwraps)
      · exact absurd hdepth (Nat.not_lt_zero _)
      · have hfunds := hchecked.funds
        rw [hbought, Ledger.balance_subBalance, if_pos rfl] at hpoor
        omega
      · rw [hwrites] at hreadOnly
        cases hreadOnly
      · have := hroom msg.sender
        rw [hnonce, Nat.mod_eq_of_lt (by omega)] at hwraps
        omega
    have hsender := hran.happened.sender hplain hruns (by
      have := hroom msg.sender
      rw [hnonce]
      omega)
    rw [hnonce, hchecked.nonce] at hsender
    exact hsender.run fun op hop => reworks_of_stakes (hpaid op hop)
  · have hstart : before.state.ledger.External addr n := by
      rw [hbought]
      exact hexternal.step rfl
    exact (hran.happened.external hne hn hstart).run fun op hop => reworks_of_stakes (hpaid op hop)
  · rw [nonce_run fun op hop => renumbers_of_stakes (hpaid op hop), ← hnonce]
    refine hran.happened.nonce_le (fun other => ?_) addr
    have := hroom other
    rw [hnonce]
    omega

/-! ### Chains -/

inductive BlockError where
  | tx (e : TxError)
  | close
  | state (e : State.StateError)

/-- A block that is executed. At its end the reveal is mixed in and the epoch closed, by operations that stake. -/
structure Block where
  host : BlockHost
  gasLimit : Nat
  txs : List TxData
  close : TxState → Option (List StakingOp)

/-- A step of a chain: a transaction, or the end of a block. -/
structure Change where
  sent : Option Message
  before : Ledger
  after : Ledger

def Included.change (i : Included) : Change := ⟨some i.msg, i.before, i.after⟩

/-- The end of a block: the state is committed, and opened again at the new root for the next one. -/
def closeBlock (b : Block) (s : TxState) : Outcome BlockError (Change × (Address → Option Account)) :=
  match b.close s with
  | none => .error .close
  | some ops =>
    match (Transition.run TxState.step s (ops.map StakingOp.op)).commit true with
    | .error e => .error (.state e)
    | .ok (trie, _) => .ok (⟨none, s.ledger, (TxState.new trie).ledger⟩, trie)

/-- `Process` and `Commit`, from the accounts at the parent's root. -/
def executeBlock (b : Block) (trie : Address → Option Account) :
    Outcome BlockError (List Change × (Address → Option Account)) := do
  let (included, _, s) ← (applyTransactions b.host 0 b.txs b.gasLimit (TxState.new trie)).mapError .tx
  let (last, trie) ← closeBlock b s
  pure (included.map Included.change ++ [last], trie)

def executeChain : List Block → (Address → Option Account) →
    Outcome BlockError (List Change × (Address → Option Account))
  | [], trie => .ok ([], trie)
  | b :: bs, trie => do
    let (changes, trie) ← executeBlock b trie
    let (rest, trie) ← executeChain bs trie
    pure (changes ++ rest, trie)

def sends (changes : List Change) : List (Address × UInt64) :=
  changes.filterMap fun c => c.sent.map fun msg => (msg.sender, msg.nonce)

/-- Nobody's nonce goes back unless the account is deleted, and a transaction raises its sender's nonce by one. -/
structure Change.Forward (c : Change) : Prop where
  nonce : ∀ addr, c.after addr = none ∨ c.before.nonce addr ≤ c.after.nonce addr
  sender : ∀ msg, c.sent = some msg →
    c.before.nonce msg.sender = msg.nonce.toNat ∧ c.after.nonce msg.sender = msg.nonce.toNat + 1

/-- No account's nonce comes near the end of its range with the gas of a transaction. -/
def Change.Room (c : Change) : Prop :=
  ∀ msg, c.sent = some msg → ∀ addr, c.before.nonce addr + msg.gasLimit.toNat < 2 ^ 64

/-- Every step goes forward, and no transaction comes twice. -/
structure ReplayProtected (changes : List Change) : Prop where
  forward : ∀ c ∈ changes, c.Forward
  nodup : (sends changes).Nodup

/-- Whoever has sent a transaction has an account with a larger nonce. -/
def Spent (sent : List (Address × UInt64)) (l : Ledger) : Prop :=
  ∀ p ∈ sent, ∃ m, p.2.toNat < m ∧ l.External p.1 m

/-- What steps do, given what was sent before them. -/
structure Advances (sent : List (Address × UInt64)) (changes : List Change) (l : Ledger) : Prop extends
    ReplayProtected changes where
  fresh : ∀ p ∈ sends changes, p ∉ sent
  spent : Spent (sends changes ++ sent) l

theorem sends_append (changes rest : List Change) : sends (changes ++ rest) = sends changes ++ sends rest :=
  filterMap_append

theorem Advances.nil (h : Spent sent l) : Advances sent [] l :=
  ⟨⟨nofun, nodup_nil⟩, nofun, h⟩

theorem Advances.append {changes rest : List Change} {l' : Ledger}
    (h : Advances sent changes l) (h' : Advances (sends changes ++ sent) rest l') : Advances sent (changes ++ rest) l' := by
  refine ⟨⟨forall_mem_append.mpr ⟨h.forward, h'.forward⟩, ?_⟩, ?_, fun p hp => h'.spent p ?_⟩
  · rw [sends_append, nodup_append]
    refine ⟨h.nodup, h'.nodup, fun p hp q hq heq => ?_⟩
    exact h'.fresh q hq (heq ▸ mem_append_left _ hp)
  · rw [sends_append]
    exact forall_mem_append.mpr ⟨h.fresh, fun p hp hsent => h'.fresh p hp (mem_append_right _ hsent)⟩
  · rw [sends_append] at hp
    simp only [mem_append] at hp ⊢
    tauto

/-- A transaction is new, since its sender has spent all smaller nonces. -/
theorem Applied.advances
    (h : Applied host msg gasPool s r st') (hskip : msg.skipChecks = false) (hwrites : host.env.readOnly = false)
    (hfaithful : Faithful host) (hintact : Intact s.ledger) (hspent : Spent sent s.ledger)
    (hroom : ∀ addr, s.ledger.nonce addr + msg.gasLimit.toNat < 2 ^ 64) :
    Advances sent [⟨some msg, s.ledger, (st'.state.finalise true).ledger⟩] (st'.state.finalise true).ledger := by
  obtain ⟨hsender, hothers, hnonces⟩ := h.nonces hskip hwrites hfaithful hintact hroom
  have hnonce := (h.admitted.checked hskip).nonce
  have hkept : ∀ addr n, 0 < n → st'.state.ledger.External addr n → (st'.state.finalise true).ledger.External addr n := by
    intro addr n hn hexternal
    rcases st'.state.db.ledger_finalise true addr with hsame | ⟨-, hgone⟩
    · obtain ⟨e, he, hrest⟩ := hexternal
      exact ⟨e, hsame.trans he, hrest⟩
    · exact absurd hgone (hexternal.stays hn)
  have hafter := hkept _ _ (Nat.succ_pos _) hsender
  refine ⟨⟨fun c hc => ?_, nodup_singleton _⟩, fun p hp hmem => ?_, fun p hp => ?_⟩
  · rw [mem_singleton.mp hc]
    refine ⟨fun addr => ?_, fun other hother => ?_⟩
    · rcases st'.state.db.ledger_finalise true addr with hsame | ⟨hnone, -⟩
      · refine .inr ((hnonces addr).trans_eq ?_)
        exact congrArg (fun o : Option State.Entry => o.elim 0 fun e => e.account.nonce) hsame.symm
      · exact .inl hnone
    · cases hother
      exact ⟨hnonce, hafter.nonce⟩
  · obtain ⟨m, hless, hexternal⟩ := hspent p hmem
    rw [mem_singleton.mp hp] at hless hexternal
    have hsame := hexternal.nonce
    rw [hnonce] at hsame
    exact absurd hsame hless.ne
  · rcases mem_append.mp hp with hp | hp
    · rw [mem_singleton.mp hp]
      exact ⟨_, Nat.lt_succ_self _, hafter⟩
    · obtain ⟨m, hless, hexternal⟩ := hspent p hp
      by_cases hsame : msg.sender = p.1
      · refine ⟨msg.nonce.toNat + 1, ?_, hsame ▸ hafter⟩
        have hm := hexternal.nonce
        rw [← hsame, hnonce] at hm
        omega
      · exact ⟨m, hless, hkept _ _ (by omega) (hothers _ _ hsame (by omega) hexternal)⟩

theorem meets_applyTransactions_advances (b : BlockHost) (hfaithful : ∀ msg, Faithful (b.reset msg)) (index : Nat)
    (txs : List TxData) (gasPool : Nat) (hs : s.Sane) (hintact : Intact s.ledger) :
    (applyTransactions b index txs gasPool s).Meets fun r => r.2.2.Sane ∧ Intact r.2.2.ledger ∧
      ∀ sent, Spent sent s.ledger → (∀ c ∈ r.1.map Included.change, c.Room) →
        Advances sent (r.1.map Included.change) r.2.2.ledger := by
  induction txs generalizing index gasPool s with
  | nil => exact ⟨hs, hintact, fun _ hspent _ => .nil hspent⟩
  | cons tx txs ih =>
    refine (meets_applyTransaction b index tx gasPool hs).bind fun first hfirst => ?_
    obtain ⟨hsane, sender, x, st', -, hmsg, happlied, hresult⟩ := hfirst
    have hledger : first.2.2 = st'.state.finalise true := congrArg (fun r => r.2.2) hresult
    have hchange : first.1.change = ⟨some first.1.msg, s.ledger, (st'.state.finalise true).ledger⟩ :=
      congrArg (fun r => r.1.change) hresult
    have hintact' : Intact first.2.2.ledger := by
      have hsane' : st'.state.Sane := by
        obtain ⟨before, x, after, -, -, hran, -, hsettles⟩ := happlied.steps
        exact hsettles.sane hran.sane
      rw [hledger]
      exact fun addr e he => hsane'.coherent.selfDestructed_finalise he
    have hadvances : ∀ sent, Spent sent s.ledger → first.1.change.Room →
        Advances sent [first.1.change] first.2.2.ledger := by
      intro sent hspent hroom
      have hskip : first.1.msg.skipChecks = false := hmsg ▸ skipChecks_messageFromTx sender tx b.baseFee
      rw [hchange, hledger]
      rw [hchange] at hroom
      exact happlied.advances hskip rfl (hfaithful _) hintact hspent (hroom first.1.msg rfl)
    refine (ih (index + 1) first.2.1 hsane hintact').bind fun rest hrest => ?_
    refine ⟨hrest.1, hrest.2.1, fun sent hspent hrooms => ?_⟩
    have hfirst := hadvances sent hspent (hrooms _ mem_cons_self)
    exact hfirst.append (hrest.2.2 _ hfirst.spent fun c hc => hrooms c (mem_cons_of_mem _ hc))

theorem external_new {trie : Address → Option Account} {a : Account} (ha : trie addr = some a) (hnonce : a.nonce = n)
    (hcode : a.code = []) : (TxState.new trie).ledger.External addr n := by
  refine ⟨(State.StateObject.newObject a).entry, ?_, hnonce, hcode, rfl⟩
  simp [TxState.ledger, State.StateDB.ledger, State.StateDB.live, TxState.new, State.StateDB.new, ha]

theorem nonce_new (trie : Address → Option Account) (addr : Address) :
    (TxState.new trie).ledger.nonce addr = (trie addr).elim 0 Account.nonce := by
  simp only [Ledger.nonce, TxState.ledger, State.StateDB.ledger, State.StateDB.live, TxState.new, State.StateDB.new]
  cases trie addr with
  | none | some _ => rfl

theorem intact_new (trie : Address → Option Account) : Intact (TxState.new trie).ledger := by
  intro addr e he
  obtain ⟨o, ho, rfl⟩ := Option.map_eq_some_iff.mp he
  obtain ⟨a, -, rfl⟩ := Option.map_eq_some_iff.mp ho
  rfl

/-- The end of a block deletes empty accounts, and keeps all others with their nonces. -/
theorem meets_closeBlock (b : Block) (hs : s.Sane) :
    (closeBlock b s).Meets fun r => ∀ sent, Spent sent s.ledger → Advances sent [r.1] (TxState.new r.2).ledger := by
  rw [closeBlock]
  split
  · trivial
  · rename_i ops hops
    have hstakes : ∀ op ∈ ops.map StakingOp.op, stakes op = true := by
      intro op hop
      obtain ⟨stakingOp, -, rfl⟩ := mem_map.mp hop
      exact stakingOp.stakes_op
    have hledger := Evm.ledger_run (fun op hop => isMark_of_stakes (hstakes op hop)) s
    have hsane := TxState.sane_run (ops.map StakingOp.op) hs
    have hnonce := nonce_run (fun op hop => renumbers_of_stakes (hstakes op hop)) s.ledger
    rw [← hledger] at hnonce
    generalize Transition.run TxState.step s (ops.map StakingOp.op) = t at hledger hsane hnonce ⊢
    split
    · trivial
    · rename_i trie t' hcommit
      obtain ⟨rfl, -⟩ := TxState.commit_eq_ok hcommit
      refine fun sent hspent => ⟨⟨forall_mem_singleton.mpr ⟨fun addr => ?_, nofun⟩, nodup_nil⟩, nofun, fun p hp => ?_⟩
      · rcases hsane.coherent.outcome_eq true addr with ⟨e, he, hsame⟩ | ⟨hnone, -⟩
        · refine .inr (le_of_eq ?_)
          rw [nonce_new, hsame, ← hnonce]
          exact congrArg (fun o : Option State.Entry => o.elim 0 fun e => e.account.nonce) he
        · refine .inl ?_
          simp [TxState.ledger, State.StateDB.ledger, State.StateDB.live, TxState.new, State.StateDB.new, hnone]
      · obtain ⟨m, hless, hexternal⟩ := hspent p hp
        have hexternal : t.ledger.External p.1 m := by
          rw [hledger]
          exact hexternal.run fun op hop => reworks_of_stakes (hstakes op hop)
        rcases hsane.coherent.outcome_eq true p.1 with ⟨e, he, hsame⟩ | ⟨-, hgone⟩
        · obtain ⟨e', he', hnonce', hcode', -⟩ := hexternal
          cases he.symm.trans he'
          exact ⟨m, hless, external_new hsame hnonce' hcode'⟩
        · exact absurd hgone (hexternal.stays (by omega))

theorem meets_executeBlock {b : Block} (hfaithful : Faithful b.host.host) (trie : Address → Option Account) :
    (executeBlock b trie).Meets fun r => ∀ sent, Spent sent (TxState.new trie).ledger → (∀ c ∈ r.1, c.Room) →
      Advances sent r.1 (TxState.new r.2).ledger := by
  have htxs := meets_applyTransactions_advances b.host (fun _ => hfaithful) 0 b.txs b.gasLimit
    (TxState.sane_new trie) (intact_new trie)
  refine htxs.mapError.bind fun included hincluded => ?_
  obtain ⟨hsane, -, hadvances⟩ := hincluded
  refine (meets_closeBlock b hsane).bind fun last hlast => fun sent hspent hrooms => ?_
  have hfirst := hadvances sent hspent fun c hc => hrooms c (mem_append_left _ hc)
  exact hfirst.append (hlast _ hfirst.spent)

theorem meets_executeChain {blocks : List Block} (hfaithful : ∀ b ∈ blocks, Faithful b.host.host)
    (trie : Address → Option Account) :
    (executeChain blocks trie).Meets fun r => ∀ sent, Spent sent (TxState.new trie).ledger → (∀ c ∈ r.1, c.Room) →
      Advances sent r.1 (TxState.new r.2).ledger := by
  induction blocks generalizing trie with
  | nil => exact fun _ hspent _ => .nil hspent
  | cons b blocks ih =>
    have hrest := fun b hb => hfaithful b (mem_cons_of_mem _ hb)
    refine (meets_executeBlock (hfaithful b mem_cons_self) trie).bind fun first hfirst => ?_
    refine (ih hrest first.2).bind fun rest hadvances => fun sent hspent hrooms => ?_
    have hblock := hfirst sent hspent fun c hc => hrooms c (mem_append_left _ hc)
    exact hblock.append (hadvances _ hblock.spent fun c hc => hrooms c (mem_append_right _ hc))

/-- In every chain of accepted blocks each transaction raises its sender's nonce by one, and no two transactions have
the same sender and nonce, as long as no nonce comes within the gas of a transaction of the last number. -/
theorem replayProtected_executeChain {blocks : List Block} (hfaithful : ∀ b ∈ blocks, Faithful b.host.host)
    {trie trie' : Address → Option Account} {changes : List Change}
    (hchain : executeChain blocks trie = .ok (changes, trie')) (hroom : ∀ c ∈ changes, c.Room) :
    ReplayProtected changes := by
  have hmeets := meets_executeChain hfaithful trie
  rw [hchain] at hmeets
  exact (hmeets [] nofun hroom).toReplayProtected

def faithfulHost : Host := { bareHost with env := { Evm.bareEnv with keccak := fun code => if code = [] then 0 else 1 } }

theorem faithful_faithfulHost : Faithful faithfulHost := by
  intro code hcode
  by_contra hne
  simp [isExternal, faithfulHost, hne] at hcode

def payingBlock (nonce : Nat) : Block where
  host := ⟨faithfulHost, 0, fun _ => some 1, fun _ => 0⟩
  gasLimit := 21000
  txs := [.legacy ⟨nonce, 0, 21000, some 2, 0, [], 27, 1, 1⟩]
  close _ := some []

def nonceTrie (nonce : Nat) : Address → Option Account :=
  fun addr => if addr = 1 then some ⟨nonce, 0, [], fun _ => 0⟩ else none

theorem faithful_payingBlock (nonce : Nat) : ∀ b ∈ [payingBlock nonce], Faithful b.host.host :=
  forall_mem_singleton.mpr faithful_faithfulHost

theorem executeChain_payingBlock : ∃ msg after last trie', executeChain [payingBlock 0] (nonceTrie 0) =
      .ok ([⟨some msg, (TxState.new (nonceTrie 0)).ledger, after⟩, ⟨none, after, last⟩], trie') ∧
    msg.sender = 1 ∧ msg.nonce = 0 ∧ msg.gasLimit = 21000 :=
  ⟨_, _, _, _, rfl, rfl, rfl, rfl⟩

theorem exists_replayProtected : ∃ changes trie', executeChain [payingBlock 0] (nonceTrie 0) = .ok (changes, trie') ∧
    sends changes = [(1, 0)] ∧ ReplayProtected changes := by
  obtain ⟨msg, after, last, trie', hchain, hsender, hnonce, hgas⟩ := executeChain_payingBlock
  refine ⟨_, trie', hchain, ?_, replayProtected_executeChain (faithful_payingBlock 0) hchain fun c hc => ?_⟩
  · simp [sends, hsender, hnonce]
  · rcases mem_cons.mp hc with rfl | hc
    · intro other hother addr
      obtain rfl := Option.some.inj hother
      rw [hgas, nonce_new, nonceTrie]
      split
      · decide
      · decide
    · rw [mem_singleton.mp hc]
      nofun

/-- A sender whose nonce is the last number starts again at zero. -/
theorem nonce_starts_again : ¬ ∀ (blocks : List Block) (trie trie' : Address → Option Account) (changes : List Change),
    (∀ b ∈ blocks, Faithful b.host.host) → executeChain blocks trie = .ok (changes, trie') → ReplayProtected changes := by
  intro h
  have hchain : executeChain [payingBlock (2 ^ 64 - 1)] (nonceTrie (2 ^ 64 - 1)) = .ok (_, _) := rfl
  have hprotected := h _ _ _ _ (faithful_payingBlock _) hchain
  have hsender := ((hprotected.forward _ mem_cons_self).sender _ rfl).2
  exact absurd hsender (by decide)

end PadiChain.Executor

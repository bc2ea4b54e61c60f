import PadiChain.EvmEffect

/-! What calls and creations do, over frames that keep to the gas they are given and to what execution can do. Each
call does the same, and one that fails leaves the state as it was; a creation that fails may have counted the creator's
nonce. -/

namespace PadiChain.Evm

open FrameResult

open State (TxState TxOp Ledger)

/-- A state after nothing but reading. -/
structure Reads (rights : Rights) (s t : TxState) : Prop where
  effect : Effect rights [] s t
  world : t.world = s.world

/-- What is promised of a frame that is given so much gas in a state. -/
structure FrameResult.Within (rights : Rights) (supplied : Nat) (s : TxState) (r : FrameResult) : Prop where
  gas : r.gas ≤ supplied
  executed : r.executed.length + r.gas ≤ supplied + 1
  effect : Effect rights r.executed s r.state

/-- What is promised of a call. -/
structure FrameResult.Settled (rights : Rights) (supplied : Nat) (s : TxState) (r : FrameResult) : Prop extends
    Within rights supplied s r where
  failed : r.err.isSome = true → s.Sane → r.state.world = s.world

def raised (s : TxState) (creator : Address) : State.World :=
  { s.world with ledger := s.ledger.step (.setNonce creator ((s.ledger.nonce creator + 1) % 2 ^ 64)) }

theorem balance_raised (s : TxState) (creator : Address) : (raised s creator).ledger.balance = s.ledger.balance := by
  have hledger : (raised s creator).ledger =
      s.ledger.step (.setNonce creator ((s.ledger.nonce creator + 1) % 2 ^ 64)) := rfl
  rw [hledger, Ledger.balance_step rfl]

/-- Why a creation is refused before the creator's nonce is counted. -/
def Refuses (env : Env) (depth : Nat) (creator : Address) (value : Int) (s : TxState) : Prop :=
  maxCallDepth < depth ∨ s.ledger.balance creator < value ∨ env.readOnly = true ∨
    (s.ledger.nonce creator + 1) % 2 ^ 64 < s.ledger.nonce creator

/-- What is promised of a creation; it is labelled as an instruction, though a transaction has none for it. Once the
nonce is counted the creator does not act any more. -/
structure FrameResult.Created (rights : Rights) (op : OpCode) (creator : Address) (refusal : Prop) (supplied : Nat)
    (s : TxState) (r : FrameResult) : Prop where
  gas : r.gas ≤ supplied
  executed : r.executed.length + r.gas ≤ supplied + 1
  effect : Effect rights (r.executed ++ [op]) s r.state
  failed : r.err.isSome = true → s.Sane → r.state.world = s.world ∨ r.state.world = raised s creator
  steps : refusal ∧ Reads rights s r.state ∨
    ∃ mid : TxState, mid.world = raised s creator ∧ (s.Sane → mid.Sane) ∧
      ∀ self, Effect (rights.of self) r.executed mid r.state

/-- A way to run frames that keeps the promise, given more rounds than gas. Without code nothing is run. -/
structure Runner.Keeps (rights : Rights) (rounds : Nat) (run : Runner) : Prop where
  within : ∀ depth readOnly c gas s, gas < 2 ^ 64 → (rights.static = true → readOnly = true) →
    (run depth readOnly c gas s).Ends (Within (rights.of c.address) gas s) (rounds ≤ gas)
  silent : ∀ depth readOnly c gas s, c.code = [] → run depth readOnly c gas s = .ok ⟨[], none, gas, s, []⟩

variable {rights : Rights} {s t : TxState}

namespace Effect

variable {es : List OpCode} {u : TxState}

theorem mild (op : TxOp) (h : op.Mild s) : Effect rights [] s (s.step op) := .act (.mild h)

theorem store (op : TxOp) (hstatic : rights.static = false) (h : op.stores = true) :
    Effect rights [] s (s.step op) := .act (.store hstatic h)

theorem before (h : Effect rights [] s t) (h' : Effect rights es t u) : Effect rights es s u := by
  have h := h.trans h'
  rw [List.append_nil] at h
  exact h

theorem labelled (h : Effect rights es s t) (op : OpCode) : Effect rights (es ++ [op]) s t :=
  (act (.idle op)).trans h

end Effect

namespace Reads

theorem refl (s : TxState) : Reads rights s s := ⟨.refl s, rfl⟩

theorem trans {u : TxState} (h : Reads rights s t) (h' : Reads rights t u) : Reads rights s u :=
  ⟨h.effect.before h'.effect, h'.world.trans h.world⟩

theorem object (s : TxState) (addr : Address) : Reads rights s (s.getStateObject addr).2 :=
  ⟨.mild (.getStateObject addr) trivial, s.world_getStateObject addr⟩

theorem ledger (h : Reads rights s t) : t.ledger = s.ledger := congrArg State.World.ledger h.world

end Reads

/-! ### Paying -/

section Pay

variable {caller addr : Address} {value : Int}

variable (s addr)

theorem canTransfer_reads (amount : Int) : Reads rights s (canTransfer s addr amount).2 := .object s addr

theorem canTransfer_eq (amount : Int) : (canTransfer s addr amount).1 = decide (amount ≤ s.ledger.balance addr) := by
  rw [← s.getBalance_eq addr]
  rfl

theorem affordable_reads (value : Int) : Reads rights s (affordable s addr value).2 := by
  simp only [affordable]
  split
  · exact .refl s
  · exact canTransfer_reads s addr value

variable {s addr}

theorem le_of_affordable (h : (affordable s addr value).1 = true) (hvalue : value ≠ 0) :
    value ≤ s.ledger.balance addr := by
  rw [affordable, if_neg hvalue, canTransfer_eq] at h
  exact of_decide_eq_true h

variable (hstatic : rights.static = true → value = 0) (hsign : rights.checked = true → 0 ≤ value)

include hstatic hsign

variable (hbalance : value ≠ 0 → value ≤ s.ledger.balance caller)

include hbalance

theorem effect_transfer : Effect rights [] s (transfer s caller addr value) := by
  simp only [transfer]
  split
  · exact .refl s
  · rename_i hvalue
    have hwrites : rights.static = false := by
      rw [← Bool.not_eq_true]
      exact fun hread => hvalue (hstatic hread)
    exact .act (.transfer hwrites hsign (hbalance hvalue) addr)

/-- The account is created only if it is not there, and the caller has by then what it had before. -/
theorem effect_pay {exist : Bool}
    (hexist : exist = (s.ledger addr).isSome) : Effect rights [] s (pay s exist caller addr value) := by
  simp only [pay]
  split
  · exact effect_transfer hstatic hsign hbalance
  · rename_i hfound
    have habsent : s.ledger addr = none := by
      rw [hexist] at hfound
      exact Option.isSome_eq_false_iff.mp (Bool.eq_false_iff.mpr hfound) |> Option.isNone_iff_eq_none.mp
    have hcreate : Effect rights [] s (s.createAccount addr) := .mild (.createAccount addr) habsent
    refine hcreate.before (effect_transfer hstatic hsign fun hvalue => ?_)
    have hsame : (s.createAccount addr).ledger.balance = s.ledger.balance := by
      refine (congrArg Ledger.balance (s.ledger_step (.createAccount addr) rfl)).trans ?_
      exact Ledger.balance_step rfl
    rw [hsame]
    exact hbalance hvalue

end Pay

theorem exist_isSome (s : TxState) (addr : Address) : (s.exist addr).1 = ((s.exist addr).2.ledger addr).isSome := by
  have hreads : Reads ⟨false, false, 0⟩ s (s.exist addr).2 := .object s addr
  rw [hreads.ledger, s.exist_eq addr]
  exact (Option.isSome_map ..).symm

theorem code_loaded (addr : Address) : (s.getCode addr).1 = (s.getCode addr).2.ledger.code addr := by
  have hreads : Reads ⟨false, false, 0⟩ s (s.getCode addr).2 := .object s addr
  rw [hreads.ledger, s.getCode_eq addr]

/-! ### Calls -/

section Calls

variable {gas left : Nat} {r : FrameResult}

theorem within_refused (err : VmError) (hleft : left ≤ gas) (h : Effect rights [] s t) :
    (refused err left t).Within rights gas s :=
  ⟨hleft, (Nat.zero_add left).trans_le (hleft.trans (Nat.le_succ gas)), h⟩

theorem settled_refused {err : VmError} (hleft : left ≤ gas) (h : Reads rights s t) :
    (refused err left t).Settled rights gas s :=
  ⟨within_refused err hleft h.effect, fun _ _ => h.world⟩

theorem within_silent (h : Effect rights [] s t) : Within rights gas s ⟨[], none, gas, t, []⟩ :=
  ⟨Nat.le_refl gas, (Nat.zero_add gas).trans_le (Nat.le_succ gas), h⟩

theorem settled_silent (h : Effect rights [] s t) :
    Settled rights gas s ⟨[], none, gas, t, []⟩ := ⟨within_silent h, nofun⟩

theorem within_runPrecompile {p : Precompile} (input : Bytes) (gas : Nat) (h : Effect rights [] s t) :
    (runPrecompile p input gas t).Within rights gas s := by
  simp only [runPrecompile]
  split
  · exact within_refused _ (Nat.zero_le gas) h
  · refine ⟨Nat.sub_le _ _, ?_, h⟩
    change 0 + (gas - p.requiredGas input) ≤ gas + 1
    omega

theorem FrameResult.Within.called {addr : Address} (h : r.Within (rights.of addr) gas s) (hcode : s.ledger.code addr ≠ []) :
    r.Within rights gas s :=
  ⟨h.gas, h.executed, .called hcode h.effect⟩

theorem FrameResult.Within.created {addr : Address} (h : r.Within (rights.of addr) gas (founded s addr))
    (hstatic : rights.static = false) (hnonce : s.ledger.nonce addr = 0) : r.Within rights gas s :=
  ⟨h.gas, h.executed, .created hstatic hnonce h.effect⟩

theorem FrameResult.Within.after (h : r.Within rights gas t)
    (hst : Effect rights [] s t) : r.Within rights gas s := ⟨h.gas, h.executed, hst.before h.effect⟩

theorem FrameResult.Settled.after (h : r.Settled rights gas t) (hst : Reads rights s t) : r.Settled rights gas s :=
  ⟨h.toWithin.after hst.effect, fun herr hs => (h.failed herr (hst.effect.sane hs)).trans hst.world⟩

/-- The end of a call: the frame ran after the snapshot. -/
theorem ends_settle {D : Prop} (h : r.Within rights gas s.snapshot.2) :
    (settle s.snapshot.1 r).Ends (Settled rights gas s) D := by
  simp only [settle]
  cases herr : r.err with
  | none =>
    refine ⟨⟨h.gas, h.executed, .kept h.effect⟩, fun hfailed => ?_⟩
    rw [herr] at hfailed
    cases hfailed
  | some err =>
    have hu := h.effect.reaches.returned
    simp only [hu]
    have hgas : (if err = .executionReverted then r.gas else 0) ≤ r.gas := by
      split
      · exact Nat.le_refl _
      · exact Nat.zero_le _
    exact ⟨⟨hgas.trans h.gas, (Nat.add_le_add_left hgas _).trans h.executed, .returned h.effect hu⟩,
      fun _ hs => h.effect.world_returned hu hs⟩

section Runner

variable {env : Env} {run : Runner} {rounds : Nat} (hrun : run.Keeps rights rounds) (depth : Nat)
  {readOnly : Bool} (hread : rights.static = true → readOnly = true) {gas : Nat} (hgas : gas < 2 ^ 64)

include hrun hread hgas

/-- A frame acts for the account whose code it is, unless it acts for the caller. -/
theorem ends_run {c : Contract} (hc : c.address = rights.self ∨ c.code = t.ledger.code c.address)
    (hst : Effect rights [] s.snapshot.2 t) :
    (do
      let r ← run depth readOnly c gas t
      settle s.snapshot.1 r).Ends (Settled rights gas s) (rounds ≤ gas) := by
  by_cases hcode : c.code = []
  · rw [hrun.silent depth readOnly c gas t hcode]
    exact ends_settle (within_silent hst)
  · refine (hrun.within depth readOnly c gas t hgas hread).bind fun r hr => ends_settle (Within.after ?_ hst)
    rcases hc with hself | hcalled
    · rw [hself] at hr
      exact hr
    · rw [hcalled] at hcode
      exact hr.called hcode

theorem ends_call (caller addr : Address) (input : Bytes) {value : Int} (hstatic : rights.static = true → value = 0)
    (hsign : rights.checked = true → 0 ≤ value) :
    (call env run depth readOnly caller addr input gas value s).Ends (Settled rights gas s) (rounds ≤ gas) := by
  simp only [call]
  split
  · exact settled_refused (Nat.le_refl gas) (.refl s)
  · have henough : Reads rights s (affordable s caller value).2 := affordable_reads s caller value
    have hbalance := @le_of_affordable s caller value
    split
    · exact settled_refused (Nat.le_refl gas) henough
    · rename_i haffordable
      split
      · exact settled_refused (Nat.le_refl gas) henough
      · rw [Bool.not_eq_true, Bool.not_eq_false'] at haffordable
        have hbalance := hbalance haffordable
        rw [← henough.ledger] at hbalance
        generalize (affordable s caller value).2 = s₁ at henough hbalance ⊢
        have hexist : Reads rights s₁.snapshot.2 (s₁.snapshot.2.exist addr).2 := .object _ addr
        have hbalance : value ≠ 0 → value ≤ (s₁.snapshot.2.exist addr).2.ledger.balance caller := by
          rw [hexist.ledger]
          exact hbalance
        have hpay := hexist.effect.before (effect_pay hstatic hsign hbalance (exist_isSome s₁.snapshot.2 addr))
        refine Outcome.Ends.mono (P := Settled rights gas s₁) ?_ (fun r hr => hr.after henough) id
        split
        · exact ends_settle (within_runPrecompile input gas hpay)
        · split
          · exact settled_silent (.kept hexist.effect)
          · have hcode := hpay.before (Reads.object _ addr).effect
            split
            · exact settled_silent (.kept hcode)
            · exact ends_run hrun depth hread hgas (.inr (code_loaded addr)) hcode

theorem ends_runCode (addr : Address) (input : Bytes) {frame : Bytes → Contract}
    (hframe : ∀ code, (frame code).address = rights.self ∨ (frame code).address = addr ∧ (frame code).code = code) :
    (runCode env run depth readOnly addr input gas frame s).Ends (Settled rights gas s) (rounds ≤ gas) := by
  simp only [runCode]
  split
  · exact ends_settle (within_runPrecompile input gas (.refl _))
  · refine ends_run hrun depth hread hgas ?_ (Reads.object _ addr).effect
    rcases hframe (s.snapshot.2.getCode addr).1 with hself | ⟨haddr, hcode⟩
    · exact .inl hself
    · rw [haddr, hcode]
      exact .inr (code_loaded addr)

theorem ends_callCode {caller : Address} (hcaller : caller = rights.self) (addr : Address) (input : Bytes) (value : Int) :
    (callCode env run depth readOnly caller addr input gas value s).Ends (Settled rights gas s) (rounds ≤ gas) := by
  simp only [callCode]
  split
  · exact settled_refused (Nat.le_refl gas) (.refl s)
  · have henough : Reads rights s (affordable s caller value).2 := affordable_reads s caller value
    split
    · exact settled_refused (Nat.le_refl gas) henough
    · exact (ends_runCode hrun depth hread hgas addr input fun _ => .inl hcaller).mono (fun r hr => hr.after henough) id

theorem ends_delegateCall {parent : Contract} (hparent : parent.address = rights.self) (addr : Address) (input : Bytes) :
    (delegateCall env run depth readOnly parent addr input gas s).Ends (Settled rights gas s) (rounds ≤ gas) := by
  simp only [delegateCall]
  split
  · exact settled_refused (Nat.le_refl gas) (.refl s)
  · exact ends_runCode hrun depth hread hgas addr input fun _ => .inl hparent

omit hread in
theorem ends_staticCall (caller addr : Address) (input : Bytes) :
    (staticCall env run depth caller addr input gas s).Ends (Settled rights gas s) (rounds ≤ gas) := by
  simp only [staticCall]
  split
  · exact settled_refused (Nat.le_refl gas) (.refl s)
  · exact ends_runCode hrun depth (fun _ => rfl) hgas addr input fun _ => .inr ⟨rfl, rfl⟩

end Runner

end Calls

/-! ### Creations -/

section Creations

variable {op : OpCode} {creator : Address}

variable {refusal : Prop} {caller : Address} {value : Int}

theorem created_refused (hrefusal : refusal) {err : VmError} {gas : Nat} (h : Reads rights s t) :
    (refused err gas t).Created rights op creator refusal gas s :=
  ⟨Nat.le_refl gas, (Nat.zero_add gas).trans_le (Nat.le_succ gas), h.effect.labelled op, fun _ _ => .inl h.world,
    .inl ⟨hrefusal, h⟩⟩

theorem FrameResult.Created.after {refusal' : Prop} {gas : Nat} {r : FrameResult}
    (h : r.Created rights op creator refusal gas t) (hst : Reads rights s t) (hrefusal : refusal → refusal') :
    r.Created rights op creator refusal' gas s := by
  have hraised : raised t creator = raised s creator := by
    rw [raised, raised, hst.ledger, hst.world]
  refine ⟨h.gas, h.executed, hst.effect.before h.effect, fun herr hs => ?_, ?_⟩
  · rcases h.failed herr (hst.effect.sane hs) with hsame | hsame
    · exact .inl (hsame.trans hst.world)
    · exact .inr (hsame.trans hraised)
  · rcases h.steps with ⟨hrefused, hreads⟩ | ⟨mid, hmid, hsane, hrest⟩
    · exact .inl ⟨hrefusal hrefused, hst.trans hreads⟩
    · exact .inr ⟨mid, hmid.trans hraised, fun hs => hsane (hst.effect.sane hs), hrest⟩

theorem within_deploy (hstatic : rights.static = false) {gas : Nat} {r : FrameResult}
    (h : r.Within rights gas s) : (deploy rights.self r).Within rights gas s := by
  simp only [deploy]
  split
  · exact h
  · split
    · exact ⟨h.gas, h.executed, h.effect⟩
    · split
      · exact ⟨h.gas, h.executed, h.effect⟩
      · split
        · exact ⟨h.gas, h.executed, h.effect⟩
        · have hexecuted := h.executed
          refine ⟨(Nat.sub_le _ _).trans h.gas, ?_, h.effect.trans (.act (.install hstatic r.ret))⟩
          change r.executed.length + (r.gas - _) ≤ _
          omega

theorem occupied_reads (env : Env) (s : TxState) (addr : Address) : Reads rights s (occupied env s addr).2 :=
  (Reads.object s addr).trans (.object _ addr)

theorem nonce_of_occupied {env : Env} {addr : Address} (h : (occupied env s addr).1 = false) :
    s.ledger.nonce addr = 0 := by
  have hreads : Reads ⟨false, false, 0⟩ s (getCodeHash env.keccak s addr).2 := .object s addr
  simp only [occupied, Bool.or_eq_false_iff, decide_eq_false_iff_not, ne_eq, not_not, TxState.getNonce_eq] at h
  rw [← hreads.ledger]
  exact h.1

theorem effect_endow (hstatic : rights.static = false) {addr : Address}
    (hsign : rights.checked = true → 0 ≤ value) (hbalance : value ≤ s.ledger.balance creator) :
    Effect rights [] (founded s addr) (endow s creator addr value) := by
  refine effect_transfer (fun h => ?_) hsign fun _ => ?_
  · rw [hstatic] at h
    cases h
  · rw [ledger_founded, Ledger.balance_step rfl, Ledger.balance_step rfl]
    exact hbalance

theorem effect_bump (hstatic : rights.static = false) (hop : op = .create ∨ op = .create2)
    (hcreator : creator = rights.self) (s : TxState) :
    Effect rights [op] s ((s.getNonce creator).2.setNonce creator (((s.getNonce creator).1 + 1) % 2 ^ 64)) ∧
      ((s.getNonce creator).2.setNonce creator (((s.getNonce creator).1 + 1) % 2 ^ 64)).world = raised s creator := by
  have hreads : Reads rights s (s.getNonce creator).2 := .object s creator
  rw [s.getNonce_eq creator]
  refine ⟨hcreator ▸ .act (.bump hstatic hop), ?_⟩
  rw [TxState.world_setNonce, hreads.world, hreads.ledger]
  rfl

variable {env : Env} {run : Runner} {rounds : Nat} (hrun : run.Keeps rights rounds) (depth : Nat)
  {readOnly : Bool} (hread : rights.static = true → readOnly = true) {gas : Nat} (hgas : gas < 2 ^ 64)
  (hstatic : rights.static = false) (hcaller : caller = rights.self) (code : Bytes)
  (hsign : rights.checked = true → 0 ≤ value)

include hrun hread hgas hstatic hcaller hsign

theorem ends_createAt (hop : op = .create ∨ op = .create2) {addr : Address} :
    (createAt env run depth readOnly caller code gas value addr s).Ends
      (fun r => r.2.Created rights op caller (Refuses env depth caller value s) gas s) (rounds ≤ gas) := by
  simp only [createAt]
  split
  · rename_i hdepth
    exact created_refused (.inl hdepth) (.refl s)
  · have henough : Reads rights s (canTransfer s caller value).2 := canTransfer_reads s caller value
    have hbalance := canTransfer_eq s caller value
    split
    · rename_i hpoor
      rw [hbalance, Bool.not_eq_true', decide_eq_false_iff_not, Int.not_le] at hpoor
      exact created_refused (.inr (.inl hpoor)) henough
    · rename_i htransfer
      split
      · rename_i hreadOnly
        exact created_refused (.inr (.inr (.inl hreadOnly))) henough
      · rw [Bool.not_eq_true, Bool.not_eq_false'] at htransfer
        rw [htransfer, ← henough.ledger] at hbalance
        generalize (canTransfer s caller value).2 = s₁ at henough hbalance ⊢
        obtain ⟨hbump, hraised⟩ := effect_bump hstatic hop hcaller s₁
        have hbalance : value ≤ (raised s₁ caller).ledger.balance caller := by
          rw [balance_raised]
          exact of_decide_eq_true hbalance.symm
        rw [← hraised] at hbalance
        refine Outcome.Ends.mono (P := fun r => r.2.Created rights op caller (Refuses env depth caller value s) gas s₁) ?_
          (fun r hr => hr.after henough id) id
        generalize (s₁.getNonce caller).2.setNonce caller (((s₁.getNonce caller).1 + 1) % 2 ^ 64) = s₂ at *
        have hasked : ∀ rights, Reads rights s₂ (occupied env s₂ addr).2 := fun _ => occupied_reads env s₂ addr
        have hnonce := @nonce_of_occupied s₂ env addr
        split
        · refine ⟨Nat.zero_le gas, Nat.zero_le _, hbump.trans (hasked rights).effect, fun _ _ => ?_, .inr ?_⟩
          · exact .inr ((hasked rights).world.trans hraised)
          · exact ⟨s₂, hraised, hbump.sane, fun self => (hasked (rights.of self)).effect⟩
        · rename_i hfree
          have hnonce := hnonce (Bool.eq_false_iff.mpr hfree)
          have hbalance : value ≤ s₂.ledger.balance caller := hbalance
          rw [← (hasked rights).ledger] at hnonce hbalance
          generalize (occupied env s₂ addr).2 = s₃ at hasked hnonce hbalance ⊢
          have hendow : Effect (rights.of addr) [] (founded s₃.snapshot.2 addr) (endow s₃.snapshot.2 caller addr value) :=
            @effect_endow (rights.of addr) s₃.snapshot.2 caller value hstatic addr hsign hbalance
          refine (hrun.within depth readOnly _ gas _ hgas hread).bind fun r hr => ?_
          have hdeployed : (deploy addr r).Within (rights.of addr) gas (founded s₃.snapshot.2 addr) :=
            @within_deploy (rights.of addr) _ hstatic gas r (hr.after hendow)
          -- whoever acts when the account is created, the end is the same
          have hends : ∀ self, (settle s₃.snapshot.1 (deploy addr r)).Ends
              (Settled (rights.of self) gas s₃) False := fun self =>
            ends_settle (@Within.created (rights.of self) _ gas _ addr hdeployed hstatic hnonce)
          obtain ⟨r', hr', hall⟩ := Outcome.Ends.exists_ok_forall hends not_false
          have hsettled := hall rights.self
          rw [hr']
          refine ⟨hsettled.gas, hsettled.executed, hbump.trans ((hasked rights).effect.before hsettled.effect),
            fun herr hs => ?_, .inr ⟨s₂, hraised, hbump.sane, fun self => ?_⟩⟩
          · have hsane := (hasked rights).effect.sane (hbump.sane hs)
            exact .inr ((hsettled.failed herr hsane).trans ((hasked rights).world.trans hraised))
          · exact (hasked (rights.of self)).effect.before (hall self).effect

theorem ends_create :
    (create env run depth readOnly caller code gas value s).Ends
      (fun r => r.2.Created rights .create caller (Refuses env depth caller value s) gas s) (rounds ≤ gas) := by
  have hnonce : Reads rights s (s.getNonce caller).2 := .object s caller
  simp only [create]
  rw [s.getNonce_eq caller]
  split
  · rename_i hwraps
    exact created_refused (.inr (.inr (.inr hwraps))) hnonce
  · refine (ends_createAt hrun depth hread hgas hstatic hcaller code hsign (.inl rfl)).mono
      (fun r hr => hr.after hnonce fun hrefuses => ?_) id
    rw [Refuses, hnonce.ledger] at hrefuses
    exact hrefuses

theorem ends_create2 (salt : Word) :
    (create2 env run depth readOnly caller code gas value salt s).Ends
      (fun r => r.2.Created rights .create2 caller (Refuses env depth caller value s) gas s) (rounds ≤ gas) :=
  ends_createAt hrun depth hread hgas hstatic hcaller code hsign (.inr rfl)

end Creations

end PadiChain.Evm

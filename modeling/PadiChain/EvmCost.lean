import PadiChain.EvmFrames
import PadiChain.EvmRange

/-! What an instruction costs at least. Every instruction that does not end its frame costs something, and a call or
creation more than it hands on beyond the caller's gas: the stipend, and one instruction of the nested frame. -/

namespace PadiChain.Evm

open State (TxState TxOp gasWarmStorageRead gasColdSloadCost gasCallStipend sstoreGas)
open Command Vm

variable {a b c base : Nat}

theorem safeAdd_lt (h : safeAdd a b = some c) : c < 2 ^ 64 := by
  simp only [safeAdd] at h
  split at h
  · cases h
  · cases h
    exact Nat.mod_lt _ (by decide)

theorem safeMul_lt (h : safeMul a b = some c) : c < 2 ^ 64 := by
  simp only [safeMul] at h
  split at h
  · cases h
    decide
  · split at h
    · cases h
    · cases h
      exact Nat.mod_lt _ (by decide)

theorem sstoreGas_bounds {original current value : Hash} {cold : Bool} :
    gasWarmStorageRead ≤ (sstoreGas original current value cold).1 ∧
      (sstoreGas original current value cold).1 < 2 ^ 64 := by
  have hsurcharge : (if cold then gasColdSloadCost else 0) ≤ gasColdSloadCost := by
    cases cold <;> decide
  simp only [sstoreGas]
  generalize (if cold then gasColdSloadCost else 0) = surcharge at hsurcharge
  have hbounds : ∀ cost, gasWarmStorageRead ≤ cost → cost < 2 ^ 32 →
      gasWarmStorageRead ≤ surcharge + cost ∧ surcharge + cost < 2 ^ 64 := by
    intro cost hleast hmost
    have hcold : gasColdSloadCost < 2 ^ 32 := by decide
    omega
  split
  · exact hbounds _ (Nat.le_refl _) (by decide)
  · split
    · split
      all_goals exact hbounds _ (by decide) (by decide)
    · exact hbounds _ (Nat.le_refl _) (by decide)

/-- What an instruction is charged at least by its operands and the access list. -/
def OpCode.dynamicFloor (stack : List Word) : OpCode → Nat
  | .balance | .extcodesize | .extcodehash | .extcodecopy | .sload | .sstore | .delegatecall | .staticcall =>
    gasWarmStorageRead
  | .call | .callcode => if stack.getD 2 0 = 0 then gasWarmStorageRead else gasCallValue
  | _ => 0

section Dynamic

variable {rights : Rights} {m : Machine}
  {Q : Nat → Machine → Prop} {R : VmError → Machine → Prop} {D : Prop}

theorem wp_state {α : Type} {Q : α → Machine → Prop} (f : TxState → α × TxState) :
    wp (state f) Q R D m ↔ Q (f m.state).1 { m with state := (f m.state).2 } := Iff.rfl

theorem wp_modifyState {Q : Unit → Machine → Prop} (f : TxState → TxState) :
    wp (modifyState f) Q R D m ↔ Q () { m with state := f m.state } := Iff.rfl

variable (rights) in
theorem wp_accountAccessGas (addr : Address)
    (hQ : ∀ gas s, Effect rights [] m.state s → gasWarmStorageRead ≤ gas → gas ≤ gasColdAccountAccess →
      Q gas { m with state := s }) :
    wp (accountAccessGas addr) Q R D m := by
  rw [accountAccessGas, wp_bind, wp_get, wp_ite]
  refine ⟨fun _ => ?_, fun _ => ?_⟩
  · exact hQ _ m.state (.refl _) (Nat.le_refl _) (by decide)
  · rw [wp_bind, wp_modifyState]
    exact hQ _ _ (.mild (.addAddressToAccessList addr) trivial) (by decide) (Nat.le_refl _)

variable (rights) in
theorem wp_coldAccessGas {addr : Address}
    (hQ : ∀ gas s, Effect rights [] m.state s → gas ≤ gasColdAccountAccess → Q gas { m with state := s }) :
    wp (coldAccessGas addr) Q R D m := by
  rw [coldAccessGas, wp_bind, wp_get, wp_ite]
  refine ⟨fun _ => ?_, fun _ => ?_⟩
  · exact hQ _ m.state (.refl _) (Nat.zero_le _)
  · rw [wp_bind, wp_modifyState]
    exact hQ _ _ (.mild (.addAddressToAccessList addr) trivial) (Nat.le_refl _)

theorem wp_wordCopyGas {size : Word} (hQ : ∀ gas, gas < 2 ^ 64 → Q gas m) (hR : ∀ e, R e m) :
    wp (wordCopyGas size) Q R D m := by
  rw [wordCopyGas, wp_ite, wp_ite, wp_orThrow]
  exact ⟨fun _ => hQ 0 (by decide), fun _ => ⟨fun _ => hR _, fun _ => ⟨fun gas hgas => hQ gas (safeMul_lt hgas), fun _ => hR _⟩⟩⟩

theorem wp_initCodeGas {hashed : Bool} (h : 2 < m.stack.length) (hQ : ∀ gas, gas < 2 ^ 64 → Q gas m) (hR : ∀ e, R e m) :
    wp (initCodeGas hashed) Q R D m := by
  rw [initCodeGas, wp_bind, wp_back h, wp_ite]
  refine ⟨fun _ => hR _, fun _ => ?_⟩
  rw [wp_ite]
  refine ⟨fun _ => hR _, fun _ => ?_⟩
  rw [wp_bind, wp_orThrow]
  refine ⟨fun initGas hinit => ?_, fun _ => hR _⟩
  rw [wp_ite]
  refine ⟨fun _ => ?_, fun _ => hQ _ (safeMul_lt hinit)⟩
  rw [wp_bind, wp_orThrow]
  refine ⟨fun hashGas _ => ?_, fun _ => hR _⟩
  rw [wp_orThrow]
  exact ⟨fun gas hgas => hQ gas (safeAdd_lt hgas), fun _ => hR _⟩

theorem wp_logDynamicGas {topics : Nat} (h : 1 < m.stack.length) (hQ : ∀ gas, gas < 2 ^ 64 → Q gas m)
    (hR : ∀ e, R e m) : wp (logDynamicGas topics) Q R D m := by
  rw [logDynamicGas, wp_bind, wp_back h, wp_ite]
  refine ⟨fun _ => hR _, fun _ => ?_⟩
  rw [wp_bind, wp_orThrow]
  refine ⟨fun byteGas _ => ?_, fun _ => hR _⟩
  rw [wp_bind, wp_orThrow]
  refine ⟨fun topicGas _ => ?_, fun _ => hR _⟩
  rw [wp_orThrow]
  exact ⟨fun gas hgas => hQ gas (safeAdd_lt hgas), fun _ => hR _⟩

theorem effect_bookRefund (hstatic : rights.static = false) {refund : Int} {s : TxState} :
    Effect rights [] s (bookRefund refund s) := by
  simp only [bookRefund]
  split
  · exact .store (.addRefund _) hstatic rfl
  · split
    · exact .store (.subRefund _) hstatic rfl
    · exact .refl s

theorem wp_sstoreDynamicGas (hstatic : rights.static = false) (c : Contract) (h : 2 ≤ m.stack.length)
    (hQ : ∀ gas s, Effect rights [] m.state s → gasWarmStorageRead ≤ gas → gas < 2 ^ 64 → Q gas { m with state := s }) :
    wp (sstoreDynamicGas c) Q R D m := by
  rw [sstoreDynamicGas, wp_bind, wp_back (by omega), wp_bind, wp_back (by omega), wp_bind, accessSlot, wp_state, wp_bind,
    wp_state, wp_bind, wp_state, wp_bind, wp_modifyState, wp_pure]
  obtain ⟨hleast, hmost⟩ := sstoreGas_bounds
  refine hQ _ _ ?_ hleast hmost
  have hslot : Effect rights [] m.state (m.state.addSlotToAccessList c.address (m.stack.getD 0 0)) :=
    .mild (.addSlotToAccessList _ _) trivial
  have hcommitted := hslot.before (.mild (.getCommittedState c.address (m.stack.getD 0 0)) trivial)
  have hcurrent := hcommitted.before (.mild (.getState c.address (m.stack.getD 0 0)) trivial)
  exact hcurrent.before (effect_bookRefund hstatic)

/-- The value must be zero in a static frame, and costs more than the stipend otherwise. -/
theorem wp_callDynamicGas (readOnly : Bool) (h : 2 < m.stack.length)
    (hQ : ∀ gas s, Effect rights [] m.state s → (if m.stack.getD 2 0 = 0 then gasWarmStorageRead else gasCallValue) ≤ gas →
      gas < 2 ^ 64 → Q gas { m with state := s })
    (hR : ∀ e s, Effect rights [] m.state s → R e { m with state := s }) : wp (callDynamicGas readOnly) Q R D m := by
  rw [callDynamicGas, wp_bind, wp_back (by omega), wp_bind, wp_back h, wp_ite]
  refine ⟨fun _ => hR _ _ (.refl _), fun _ => ?_⟩
  rw [wp_bind]
  refine wp_accountAccessGas rights _ fun access s hs hleast hmost => ?_
  have haccess : access < 2 ^ 64 := hmost.trans_lt (by decide)
  rw [wp_ite]
  refine ⟨fun hzero => ?_, fun hvalue => ?_⟩
  · rw [if_pos hzero] at hQ
    exact hQ _ _ hs hleast haccess
  · rw [if_neg hvalue] at hQ
    rw [wp_bind, wp_orThrow]
    refine ⟨fun gas hgas => ?_, fun _ => hR _ _ hs⟩
    obtain ⟨rfl, hfits⟩ := safeAdd_eq_some haccess (by decide) hgas
    rw [wp_bind, wp_state, wp_ite]
    have hexist : Effect rights [] m.state (s.exist (m.stack.getD 1 0).toAddress).2 := hs.before (Reads.object _ _).effect
    refine ⟨fun _ => hQ _ _ hexist (Nat.le_add_left _ _) hfits, fun _ => ?_⟩
    rw [wp_orThrow]
    refine ⟨fun gas hgas => ?_, fun _ => hR _ _ hexist⟩
    obtain ⟨rfl, hfits⟩ := safeAdd_eq_some hfits (by decide) hgas
    exact hQ _ _ hexist (by omega) hfits

variable (rights) in
theorem wp_selfdestructDynamicGas (c : Contract) (h : 0 < m.stack.length)
    (hQ : ∀ gas s, Effect rights [] m.state s → gas < 2 ^ 64 → Q gas { m with state := s }) :
    wp (selfdestructDynamicGas c) Q R D m := by
  rw [selfdestructDynamicGas, wp_bind, wp_back h, wp_bind]
  refine wp_coldAccessGas rights fun access s hs haccess => ?_
  have hmost : access + gasNewAccount < 2 ^ 64 := (Nat.add_le_add_right haccess _).trans_lt (by decide)
  have hempty : Effect rights [] m.state (s.empty (m.stack.getD 0 0).toAddress).2 := hs.before (Reads.object _ _).effect
  rw [wp_bind, wp_state, wp_ite]
  refine ⟨fun _ => ?_, fun _ => hQ _ _ hempty (by omega)⟩
  refine hQ _ _ (hempty.before (Reads.object _ _).effect) ?_
  split <;> omega

/-- The dynamic cost is at least its floor, and the state is changed as by a read unless the frame may write. -/
theorem wp_dynamicGas {readOnly : Bool} (hread : rights.static = true → readOnly = true) (c : Contract) {op : OpCode}
    (h : op.stackRequirement.1 ≤ m.stack.length)
    (hQ : ∀ gas s, Effect rights [] m.state s → op.dynamicFloor m.stack ≤ gas → gas < 2 ^ 64 → Q gas { m with state := s })
    (hR : ∀ e s, Effect rights [] m.state s → R e { m with state := s }) : wp (dynamicGas c readOnly op) Q R D m := by
  have hi : ∀ {i : Nat}, i < op.stackRequirement.1 → i < m.stack.length := fun hi => hi.trans_le h
  have hR' : ∀ e, R e m := fun e => hR e m.state (.refl _)
  have hfree : op.dynamicFloor m.stack = 0 → ∀ gas, gas < 2 ^ 64 → Q gas m := fun hfloor gas hgas =>
    hQ gas m.state (.refl _) (hfloor ▸ Nat.zero_le gas) hgas
  have haccess : op.dynamicFloor m.stack = gasWarmStorageRead → ∀ addr, wp (accountAccessGas addr) Q R D m := by
    intro hfloor addr
    refine wp_accountAccessGas rights addr fun gas s hs hleast hmost => ?_
    exact hQ gas s hs (hfloor.trans_le hleast) (hmost.trans_lt (by decide))
  have hwrites : ∀ {d : Vm Nat}, (rights.static = false → wp d Q R D m) → wp (unlessReadOnly readOnly d) Q R D m := by
    intro d hd
    rw [unlessReadOnly, wp_ite]
    refine ⟨fun _ => hR' _, fun hreadOnly => hd ?_⟩
    rw [← Bool.not_eq_true]
    exact fun hrights => hreadOnly (hread hrights)
  cases op with
  | keccak256 =>
    rw [dynamicGas, wp_bind, wp_back (hi (by decide)), wp_ite, wp_orThrow]
    exact ⟨fun _ => hR' _, fun _ => ⟨fun gas hgas => hfree rfl gas (safeMul_lt hgas), fun _ => hR' _⟩⟩
  | calldatacopy | codecopy | returndatacopy | mcopy =>
    rw [dynamicGas, wp_bind, wp_back (hi (by decide))]
    exact wp_wordCopyGas (hfree rfl) hR'
  | extcodecopy =>
    rw [dynamicGas, wp_bind, wp_back (hi (by decide)), wp_bind]
    refine wp_wordCopyGas (fun copyGas hcopy => ?_) hR'
    rw [wp_bind, wp_back (hi (by decide)), wp_bind]
    refine wp_accountAccessGas rights _ fun access s hs hleast hmost => ?_
    rw [wp_orThrow]
    refine ⟨fun gas hgas => ?_, fun _ => hR _ _ hs⟩
    obtain ⟨rfl, hfits⟩ := safeAdd_eq_some hcopy (hmost.trans_lt (by decide)) hgas
    exact hQ _ s hs (hleast.trans (Nat.le_add_left _ _)) hfits
  | balance | extcodesize | extcodehash | delegatecall | staticcall =>
    rw [dynamicGas, wp_bind, wp_back (hi (by decide))]
    exact haccess rfl _
  | exp =>
    rw [dynamicGas, wp_bind, wp_back (hi (by decide)), wp_ite, wp_orThrow]
    exact ⟨fun _ => hfree rfl 0 (by decide), fun _ => ⟨fun gas hgas => hfree rfl gas (safeMul_lt hgas), fun _ => hR' _⟩⟩
  | sload =>
    rw [dynamicGas, wp_bind, wp_back (hi (by decide)), wp_bind, accessSlot, wp_state]
    refine hQ _ _ (.mild (.addSlotToAccessList _ _) trivial) ?_ ?_
    · change gasWarmStorageRead ≤ _
      split <;> decide
    · split <;> decide
  | sstore =>
    refine hwrites fun hstatic => ?_
    rw [wp_bind, wp_get, wp_ite]
    refine ⟨fun _ => hR' _, fun _ => ?_⟩
    exact wp_sstoreDynamicGas hstatic c h fun gas s hs hleast hmost => hQ gas s hs hleast hmost
  | tstore => exact hwrites fun _ => hfree rfl 0 (by decide)
  | log n => exact hwrites fun _ => wp_logDynamicGas (hi (Nat.succ_lt_succ (Nat.succ_pos _))) (hfree rfl) hR'
  | create | create2 => exact hwrites fun _ => wp_initCodeGas (hi (by decide)) (hfree rfl) hR'
  | call => exact wp_callDynamicGas readOnly (hi (by decide)) hQ hR
  | callcode =>
    rw [dynamicGas, wp_bind, wp_back (hi (by decide)), wp_bind]
    refine wp_accountAccessGas rights _ fun access s hs hleast hmost => ?_
    have haccess : access < 2 ^ 64 := hmost.trans_lt (by decide)
    rw [wp_bind]
    refine (wp_back ?_).mpr ?_
    · exact hi (by decide)
    rw [wp_ite, wp_orThrow]
    simp only [OpCode.dynamicFloor] at hQ
    refine ⟨fun hzero => ?_, fun hvalue => ⟨fun gas hgas => ?_, fun _ => hR _ _ hs⟩⟩
    · rw [if_pos hzero] at hQ
      exact hQ _ s hs hleast haccess
    · rw [if_neg hvalue] at hQ
      obtain ⟨rfl, hfits⟩ := safeAdd_eq_some haccess (by decide) hgas
      exact hQ _ s hs (Nat.le_add_left _ _) hfits
  | selfdestruct =>
    refine hwrites fun _ => wp_selfdestructDynamicGas rights c (hi (by decide)) fun gas s hs hgas => ?_
    exact hQ gas s hs (Nat.zero_le _) hgas
  | _ => exact hfree rfl 0 (by decide)

end Dynamic

/-! ### The whole cost -/

/-- The gas and instructions that a nested frame may have beyond what the caller gives up. -/
def OpCode.allowance (stack : List Word) : OpCode → Nat
  | .create | .create2 | .delegatecall | .staticcall => 1
  | .call | .callcode => if stack.getD 2 0 = 0 then 1 else gasCallStipend + 1
  | _ => 0

def OpCode.isLast : OpCode → Bool
  | .stop | .return_ | .revert | .selfdestruct | .invalid => true
  | _ => false

/-- Every instruction that does not end the frame costs more than it allows. -/
theorem OpCode.allowance_le (op : OpCode) (stack : List Word) (h : op.baseGas = some base) :
    op.allowance stack + (if op.isLast then 0 else 1) ≤ base + op.dynamicFloor stack := by
  cases op with
  | undefined b => cases h
  | call | callcode =>
    cases h
    simp only [allowance, dynamicFloor]
    split <;> decide
  | _ =>
    cases h
    exact Nat.le_of_ble_eq_true rfl

theorem OpCode.baseGas_lt {op : OpCode} (h : op.baseGas = some base) : base < 2 ^ 64 := by
  cases op <;> cases h <;> decide

/-- What the cost of an instruction says once it is determined; the fee is the part that is for memory. -/
structure Machine.Priced (m : Machine) (op : OpCode) (cost size fee : Nat) : Prop where
  pops : op.stackRequirement.1 ≤ m.stack.length
  room : m.stack.length - op.stackRequirement.1 + op.stackRequirement.2 ≤ stackLimit
  covers : ∀ range ∈ op.ranges m.stack, Covers size range
  limit : size ≤ memoryLimit
  memory : memoryCost size ≤ m.memory.lastGasCost + fee
  cost : fee + op.allowance m.stack + (if op.isLast then 0 else 1) ≤ cost

def Machine.charged (m : Machine) (fee : Nat) (s : TxState) : Machine :=
  { m with memory := ⟨m.memory.store, m.memory.lastGasCost + fee⟩, state := s }

theorem wp_gasCost {rights : Rights} {m : Machine}
    {Q : Nat × Nat → Machine → Prop} {R : VmError → Machine → Prop} {D : Prop} {readOnly : Bool}
    (hread : rights.static = true → readOnly = true) (c : Contract) {op : OpCode}
    (hQ : ∀ cost size fee s, m.Priced op cost size fee → Effect rights [] m.state s → Q (cost, size) (m.charged fee s))
    (hR : ∀ e fee s, Effect rights [] m.state s → R e (m.charged fee s)) : wp (gasCost c readOnly op) Q R D m := by
  have hR' : ∀ e, R e m := fun e => hR e 0 m.state (.refl _)
  rw [gasCost, checkLimits, wp_bind, wp_bind, wp_get, wp_ite]
  refine ⟨fun _ => hR' _, fun hpops => ?_⟩
  rw [wp_ite]
  refine ⟨fun _ => hR' _, fun hroom => ?_⟩
  have hpops := Nat.le_of_not_lt hpops
  rw [wp_pure, wp_bind, wp_orThrow]
  refine ⟨fun base hbase => ?_, fun _ => hR' _⟩
  rw [wp_bind]
  refine wp_extent hpops (fun size hcovers => ?_) hR'
  rw [wp_bind, wp_get, wp_bind, wp_orThrow]
  refine ⟨fun priced hpriced => ?_, fun _ => hR' _⟩
  obtain ⟨fee, memory⟩ := priced
  obtain ⟨hstore, hlast, hfee, hlimit, hmemory⟩ := memoryGasCost_eq_some hpriced
  obtain rfl : memory = ⟨m.memory.store, m.memory.lastGasCost + fee⟩ := by
    rw [← hstore, ← hlast]
  rw [wp_bind, wp_modify, wp_bind, wp_orThrow]
  refine ⟨fun cost hcost => ?_, fun _ => hR _ fee m.state (.refl _)⟩
  obtain ⟨rfl, hfits⟩ := safeAdd_eq_some (OpCode.baseGas_lt hbase) hfee hcost
  rw [wp_bind]
  refine wp_dynamicGas hread c hpops (fun dynamic s hs hfloor hdynamic => ?_) fun e s hs => hR e fee s hs
  rw [wp_bind, wp_orThrow]
  refine ⟨fun cost hcost => ?_, fun _ => hR _ fee s hs⟩
  obtain ⟨rfl, -⟩ := safeAdd_eq_some hfits hdynamic hcost
  have hallowance := op.allowance_le m.stack hbase
  refine hQ _ size fee s ⟨hpops, Nat.le_of_not_lt hroom, hcovers, hlimit, hmemory, ?_⟩ hs
  have hfloor : op.dynamicFloor m.stack ≤ dynamic := hfloor
  omega

end PadiChain.Evm

import PadiChain.EvmExecute

/-! The loop of a frame. At every instruction the stack keeps its limit, the memory is paid for, and gas and
instructions together stay within the gas supplied, for every instruction that the frame goes on after has cost more
than it has handed on. Hence a frame ends before it has made more rounds than it has gas, and never panics. -/

namespace PadiChain.Evm

open State (TxState)
open Command Vm

variable {rights : Rights}

/-- What holds at every instruction of a frame that was given so much gas in a state. -/
structure Machine.Paid (rights : Rights) (supplied : Nat) (s : TxState) (m : Machine) : Prop where
  stack : m.stack.length ≤ stackLimit
  memory : memoryCost m.memory.store.length ≤ m.memory.lastGasCost
  length : m.memory.store.length ≤ memoryLimit
  gas : m.memory.lastGasCost + m.gas ≤ supplied
  executed : m.executed.length + m.gas ≤ supplied
  effect : Effect rights m.executed s m.state

/-- The stack keeps its limit, and the memory is paid for out of the gas supplied. -/
structure Machine.Bounded (supplied : Nat) (m : Machine) : Prop where
  stack : m.stack.length ≤ stackLimit
  memory : memoryCost m.memory.store.length + m.gas ≤ supplied

structure Machine.Ended (rights : Rights) (supplied : Nat) (s : TxState) (m : Machine) : Prop extends
    m.Bounded supplied where
  executed : m.executed.length + m.gas ≤ supplied + 1
  effect : Effect rights m.executed s m.state

namespace Machine

variable {supplied : Nat} {s : TxState} {m : Machine}

theorem paid_start (supplied : Nat) (s : TxState) : (start supplied s).Paid rights supplied s := by
  have hempty : memoryCost 0 ≤ 0 := by decide
  exact ⟨Nat.zero_le _, hempty, Nat.zero_le _, (Nat.zero_add supplied).le, (Nat.zero_add supplied).le, .refl s⟩

theorem Paid.bounded (h : m.Paid rights supplied s) : m.Bounded supplied :=
  ⟨h.stack, (Nat.add_le_add_right h.memory _).trans h.gas⟩

theorem Ended.within (h : m.Ended rights supplied s) (ret : Bytes) (err : Option VmError) :
    (m.result ret err).Within rights supplied s :=
  ⟨(Nat.le_add_left _ _).trans h.memory, h.executed, h.effect⟩

end Machine

theorem OpCode.isLast_of_halt {op : OpCode} {res : Bytes} (hvalid : op ≠ .invalid) (h : op.halt res = none) :
    op.isLast = false := by
  cases op with
  | invalid => exact absurd rfl hvalid
  | stop | return_ | revert | selfdestruct => cases h
  | _ => rfl

theorem lastGasCost_resize (m : Memory) (size : Nat) : (m.resize size).lastGasCost = m.lastGasCost := by
  rw [Memory.resize]
  split <;> rfl

theorem length_resize (m : Memory) (size : Nat) : (m.resize size).store.length = max m.store.length size := by
  rw [Memory.resize]
  split
  · simp only [List.length_append, List.length_replicate]
    omega
  · omega

theorem Machine.Priced.resize {m : Machine} {op : OpCode} {cost size fee : Nat} (h : m.Priced op cost size fee)
    (hpaid : memoryCost m.memory.store.length ≤ m.memory.lastGasCost) (hlength : m.memory.store.length ≤ memoryLimit) :
    memoryCost (max m.memory.store.length size) ≤ m.memory.lastGasCost + fee ∧
      max m.memory.store.length size ≤ memoryLimit := by
  refine ⟨?_, Nat.max_le.mpr ⟨hlength, h.limit⟩⟩
  rcases Nat.le_total m.memory.store.length size with hle | hle
  · rw [Nat.max_eq_right hle]
    exact h.memory
  · rw [Nat.max_eq_left hle]
    exact hpaid.trans (Nat.le_add_right _ _)

section Round

variable {env : Env} {run : Runner} {rounds : Nat} (hrun : run.Keeps rights rounds) (depth : Nat)
  {readOnly : Bool} (hread : rights.static = true → readOnly = true) {c : Contract} (hself : c.address = rights.self)
  {supplied : Nat} {s : TxState} {m : Machine}

variable (h : m.Paid rights supplied s)

include h

theorem Machine.Paid.ended_charged {op : OpCode} (fee : Nat) {s' : TxState} (hs' : Effect rights [] m.state s') :
    (({ m with executed := op :: m.executed } : Machine).charged fee s').Ended rights supplied s := by
  refine ⟨⟨h.stack, h.bounded.memory⟩, ?_, h.effect.trans (hs'.labelled op)⟩
  change m.executed.length + 1 + m.gas ≤ supplied + 1
  have := h.executed
  omega

include hrun hread hself

theorem wp_paidRound (hsupplied : supplied < 2 ^ 64) {op : OpCode}
    {cost size fee : Nat} (hpriced : m.Priced op cost size fee) (hcost : cost ≤ m.gas) {s' : TxState}
    (hs' : Effect rights [] m.state s') :
    wp (do
      let res ← execute env run depth readOnly c op
      next op res)
      (fun halt t => (halt = none → t.Paid rights supplied s ∧ t.gas < m.gas) ∧ t.Ended rights supplied s)
      (fun _ t => t.Ended rights supplied s) (rounds + 1 ≤ m.gas) { m with
        gas := m.gas - cost
        memory := (⟨m.memory.store, m.memory.lastGasCost + fee⟩ : Memory).resize size
        state := s'
        executed := op :: m.executed } := by
  obtain ⟨hmemory, hlimit⟩ := hpriced.resize h.memory h.length
  have hlength := length_resize ⟨m.memory.store, m.memory.lastGasCost + fee⟩ size
  have hlast := lastGasCost_resize ⟨m.memory.store, m.memory.lastGasCost + fee⟩ size
  generalize (⟨m.memory.store, m.memory.lastGasCost + fee⟩ : Memory).resize size = memory at hlength hlast ⊢
  have hlast : memory.lastGasCost = m.memory.lastGasCost + fee := hlast
  rw [← hlength] at hmemory hlimit
  have hsize : size ≤ memory.store.length := hlength ▸ Nat.le_max_right _ _
  have hfits : memoryLimit < 2 ^ 64 := by decide
  have hspent := hpriced.cost
  have hgas := h.gas
  have hexecuted := h.executed
  have hready : Machine.Ready op ⟨m.gas - cost, m.pc, m.stack, memory, m.returnData, s', op :: m.executed⟩ := by
    refine ⟨hpriced.pops, fun range hrange => (hpriced.covers range hrange).mono hsize, hlimit.trans_lt hfits, ?_⟩
    change m.gas - cost + op.allowance m.stack < 2 ^ 64
    omega
  rw [wp_bind]
  refine wp_mono (wp_execute hrun depth hread hself op hready) (fun res t ht => ?_) (fun e t ht => ?_) fun hrounds => ?_
  · obtain ⟨es, hes, hcount, heffect⟩ := ht.executed
    have hstack : t.stack.length + op.stackRequirement.1 = m.stack.length + op.stackRequirement.2 := ht.stack
    have hroom := hpriced.room
    have hcount : es.length + t.gas ≤ m.gas - cost + op.allowance m.stack := hcount
    have hrecord : t.executed.length = es.length + (m.executed.length + 1) := by
      rw [hes, List.length_append, List.length_cons]
    have hbounded : t.Bounded supplied := by
      refine ⟨by omega, ?_⟩
      rw [ht.memory.length]
      change memoryCost memory.store.length + t.gas ≤ supplied
      omega
    have htotal : Effect rights t.executed s t.state := by
      rw [hes, List.append_cons]
      exact h.effect.trans (hs'.before heffect)
    have hended : t.Ended rights supplied s := ⟨hbounded, by omega, htotal⟩
    simp only [next]
    cases hhalt : op.halt res with
    | some halt => exact ⟨nofun, hended⟩
    | none =>
      rw [OpCode.isLast_of_halt ht.valid hhalt] at hspent
      have hspent : fee + op.allowance m.stack + 1 ≤ cost := hspent
      refine ⟨fun _ => ⟨⟨hbounded.stack, ?_, ?_, ?_, ?_, htotal⟩, ?_⟩,
        ⟨⟨hbounded.stack, hbounded.memory⟩, hended.executed, htotal⟩⟩
      · change memoryCost t.memory.store.length ≤ t.memory.lastGasCost
        rw [ht.memory.length, ht.memory.lastGasCost]
        exact hlast ▸ hmemory
      · change t.memory.store.length ≤ memoryLimit
        rw [ht.memory.length]
        exact hlimit
      · change t.memory.lastGasCost + t.gas ≤ supplied
        rw [ht.memory.lastGasCost]
        change memory.lastGasCost + t.gas ≤ supplied
        omega
      · change t.executed.length + t.gas ≤ supplied
        omega
      · change t.gas < m.gas
        omega
  · have hleft : t.gas = m.gas - cost := ht.gas
    refine ⟨⟨ht.stack.trans h.stack, ?_⟩, ?_, ?_⟩
    · rw [ht.memory.length]
      change memoryCost memory.store.length + t.gas ≤ supplied
      omega
    · rw [ht.executed, List.length_cons]
      omega
    · rw [ht.executed]
      exact h.effect.trans ((hs'.before ht.effect).labelled op)
  · rw [hrounds.1] at hspent
    have hspent : fee + op.allowance m.stack + 1 ≤ cost := hspent
    have hrounds : rounds ≤ m.gas - cost + op.allowance m.stack := hrounds.2
    omega

/-- One round of the loop: the frame goes on with less gas, or it ends. -/
theorem wp_round (hsupplied : supplied < 2 ^ 64) :
    wp (round env run depth readOnly c)
      (fun halt t => (halt = none → t.Paid rights supplied s ∧ t.gas < m.gas) ∧ t.Ended rights supplied s)
      (fun _ t => t.Ended rights supplied s) (rounds + 1 ≤ m.gas) m := by
  rw [round, wp_ite]
  refine ⟨fun _ => ⟨h.bounded, h.executed.trans (Nat.le_succ _), h.effect⟩, fun _ => ?_⟩
  rw [wp_bind, wp_get, wp_bind, wp_modify, wp_bind]
  refine wp_gasCost hread c (fun cost size fee s' hpriced hs' => ?_) fun e fee s' hs' => h.ended_charged fee hs'
  rw [wp_bind, wp_get, wp_ite]
  refine ⟨fun _ => h.ended_charged fee hs', fun hcost => ?_⟩
  have hpriced : m.Priced (c.getOp m.pc) cost size fee := { hpriced with }
  exact wp_paidRound hrun depth hread hself h hsupplied hpriced (Nat.le_of_not_lt hcost) hs'

end Round

/-! ### Frames -/

section Frames

theorem frameOf_keeps {loop : Nat → Bool → Contract → Machine → Outcome Empty FrameResult} {rounds : Nat}
    (h : ∀ depth readOnly c gas s, gas < 2 ^ 64 → (rights.static = true → readOnly = true) →
      (loop depth readOnly c (.start gas s)).Ends (FrameResult.Within (rights.of c.address) gas s) (rounds ≤ gas)) :
    (frameOf loop).Keeps rights rounds where
  within depth readOnly c gas s hgas hread := by
    rw [frameOf]
    split
    · exact within_silent (.refl s)
    · exact h (depth + 1) readOnly c gas s hgas hread
  silent depth readOnly c gas s hcode := by
    rw [frameOf, if_pos hcode]

variable (env : Env) {rounds : Nat}

theorem ends_loop (depth : Nat) {readOnly : Bool} (hread : rights.static = true → readOnly = true) (c : Contract)
    {supplied : Nat} (hsupplied : supplied < 2 ^ 64) {s : TxState} {m : Machine}
    (h : m.Paid (rights.of c.address) supplied s) :
    (loop env rounds depth readOnly c m).Ends (FrameResult.Within (rights.of c.address) supplied s)
      (rounds ≤ m.gas) := by
  -- the rounds decrease from frame to nested frame and from round to round
  induction rounds generalizing depth readOnly c supplied s m with
  | zero => exact Nat.zero_le _
  | succ rounds ih =>
    have hkeeps : (frameOf (loop env rounds)).Keeps (rights.of c.address) rounds :=
      frameOf_keeps fun depth readOnly c gas s hgas hread =>
        ih depth hread c hgas (Machine.paid_start gas s)
    have hround : wp (round env (frameOf (loop env rounds)) depth readOnly c) _ _ _ m :=
      wp_round hkeeps depth hread rfl h hsupplied
    rw [loop]
    rw [wp] at hround
    split at hround
    · rename_i halt t hok
      rw [hok]
      cases halt with
      | none =>
        obtain ⟨hpaid, hless⟩ := hround.1 rfl
        exact (ih depth hread c hsupplied hpaid).mono (fun _ hr => hr) fun hrounds => Nat.lt_of_le_of_lt hrounds hless
      | some halt => exact hround.2.within _ _
    · rename_i e t herror
      rw [herror]
      exact hround.within _ _
    · exact hround.elim
    · rename_i hdiverge
      rw [hdiverge]
      exact hround

theorem run_keeps (env : Env) (rounds : Nat) (rights : Rights) : (run env rounds).Keeps rights rounds :=
  frameOf_keeps fun depth _ c gas s hgas hread => ends_loop env depth hread c hgas (Machine.paid_start gas s)

end Frames

end PadiChain.Evm

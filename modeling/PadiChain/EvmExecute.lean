import PadiChain.EvmCost

/-! What the execution of an instruction does, once its stack and gas are checked and its memory is there: it finds the
operands that it pops, leaves as many values as announced, and cuts nothing out of range. Gas comes back only from
nested frames, which keep to what they were given. -/

namespace PadiChain.Evm

open State (TxState TxOp gasCallStipend)
open Command Vm
open List hiding swap

variable {rights : Rights} {m t : Machine}

/-- What an instruction that runs no frame leaves. -/
structure Machine.Leaves (rights : Rights) (popped pushed : Nat) (m t : Machine) : Prop where
  stack : t.stack.length + popped = m.stack.length + pushed
  memory : m.memory.SameSize t.memory
  gas : t.gas = m.gas
  executed : t.executed = m.executed
  effect : Effect rights [] m.state t.state

/-- What an instruction leaves if the frame goes on or ends with it. -/
structure Machine.Executed (rights : Rights) (op : OpCode) (m t : Machine) : Prop where
  valid : op ≠ .invalid
  stack : t.stack.length + op.stackRequirement.1 = m.stack.length + op.stackRequirement.2
  memory : m.memory.SameSize t.memory
  gas : t.gas ≤ m.gas + op.allowance m.stack
  executed : ∃ es, t.executed = es ++ m.executed ∧ es.length + t.gas ≤ m.gas + op.allowance m.stack ∧
    Effect rights (es ++ [op]) m.state t.state

structure Machine.Failed (rights : Rights) (m t : Machine) : Prop where
  stack : t.stack.length ≤ m.stack.length
  memory : m.memory.SameSize t.memory
  gas : t.gas = m.gas
  executed : t.executed = m.executed
  effect : Effect rights [] m.state t.state

/-- What is known before the execution. -/
structure Machine.Ready (op : OpCode) (m : Machine) : Prop where
  pops : op.stackRequirement.1 ≤ m.stack.length
  covers : ∀ range ∈ op.ranges m.stack, Covers m.memory.store.length range
  length : m.memory.store.length < 2 ^ 64
  gas : m.gas + op.allowance m.stack < 2 ^ 64

theorem Machine.Executed.of_single {op : OpCode} (hvalid : op ≠ .invalid)
    (hstack : t.stack.length + op.stackRequirement.1 = m.stack.length + op.stackRequirement.2)
    (hmemory : m.memory.SameSize t.memory) (hgas : t.gas = m.gas) (hexecuted : t.executed = m.executed)
    (heffect : Effect rights [op] m.state t.state) : m.Executed rights op t := by
  refine ⟨hvalid, hstack, hmemory, ?_, [], hexecuted, ?_, heffect⟩
  · rw [hgas]
    exact Nat.le_add_right _ _
  · rw [hgas, length_nil, Nat.zero_add]
    exact Nat.le_add_right _ _

theorem Machine.Leaves.toExecuted {op : OpCode} (h : m.Leaves rights op.stackRequirement.1 op.stackRequirement.2 t)
    (hvalid : op ≠ .invalid) : m.Executed rights op t :=
  .of_single hvalid h.stack h.memory h.gas h.executed (h.effect.labelled op)

/-! ### Commands -/

section Commands

variable {R : VmError → Machine → Prop} {D : Prop}

variable {α : Type} {n offset size : Nat} {Q : Unit → Machine → Prop} {w : Word} {rest : List Word}

theorem exists_cons {l : List α} (h : n + 1 ≤ l.length) : ∃ a rest, l = a :: rest ∧ n ≤ rest.length := by
  cases l with
  | nil => cases h
  | cons a rest => exact ⟨a, rest, rfl, Nat.le_of_succ_le_succ h⟩

theorem exists_two_of_le {l : List α} (h : n + 2 ≤ l.length) : ∃ a b rest, l = a :: b :: rest ∧ n ≤ rest.length := by
  obtain ⟨a, tail, rfl, htail⟩ := exists_cons h
  obtain ⟨b, rest, rfl, hrest⟩ := exists_cons htail
  exact ⟨a, b, rest, rfl, hrest⟩

theorem exists_two {l : List α} (h : 2 ≤ l.length) : ∃ a b rest, l = a :: b :: rest := by
  obtain ⟨a, b, rest, rfl, -⟩ := exists_two_of_le (n := 0) h
  exact ⟨a, b, rest, rfl⟩

theorem exists_three {l : List α} (h : 3 ≤ l.length) : ∃ a b c rest, l = a :: b :: c :: rest := by
  obtain ⟨a, tail, rfl, htail⟩ := exists_cons h
  obtain ⟨b, c, rest, rfl⟩ := exists_two htail
  exact ⟨a, b, c, rest, rfl⟩

theorem wp_pop {Q : Word → Machine → Prop} (h : m.stack = w :: rest) :
    wp pop Q R D m ↔ Q w { m with stack := rest } := by
  simp [wp, pop, h]

theorem wp_peek {Q : Word → Machine → Prop} (h : m.stack = w :: rest) : wp peek Q R D m ↔ Q w m := by
  simp [wp, peek, back, h]

theorem wp_push (w : Word) :
    wp (push w) Q R D m ↔ Q () { m with stack := w :: m.stack } := Iff.rfl

theorem wp_replaceTop (h : m.stack = w :: rest) (v : Word) :
    wp (replaceTop v) Q R D m ↔ Q () { m with stack := v :: rest } := by
  rw [replaceTop, wp_bind, wp_pop h]
  rfl

theorem wp_memSet (value : Bytes)
    (hcovers : Memory.Covers m.memory.store.length offset size) (hlength : m.memory.store.length < 2 ^ 64)
    (hQ : ∀ memory, m.memory.SameSize memory → Q () { m with memory := memory }) :
    wp (memSet offset size value) Q R D m := by
  obtain ⟨memory, hmemory, hsame⟩ := Memory.set_isSome hcovers hlength value
  rw [memSet, wp_bind, wp_get, wp_bind, wp_orCrash]
  exact ⟨memory, hmemory, hQ memory hsame⟩

theorem wp_memSet32 (value : Word)
    (hcovers : Memory.Covers m.memory.store.length offset 32) (hlength : m.memory.store.length < 2 ^ 64)
    (hQ : ∀ memory, m.memory.SameSize memory → Q () { m with memory := memory }) :
    wp (memSet32 offset value) Q R D m := by
  have hcovers := hcovers.resolve_left (by decide)
  obtain ⟨memory, hmemory, hsame⟩ :=
    Memory.copyTo_isSome (Nat.le_add_right offset 32) hcovers (hashBytes value)
  rw [memSet32, wp_bind, wp_get, wp_bind, wp_orCrash, Memory.set32, Nat.mod_eq_of_lt (hcovers.trans_lt hlength)]
  exact ⟨memory, hmemory, hQ memory hsame⟩

variable {Q : Bytes → Machine → Prop} (hcovers : Memory.Covers m.memory.store.length offset size)
  (hlength : m.memory.store.length < 2 ^ 64) (hQ : ∀ data, Q data m)

include hcovers hlength hQ

theorem wp_memGetCopy : wp (memGetCopy offset size) Q R D m := by
  obtain ⟨data, hdata⟩ := Memory.getCopy_isSome hcovers hlength
  rw [memGetCopy, wp_bind, wp_get, wp_orCrash]
  exact ⟨data, hdata, hQ data⟩

theorem wp_memGetPtr : wp (memGetPtr offset size) Q R D m := by
  obtain ⟨data, hdata⟩ := Memory.getPtr_isSome hcovers hlength
  rw [memGetPtr, wp_bind, wp_get, wp_orCrash]
  exact ⟨data, hdata, hQ data⟩

end Commands

/-! ### Instructions that run no frame -/

section Instructions

variable {R : VmError → Machine → Prop} {D : Prop}

variable {popped n : Nat}

theorem Machine.Leaves.of_stack {pushed : Nat} {old stack : List Word} (pc : Nat) (hold : m.stack = old)
    (h : stack.length + popped = old.length + pushed) :
    m.Leaves rights popped pushed { m with stack := stack, pc := pc } :=
  ⟨by rw [hold]; exact h, .refl _, rfl, rfl, .refl _⟩

theorem leaves_push {w : Word} : wp (push w) (fun _ => m.Leaves rights 0 1) R D m :=
  .of_stack m.pc rfl rfl

theorem leaves_binary {f : Word → Word → Word} (h : 2 ≤ m.stack.length) :
    wp (binary f) (fun _ => m.Leaves rights 2 1) R D m := by
  obtain ⟨x, y, rest, hstack⟩ := exists_two h
  rw [binary, wp_bind, wp_pop hstack, wp_bind, wp_peek rfl, wp_replaceTop rfl]
  exact .of_stack m.pc hstack rfl

theorem leaves_ternary {f : Word → Word → Word → Word} (h : 3 ≤ m.stack.length) :
    wp (ternary f) (fun _ => m.Leaves rights 3 1) R D m := by
  obtain ⟨x, y, z, rest, hstack⟩ := exists_three h
  rw [ternary, wp_bind, wp_pop hstack, wp_bind, wp_pop rfl, wp_bind, wp_peek rfl, wp_replaceTop rfl]
  exact .of_stack m.pc hstack rfl

theorem leaves_unary {f : Word → Word} (h : 1 ≤ m.stack.length) :
    wp (unary f) (fun _ => m.Leaves rights 1 1) R D m := by
  obtain ⟨x, rest, hstack, -⟩ := exists_cons h
  rw [unary, wp_bind, wp_peek hstack, wp_replaceTop hstack]
  exact .of_stack m.pc hstack rfl

theorem leaves_query {f : Word → TxState → Word × TxState} (hf : ∀ x s, Effect rights [] s (f x s).2)
    (h : 1 ≤ m.stack.length) : wp (query f) (fun _ => m.Leaves rights 1 1) R D m := by
  obtain ⟨x, rest, hstack, -⟩ := exists_cons h
  rw [query, wp_bind, wp_peek hstack, wp_bind, wp_state]
  have hstack' : ({ m with state := (f x m.state).2 } : Machine).stack = x :: rest := hstack
  refine (wp_replaceTop hstack' _).mpr ⟨?_, .refl _, rfl, rfl, hf x m.state⟩
  rw [hstack]
  rfl

theorem leaves_calldataload (input : Bytes) (h : 1 ≤ m.stack.length) :
    wp (do
      let offset ← peek
      let data ← orCrash (getDataPadded input offset 32)
      replaceTop (Word.ofBytes data)) (fun _ => m.Leaves rights 1 1) R D m := by
  obtain ⟨offset, rest, hstack, -⟩ := exists_cons h
  obtain ⟨data, hdata⟩ := getDataPadded_isSome input offset 32
  rw [wp_bind, wp_peek hstack, wp_bind, wp_orCrash]
  exact ⟨data, hdata, (wp_replaceTop hstack _).mpr (.of_stack m.pc hstack rfl)⟩

theorem leaves_selfbalance (addr : Address) :
    wp (do
      let balance ← state fun s => s.getBalance addr
      push (Word.ofInt balance)) (fun _ => m.Leaves rights 0 1) R D m := by
  exact ⟨rfl, .refl _, rfl, rfl, (Reads.object _ addr).effect⟩

theorem immediate_isSome (c : Contract) (start size : Nat) : ∃ value, immediate c start size = some value := by
  rw [immediate]
  split
  · obtain ⟨bytes, hbytes, -⟩ := slice_isSome c.code start (min (start + size) c.code.length) (by omega) (by omega)
    rw [hbytes]
    exact ⟨_, rfl⟩
  · exact ⟨_, rfl⟩

theorem leaves_opPush (c : Contract) {size : Nat} : wp (opPush c size) (fun _ => m.Leaves rights 0 1) R D m := by
  obtain ⟨value, hvalue⟩ := immediate_isSome c ((m.pc + 1) % 2 ^ 64) size
  rw [opPush, wp_bind, wp_get, wp_bind, wp_orCrash]
  exact ⟨value, hvalue, .of_stack _ rfl rfl⟩

theorem leaves_dup (h : n + 1 ≤ m.stack.length) : wp (dup n) (fun _ => m.Leaves rights (n + 1) (n + 2)) R D m := by
  rw [dup, wp_bind, wp_back h]
  refine .of_stack m.pc rfl ?_
  rw [length_cons]
  omega

theorem leaves_swap (h : n + 2 ≤ m.stack.length) :
    wp (swap (n + 1)) (fun _ => m.Leaves rights (n + 2) (n + 2)) R D m := by
  rw [swap, wp_bind, wp_back (by omega), wp_bind, wp_back h, wp_modify]
  refine .of_stack m.pc rfl ?_
  rw [length_set, length_set]

theorem leaves_jumpTo (c : Contract) {rest : List Word} (dest : Word) (h : rest.length + popped = m.stack.length) :
    wp (jumpTo c dest) (fun _ => m.Leaves rights popped 0) (fun _ => m.Failed rights) D
      { m with stack := rest } := by
  rw [jumpTo, wp_ite]
  refine ⟨fun _ => .of_stack _ rfl h, fun _ => ⟨?_, .refl _, rfl, rfl, .refl _⟩⟩
  change rest.length ≤ m.stack.length
  omega

theorem leaves_jump (c : Contract) (h : 1 ≤ m.stack.length) :
    wp (do
      let dest ← pop
      jumpTo c dest) (fun _ => m.Leaves rights 1 0) (fun _ => m.Failed rights) D m := by
  obtain ⟨dest, rest, hstack, -⟩ := exists_cons h
  rw [wp_bind, wp_pop hstack]
  refine leaves_jumpTo c dest ?_
  rw [hstack]
  rfl

theorem leaves_jumpi (c : Contract) (h : 2 ≤ m.stack.length) :
    wp (do
      let dest ← pop
      let condition ← pop
      if condition = 0 then pure () else jumpTo c dest) (fun _ => m.Leaves rights 2 0)
        (fun _ => m.Failed rights) D m := by
  obtain ⟨dest, condition, rest, hstack⟩ := exists_two h
  have hcount : rest.length + 2 = m.stack.length := by
    rw [hstack]
    rfl
  rw [wp_bind, wp_pop hstack, wp_bind, wp_pop rfl, wp_ite]
  exact ⟨fun _ => .of_stack m.pc rfl hcount, fun _ => leaves_jumpTo c dest hcount⟩

theorem leaves_write {f : Word → Word → TxState → TxState} (hf : ∀ key value s, Effect rights [] s (f key value s))
    (h : 2 ≤ m.stack.length) :
    wp (do
      let key ← pop
      let value ← pop
      modifyState (f key value)) (fun _ => m.Leaves rights 2 0) R D m := by
  obtain ⟨key, value, rest, hstack⟩ := exists_two h
  rw [wp_bind, wp_pop hstack, wp_bind, wp_pop rfl, wp_modifyState]
  refine ⟨?_, .refl _, rfl, rfl, hf key value m.state⟩
  rw [hstack]
  rfl

theorem wp_popTopics {Q : List Hash → Machine → Prop} (h : n ≤ m.stack.length)
    (hQ : ∀ topics, Q topics { m with stack := m.stack.drop n }) : wp (popTopics n) Q R D m := by
  induction n generalizing m Q with
  | zero => exact hQ []
  | succ n ih =>
    obtain ⟨topic, rest, hstack, hrest⟩ := exists_cons h
    rw [popTopics, wp_bind, wp_pop hstack, wp_bind]
    refine ih hrest fun topics => ?_
    have hQ := hQ (topic :: topics)
    rw [hstack] at hQ
    exact hQ

variable (hlength : m.memory.store.length < 2 ^ 64)

include hlength

theorem leaves_keccak256 (keccak : Bytes → Hash) (h : 2 ≤ m.stack.length)
    (hcovers : Covers m.memory.store.length (m.stack.getD 0 0, m.stack.getD 1 0)) :
    wp (do
      let offset ← pop
      let size ← pop
      let data ← memGetPtr offset.uint64 size.uint64
      push (keccak data)) (fun _ => m.Leaves rights 2 1) R D m := by
  obtain ⟨offset, size, rest, hstack⟩ := exists_two h
  rw [hstack] at hcovers
  rw [wp_bind, wp_pop hstack, wp_bind, wp_pop rfl, wp_bind]
  exact wp_memGetPtr (hcovers.uint64 hlength) hlength fun data => .of_stack m.pc hstack rfl

theorem leaves_copyData (data : Bytes) (h : 3 ≤ m.stack.length)
    (hcovers : Covers m.memory.store.length (m.stack.getD 0 0, m.stack.getD 2 0)) :
    wp (copyData data) (fun _ => m.Leaves rights 3 0) R D m := by
  obtain ⟨memOffset, dataOffset, size, rest, hstack⟩ := exists_three h
  rw [hstack] at hcovers
  rw [copyData, wp_bind, wp_pop hstack, wp_bind, wp_pop rfl, wp_bind, wp_pop rfl, wp_bind, wp_orCrash]
  obtain ⟨bytes, hbytes⟩ := getDataPadded_isSome data dataOffset size.uint64
  refine ⟨bytes, hbytes, wp_memSet bytes (hcovers.uint64 hlength) hlength fun memory hmemory => ?_⟩
  refine ⟨?_, hmemory, rfl, rfl, .refl _⟩
  rw [hstack]
  rfl

theorem leaves_mload (h : 1 ≤ m.stack.length) (hcovers : Covers m.memory.store.length (m.stack.getD 0 0, 32)) :
    wp (do
      let offset ← peek
      let data ← memGetCopy offset.uint64 32
      replaceTop (Word.ofBytes data)) (fun _ => m.Leaves rights 1 1) R D m := by
  obtain ⟨offset, rest, hstack, -⟩ := exists_cons h
  rw [hstack] at hcovers
  rw [wp_bind, wp_peek hstack, wp_bind]
  refine wp_memGetCopy (hcovers.uint64 hlength) hlength fun data => (wp_replaceTop hstack _).mpr ?_
  exact .of_stack m.pc hstack rfl

theorem leaves_mstore (h : 2 ≤ m.stack.length) (hcovers : Covers m.memory.store.length (m.stack.getD 0 0, 32)) :
    wp (do
      let offset ← pop
      let value ← pop
      memSet32 offset.uint64 value) (fun _ => m.Leaves rights 2 0) R D m := by
  obtain ⟨offset, value, rest, hstack⟩ := exists_two h
  rw [hstack] at hcovers
  rw [wp_bind, wp_pop hstack, wp_bind, wp_pop rfl]
  refine wp_memSet32 value (hcovers.uint64 hlength) hlength fun memory hmemory => ⟨?_, hmemory, rfl, rfl, .refl _⟩
  rw [hstack]
  rfl

theorem leaves_mstore8 (h : 2 ≤ m.stack.length) (hcovers : Covers m.memory.store.length (m.stack.getD 0 0, 1)) :
    wp (do
      let offset ← pop
      let value ← pop
      memSet offset.uint64 1 [UInt8.ofNat value.uint64]) (fun _ => m.Leaves rights 2 0) R D m := by
  obtain ⟨offset, value, rest, hstack⟩ := exists_two h
  rw [hstack] at hcovers
  rw [wp_bind, wp_pop hstack, wp_bind, wp_pop rfl]
  refine wp_memSet _ (hcovers.uint64 hlength) hlength fun memory hmemory => ⟨?_, hmemory, rfl, rfl, .refl _⟩
  rw [hstack]
  rfl

theorem leaves_memCopy (h : 3 ≤ m.stack.length)
    (hdst : Covers m.memory.store.length (m.stack.getD 0 0, m.stack.getD 2 0))
    (hsrc : Covers m.memory.store.length (m.stack.getD 1 0, m.stack.getD 2 0)) :
    wp memCopy (fun _ => m.Leaves rights 3 0) R D m := by
  obtain ⟨dst, src, size, rest, hstack⟩ := exists_three h
  rw [hstack] at hdst hsrc
  have hcount : rest.length + 3 = m.stack.length + 0 := by
    rw [hstack]
    rfl
  rw [memCopy, wp_bind, wp_pop hstack, wp_bind, wp_pop rfl, wp_bind, wp_pop rfl, wp_ite]
  refine ⟨fun _ => .of_stack m.pc rfl hcount, fun _ => ?_⟩
  rw [wp_bind]
  refine wp_memGetCopy (hsrc.uint64 hlength) hlength fun data => ?_
  exact wp_memSet data (hdst.uint64 hlength) hlength fun memory hmemory => ⟨hcount, hmemory, rfl, rfl, .refl _⟩

theorem leaves_returnDataCopy (h : 3 ≤ m.stack.length)
    (hcovers : Covers m.memory.store.length (m.stack.getD 0 0, m.stack.getD 2 0)) :
    wp returnDataCopy (fun _ => m.Leaves rights 3 0) (fun _ => m.Failed rights) D m := by
  obtain ⟨memOffset, dataOffset, size, rest, hstack⟩ := exists_three h
  rw [hstack] at hcovers
  have hcount : rest.length + 3 = m.stack.length + 0 := by
    rw [hstack]
    rfl
  rw [returnDataCopy, wp_bind, wp_pop hstack, wp_bind, wp_pop rfl, wp_bind, wp_pop rfl, wp_bind, wp_get, wp_ite]
  refine ⟨fun _ => ⟨?_, .refl _, rfl, rfl, .refl _⟩, fun hbounds => ?_⟩
  · change rest.length ≤ m.stack.length
    omega
  · simp only [not_or, Nat.not_le, Nat.not_lt, Bool.not_eq_true', Bool.not_eq_false] at hbounds
    obtain ⟨hsum, hfits, hend⟩ := hbounds
    have hlast : (dataOffset + size).uint64 = dataOffset.toNat + size.toNat := by
      rw [Word.uint64_of_isUint64 hfits, BitVec.toNat_add, Nat.mod_eq_of_lt hsum]
    have hfirst : dataOffset.uint64 ≤ (dataOffset + size).uint64 := by
      rw [hlast]
      exact (Nat.mod_le _ _).trans (Nat.le_add_right _ _)
    obtain ⟨bytes, hbytes, -⟩ := slice_isSome m.returnData dataOffset.uint64 (dataOffset + size).uint64 hfirst hend
    rw [wp_bind, wp_orCrash]
    refine ⟨bytes, hbytes, wp_memSet bytes (hcovers.uint64 hlength) hlength fun memory hmemory => ?_⟩
    exact ⟨hcount, hmemory, rfl, rfl, .refl _⟩

theorem leaves_output (h : 2 ≤ m.stack.length)
    (hcovers : Covers m.memory.store.length (m.stack.getD 0 0, m.stack.getD 1 0)) :
    wp output (fun _ => m.Leaves rights 2 0) R D m := by
  obtain ⟨offset, size, rest, hstack⟩ := exists_two h
  rw [hstack] at hcovers
  rw [output, wp_bind, wp_pop hstack, wp_bind, wp_pop rfl]
  exact wp_memGetCopy (hcovers.uint64 hlength) hlength fun out => .of_stack m.pc hstack rfl

theorem leaves_extcodecopy (h : 4 ≤ m.stack.length)
    (hcovers : Covers m.memory.store.length (m.stack.getD 1 0, m.stack.getD 3 0)) :
    wp (do
      let addr ← pop
      let code ← state fun s => s.getCode addr.toAddress
      copyData code) (fun _ => m.Leaves rights 4 0) R D m := by
  obtain ⟨addr, rest, hstack, hrest⟩ := exists_cons h
  rw [hstack] at hcovers
  rw [wp_bind, wp_pop hstack, wp_bind, wp_state]
  refine wp_mono (Q := fun _ t =>
    Machine.Leaves rights 3 0 { m with stack := rest, state := (m.state.getCode addr.toAddress).2 } t)
    (leaves_copyData (m := { m with stack := rest, state := (m.state.getCode addr.toAddress).2 }) hlength _ hrest
      hcovers) (fun _ t ht => ?_) (fun _ _ hR => hR) id
  refine ⟨?_, ht.memory, ht.gas, ht.executed, (Reads.object _ addr.toAddress).effect.before ht.effect⟩
  have hcount : t.stack.length + 3 = rest.length + 0 := ht.stack
  rw [hstack, length_cons]
  omega

theorem leaves_opLog {env : Env} {readOnly : Bool} {c : Contract} (hwrites : readOnly = false → rights.static = false)
    (h : n + 2 ≤ m.stack.length) (hcovers : Covers m.memory.store.length (m.stack.getD 0 0, m.stack.getD 1 0)) :
    wp (opLog env readOnly c n) (fun _ => m.Leaves rights (n + 2) 0) (fun _ => m.Failed rights) D m := by
  obtain ⟨offset, size, rest, hstack, hrest⟩ := exists_two_of_le h
  rw [hstack] at hcovers
  rw [opLog, wp_ite]
  refine ⟨fun _ => ⟨Nat.le_refl _, .refl _, rfl, rfl, .refl _⟩, fun hreadOnly => ?_⟩
  rw [wp_bind, wp_pop hstack, wp_bind, wp_pop rfl, wp_bind]
  refine wp_popTopics hrest fun topics => ?_
  rw [wp_bind]
  refine wp_memGetCopy (hcovers.uint64 hlength) hlength fun data => ?_
  refine ⟨?_, .refl _, rfl, rfl, .store (.addLog _ _) (hwrites (Bool.eq_false_iff.mpr hreadOnly)) rfl⟩
  change (rest.drop n).length + (n + 2) = m.stack.length + 0
  rw [hstack, length_drop, length_cons, length_cons]
  omega

end Instructions

/-! ### Nested frames -/

section Nested

variable {R : VmError → Machine → Prop} {D : Prop}

theorem wp_nested {α : Type} {result : α → FrameResult} {f : TxState → Outcome Empty α} {P : α → Prop}
    {Q : α → Machine → Prop} (h : (f m.state).Ends P D)
    (hQ : ∀ r, P r → Q r { m with state := (result r).state, executed := (result r).executed ++ m.executed }) :
    wp (nested result f) Q R D m := by
  simp only [wp, nested]
  cases hf : f m.state with
  | ok r =>
    rw [hf] at h
    exact hQ r h
  | error e => cases e
  | panic | diverge =>
    rw [hf] at h
    exact h

variable {rest : List Word} {Q : Unit → Machine → Prop} {retOffset retSize gasWord addrWord value : Word}

theorem wp_popIf {Q : Word → Machine → Prop} {present : Bool} {w : Word}
    (h : m.stack = (if present then [w] else []) ++ rest) (habsent : present = false → w = 0) :
    wp (popIf present) Q R D m ↔ Q w { m with stack := rest } := by
  cases present with
  | true => exact wp_pop h
  | false =>
    rw [habsent rfl, ← show m.stack = rest from h]
    rfl

theorem wp_refundGas {amount : Nat} (h : m.gas + amount < 2 ^ 64) :
    wp (refundGas amount) Q R D m ↔ Q () { m with gas := m.gas + amount } := by
  rw [refundGas, wp_modify, Nat.mod_eq_of_lt h]

theorem effect_bequeath (hstatic : rights.static = false) {addr : Address} (haddr : addr = rights.self)
    (beneficiary : Address) (s : TxState) : Effect rights [.selfdestruct] s (bequeath addr beneficiary s) := by
  simp only [bequeath]
  rw [s.getBalance_eq addr]
  exact haddr ▸ .act (.destroy hstatic beneficiary)

theorem Machine.Executed.of_nested {op : OpCode} {r : FrameResult} {spent supplied : Nat} (hvalid : op ≠ .invalid)
    (hstack : t.stack.length + op.stackRequirement.1 = m.stack.length + op.stackRequirement.2)
    (hmemory : m.memory.SameSize t.memory) (hgas : t.gas = m.gas - spent + r.gas) (hspent : spent ≤ m.gas)
    (hsupplied : supplied + 1 ≤ spent + op.allowance m.stack)
    (hexecuted : t.executed = r.executed ++ m.executed) (hcount : r.executed.length + r.gas ≤ supplied + 1)
    (heffect : Effect rights (r.executed ++ [op]) m.state t.state) : m.Executed rights op t := by
  refine ⟨hvalid, hstack, hmemory, ?_, r.executed, hexecuted, ?_, heffect⟩
  · omega
  · omega

theorem wp_keepOutput (r : FrameResult)
    (hcovers : Covers m.memory.store.length (retOffset, retSize)) (hlength : m.memory.store.length < 2 ^ 64)
    (hQ : ∀ memory returnData, m.memory.SameSize memory → Q () { m with memory := memory, returnData := returnData }) :
    wp (keepOutput r retOffset retSize) Q R D m := by
  have hpart : Memory.Covers m.memory.store.length retOffset.uint64 (min retSize.uint64 r.ret.length) := by
    rcases hcovers.uint64 hlength with hzero | hrange
    · left
      rw [hzero, Nat.zero_min]
    · right
      exact (Nat.add_le_add_left (Nat.min_le_left _ _) _).trans hrange
  rw [keepOutput, wp_ite]
  refine ⟨fun _ => ?_, fun _ => hQ m.memory [] (.refl _)⟩
  rw [wp_bind, wp_modify, wp_ite]
  refine ⟨fun _ => ?_, fun _ => hQ m.memory r.ret (.refl _)⟩
  exact wp_memSet r.ret hpart hlength fun memory hmemory => hQ memory r.ret hmemory

def CallKind.op : CallKind → OpCode
  | call => .call
  | callcode => .callcode
  | delegatecall => .delegatecall
  | staticcall => .staticcall

theorem CallKind.allowance_eq (kind : CallKind) (hvalue : kind.valued = false → value = 0) :
    kind.op.allowance (gasWord :: addrWord :: ((if kind.valued then [value] else []) ++ rest)) =
      if value ≠ 0 then gasCallStipend + 1 else 1 := by
  cases kind with
  | call | callcode =>
    by_cases hzero : value = 0
    · rw [if_neg (not_not.mpr hzero)]
      exact if_pos hzero
    · rw [if_pos hzero]
      exact if_neg hzero
  | delegatecall | staticcall =>
    rw [if_neg (not_not.mpr (hvalue rfl))]
    rfl

theorem withStipend_succ {gas limit allowance : Nat}
    (h : allowance = if value ≠ 0 then gasCallStipend + 1 else 1) (hgas : gas ≤ limit)
    (hlimit : limit + allowance < 2 ^ 64) : withStipend value gas + 1 = gas + allowance := by
  rw [withStipend]
  split
  · rename_i hne
    rw [if_pos hne] at h
    rw [Nat.mod_eq_of_lt (by omega), h, Nat.add_assoc]
  · rename_i hzero
    rw [if_neg hzero] at h
    rw [h]

variable {env : Env} {run : Runner} {rounds : Nat} (hrun : run.Keeps rights rounds) (depth : Nat)
  {readOnly : Bool} (hread : rights.static = true → readOnly = true) {c : Contract} (hself : c.address = rights.self)

include hrun hread hself

/-- Not more comes back than was handed on, and the creation is paid for by the instruction. -/
theorem executed_opCreate {salted : Bool} {op : OpCode} (hop : op = if salted then .create2 else .create)
    {offset size salt : Word}
    (hstack : m.stack = value :: offset :: size :: ((if salted then [salt] else []) ++ rest))
    (hsalt : salted = false → salt = 0) (hcovers : Covers m.memory.store.length (offset, size))
    (hlength : m.memory.store.length < 2 ^ 64) (hgas : m.gas < 2 ^ 64) :
    wp (opCreate env run depth readOnly c salted) (fun _ => m.Executed rights op)
      (fun _ => m.Failed rights) (rounds ≤ m.gas) m := by
  subst hop
  rw [opCreate, wp_ite]
  refine ⟨fun _ => ⟨Nat.le_refl _, .refl _, rfl, rfl, .refl _⟩, fun hreadOnly => ?_⟩
  have hstatic : rights.static = false := by
    rw [← Bool.not_eq_true]
    exact fun hrights => hreadOnly (hread hrights)
  rw [wp_bind, wp_pop hstack, wp_bind, wp_pop rfl, wp_bind, wp_pop rfl, wp_bind, wp_popIf rfl hsalt, wp_bind]
  refine wp_memGetCopy (hcovers.uint64 hlength) hlength fun input => ?_
  rw [wp_bind, wp_get, wp_bind, takeGas, wp_modify, wp_bind]
  have hforward : m.gas - m.gas / 64 ≤ m.gas := Nat.sub_le _ _
  have hsupplied : m.gas - m.gas / 64 < 2 ^ 64 := hforward.trans_lt hgas
  have hcreated : (if salted then create2 env run depth readOnly c.address input (m.gas - m.gas / 64) value.toNat salt m.state
      else create env run depth readOnly c.address input (m.gas - m.gas / 64) value.toNat m.state).Ends
      (fun r => r.2.Created rights (if salted then .create2 else .create) c.address
        (Refuses env depth c.address value.toNat m.state) (m.gas - m.gas / 64) m.state)
      (rounds ≤ m.gas - m.gas / 64) := by
    have hsign : rights.checked = true → (0 : Int) ≤ value.toNat := fun _ => Int.natCast_nonneg _
    cases salted with
    | true => exact ends_create2 hrun depth hread hsupplied hstatic hself input hsign salt
    | false => exact ends_create hrun depth hread hsupplied hstatic hself input hsign
  refine wp_nested (hcreated.mono (fun _ hr => hr) fun hrounds => hrounds.trans hforward) fun r hr => ?_
  have hleft := hr.gas
  rw [wp_bind, wp_push, wp_bind]
  refine (wp_refundGas ?_).mpr ?_
  · change m.gas - (m.gas - m.gas / 64) + r.2.gas < 2 ^ 64
    omega
  · refine .of_nested ?_ ?_ (.refl _) rfl hforward ?_ rfl hr.executed hr.effect
    · cases salted <;> decide
    · rw [hstack]
      cases salted <;> rfl
    · cases salted <;> rfl

theorem ends_callOf {kind : CallKind} (addr : Address) (input : Bytes) {gas : Nat} (hgas : gas < 2 ^ 64)
    (hvalue : rights.static = true → kind = .call → value = 0) (s : TxState) :
    (callOf env run depth readOnly c kind addr input gas value s).Ends (FrameResult.Settled rights gas s)
      (rounds ≤ gas) := by
  cases kind with
  | call =>
    refine ends_call hrun depth hread hgas c.address addr input (fun hstatic => ?_) fun _ => Int.natCast_nonneg _
    rw [hvalue hstatic rfl]
    rfl
  | callcode => exact ends_callCode hrun depth hread hgas hself addr input _
  | delegatecall => exact ends_delegateCall hrun depth hread hgas hself addr input
  | staticcall => exact ends_staticCall hrun depth hgas c.address addr input

theorem executed_opCall {kind : CallKind} {inOffset inSize : Word}
    (hstack : m.stack = gasWord :: addrWord :: ((if kind.valued then [value] else []) ++
      inOffset :: inSize :: retOffset :: retSize :: rest))
    (hvalue : kind.valued = false → value = 0) (hin : Covers m.memory.store.length (inOffset, inSize))
    (hret : Covers m.memory.store.length (retOffset, retSize)) (hlength : m.memory.store.length < 2 ^ 64)
    (hgas : m.gas + kind.op.allowance m.stack < 2 ^ 64) :
    wp (opCall env run depth readOnly c kind) (fun _ => m.Executed rights kind.op)
      (fun _ => m.Failed rights) (rounds ≤ m.gas + kind.op.allowance m.stack) m := by
  have hcount : rest.length + 1 + kind.op.stackRequirement.1 = m.stack.length + kind.op.stackRequirement.2 := by
    rw [hstack]
    cases kind <;> rfl
  have hallowance : kind.op.allowance m.stack = if value ≠ 0 then gasCallStipend + 1 else 1 := by
    rw [hstack]
    exact kind.allowance_eq hvalue
  rw [opCall, wp_bind, wp_pop hstack, wp_bind, wp_pop rfl, wp_bind, wp_popIf rfl hvalue, wp_bind, wp_pop rfl, wp_bind,
    wp_pop rfl, wp_bind, wp_pop rfl, wp_bind, wp_pop rfl, wp_ite]
  dsimp only
  refine ⟨fun _ => ⟨?_, .refl _, rfl, rfl, .refl _⟩, fun hallowed => ?_⟩
  · rw [hstack]
    simp only [length_cons, length_append]
    omega
  have hstatic : rights.static = true → kind = .call → value = 0 := by
    intro hs hkind
    rw [hread hs, hkind] at hallowed
    by_contra hne
    exact hallowed (Bool.and_eq_true_iff.mpr ⟨rfl, decide_eq_true hne⟩)
  rw [wp_bind]
  refine wp_memGetCopy (hin.uint64 hlength) hlength fun input => ?_
  rw [wp_bind, wp_get, wp_bind, takeGas, wp_modify, wp_bind]
  have hspent : callGas m.gas gasWord ≤ m.gas := (callGas_le m.gas gasWord).trans (Nat.sub_le _ _)
  have hsupplied := withStipend_succ hallowance hspent hgas
  generalize withStipend value (callGas m.gas gasWord) = supplied at hsupplied ⊢
  have hfits : supplied < 2 ^ 64 := by omega
  have hcall : (callOf env run depth readOnly c kind addrWord.toAddress input supplied value m.state).Ends
      (FrameResult.Settled rights supplied m.state) (rounds ≤ supplied) :=
    ends_callOf hrun depth hread hself addrWord.toAddress input hfits hstatic m.state
  refine wp_nested (hcall.mono (fun _ hr => hr) fun hrounds => by omega) fun r hr => ?_
  have hleft := hr.gas
  rw [wp_bind, wp_push, wp_bind]
  refine wp_keepOutput r hret hlength fun memory returnData hmemory => ?_
  refine (wp_refundGas ?_).mpr ?_
  · change m.gas - callGas m.gas gasWord + r.gas < 2 ^ 64
    omega
  · have hvalid : kind.op ≠ .invalid := by
      cases kind <;> decide
    exact .of_nested hvalid hcount hmemory rfl hspent hsupplied.le rfl hr.executed (hr.effect.labelled kind.op)

/-- Every instruction does what is announced for it. None goes on for ever but one that runs a frame. -/
theorem wp_execute (op : OpCode) (h : m.Ready op) :
    wp (execute env run depth readOnly c op) (fun _ => m.Executed rights op)
      (fun _ => m.Failed rights) (op.isLast = false ∧ rounds ≤ m.gas + op.allowance m.stack) m := by
  have hwrites : readOnly = false → rights.static = false := by
    intro hreadOnly
    rw [← Bool.not_eq_true]
    exact fun hrights => Bool.eq_false_iff.mp hreadOnly (hread hrights)
  have hrefused : m.Failed rights m := ⟨Nat.le_refl _, .refl _, rfl, rfl, .refl _⟩
  have hnested : ∀ {d : Vm Unit} {D D' : Prop}, (D → D') →
      wp d (fun _ => m.Executed rights op) (fun _ => m.Failed rights) D m →
      wp (silent d) (fun _ => m.Executed rights op) (fun _ => m.Failed rights) D' m := by
    intro d D D' hD hd
    rw [silent, wp_bind]
    exact wp_mono hd (fun _ t ht => ht) (fun _ _ ht => ht) hD
  have hsilent : ∀ {d : Vm Unit} {D : Prop}, op ≠ .invalid →
      wp d (fun _ => m.Leaves rights op.stackRequirement.1 op.stackRequirement.2)
        (fun _ => m.Failed rights) D m →
      wp (silent d) (fun _ => m.Executed rights op) (fun _ => m.Failed rights) D m :=
    fun hvalid hd => hnested id (wp_mono hd (fun _ t ht => ht.toExecuted hvalid) (fun _ _ ht => ht) id)
  have hwrite : ∀ {d : Vm Unit} {D : Prop}, op ≠ .invalid →
      (rights.static = false → wp d (fun _ => m.Leaves rights op.stackRequirement.1 op.stackRequirement.2)
        (fun _ => m.Failed rights) D m) →
      wp (silent (if readOnly then throw .writeProtection else d)) (fun _ => m.Executed rights op)
        (fun _ => m.Failed rights) D m := by
    intro d D hvalid hd
    refine hsilent hvalid ?_
    rw [wp_ite]
    exact ⟨fun _ => hrefused, fun hreadOnly => hd (hwrites (Bool.eq_false_iff.mpr hreadOnly))⟩
  have hreads : ∀ (addr : Address) (s : TxState), Effect rights [] s (s.getStateObject addr).2 :=
    fun addr s => (Reads.object s addr).effect
  cases op with
  | push n => exact hsilent nofun (leaves_opPush c)
  | dup n => exact hsilent nofun (leaves_dup h.pops)
  | swap n => exact hsilent nofun (leaves_swap h.pops)
  | log n =>
    exact hsilent nofun (leaves_opLog h.length hwrites h.pops (h.covers _ mem_cons_self))
  | stop | jumpdest => exact (Machine.Leaves.of_stack m.pc rfl rfl).toExecuted nofun
  | add | sub | mul | div | sdiv | mod | smod | exp | signextend | lt | gt | slt | sgt | eq | and | or | xor | byte
  | shl | shr | sar => exact hsilent nofun (leaves_binary h.pops)
  | addmod | mulmod => exact hsilent nofun (leaves_ternary h.pops)
  | iszero | not | blockhash => exact hsilent nofun (leaves_unary h.pops)
  | keccak256 =>
    exact hsilent nofun (leaves_keccak256 h.length env.keccak h.pops (h.covers _ mem_cons_self))
  | address | origin | caller | callvalue | calldatasize | codesize | gasprice | coinbase | timestamp | number
  | prevrandao | gaslimit | chainid | basefee | push0 => exact hsilent nofun leaves_push
  | returndatasize | pc | msize | gas =>
    refine hsilent nofun ?_
    rw [wp_bind, wp_get]
    exact leaves_push
  | balance | extcodesize => exact hsilent nofun (leaves_query (fun x s => hreads x.toAddress s) h.pops)
  | extcodehash =>
    refine hsilent nofun (leaves_query (fun x s => ?_) h.pops)
    simp only [extCodeHash]
    split
    · exact hreads x.toAddress s
    · exact (hreads x.toAddress s).before (hreads x.toAddress _)
  | calldataload => exact hsilent nofun (leaves_calldataload c.input h.pops)
  | calldatacopy | codecopy =>
    exact hsilent nofun (leaves_copyData h.length _ h.pops (h.covers _ mem_cons_self))
  | extcodecopy =>
    exact hsilent nofun (leaves_extcodecopy h.length h.pops (h.covers _ mem_cons_self))
  | returndatacopy =>
    exact hsilent nofun (leaves_returnDataCopy h.length h.pops (h.covers _ mem_cons_self))
  | selfbalance => exact hsilent nofun (leaves_selfbalance c.address)
  | pop =>
    obtain ⟨w, rest, hstack, -⟩ := exists_cons h.pops
    refine hsilent nofun ?_
    rw [wp_bind, wp_pop hstack]
    exact .of_stack m.pc hstack rfl
  | mload => exact hsilent nofun (leaves_mload h.length h.pops (h.covers _ mem_cons_self))
  | mstore => exact hsilent nofun (leaves_mstore h.length h.pops (h.covers _ mem_cons_self))
  | mstore8 => exact hsilent nofun (leaves_mstore8 h.length h.pops (h.covers _ mem_cons_self))
  | mcopy =>
    exact hsilent nofun (leaves_memCopy h.length h.pops (h.covers _ mem_cons_self)
      (h.covers _ (mem_cons_of_mem _ mem_cons_self)))
  | sload =>
    refine hsilent nofun (leaves_query (fun key s => ?_) h.pops)
    exact .mild (.getState c.address key) trivial
  | tload => exact hsilent nofun (leaves_query (fun _ s => .refl s) h.pops)
  | sstore =>
    refine hwrite nofun fun hstatic => leaves_write (fun key value s => ?_) h.pops
    exact .store (.setState c.address key value) hstatic rfl
  | tstore =>
    refine hwrite nofun fun hstatic => leaves_write (fun key value s => ?_) h.pops
    exact .store (.setTransientState c.address key value) hstatic rfl
  | jump => exact hsilent nofun (leaves_jump c h.pops)
  | jumpi => exact hsilent nofun (leaves_jumpi c h.pops)
  | create =>
    obtain ⟨value, offset, size, rest, hstack⟩ := exists_three h.pops
    have hcovers := h.covers _ mem_cons_self
    rw [hstack] at hcovers
    have hgas : m.gas < 2 ^ 64 := (Nat.le_add_right _ _).trans_lt h.gas
    exact hnested (fun hrounds => ⟨rfl, hrounds.trans (Nat.le_add_right _ _)⟩)
      (executed_opCreate hrun depth hread hself rfl hstack (fun _ => rfl) hcovers h.length hgas)
  | create2 =>
    obtain ⟨value, tail, htail, hlong⟩ := exists_cons h.pops
    obtain ⟨offset, size, salt, rest, rfl⟩ := exists_three hlong
    have hcovers := h.covers _ mem_cons_self
    rw [htail] at hcovers
    have hgas : m.gas < 2 ^ 64 := (Nat.le_add_right _ _).trans_lt h.gas
    exact hnested (fun hrounds => ⟨rfl, hrounds.trans (Nat.le_add_right _ _)⟩)
      (executed_opCreate hrun depth hread hself rfl htail nofun hcovers h.length hgas)
  | return_ =>
    exact wp_mono (leaves_output h.length h.pops (h.covers _ mem_cons_self))
      (fun _ t ht => ht.toExecuted nofun) (fun _ _ ht => ht) id
  | revert =>
    have houtput : wp output (fun _ => m.Leaves rights 2 0) (fun _ => m.Failed rights)
        (OpCode.revert.isLast = false ∧ rounds ≤ m.gas + OpCode.revert.allowance m.stack) m :=
      leaves_output h.length h.pops (h.covers _ mem_cons_self)
    rw [execute, wp_bind]
    refine wp_mono houtput (fun out t ht => ?_) (fun _ _ ht => ht) id
    exact .of_single nofun ht.stack ht.memory ht.gas ht.executed (ht.effect.labelled .revert)
  | selfdestruct =>
    obtain ⟨target, rest, hstack, -⟩ := exists_cons h.pops
    rw [execute, silent, wp_bind, wp_ite]
    refine ⟨fun _ => hrefused, fun hreadOnly => ?_⟩
    rw [wp_bind, wp_pop hstack, wp_modifyState]
    refine .of_single nofun ?_ (.refl _) rfl rfl ?_
    · rw [hstack]
      rfl
    · exact effect_bequeath (hwrites (Bool.eq_false_iff.mpr hreadOnly)) hself target.toAddress m.state
  | invalid | undefined => exact hrefused
  | call | callcode =>
    obtain ⟨gasWord, addrWord, tail, htail, hlong⟩ := exists_two_of_le h.pops
    obtain ⟨value, inOffset, operands, rfl, hoperands⟩ := exists_two_of_le hlong
    obtain ⟨inSize, retOffset, retSize, rest, rfl⟩ := exists_three hoperands
    have hin := h.covers _ mem_cons_self
    have hret := h.covers _ (mem_cons_of_mem _ mem_cons_self)
    rw [htail] at hin hret
    exact hnested (fun hrounds => ⟨rfl, hrounds⟩) (executed_opCall hrun depth hread hself htail nofun hin hret h.length h.gas)
  | delegatecall | staticcall =>
    obtain ⟨gasWord, addrWord, tail, htail, hlong⟩ := exists_two_of_le h.pops
    obtain ⟨inOffset, operands, rfl, hoperands⟩ := exists_cons hlong
    obtain ⟨inSize, retOffset, retSize, rest, rfl⟩ := exists_three hoperands
    have hin := h.covers _ mem_cons_self
    have hret := h.covers _ (mem_cons_of_mem _ mem_cons_self)
    rw [htail] at hin hret
    exact hnested (fun hrounds => ⟨rfl, hrounds⟩)
      (executed_opCall hrun depth hread hself htail (fun _ => rfl) hin hret h.length h.gas)

end Nested

end PadiChain.Evm

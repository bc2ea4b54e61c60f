import PadiChain.EvmLoop

/-! Execution halts. Frames that are given more rounds do what they did, once they end; and they end with fewer rounds
than they have gas, or a few more instructions than that. So there is one result, whatever the number of rounds. -/

namespace PadiChain.Evm

open State (TxState)
open Command Vm

/-! ### More rounds -/

section Below

/-- The second way to run frames does what the first one does, if that ends. -/
def Runner.Below (run run' : Runner) : Prop :=
  ∀ depth readOnly c gas s, (run depth readOnly c gas s).Below (run' depth readOnly c gas s)

variable {run run' : Runner} (h : run.Below run') (env : Env) (depth : Nat) (readOnly : Bool) (gas : Nat) (s : TxState)

include h

theorem below_call (caller addr : Address) (input : Bytes) (value : Int) :
    (call env run depth readOnly caller addr input gas value s).Below
      (call env run' depth readOnly caller addr input gas value s) := by
  simp only [call]
  repeat' split
  all_goals first | exact .refl _ | exact .bind (h _ _ _ _ _) fun _ => .refl _

theorem below_runCode (addr : Address) (input : Bytes) {frame : Bytes → Contract} :
    (runCode env run depth readOnly addr input gas frame s).Below
      (runCode env run' depth readOnly addr input gas frame s) := by
  simp only [runCode]
  split
  · exact .refl _
  · exact .bind (h _ _ _ _ _) fun _ => .refl _

theorem below_createAt (caller : Address) (code : Bytes) (value : Int) {addr : Address} :
    (createAt env run depth readOnly caller code gas value addr s).Below
      (createAt env run' depth readOnly caller code gas value addr s) := by
  simp only [createAt]
  repeat' split
  all_goals first | exact .refl _ | exact .bind (h _ _ _ _ _) fun _ => .refl _

theorem below_create (caller : Address) (code : Bytes) (value : Int) :
    (create env run depth readOnly caller code gas value s).Below
      (create env run' depth readOnly caller code gas value s) := by
  simp only [create]
  split
  · exact .refl _
  · exact below_createAt h env depth readOnly gas _ caller code value

theorem below_callCode (caller addr : Address) (input : Bytes) (value : Int) :
    (callCode env run depth readOnly caller addr input gas value s).Below
      (callCode env run' depth readOnly caller addr input gas value s) := by
  simp only [callCode]
  repeat' split
  all_goals first | exact .refl _ | exact below_runCode h env depth readOnly gas _ addr input

theorem below_delegateCall (parent : Contract) (addr : Address) (input : Bytes) :
    (delegateCall env run depth readOnly parent addr input gas s).Below
      (delegateCall env run' depth readOnly parent addr input gas s) := by
  simp only [delegateCall]
  split
  · exact .refl _
  · exact below_runCode h env depth readOnly gas s addr input

omit readOnly in
theorem below_staticCall (caller addr : Address) (input : Bytes) :
    (staticCall env run depth caller addr input gas s).Below (staticCall env run' depth caller addr input gas s) := by
  simp only [staticCall]
  split
  · exact .refl _
  · exact below_runCode h env depth true gas s addr input

theorem below_callOf (c : Contract) (kind : CallKind) (addr : Address) (input : Bytes) (value : Word) :
    (callOf env run depth readOnly c kind addr input gas value s).Below
      (callOf env run' depth readOnly c kind addr input gas value s) := by
  cases kind with
  | call => exact below_call h env depth readOnly gas s c.address addr input value.toNat
  | callcode => exact below_callCode h env depth readOnly gas s c.address addr input value.toNat
  | delegatecall => exact below_delegateCall h env depth readOnly gas s c addr input
  | staticcall => exact below_staticCall h env depth gas s c.address addr input

omit h in
theorem below_nested {α : Type} (result : α → FrameResult) {f g : TxState → Outcome Empty α}
    (hfg : ∀ s, (f s).Below (g s)) : (nested result f).Below (nested result g) := by
  intro m
  simp only [nested]
  rcases hfg m.state with hf | hf
  · rw [hf]
    exact .inl rfl
  · rw [hf]
    exact .refl _

theorem below_execute (c : Contract) {op : OpCode} :
    (execute env run depth readOnly c op).Below (execute env run' depth readOnly c op) := by
  have hcreate : ∀ salted, (silent (opCreate env run depth readOnly c salted)).Below
      (silent (opCreate env run' depth readOnly c salted)) := by
    intro salted
    refine .bind (.ite (.refl _) ?_) fun _ => .refl _
    refine .bind (.refl _) fun value => .bind (.refl _) fun offset => .bind (.refl _) fun size => .bind (.refl _) fun salt =>
      .bind (.refl _) fun input => .bind (.refl _) fun m => .bind (.refl _) fun _ => .bind ?_ fun _ => .refl _
    refine below_nested Prod.snd fun s => ?_
    split
    · exact below_createAt h env depth readOnly _ s c.address input _
    · exact below_create h env depth readOnly _ s c.address input _
  have hcall : ∀ kind, (silent (opCall env run depth readOnly c kind)).Below
      (silent (opCall env run' depth readOnly c kind)) := by
    intro kind
    refine .bind ?_ fun _ => .refl _
    refine .bind (.refl _) fun gasWord => .bind (.refl _) fun addrWord => .bind (.refl _) fun value =>
      .bind (.refl _) fun inOffset => .bind (.refl _) fun inSize => .bind (.refl _) fun retOffset =>
      .bind (.refl _) fun retSize => .ite (.refl _) ?_
    refine .bind (.refl _) fun input => .bind (.refl _) fun m => .bind (.refl _) fun _ => .bind ?_ fun _ => .refl _
    exact below_nested id fun s => below_callOf h env depth readOnly _ s c kind _ input value
  cases op with
  | create => exact hcreate false
  | create2 => exact hcreate true
  | call => exact hcall .call
  | callcode => exact hcall .callcode
  | delegatecall => exact hcall .delegatecall
  | staticcall => exact hcall .staticcall
  | _ => exact .refl _

theorem below_round (c : Contract) : (round env run depth readOnly c).Below (round env run' depth readOnly c) := by
  refine .ite (.refl _) (.bind (.refl _) fun m => .bind (.refl _) fun _ => .bind (.refl _) fun priced => ?_)
  refine .bind (.refl _) fun m => .ite (.refl _) (.bind (.refl _) fun _ => .bind ?_ fun _ => .refl _)
  exact below_execute h env depth readOnly c

omit h in
theorem below_frameOf {loop loop' : Nat → Bool → Contract → Machine → Outcome Empty FrameResult}
    (hloop : ∀ depth readOnly c m, (loop depth readOnly c m).Below (loop' depth readOnly c m)) :
    (frameOf loop).Below (frameOf loop') := by
  intro depth readOnly c gas s
  simp only [frameOf]
  split
  · exact .refl _
  · exact hloop _ _ _ _

end Below

theorem below_loop_succ (env : Env) {rounds : Nat} (depth : Nat) (readOnly : Bool) (c : Contract) (m : Machine) :
    (loop env rounds depth readOnly c m).Below (loop env (rounds + 1) depth readOnly c m) := by
  induction rounds generalizing depth readOnly c m with
  | zero => exact .inl rfl
  | succ rounds ih =>
    have hround := below_round (below_frameOf ih) env depth readOnly c m
    rw [loop, loop]
    rcases hround with hdiverge | hsame
    · rw [hdiverge]
      exact .inl rfl
    · rw [hsame]
      split
      · exact ih _ _ _ _
      all_goals exact .refl _

theorem below_run (env : Env) {rounds rounds' : Nat} (h : rounds ≤ rounds') : (run env rounds).Below (run env rounds') := by
  refine below_frameOf fun depth readOnly c m => ?_
  induction h with
  | refl => exact .refl _
  | step h ih => exact ih.trans (below_loop_succ env depth readOnly c m)

/-! ### Results -/

section Results

variable (env : Env) {α : Type} {gas : Nat}

theorem exists_result {f : Runner → Outcome Empty α} {P : α → Prop}
    (hmono : ∀ {run run' : Runner}, run.Below run' → (f run).Below (f run'))
    (hends : ∀ rounds, (f (run env rounds)).Ends P (rounds ≤ gas)) :
    ∃ r, (∀ rounds, gas < rounds → f (run env rounds) = .ok r) ∧ P r := by
  obtain ⟨r, hr, hP⟩ := (hends (gas + 1)).exists_ok (Nat.not_succ_le_self gas)
  exact ⟨r, fun rounds hrounds => (hmono (below_run env hrounds)).eq_ok hr, hP⟩

/-- With any number of rounds beyond the gas there is the same result. No more gas is left than was supplied, and the
instructions executed in all frames are bounded by it. -/
def HaltsWithin (gas : Nat) (result : α → FrameResult) (f : Runner → Outcome Empty α) : Prop :=
  ∃ r, (∀ rounds, gas < rounds → f (run env rounds) = .ok r) ∧ (result r).gas ≤ gas ∧
    (result r).executed.length ≤ gas + 1

theorem haltsWithin_of_ends {result : α → FrameResult} {f : Runner → Outcome Empty α} {P : α → Prop}
    (hmono : ∀ {run run' : Runner}, run.Below run' → (f run).Below (f run'))
    (hends : ∀ rounds, (f (run env rounds)).Ends P (rounds ≤ gas))
    (hP : ∀ r, P r → (result r).gas ≤ gas ∧ (result r).executed.length + (result r).gas ≤ gas + 1) :
    HaltsWithin env gas result f := by
  obtain ⟨r, hr, hkept⟩ := exists_result env hmono hends
  obtain ⟨hgas, hexecuted⟩ := hP r hkept
  exact ⟨r, hr, hgas, (Nat.le_add_right _ _).trans hexecuted⟩

/-- Every call and creation halts within its gas, for any code, input, state, depth and gas. -/
theorem execution_halts (depth : Nat) (readOnly : Bool) (gas : UInt64) (s : TxState) :
    (∀ caller addr input value, HaltsWithin env gas.toNat id fun run =>
      call env run depth readOnly caller addr input gas.toNat value s) ∧
    (∀ caller addr input value, HaltsWithin env gas.toNat id fun run =>
      callCode env run depth readOnly caller addr input gas.toNat value s) ∧
    (∀ parent addr input, HaltsWithin env gas.toNat id fun run =>
      delegateCall env run depth readOnly parent addr input gas.toNat s) ∧
    (∀ caller addr input, HaltsWithin env gas.toNat id fun run => staticCall env run depth caller addr input gas.toNat s) ∧
    (∀ caller code value, HaltsWithin env gas.toNat Prod.snd fun run =>
      create env run depth readOnly caller code gas.toNat value s) ∧
    (∀ caller code value salt, HaltsWithin env gas.toNat Prod.snd fun run =>
      create2 env run depth readOnly caller code gas.toNat value salt s) := by
  have hgas : gas.toNat < 2 ^ 64 := gas.toNat_lt
  have hkeeps : ∀ self rounds, (run env rounds).Keeps ⟨false, false, self⟩ rounds :=
    fun self rounds => run_keeps env rounds ⟨false, false, self⟩
  have hread : ∀ self, (⟨false, false, self⟩ : Rights).static = true → readOnly = true := nofun
  refine ⟨?_, ?_, ?_, ?_, ?_, ?_⟩
  · intro caller addr input value
    exact haltsWithin_of_ends env (fun h => below_call h env depth readOnly _ s caller addr input value)
      (fun rounds => ends_call (hkeeps caller rounds) depth (hread caller) hgas caller addr input nofun nofun)
      fun _ hr => ⟨hr.gas, hr.executed⟩
  · intro caller addr input value
    exact haltsWithin_of_ends env (fun h => below_callCode h env depth readOnly _ s caller addr input value)
      (fun rounds => ends_callCode (hkeeps caller rounds) depth (hread caller) hgas rfl addr input value)
      fun _ hr => ⟨hr.gas, hr.executed⟩
  · intro parent addr input
    exact haltsWithin_of_ends env (fun h => below_delegateCall h env depth readOnly _ s parent addr input)
      (fun rounds => ends_delegateCall (hkeeps parent.address rounds) depth (hread _) hgas rfl addr input)
      fun _ hr => ⟨hr.gas, hr.executed⟩
  · intro caller addr input
    exact haltsWithin_of_ends env (fun h => below_staticCall h env depth _ s caller addr input)
      (fun rounds => ends_staticCall (hkeeps caller rounds) depth hgas caller addr input)
      fun _ hr => ⟨hr.gas, hr.executed⟩
  · intro caller code value
    exact haltsWithin_of_ends env (fun h => below_create h env depth readOnly _ s caller code value)
      (fun rounds => ends_create (hkeeps caller rounds) depth (hread caller) hgas rfl rfl code nofun)
      fun _ hr => ⟨hr.gas, hr.executed⟩
  · intro caller code value salt
    exact haltsWithin_of_ends env (fun h => below_createAt h env depth readOnly _ s caller code value)
      (fun rounds => ends_create2 (hkeeps caller rounds) depth (hread caller) hgas rfl rfl code nofun salt)
      fun _ hr => ⟨hr.gas, hr.executed⟩

end Results

/-! ### Safety of every instruction -/

/-- The machines that a frame comes to, before each of its instructions. -/
inductive Visited (env : Env) (run : Runner) (depth : Nat) (readOnly : Bool) (c : Contract) (first : Machine) :
    Machine → Prop
  | start : Visited env run depth readOnly c first first
  | next {m t : Machine} (h : Visited env run depth readOnly c first m)
      (hround : round env run depth readOnly c m = .ok (none, t)) : Visited env run depth readOnly c first t

theorem Visited.paid {env : Env} {run : Runner} {rounds depth : Nat} {readOnly : Bool} {c : Contract}
    (hrun : run.Keeps ⟨false, false, c.address⟩ rounds) {gas : Nat} (hgas : gas < 2 ^ 64) {s : TxState} {m : Machine}
    (h : Visited env run depth readOnly c (.start gas s) m) : m.Paid ⟨false, false, c.address⟩ gas s := by
  induction h with
  | start => exact Machine.paid_start gas s
  | next _ hround ih =>
    have hwp : wp (round env run depth readOnly c) _ _ _ _ := wp_round hrun depth nofun rfl ih hgas
    rw [wp, hround] at hwp
    exact (hwp.1 rfl).1

/-- No code makes a frame panic. Every instruction, from every machine that a frame comes to, finds its operands and
the ranges it reads and writes, and whether it succeeds or fails the stack keeps its limit and the memory, at its price,
and the gas left stay within the gas supplied. -/
theorem execution_safe (env : Env) (rounds depth : Nat) (readOnly : Bool) (c : Contract) (gas : UInt64) (s : TxState) :
    run env rounds depth readOnly c gas.toNat s ≠ .panic ∧
      ∀ m, Visited env (run env rounds) depth readOnly c (.start gas.toNat s) m →
        wp (round env (run env rounds) depth readOnly c) (fun _ t => t.Bounded gas.toNat) (fun _ t => t.Bounded gas.toNat)
          True m := by
  have hgas : gas.toNat < 2 ^ 64 := gas.toNat_lt
  have hkeeps := run_keeps env rounds ⟨false, false, c.address⟩
  have hread : (⟨false, false, c.address⟩ : Rights).static = true → readOnly = true := nofun
  constructor
  · intro hpanic
    have hends := hkeeps.within depth readOnly c gas.toNat s hgas hread
    rw [hpanic] at hends
    exact hends
  · intro m hm
    refine wp_mono (wp_round hkeeps depth hread rfl (hm.paid hkeeps hgas) hgas) (fun _ t ht => ?_) (fun _ t ht => ?_)
      fun _ => trivial
    · exact ht.2.toBounded
    · exact ht.toBounded

end PadiChain.Evm

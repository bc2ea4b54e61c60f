import PadiChain.EvmHalt

/-! What execution does to nonces. It never takes one back, as long as none wraps, and it raises one at most once for
every instruction. An account without code that has sent a transaction stays what it is while others act: nobody else
counts its nonce, gives it code or destroys it. -/

open Function

namespace PadiChain.State

/-- The operations that give an account another nonce or code, or destroy it. -/
def TxOp.reworks (addr : Address) : TxOp → Bool
  | createAccount a | setNonce a _ | setCode a _ | selfDestruct a => decide (a = addr)
  | _ => false

namespace Ledger

/-- An account without code, with this nonce, that has not destroyed itself. -/
def External (l : Ledger) (addr : Address) (nonce : Nat) : Prop :=
  ∃ e, l addr = some e ∧ e.account.nonce = nonce ∧ e.account.code = [] ∧ e.selfDestructed = false

variable {l : Ledger} {addr : Address} {n : Nat} (h : l.External addr n)

include h

theorem External.nonce : l.nonce addr = n := by
  obtain ⟨e, he, hnonce, -⟩ := h
  rw [Ledger.nonce, he]
  exact hnonce

theorem External.code : l.code addr = [] := by
  obtain ⟨e, he, -, hcode, -⟩ := h
  rw [Ledger.code, he]
  exact hcode

theorem External.update {other : Address} (hother : addr ≠ other) (e : Option Entry) :
    External (update l other e) addr n := by
  obtain ⟨e', he', hrest⟩ := h
  exact ⟨e', (update_of_ne hother _ _).trans he', hrest⟩

theorem External.alter (other : Address) {f : Account → Account}
    (hnonce : ∀ a, (f a).nonce = a.nonce) (hcode : ∀ a, (f a).code = a.code) : (l.alter other f).External addr n := by
  by_cases hother : addr = other
  · subst hother
    obtain ⟨e, he, hn, hc, hd⟩ := h
    refine ⟨_, update_self .., ?_⟩
    rw [he]
    exact ⟨(hnonce _).trans hn, (hcode _).trans hc, hd⟩
  · exact h.update hother _

theorem External.step {op : TxOp} (hop : op.reworks addr = false) : (l.step op).External addr n := by
  cases op with
  | createAccount a | selfDestruct a | setNonce a | setCode a =>
    exact h.update (fun heq => of_decide_eq_false hop heq.symm) _
  | addBalance a amount | subBalance a amount =>
    rw [Ledger.step]
    split
    · exact h
    · exact h.alter a (fun _ => rfl) fun _ => rfl
  | setBalance a | setState a =>
    rw [Ledger.step]
    exact h.alter a (fun _ => rfl) fun _ => rfl
  | _ => exact h

theorem External.run {ops : List TxOp} (hops : ∀ op ∈ ops, op.reworks addr = false) :
    (Transition.run Ledger.step l ops).External addr n :=
  Transition.run_invariant (P := fun l => l.External addr n) (fun _ _ hop hl => hl.step hop)
    (Transition.steps_of_forall_mem hops l) h

end Ledger

end PadiChain.State

namespace PadiChain.Evm

open List

open State (TxState TxOp Ledger)

variable {rights : Rights} {es : List OpCode} {s t : TxState} {addr : Address} {n : Nat}

variable {op : TxOp}

theorem reworks_of_stores (h : op.stores = true) : op.reworks addr = false := by
  cases op <;> first | rfl | cases h

theorem reworks_of_mild (h : op.Mild s) (hs : s.ledger.External addr n) : op.reworks addr = false := by
  cases op with
  | createAccount a =>
    obtain ⟨e, he, -⟩ := hs
    refine decide_eq_false fun heq => ?_
    have habsent : s.ledger a = none := h
    rw [heq, he] at habsent
    cases habsent
  | _ => first | rfl | cases h

/-- What is done at once does not rework an account that does not act. -/
theorem Act.reworks {ops : List TxOp} (h : Act rights s es ops) (hself : rights.self ≠ addr)
    (hs : s.ledger.External addr n) : ∀ op ∈ ops, op.reworks addr = false := by
  cases h with
  | idle => exact forall_mem_nil _
  | mild h => exact forall_mem_singleton.mpr (reworks_of_mild h hs)
  | store hstatic h => exact forall_mem_singleton.mpr (reworks_of_stores h)
  | install | bump | transfer | destroy => simp [TxOp.reworks, hself]

/-- An account without code is not called into, and one with a nonce is not created again: it never acts. -/
theorem Effect.external (h : Effect rights es s t) (hs : s.Sane) (hself : rights.self ≠ addr) (hn : 0 < n)
    (hexternal : s.ledger.External addr n) : t.ledger.External addr n := by
  induction h with
  | refl s => exact hexternal
  | @act rights es s ops h =>
    rw [ledger_run h.isMark s]
    exact hexternal.run (h.reworks hself hexternal)
  | trans h h' ih ih' => exact ih' (h.sane hs) hself (ih hs hself hexternal)
  | kept h ih => exact ih hs.snapshot hself hexternal
  | @returned rights es s t u h hu ih =>
    have hledger : u.ledger = s.ledger := congrArg State.World.ledger (h.world_returned hu hs)
    rw [hledger]
    exact hexternal
  | @called rights es s t callee hcode h ih =>
    have hother : callee ≠ addr := by
      rintro rfl
      exact hcode hexternal.code
    exact ih hs hother hexternal
  | @created rights es s t created hstatic hnonce h ih =>
    have hother : created ≠ addr := by
      intro heq
      rw [heq, hexternal.nonce] at hnonce
      omega
    have hcreate : (s.ledger.step (.createAccount created)).External addr n := hexternal.step (decide_eq_false hother)
    have hnumber : ((s.ledger.step (.createAccount created)).step (.setNonce created 1)).External addr n :=
      hcreate.step (decide_eq_false hother)
    exact ih (sane_founded hs created) hother (ledger_founded s created ▸ hnumber)

/-! ### Counting -/

/-- Every nonce is at least what it was, and larger by no more than the number of instructions. -/
structure Counts (es : List OpCode) (l l' : Ledger) : Prop where
  least : ∀ addr, l.nonce addr ≤ l'.nonce addr
  most : ∀ addr, l'.nonce addr ≤ max (l.nonce addr) 1 + es.length

theorem Counts.of_eq {l l' : Ledger} (h : l'.nonce = l.nonce) : Counts es l l' := by
  refine ⟨fun addr => (congrFun h addr).ge, fun addr => ?_⟩
  rw [h]
  omega

theorem Counts.trans {fs : List OpCode} {l l' l'' : Ledger} (h : Counts es l l') (h' : Counts fs l' l'') :
    Counts (fs ++ es) l l'' := by
  refine ⟨fun addr => (h.least addr).trans (h'.least addr), fun addr => ?_⟩
  have hfirst := h.most addr
  have hsecond := h'.most addr
  rw [length_append]
  omega

theorem counts_update {l l' : Ledger} (h : l'.nonce = update l.nonce addr n) (hleast : l.nonce addr ≤ n)
    (hmost : n ≤ max (l.nonce addr) 1 + es.length) : Counts es l l' := by
  have hother := (forall_update_iff l.nonce fun other nonce => l.nonce other ≤ nonce ∧
    nonce ≤ max (l.nonce other) 1 + es.length).mpr ⟨⟨hleast, hmost⟩, fun other _ => by omega⟩
  rw [← h] at hother
  exact ⟨fun other => (hother other).1, fun other => (hother other).2⟩

theorem counts_bump {l : Ledger} {op : OpCode} (hwraps : l.nonce addr + 1 < 2 ^ 64) :
    Counts [op] l (l.step (.setNonce addr ((l.nonce addr + 1) % 2 ^ 64))) := by
  refine counts_update (Ledger.nonce_step_setNonce addr _) ?_ ?_
  · omega
  · rw [length_singleton]
    omega

theorem counts_founded (hnonce : s.ledger.nonce addr = 0) : Counts [] s.ledger (founded s addr).ledger := by
  have hfounded : (founded s addr).ledger.nonce = update s.ledger.nonce addr 1 := by
    rw [ledger_founded, Ledger.nonce_step_setNonce, Ledger.nonce_step_createAccount, update_idem]
  exact counts_update hfounded (by omega) (Nat.le_max_right _ _)

theorem nonce_mild (h : op.Mild s) : (s.ledger.step op).nonce = s.ledger.nonce := by
  cases op with
  | createAccount a =>
    have habsent : s.ledger a = none := h
    have hzero : s.ledger.nonce a = 0 := by
      rw [Ledger.nonce, habsent]
      rfl
    rw [Ledger.nonce_step_createAccount, ← hzero, update_eq_self]
  | _ => first | rfl | cases h

theorem renumbers_of_stores (h : op.stores = true) : op.renumbers = false := by
  cases op <;> first | rfl | cases h

/-- No nonce goes back, unless one wraps. -/
theorem Effect.counts (h : Effect rights es s t) (hs : s.Sane)
    (hwraps : ∀ addr, max (s.ledger.nonce addr) 1 + es.length < 2 ^ 64) : Counts es s.ledger t.ledger := by
  induction h with
  | refl s => exact .of_eq rfl
  | @act rights es s ops h =>
    have hledger := ledger_run h.isMark s
    rw [hledger]
    cases h with
    | idle => exact .of_eq rfl
    | mild h => exact .of_eq (nonce_mild h)
    | store hstatic h => exact .of_eq (Ledger.nonce_step (renumbers_of_stores h))
    | install hstatic code =>
      have hsame : (s.ledger.step (.setCode rights.self code)).nonce = s.ledger.nonce := Ledger.nonce_step rfl
      exact .of_eq hsame
    | bump =>
      have := hwraps rights.self
      rw [length_singleton] at this
      exact counts_bump (by omega)
    | transfer =>
      refine .of_eq ?_
      simp only [Transition.run_cons, Transition.run_nil]
      rw [Ledger.nonce_step rfl, Ledger.nonce_step rfl]
    | destroy =>
      refine .of_eq ?_
      simp only [Transition.run_cons, Transition.run_nil]
      rw [Ledger.nonce_step rfl, Ledger.nonce_step rfl, Ledger.nonce_step rfl]
  | @trans rights es fs s t u h h' ih ih' =>
    have hlength : (fs ++ es).length = fs.length + es.length := length_append
    have hfirst := ih hs fun addr => by
      have := hwraps addr
      omega
    refine hfirst.trans (ih' (h.sane hs) fun addr => ?_)
    have hmost := hfirst.most addr
    have := hwraps addr
    omega
  | kept h ih => exact ih hs.snapshot hwraps
  | returned h hu ih => exact .of_eq (congrArg Ledger.nonce (congrArg State.World.ledger (h.world_returned hu hs)))
  | called hcode h ih => exact ih hs hwraps
  | @created rights es s t created hstatic hnonce h ih =>
    have hfounded := counts_founded hnonce
    have hrest := ih (sane_founded hs created) fun addr => by
      have hmost := hfounded.most addr
      have := hwraps addr
      rw [length_nil] at hmost
      omega
    have htotal := hfounded.trans hrest
    rw [append_nil] at htotal
    exact htotal

end PadiChain.Evm

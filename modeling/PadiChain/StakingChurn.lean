import PadiChain.StakingMachine

/-! The exit queue. Each exit the queue gives out is logged with the epoch it was assigned and the
churn limit in force at that moment. `ProcessEpoch` loads the queue counters before its steps and
writes that copy back after them, so the counters forget the exits its own ejections queued; the
bound below is about runs in which no epoch transition ejects a validator. -/

namespace PadiChain.Staking

open Transition List

structure QueuedExit where
  validator : Address
  exitEpoch : Nat
  limit : Nat
  deriving DecidableEq, Repr

/-- The queued exit a `RequestExit` call assigns, if it assigns one. A pending validator leaves
without the queue. -/
def queuedExit (s : StateDB) (validator : Address) (epoch : Nat) : List QueuedExit :=
  match requestExit s validator epoch with
  | .error _ => []
  | .ok (v, _) =>
    if v.status = .exiting then
      [⟨validator, v.exitEpoch, churnLimit (s.registry.activeAt epoch).length⟩]
    else []

def ejectedExits (epoch : Nat) : StateDB × EpochReport → List Validator → List QueuedExit
  | _, [] => []
  | acc, v :: vs =>
    (match acc.1.registry.get v.index with
      | none => []
      | some current =>
        if current.status = .active ∧ current.balance < ejectionBalance then
          queuedExit acc.1 current.address epoch
        else []) ++ ejectedExits epoch (eject epoch acc v) vs

def queuedBy (s : StateDB) : Op → List QueuedExit
  | .requestExit validator epoch => queuedExit s validator epoch
  | .processEpoch epoch participation finalizedEpoch =>
    match processEpoch s epoch participation finalizedEpoch with
    | .error _ => []
    | .ok _ =>
      let charged := chargeEpoch s epoch participation finalizedEpoch
      ejectedExits epoch charged.2 charged.1
  | .deposit .. | .depositWithKey .. | .slash .. | .withdraw .. => []

def queuedExits (bls : Bls) (s : StateDB) (ops : List Op) : List QueuedExit :=
  log (step bls) queuedBy s ops

/-- No epoch was given to more exits than the limit in force at each assignment allows. -/
def ChurnBounded (log : List QueuedExit) : Prop :=
  ∀ earlier q later, log = earlier ++ q :: later →
    (earlier.filter fun p => p.exitEpoch = q.exitEpoch).length + 1 ≤ q.limit

theorem churnBounded_nil : ChurnBounded [] := by
  intro earlier q later h
  simp at h

variable {log : List QueuedExit} {limit epoch finalizedEpoch : Nat} {state : EpochState} {s s' : StateDB}
  {participation : Option Participation}

theorem ChurnBounded.concat {q : QueuedExit} (h : ChurnBounded log)
    (hq : (log.filter fun p => p.exitEpoch = q.exitEpoch).length + 1 ≤ q.limit) : ChurnBounded (log ++ [q]) := by
  intro earlier p later hsplit
  rcases eq_nil_or_concat later with rfl | ⟨rest, last, rfl⟩
  · obtain ⟨hlog, hlast⟩ := append_inj' hsplit rfl
    rw [← hlog, ← singleton_inj.mp hlast]
    exact hq
  · have hsplit' : log ++ [q] = (earlier ++ p :: rest) ++ [last] := by
      rw [hsplit]
      simp
    exact h earlier p rest (append_inj' hsplit' rfl).1

theorem churnLimit_pos {activeCount : Nat} : 0 < churnLimit activeCount := by
  unfold churnLimit
  split
  · decide
  · rename_i h
    exact lt_of_lt_of_le (by decide) (not_lt.mp h)

/-- Scheduling either takes the next place in the current epoch of the queue, or opens a later one. -/
theorem EpochState.scheduleExit_cases (state : EpochState) (epoch : Nat) (hlimit : 0 < limit) :
    (state.scheduleExit epoch limit).exitQueueEpoch = state.exitQueueEpoch ∧
        state.exitQueueCount < limit ∧
        (state.scheduleExit epoch limit).exitQueueCount = state.exitQueueCount + 1 ∨
      state.exitQueueEpoch < (state.scheduleExit epoch limit).exitQueueEpoch ∧
        (state.scheduleExit epoch limit).exitQueueCount = 1 := by
  unfold EpochState.scheduleExit
  dsimp only
  split
  · rename_i hearly
    rw [if_neg (not_le.mpr hlimit)]
    exact .inr ⟨hearly, rfl⟩
  · split_ifs with hfull
    · exact .inr ⟨Nat.lt_succ_self _, rfl⟩
    · exact .inl ⟨rfl, not_le.mp hfull, rfl⟩

/-- What the queue counters know about the log: no exit was assigned past the queue's epoch, and the
counter is at least the number assigned to it. -/
structure QueueCovers (log : List QueuedExit) (state : EpochState) : Prop where
  le_queue : ∀ q ∈ log, q.exitEpoch ≤ state.exitQueueEpoch
  count_le : (log.filter fun q => q.exitEpoch = state.exitQueueEpoch).length ≤ state.exitQueueCount
  bounded : ChurnBounded log

theorem QueueCovers.schedule (h : QueueCovers log state) (validator : Address) (epoch : Nat) (hlimit : 0 < limit) :
    QueueCovers (log ++ [⟨validator, (state.scheduleExit epoch limit).exitQueueEpoch, limit⟩])
      (state.scheduleExit epoch limit) := by
  rcases state.scheduleExit_cases epoch hlimit with ⟨hepoch, hroom, hcount⟩ | ⟨hlater, hcount⟩
  · refine ⟨?_, ?_, h.bounded.concat ?_⟩
    · refine forall_mem_append.mpr ⟨?_, forall_mem_singleton.mpr le_rfl⟩
      rw [hepoch]
      exact h.le_queue
    · have hcover := h.count_le
      rw [hcount, hepoch, filter_append, length_append]
      simpa using hcover
    · have hcover := h.count_le
      dsimp only
      rw [hepoch]
      omega
  · have hnone : (log.filter fun q => q.exitEpoch = (state.scheduleExit epoch limit).exitQueueEpoch) = [] := by
      rw [filter_eq_nil_iff]
      intro q hq heq
      have hle := h.le_queue q hq
      rw [of_decide_eq_true heq] at hle
      exact absurd hlater (not_lt.mpr hle)
    refine ⟨?_, ?_, h.bounded.concat ?_⟩
    · refine forall_mem_append.mpr ⟨fun q hq => ?_, forall_mem_singleton.mpr le_rfl⟩
      exact (h.le_queue q hq).trans hlater.le
    · rw [hcount, filter_append, hnone, nil_append]
      exact length_filter_le _ _
    · dsimp only
      rw [hnone]
      exact hlimit

theorem QueueCovers.congr {state' : EpochState} (h : QueueCovers log state)
    (hepoch : state'.exitQueueEpoch = state.exitQueueEpoch)
    (hcount : state'.exitQueueCount = state.exitQueueCount) : QueueCovers log state' :=
  ⟨by rw [hepoch]; exact h.le_queue, by rw [hepoch, hcount]; exact h.count_le, h.bounded⟩

theorem QueueCovers.requestExit (h : QueueCovers log s.registry.epochState) (validator : Address) (epoch : Nat) :
    QueueCovers (log ++ queuedExit s validator epoch)
      (afterCall s (requestExit s validator epoch) (·.2)).registry.epochState := by
  unfold queuedExit
  cases hexit : Staking.requestExit s validator epoch with
  | error e =>
    rw [append_nil]
    exact h
  | ok result =>
    obtain ⟨v', s'⟩ := result
    obtain ⟨v, hv, ⟨hstatus, rfl, rfl⟩ | ⟨hstatus, rfl, rfl⟩⟩ := requestExit_ok hexit
    · exact h.schedule validator epoch churnLimit_pos
    · have hleft : (leftRecord v epoch).status ≠ .exiting := fun h => Status.noConfusion h
      dsimp only
      rw [if_neg hleft, append_nil]
      exact h

def storedEpochBalance (s : StateDB) (epoch : Nat) (participation : Option Participation)
    (finalizedEpoch : Nat) (v : Validator) : Nat :=
  epochBalance (s.registry.totalActiveStake epoch) (finalityDelay epoch finalizedEpoch) participation v
    % 2 ^ 256

/-- The charged record of a validator that was active: its balance is settled, nothing else moves. -/
theorem chargeEpoch_get {v : Validator}
    (hv : v ∈ s.registry.activeAt epoch) (participation : Option Participation) (finalizedEpoch : Nat) :
    (chargeEpoch s epoch participation finalizedEpoch).2.1.registry.get v.index
      = some (v.setBalance (epochBalance (s.registry.totalActiveStake epoch)
          (finalityDelay epoch finalizedEpoch) participation v)).packed := by
  obtain ⟨hget, hactive⟩ := Registry.mem_activeAt.mp hv
  unfold chargeEpoch
  dsimp only
  rw [finishExits_activeAt]
  set finished := finishExits epoch (s.registry, newReport epoch finalizedEpoch) with hfinished
  have hfinish : finished.1.get v.index = some v := by
    have hdue : ¬ exitDue epoch v = true := by
      intro h
      rw [isActiveAt_of_exitDue h] at hactive
      cases hactive
    rw [hfinished, finishExits_registry, Registry.get_updateWhere (by intro v; rfl)]
    rw [hget, Option.map_some, if_neg hdue]
  have hset : finished.1.activeAt epoch = s.registry.activeAt epoch := finishExits_activeAt epoch _
  set settled := settleAll ((s.registry.activeAt epoch).map (·.effectiveBalance)).sum
    (finalityDelay epoch finalizedEpoch) participation (s.registry.activeAt epoch) finished with hsettled
  have hsettle : settled.1.get v.index = some (v.setBalance (epochBalance
      (s.registry.totalActiveStake epoch) (finalityDelay epoch finalizedEpoch) participation v)).packed := by
    rw [hsettled, ← hset, settleAll_get, hfinish, Option.map_some, if_pos hactive, hset]
    rfl
  have hnotSlashed : v.status ≠ .slashed := by
    intro h
    unfold Validator.isActiveAt at hactive
    rw [h] at hactive
    cases hactive
  rcases applyCorrelationPenalties_registry epoch
    (payStakingAccount (s.setRegistry settled.1) settled.2, settled.2) with
    hsame | ⟨correlated, totalStake, hwrite⟩
  · have hcharge := congrArg (fun r : Registry => r.get v.index) hsame
    rw [payStakingAccount_registry, StateDB.setRegistry_registry, hsettle] at hcharge
    rw [StateDB.setRegistry_registry, Registry.get_resetSlashedStake, hcharge]
  · have hcharge := congrArg (fun r : Registry => r.get v.index) hwrite
    rw [Registry.get_updateWhere (by intro v; rfl), payStakingAccount_registry,
      StateDB.setRegistry_registry, hsettle, Option.map_some, if_neg] at hcharge
    · rw [StateDB.setRegistry_registry, Registry.get_resetSlashedStake, hcharge]
    · intro hdue
      exact hnotSlashed (of_decide_eq_true hdue).1

/-- A call that leaves every active validator at or above the ejection balance: an epoch transition
whose rewards and penalties do so, or any other call. -/
def EjectsNone (s : StateDB) : Op → Prop
  | .processEpoch epoch participation finalizedEpoch =>
    ∀ v ∈ s.registry.activeAt epoch, v.status = .active →
      ejectionBalance ≤ storedEpochBalance s epoch participation finalizedEpoch v
  | _ => True

instance (s : StateDB) (op : Op) : Decidable (EjectsNone s op) := by
  cases op <;> unfold EjectsNone <;> infer_instance

section

variable (h : EjectsNone s (.processEpoch epoch participation finalizedEpoch))

include h

theorem ejectedExits_of_ejectsNone {vs : List Validator} (hvs : ∀ v ∈ vs, v ∈ s.registry.activeAt epoch) :
    ejectedExits epoch (chargeEpoch s epoch participation finalizedEpoch).2 vs = [] := by
  set acc := (chargeEpoch s epoch participation finalizedEpoch).2 with hacc
  induction vs with
  | nil => rfl
  | cons v vs ih =>
    have hmem := hvs v mem_cons_self
    have hget := chargeEpoch_get hmem participation finalizedEpoch
    set current := (v.setBalance (epochBalance (s.registry.totalActiveStake epoch)
      (finalityDelay epoch finalizedEpoch) participation v)).packed with hcurrent
    have hkeep : ¬ (current.status = .active ∧ current.balance < ejectionBalance) := by
      rintro ⟨hstatus, hbalance⟩
      exact absurd (h v hmem hstatus) (not_le.mpr hbalance)
    have heject : eject epoch acc v = acc := by
      unfold eject
      rw [hget]
      dsimp only
      rw [if_neg hkeep]
    rw [ejectedExits, heject, ih fun w hw => hvs w (mem_cons_of_mem _ hw), hget]
    dsimp only
    rw [if_neg hkeep, nil_append]

theorem queuedBy_processEpoch : queuedBy s (.processEpoch epoch participation finalizedEpoch) = [] := by
  have hactive : (chargeEpoch s epoch participation finalizedEpoch).1 = s.registry.activeAt epoch :=
    finishExits_activeAt epoch _
  rw [queuedBy]
  split
  · rfl
  · dsimp only
    rw [hactive]
    exact ejectedExits_of_ejectsNone h fun v hv => hv

end

theorem processEpoch_epochState {report : EpochReport}
    (h : processEpoch s epoch participation finalizedEpoch = .ok (report, s')) :
    s'.registry.epochState =
      { s.registry.epochState with lastProcessedEpoch := epoch, finalizedEpoch := finalizedEpoch } := by
  unfold processEpoch at h
  dsimp only at h
  split at h
  · cases h
  · cases h
    rfl

theorem deposit_epochState {validator withdrawal : Address} {amount : Nat}
    {v' : Validator} (h : deposit s validator withdrawal amount = .ok (v', s')) :
    s'.registry.epochState = s.registry.epochState := by
  rcases deposit_ok h with ⟨v, -, -, rfl⟩ | ⟨-, -, rfl⟩
  · rfl
  · rfl

theorem QueueCovers.call (h : QueueCovers log s.registry.epochState)
    {α : Type} {result : Except StakingError α} {state : α → StateDB}
    (hsame : ∀ a, result = .ok a → (state a).registry.epochState = s.registry.epochState) :
    QueueCovers (log ++ []) (afterCall s result state).registry.epochState := by
  rw [append_nil]
  refine afterCall_cases (P := fun t => QueueCovers log t.registry.epochState) h fun a ha => ?_
  rw [hsame a ha]
  exact h

theorem QueueCovers.step (bls : Bls) {op : Op} (hop : EjectsNone s op) (h : QueueCovers log s.registry.epochState) :
    QueueCovers (log ++ queuedBy s op) (step bls s op).registry.epochState := by
  cases op with
  | deposit validator withdrawal amount => exact h.call fun a ha => deposit_epochState ha
  | depositWithKey validator withdrawal blsKey possession amount =>
    refine h.call fun a ha => ?_
    obtain ⟨v, s₁, hdeposit, ⟨-, hs⟩ | ⟨-, -, hs⟩⟩ := depositWithKey_ok ha
    · rw [hs, deposit_epochState hdeposit]
    · rw [hs, StateDB.setRegistry_registry, Registry.put_epochState, deposit_epochState hdeposit]
  | requestExit validator epoch => exact h.requestExit validator epoch
  | slash validator epoch =>
    refine h.call fun a ha => ?_
    obtain ⟨v, -, -, -, hs⟩ := slash_ok ha
    rw [hs]
    rfl
  | withdraw validator epoch =>
    refine h.call fun a ha => ?_
    obtain ⟨v, -, -, -, -, hs⟩ := withdraw_ok ha
    rw [hs]
    rfl
  | processEpoch epoch participation finalizedEpoch =>
    rw [queuedBy_processEpoch hop, append_nil]
    refine afterCall_cases (P := fun t => QueueCovers log t.registry.epochState) h fun a ha => ?_
    rw [processEpoch_epochState ha]
    exact h.congr rfl rfl

/-- In every run whose epoch transitions leave each active validator at or above the ejection balance,
no epoch is given to more exits than the churn limit in force at the assignments. -/
theorem queuedExits_churnBounded (bls : Bls) (s : StateDB) (ops : List Op)
    (h : Steps (step bls) EjectsNone s ops) : ChurnBounded (queuedExits bls s ops) := by
  have hstart : QueueCovers [] s.registry.epochState := by
    refine ⟨?_, Nat.zero_le _, churnBounded_nil⟩
    intro q hq
    cases hq
  exact (log_invariant (P := fun log s => QueueCovers log s.registry.epochState)
    (fun _ _ _ hop hcovers => hcovers.step bls hop) h hstart).bounded

/-- Two deposits, their activation and an exit, with no balance near the ejection balance. -/
theorem queuedExits_churnBounded_example :
    let ops : List Op := [.deposit 1 0 (32 * ether), .deposit 2 0 (32 * ether), .processEpoch 1 none 0,
      .processEpoch 2 (some ⟨fun _ => true, fun _ => 0⟩) 1, .requestExit 1 2]
    Steps (step Bls.plain) EjectsNone StateDB.empty ops ∧
      ChurnBounded (queuedExits Bls.plain StateDB.empty ops) :=
  have hsteps : Steps (step Bls.plain) EjectsNone StateDB.empty
      [.deposit 1 0 (32 * ether), .deposit 2 0 (32 * ether), .processEpoch 1 none 0,
        .processEpoch 2 (some ⟨fun _ => true, fun _ => 0⟩) 1, .requestExit 1 2] := by
    decide +kernel
  ⟨hsteps, queuedExits_churnBounded _ _ _ hsteps⟩

/-- Five validators join. In epoch 70000, with no block ever finalized, the one that did not attest
loses its stake to the leak and is ejected; the other four then ask to leave. -/
def ejectionRun : List Op :=
  (List.range 5).map (fun i => .deposit (BitVec.ofNat 160 (i + 1)) 0 (32 * ether)) ++
    [.processEpoch 1 none 0, .processEpoch 2 none 0,
      .processEpoch 70000 (some ⟨fun a => decide (1 < a.toNat), fun _ => 0⟩) 0] ++
    (List.range 4).map fun i => .requestExit (BitVec.ofNat 160 (i + 2)) 70000

theorem queuedExits_ejectionRun : queuedExits Bls.plain StateDB.empty ejectionRun
    = (List.range 5).map fun i => ⟨BitVec.ofNat 160 (i + 1), 70001, 4⟩ := by
  decide +kernel

/-- All five leave in epoch 70001, where the churn limit was four at every assignment. -/
theorem ejectionRun_not_churnBounded : ¬ ChurnBounded (queuedExits Bls.plain StateDB.empty ejectionRun) := by
  rw [queuedExits_ejectionRun]
  intro h
  exact absurd (h ((range 4).map fun i => ⟨BitVec.ofNat 160 (i + 1), 70001, 4⟩) ⟨5, 70001, 4⟩ [] rfl)
    (by decide)

end PadiChain.Staking

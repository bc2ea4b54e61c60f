import Mathlib.Data.Rat.Floor

/-! What a server holds against its peers: a score that penalties lower and time restores, and a budget of tokens
for the messages of a connection. Times are in nanoseconds. -/

namespace PadiChain.P2P

def penaltyBadMessage : Int := 10

def penaltyInvalidBlock : Int := 25

def penaltyFlood : Int := 20

def initialScore : Int := 100

def banThreshold : Int := 0

def second : Nat := 1000000000

def banDuration : Nat := 30 * 60 * second

def recoveryInterval : Nat := 60 * second

def recoveryAmount : Int := 5

structure Reputation where
  score : Int
  lastRecover : Nat
  bannedUntil : Nat
  deriving DecidableEq, Repr

/-- `recoverLocked`: restore the score for the time that has passed. -/
def Reputation.recover (now : Nat) (r : Reputation) : Reputation :=
  let elapsed := now - r.lastRecover
  if elapsed < recoveryInterval then r
  else
    let intervals : Nat := elapsed / recoveryInterval
    { r with score := min initialScore (r.score + intervals * recoveryAmount), lastRecover := now }

def Scoreboard (ι : Type) : Type := ι → Option Reputation

namespace Scoreboard

variable {ι : Type} [DecidableEq ι]

/-- `entry`: a peer that is not listed starts with the full score. -/
def entry (now : Nat) (id : ι) (b : Scoreboard ι) : Reputation := (b id).getD ⟨initialScore, now, 0⟩

/-- `penalise`: lower a score; a peer that runs out of it is banned, and gets half of it back. -/
def penalise (now : Nat) (id : ι) (amount : Int) (b : Scoreboard ι) : Bool × Scoreboard ι :=
  let r := (b.entry now id).recover now
  let r := { r with score := r.score - amount }
  if r.score ≤ banThreshold then
    (true, Function.update b id (some { r with bannedUntil := now + banDuration, score := initialScore / 2 }))
  else (false, Function.update b id (some r))

def isBanned (now : Nat) (id : ι) (b : Scoreboard ι) : Bool :=
  match b id with
  | none => false
  | some r => decide (now < r.bannedUntil)

def scoreOf (now : Nat) (id : ι) (b : Scoreboard ι) : Int × Scoreboard ι :=
  let r := (b.entry now id).recover now
  (r.score, Function.update b id (some r))

end Scoreboard

structure RateLimiter where
  tokens : ℚ
  capacity : ℚ
  refill : ℚ
  last : Nat

namespace RateLimiter

def tokensAt (now : Nat) (r : RateLimiter) : ℚ :=
  min r.capacity (r.tokens + ((now - r.last : Nat) : ℚ) / second * r.refill)

def allowN (now : Nat) (n : ℚ) (r : RateLimiter) : Bool × RateLimiter :=
  if r.tokensAt now < n then (false, { r with tokens := r.tokensAt now, last := now })
  else (true, { r with tokens := r.tokensAt now - n, last := now })

/-- The budget of a connection: 200 tokens, and 50 more in a second. -/
def ofPeer (now : Nat) : RateLimiter := ⟨200, 200, 50, now⟩

end RateLimiter

/-! ### Looking at a score -/

namespace Reputation

variable {r : Reputation} {x y : Option Reputation} {now later phase : Nat}

/-- At a whole number of intervals no time is lost. -/
theorem recover_recover (hlast : r.lastRecover ≤ now) (hle : now ≤ later)
    (hnow : now % recoveryInterval = r.lastRecover % recoveryInterval)
    (hlater : later % recoveryInterval = now % recoveryInterval) :
    (r.recover now).lastRecover = now ∧ (r.recover now).recover later = r.recover later := by
  obtain ⟨score, last, banned⟩ := r
  simp only [recover] at *
  by_cases hsoon : now - last < recoveryInterval
  · rw [if_pos hsoon]
    refine ⟨?_, rfl⟩
    simp only [recoveryInterval, second] at *
    omega
  · rw [if_neg hsoon]
    refine ⟨rfl, ?_⟩
    split_ifs
    all_goals
      simp only [recoveryInterval, second, initialScore, recoveryAmount, mk.injEq, and_true] at *
      omega

/-- The record of a peer, if it is listed, once it has recovered. -/
def level (now : Nat) (x : Option Reputation) : Reputation := (x.getD ⟨initialScore, now, 0⟩).recover now

/-- From now on, at the phase of the interval, two entries recover alike. -/
structure Alike (phase now : Nat) (x y : Option Reputation) : Prop where
  listed : ∀ r ∈ x, r.lastRecover ≤ now ∧ r.lastRecover % recoveryInterval = phase
  level : ∀ t, now ≤ t → t % recoveryInterval = phase → level t x = level t y
  banned : x.elim 0 bannedUntil = y.elim 0 bannedUntil

theorem Alike.recover_level (h : Alike phase now x y) (hle : now ≤ later) (hnow : now % recoveryInterval = phase)
    (hlater : later % recoveryInterval = phase) :
    (Reputation.level now x).lastRecover = now ∧ (Reputation.level now x).recover later = Reputation.level later x := by
  cases x with
  | none =>
    -- the full score stays full, from whenever it is counted
    have hfull : (⟨initialScore, now, 0⟩ : Reputation).recover later = Reputation.level later none := by
      simp only [Reputation.level, recover, Option.getD_none]
      split_ifs
      all_goals
        simp only [recoveryInterval, second, initialScore, recoveryAmount, mk.injEq, true_and, and_true] at *
        omega
    rw [← hfull]
    exact recover_recover le_rfl hle rfl (hlater.trans hnow.symm)
  | some r =>
    obtain ⟨hlast, hphase⟩ := h.listed r rfl
    exact recover_recover hlast hle (hnow.trans hphase.symm) (hlater.trans hnow.symm)

theorem Alike.look (h : Alike phase now x y) (hnow : now % recoveryInterval = phase) :
    Alike phase now (some (Reputation.level now x)) y := by
  refine ⟨?_, fun t hle ht => (h.recover_level hle hnow ht).2.trans (h.level t hle ht), ?_⟩
  · rintro _ ⟨⟩
    rw [(h.recover_level le_rfl hnow hnow).1]
    exact ⟨le_rfl, hnow⟩
  · rw [← h.banned]
    cases x with
    | none | some r => exact (apply_ite bannedUntil _ _ _).trans (ite_self _)

theorem Alike.mono (h : Alike phase now x y) (hle : now ≤ later) : Alike phase later x y :=
  { h with
    listed := fun r hr => (h.listed r hr).imp_left hle.trans'
    level := fun t ht => h.level t (hle.trans ht) }

end Reputation

open Reputation

namespace Scoreboard

variable {ι : Type} [DecidableEq ι]

inductive Call (ι : Type) where
  | penalise (peer : ι) (amount : Int)
  | scoreOf (peer : ι)
  | isBanned (peer : ι)

def Call.isPenalty : Call ι → Bool
  | .penalise .. => true
  | _ => false

/-- The answer to a call, and the scoreboard after it. -/
def call (b : Scoreboard ι) (now : Nat) : Call ι → (Bool ⊕ Int) × Scoreboard ι
  | .penalise peer amount => (.inl (b.penalise now peer amount).1, (b.penalise now peer amount).2)
  | .scoreOf peer => (.inr (b.scoreOf now peer).1, (b.scoreOf now peer).2)
  | .isBanned peer => (.inl (b.isBanned now peer), b)

/-- The scoreboard after calls with their times, the latest first. -/
def after : List (Nat × Call ι) → Scoreboard ι
  | [] => fun _ => none
  | (now, c) :: earlier => ((after earlier).call now c).2

/-- A call that recovers a peer comes at the peer's phase of the interval. -/
def OnTime (phase : ι → Nat) : Nat × Call ι → Prop
  | (now, .penalise id _) | (now, .scoreOf id) => now % recoveryInterval = phase id
  | (_, .isBanned _) => True

variable {phase : ι → Nat} {now : Nat} {b d : Scoreboard ι} {c : Call ι} {run : List (Nat × Call ι)}

theorem update_apply (b : Scoreboard ι) (peer id : ι) (x : Option Reputation) :
    Function.update b peer x id = if id = peer then x else b id := Function.update_apply b peer x id

/-- What a penalty does depends on the record that has recovered. -/
theorem penalise_eq (now : Nat) (peer : ι) (amount : Int) (r : Reputation) : ∃ answer r', r'.lastRecover = r.lastRecover ∧
    ∀ b : Scoreboard ι, level now (b peer) = r →
      b.penalise now peer amount = (answer, Function.update b peer (some r')) := by
  by_cases hban : r.score - amount ≤ banThreshold
  · refine ⟨true, ⟨initialScore / 2, r.lastRecover, now + banDuration⟩, rfl, ?_⟩
    rintro b rfl
    exact if_pos hban
  · refine ⟨false, { r with score := r.score - amount }, rfl, ?_⟩
    rintro b rfl
    exact if_neg hban

/-- A call answers alike with and without the queries before it, and so will later calls. -/
theorem call_alike (h : ∀ id, Alike (phase id) now (b id) (d id)) (hc : OnTime phase (now, c)) :
    (b.call now c).1 = (d.call now c).1 ∧
      ∀ id, Alike (phase id) now ((b.call now c).2 id) ((if c.isPenalty then (d.call now c).2 else d) id) := by
  cases c with
  | penalise peer amount =>
    obtain ⟨answer, r, hr, heq⟩ := penalise_eq now peer amount (level now (b peer))
    have hd := heq d ((h peer).level now le_rfl hc).symm
    simp only [call, Call.isPenalty, ↓reduceIte, heq b rfl, hd, update_apply, true_and]
    intro id
    split_ifs with hid
    · refine ⟨?_, fun _ _ _ => rfl, rfl⟩
      rintro _ ⟨⟩
      rw [hr, ((h peer).recover_level le_rfl hc hc).1, hid]
      exact ⟨le_rfl, hc⟩
    · exact h id
  | scoreOf peer =>
    refine ⟨congrArg (fun r : Reputation => Sum.inr r.score) ((h peer).level now le_rfl hc), fun id => ?_⟩
    simp only [call, Call.isPenalty, Bool.false_eq_true, ↓reduceIte, scoreOf, update_apply]
    split_ifs with hid
    · exact hid ▸ (h peer).look hc
    · exact h id
  | isBanned peer =>
    have hbanned : ∀ b : Scoreboard ι, b.isBanned now peer = decide (now < (b peer).elim 0 bannedUntil) := by
      intro b
      rw [isBanned]
      cases b peer with
      | none => simp
      | some r => rfl
    refine ⟨congrArg Sum.inl ?_, h⟩
    rw [hbanned, hbanned, (h peer).banned]

theorem alike_after (hsorted : run.Pairwise fun later earlier => earlier.1 ≤ later.1)
    (htimes : ∀ p ∈ run, OnTime phase p) (hnow : ∀ p ∈ run, p.1 ≤ now) (id : ι) :
    Alike (phase id) now (after run id) (after (run.filter (·.2.isPenalty)) id) := by
  induction run generalizing now id with
  | nil => exact ⟨nofun, fun _ _ _ => rfl, rfl⟩
  | cons p run ih =>
    obtain ⟨hlast, hsorted⟩ := List.pairwise_cons.mp hsorted
    obtain ⟨hp, htimes⟩ := List.forall_mem_cons.mp htimes
    have hcall := ((call_alike (ih hsorted htimes hlast) hp).2 id).mono (hnow p List.mem_cons_self)
    rw [List.filter_cons]
    cases hpenalty : p.2.isPenalty with
    | true | false => simpa [hpenalty, after] using hcall

/-- Queries at whole intervals change no answer, and what a score recovers depends only on the time that passes. -/
theorem answers_without_queries (hsorted : List.Pairwise (fun later earlier => earlier.1 ≤ later.1) ((now, c) :: run))
    (htimes : ∀ p ∈ (now, c) :: run, OnTime phase p) :
    ((after run).call now c).1 = ((after (run.filter (·.2.isPenalty))).call now c).1 ∧
      ∀ id later, now % recoveryInterval = phase id → now ≤ later → later % recoveryInterval = phase id →
        (level now (after ((now, c) :: run) id)).lastRecover = now ∧
          level later (after ((now, c) :: run) id) = (level now (after ((now, c) :: run) id)).recover later := by
  obtain ⟨hlast, hrun⟩ := List.pairwise_cons.mp hsorted
  obtain ⟨hc, hearlier⟩ := List.forall_mem_cons.mp htimes
  refine ⟨(call_alike (alike_after hrun hearlier hlast) hc).1, fun id later hnow hle hlater => ?_⟩
  have halike := alike_after hsorted htimes (List.forall_mem_cons.mpr ⟨le_rfl, hlast⟩) id
  exact (halike.recover_level hle hnow hlater).imp_right Eq.symm

/-- A look at 119 seconds drops 59 of them, so that at 178 seconds a minute is missing. -/
theorem query_loses_time :
    ((after [(119 * second, .scoreOf ()), (0, .penalise () 50)]).call (178 * second) (.scoreOf ())).1 = .inr 55 ∧
      ((after [(0, .penalise () 50)]).call (178 * second) (.scoreOf ())).1 = .inr 60 := by
  decide

theorem answers_without_queries_two_minutes :
    ((after [(120 * second, .scoreOf ()), (0, .penalise () 50)]).call (180 * second) (.scoreOf ())).1 = .inr 65 := by
  have htimes : ∀ p ∈ [(180 * second, Call.scoreOf ()), (120 * second, .scoreOf ()), (0, .penalise () 50)],
      OnTime (fun _ => 0) p := by
    simp [OnTime, recoveryInterval, second]
  exact (answers_without_queries (by decide) htimes).1.trans (by decide)

end Scoreboard

end PadiChain.P2P

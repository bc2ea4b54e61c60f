import PadiChain.StakingLifecycle

/-! The stake-weighted draw of a proposer. The draw is taken modulo the total stake; the targets that
select a validator are an interval as long as its effective balance, so the draw is weighted exactly
and the last line of `ProposerAt` is never reached. It also means that a validator without stake is
never selected, whatever the round. -/

namespace PadiChain.Staking

open Registry List

/-- The validator the loop of `ProposerAt` stops at. -/
def drawn (target : Nat) : Nat → List Validator → Option Validator
  | _, [] => none
  | cumulative, v :: rest =>
    if target < cumulative + v.effectiveBalance then some v
    else drawn target (cumulative + v.effectiveBalance) rest

def stakeOf (vs : List Validator) : Nat := (vs.map (·.effectiveBalance)).sum

variable {target cumulative : Nat} {vs before after : List Validator} {v : Validator}

@[simp] theorem stakeOf_cons (v : Validator) (vs : List Validator) :
    stakeOf (v :: vs) = v.effectiveBalance + stakeOf vs := sum_cons

/-- The loop stops at a validator of the list, which has stake, and gives its address. -/
theorem drawn_spec (active : List Validator) (h : drawn target cumulative vs = some v) :
    v ∈ vs ∧ (cumulative ≤ target → 0 < v.effectiveBalance) ∧
      proposerAt.pick active target cumulative vs = some v.address := by
  induction vs generalizing cumulative with
  | nil => cases h
  | cons w vs ih =>
    rw [drawn] at h
    rw [proposerAt.pick]
    split at h
    · rename_i hhere
      cases h
      exact ⟨mem_cons_self, fun hle => by omega, if_pos hhere⟩
    · rename_i hnext
      obtain ⟨hmem, hpos, hpick⟩ := ih h
      rw [if_neg hnext]
      exact ⟨mem_cons_of_mem w hmem, fun _ => hpos (not_lt.mp hnext), hpick⟩

theorem mem_of_drawn (h : drawn target cumulative vs = some v) : v ∈ vs := (drawn_spec [] h).1

/-- Every target below the total stops the loop. -/
theorem exists_drawn (h : target < cumulative + stakeOf vs) (hle : cumulative ≤ target) :
    ∃ v, drawn target cumulative vs = some v := by
  induction vs generalizing cumulative with
  | nil => exact absurd hle (not_le.mpr h)
  | cons w vs ih =>
    rw [drawn]
    split
    · exact ⟨w, rfl⟩
    · rename_i hnext
      rw [stakeOf_cons, ← Nat.add_assoc] at h
      exact ih h (not_lt.mp hnext)

/-- The targets that select a validator: those between the stake before it and its own. -/
theorem drawn_eq_some_iff (hbefore : v ∉ before) (hafter : v ∉ after) (hle : cumulative ≤ target) :
    drawn target cumulative (before ++ v :: after) = some v ↔
      cumulative + stakeOf before ≤ target ∧ target < cumulative + stakeOf before + v.effectiveBalance := by
  induction before generalizing cumulative with
  | nil =>
    rw [nil_append, drawn]
    split
    · rename_i hhere
      exact iff_of_true rfl ⟨hle, hhere⟩
    · rename_i hnext
      refine iff_of_false (fun h => hafter (mem_of_drawn h)) fun h => hnext h.2
  | cons w before ih =>
    rw [mem_cons, not_or] at hbefore
    rw [cons_append, drawn, stakeOf_cons, ← Nat.add_assoc]
    split
    · rename_i hhere
      refine iff_of_false (fun h => hbefore.1 (Option.some.inj h).symm) fun h => ?_
      omega
    · rename_i hnext
      exact ih hbefore.2 (not_lt.mp hnext)

theorem drawn_activeAt_iff {r : Registry} {epoch : Nat} (heq : r.activeAt epoch = before ++ v :: after)
    (target : Nat) : drawn target 0 (r.activeAt epoch) = some v ↔
      stakeOf before ≤ target ∧ target < stakeOf before + v.effectiveBalance := by
  have hnodup : (r.activeAt epoch).Nodup := (nodup_all.of_map _).filter _
  rw [heq, nodup_middle, nodup_cons, mem_append, not_or] at hnodup
  have hiff := drawn_eq_some_iff hnodup.1.1 hnodup.1.2 (Nat.zero_le target)
  rw [Nat.zero_add] at hiff
  rw [heq, hiff]

theorem proposerAt_eq_drawn {r : Registry} {epoch : Nat} (htotal : 0 < r.totalActiveStake epoch)
    (draw : Hash → Nat → Nat → Hash) (seed : Hash) (slot round : Nat) :
    ∃ v, drawn ((draw seed slot round).toNat % r.totalActiveStake epoch) 0 (r.activeAt epoch) = some v ∧
      r.proposerAt draw epoch seed slot round = some v.address := by
  have hlt : (draw seed slot round).toNat % r.totalActiveStake epoch < 0 + stakeOf (r.activeAt epoch) := by
    rw [Nat.zero_add]
    exact Nat.mod_lt _ htotal
  obtain ⟨v, hv⟩ := exists_drawn hlt (Nat.zero_le _)
  have hsome : (r.activeAt epoch).isEmpty = false := by
    rw [isEmpty_eq_false_iff]
    exact ne_nil_of_mem (mem_of_drawn hv)
  refine ⟨v, hv, ?_⟩
  unfold proposerAt
  dsimp only
  rw [hsome, if_neg Bool.false_ne_true, if_neg htotal.ne']
  exact (drawn_spec _ hv).2.2

/-- Of the targets below the total stake exactly the effective balance of an active validator select
it, so one without stake is never selected; and every draw stops the loop at an active validator. -/
theorem proposerAt_weighted (r : Registry) (epoch : Nat) (htotal : 0 < r.totalActiveStake epoch) :
    (∀ v ∈ r.activeAt epoch, ((Finset.range (r.totalActiveStake epoch)).filter fun target =>
        drawn target 0 (r.activeAt epoch) = some v).card = v.effectiveBalance) ∧
      (∀ v, v.effectiveBalance = 0 → ∀ target, drawn target 0 (r.activeAt epoch) ≠ some v) ∧
      ∀ (draw : Hash → Nat → Nat → Hash) (seed : Hash) (slot round : Nat), ∃ v ∈ r.activeAt epoch,
        drawn ((draw seed slot round).toNat % r.totalActiveStake epoch) 0 (r.activeAt epoch) = some v ∧
          r.proposerAt draw epoch seed slot round = some v.address := by
  refine ⟨fun v hv => ?_, fun v hzero target h => ?_, fun draw seed slot round => ?_⟩
  · obtain ⟨before, after, heq⟩ := append_of_mem hv
    have hfits : stakeOf before + v.effectiveBalance ≤ r.totalActiveStake epoch := by
      rw [totalActiveStake, heq, map_append, sum_append, map_cons, sum_cons]
      exact Nat.add_le_add_left (Nat.le_add_right _ _) _
    have hset : (Finset.range (r.totalActiveStake epoch)).filter
        (fun target => drawn target 0 (r.activeAt epoch) = some v)
          = Finset.Ico (stakeOf before) (stakeOf before + v.effectiveBalance) := by
      ext target
      rw [Finset.mem_filter, Finset.mem_range, Finset.mem_Ico, drawn_activeAt_iff heq]
      omega
    rw [hset, Nat.card_Ico, Nat.add_sub_cancel_left]
  · exact ((drawn_spec [] h).2.1 (Nat.zero_le _)).ne' hzero
  · obtain ⟨v, hv, hproposer⟩ := proposerAt_eq_drawn htotal draw seed slot round
    exact ⟨v, mem_of_drawn hv, hv, hproposer⟩

theorem proposerAt_no_stake {r : Registry} {epoch : Nat} (hne : r.activeAt epoch ≠ [])
    (htotal : r.totalActiveStake epoch = 0) (draw : Hash → Nat → Nat → Hash) (seed : Hash) (slot round : Nat) :
    r.proposerAt draw epoch seed slot round =
      ((r.activeAt epoch)[(slot + round) % 2 ^ 64 % (r.activeAt epoch).length]?).map (·.address) := by
  unfold proposerAt
  rw [if_neg (by simpa using hne), if_pos htotal]

/-- Without stake the turn rotates, and `n` rounds reach every position as long as the height does not
wrap. -/
theorem exists_round_of_no_stake {r : Registry} {epoch slot : Nat} (hv : v ∈ r.activeAt epoch)
    (htotal : r.totalActiveStake epoch = 0) (hslot : slot + (r.activeAt epoch).length < 2 ^ 64)
    (draw : Hash → Nat → Nat → Hash) (seed : Hash) :
    ∃ round ≤ (r.activeAt epoch).length, r.proposerAt draw epoch seed slot round = some v.address := by
  obtain ⟨p, hp, hget⟩ := mem_iff_getElem.mp hv
  set n := (r.activeAt epoch).length
  have hmod : slot % n < n := Nat.mod_lt _ (Nat.zero_lt_of_lt hp)
  have hle : (p + n - slot % n) % n ≤ n := (Nat.mod_lt _ (Nat.zero_lt_of_lt hp)).le
  have hround : (slot + (p + n - slot % n) % n) % 2 ^ 64 % n = p := by
    rw [Nat.mod_eq_of_lt ((Nat.add_le_add_left hle slot).trans_lt hslot), Nat.add_mod_mod, ← Nat.mod_add_mod,
      show slot % n + (p + n - slot % n) = p + n by omega, Nat.add_mod_right, Nat.mod_eq_of_lt hp]
  refine ⟨(p + n - slot % n) % n, hle, ?_⟩
  rw [proposerAt_no_stake (ne_nil_of_mem hv) htotal, hround, getElem?_eq_getElem hp, hget]
  rfl

/-- An active validator proposes in some round that is admitted exactly when the turn of such a round
falls on its address: without stake by its place in the rotation, otherwise by the stake the draw falls
into. Without stake this is so at every height that does not wrap. -/
theorem proposer_reached_iff (r : Registry) (draw : Hash → Nat → Nat → Hash) (epoch : Nat) (seed : Hash)
    (slot : Nat) (v : Validator) (hv : v ∈ r.activeAt epoch) :
    ((∃ round ≤ (r.activeAt epoch).length, r.proposerAt draw epoch seed slot round = some v.address) ↔
      ∃ round ≤ (r.activeAt epoch).length, ∃ before w after,
        r.activeAt epoch = before ++ w :: after ∧ w.address = v.address ∧
        if r.totalActiveStake epoch = 0 then
          (slot + round) % 2 ^ 64 % (r.activeAt epoch).length = before.length
        else
          stakeOf before ≤ (draw seed slot round).toNat % r.totalActiveStake epoch ∧
            (draw seed slot round).toNat % r.totalActiveStake epoch < stakeOf before + w.effectiveBalance) ∧
    (r.totalActiveStake epoch = 0 → slot + (r.activeAt epoch).length < 2 ^ 64 →
      ∃ round ≤ (r.activeAt epoch).length, r.proposerAt draw epoch seed slot round = some v.address) := by
  refine ⟨exists_congr fun round => and_congr_right fun _ => ?_,
    fun hzero hslot => exists_round_of_no_stake hv hzero hslot draw seed⟩
  split
  · rename_i hzero
    rw [proposerAt_no_stake (List.ne_nil_of_mem hv) hzero, Option.map_eq_some_iff]
    constructor
    · rintro ⟨w, hw, haddress⟩
      obtain ⟨hlt, rfl⟩ := List.getElem?_eq_some_iff.mp hw
      have hsplit := List.take_append_drop ((slot + round) % 2 ^ 64 % (r.activeAt epoch).length) (r.activeAt epoch)
      rw [List.drop_eq_getElem_cons hlt] at hsplit
      exact ⟨_, _, _, hsplit.symm, haddress, (List.length_take_of_le hlt.le).symm⟩
    · rintro ⟨before, w, after, heq, haddress, hturn⟩
      refine ⟨w, ?_, haddress⟩
      rw [hturn, heq]
      simp
  · rename_i hpos
    obtain ⟨u, hu, hproposer⟩ := proposerAt_eq_drawn (Nat.pos_of_ne_zero hpos) draw seed slot round
    constructor
    · intro h
      obtain ⟨before, after, heq⟩ := List.append_of_mem (mem_of_drawn hu)
      rw [hproposer] at h
      exact ⟨before, u, after, heq, Option.some.inj h, (drawn_activeAt_iff heq _).mp hu⟩
    · rintro ⟨before, w, after, heq, haddress, hin⟩
      rw [(drawn_activeAt_iff heq _).mpr hin] at hu
      rw [hproposer, ← Option.some.inj hu, haddress]

namespace ProposerExample

def active (address : Address) (balance : Nat) : Validator :=
  { newValidator address address balance with status := .active, activationEpoch := 0 }

/-- Two active validators; penalties have left the second without effective balance. -/
def registry : Registry :=
  ((Registry.empty.append (active 1 (32 * ether))).1.append (active 2 0)).1

def second : Validator := { active 2 0 with index := 1 }

end ProposerExample

open ProposerExample in
theorem proposerAt_weighted_example :
    ((Finset.range (registry.totalActiveStake 0)).filter fun target =>
      drawn target 0 (registry.activeAt 0) = some (active 1 (32 * ether))).card = 32 * ether :=
  (proposerAt_weighted registry 0 (by decide)).1 (active 1 (32 * ether)) (by decide)

open ProposerExample in
theorem proposer_reached_first : ∃ round ≤ (registry.activeAt 0).length,
    registry.proposerAt (fun _ _ _ => 0) 0 0 5 round = some 1 :=
  (proposer_reached_iff registry (fun _ _ _ => 0) 0 0 5 (active 1 (32 * ether)) (by decide)).1.mpr
    ⟨0, Nat.zero_le _, [], active 1 (32 * ether), [second], by decide, rfl, by decide⟩

open ProposerExample in
/-- Whatever is drawn, the second validator is never the proposer. -/
theorem proposer_never_reached :
    second ∈ registry.activeAt 0 ∧ ∀ (draw : Hash → Nat → Nat → Hash) (seed : Hash) (slot round : Nat),
      registry.proposerAt draw 0 seed slot round ≠ some second.address := by
  refine ⟨by decide, fun draw seed slot round h => ?_⟩
  obtain ⟨v, hv, hproposer⟩ :=
    proposerAt_eq_drawn (show 0 < registry.totalActiveStake 0 by decide) draw seed slot round
  rw [hproposer] at h
  have hzero : ∀ v ∈ registry.activeAt 0, v.address = second.address → v.effectiveBalance = 0 := by decide
  exact ((drawn_spec [] hv).2.1 (Nat.zero_le _)).ne'
    (hzero v (mem_of_drawn hv) (Option.some.inj h))

end PadiChain.Staking

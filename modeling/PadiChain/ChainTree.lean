import PadiChain.ChainInsert
import PadiChain.LibAncestry

/-! The block tree of a chain that was built from genesis, and what the walks over it compute. Along a
parent link the height falls by one, so the ancestors of a stored block form a chain down to genesis;
the canonical index names exactly the ancestors of the head. -/

namespace PadiChain.Chain

open Core Staking Processor Ancestry Function Ancestor

def parentIn (blocks : Hash → Option Block) (b : Block) : Option Block :=
  match blocks b.parentHash with
  | none => none
  | some p => if b.number = p.number + 1 then some p else none

theorem parentIn_eq_some {blocks : Hash → Option Block} {b p : Block} :
    parentIn blocks b = some p ↔ blocks b.parentHash = some p ∧ b.number = p.number + 1 := by
  simp only [parentIn]
  cases h : blocks b.parentHash with
  | none => simp
  | some q =>
    rw [Option.ite_none_right_eq_some, Option.some.injEq]
    constructor
    · rintro ⟨hnumber, rfl⟩
      exact ⟨rfl, hnumber⟩
    · rintro ⟨rfl, hnumber⟩
      exact ⟨hnumber, rfl⟩

namespace BlockChain

def parentOf (c : BlockChain) (b : Block) : Option Block := parentIn c.blocks b

def IsAncestor (c : BlockChain) (a b : Block) : Prop := Ancestor c.parentOf a b

def Stored (env : Env) (c : BlockChain) (b : Block) : Prop := c.blocks (env.hash b.header) = some b

/-- The parent of a block is stored, one below it. -/
def Linked (c : BlockChain) (b : Block) : Prop :=
  0 < b.number → ∃ p, c.blocks b.parentHash = some p ∧ b.number = p.number + 1

/-- A chain built from genesis: blocks sit under their hashes, every block but genesis has its parent
stored one below it, and the canonical index names exactly the ancestors of the head. -/
structure WellFormed (env : Env) (c : BlockChain) : Prop where
  hash_eq : ∀ h b, c.blocks h = some b → env.hash b.header = h
  root : ∀ h b, c.blocks h = some b → b.number = 0 → b = c.genesis
  linked : ∀ h b, c.blocks h = some b → c.Linked b
  current_stored : c.Stored env c.current
  finalized_stored : ∀ f, c.finalized = some f → c.Stored env f
  canonical_iff : ∀ n h, c.canonical n = some h ↔
    ∃ b, c.blocks h = some b ∧ b.number = n ∧ c.IsAncestor b c.current

variable {env : Env} {c : BlockChain}

variable {b p a a' : Block} {target n : Nat} {canonical : Nat → Option Hash} {h : Hash} {c' : BlockChain}

theorem parentOf_eq_some :
    c.parentOf b = some p ↔ c.blocks b.parentHash = some p ∧ b.number = p.number + 1 := parentIn_eq_some

theorem number_of_parentOf (c : BlockChain) (b p : Block) (h : c.parentOf b = some p) :
    b.number = p.number + 1 := (parentOf_eq_some.mp h).2

theorem IsAncestor.number_le (h : c.IsAncestor a b) : a.number ≤ b.number :=
  Ancestor.height_le (number_of_parentOf c) h

theorem IsAncestor.of_number_le (h : c.IsAncestor a b) (h' : c.IsAncestor a' b)
    (hle : a.number ≤ a'.number) : c.IsAncestor a a' :=
  Ancestor.of_height_le (number_of_parentOf c) h h' hle

theorem IsAncestor.unique (h : c.IsAncestor a b) (h' : c.IsAncestor a' b) (heq : a.number = a'.number) : a = a' :=
  Ancestor.unique (number_of_parentOf c) h h' heq

theorem Stored.eq_of_hash_eq (ha : c.Stored env a) (hb : c.Stored env b)
    (h : env.hash a.header = env.hash b.header) : a = b := by
  have hsame : some a = some b := by
    rw [← ha, ← hb, h]
  exact Option.some.inj hsame

theorem mem_cons_iff_of_parent (hp : c.parentOf b = some p) (hlt : target < b.number) {passed : List Block}
    (hpassed : ∀ x, x ∈ passed ↔ c.IsAncestor x p ∧ target < x.number) (x : Block) :
    x ∈ b :: passed ↔ c.IsAncestor x b ∧ target < x.number := by
  rw [List.mem_cons, hpassed]
  constructor
  · rintro (rfl | ⟨hx, hx'⟩)
    · exact ⟨refl x, hlt⟩
    · exact ⟨of_parent hp hx, hx'⟩
  · rintro ⟨hx, hx'⟩
    rcases Ancestor.eq_or_parent hx with heq | ⟨q, hq, hrest⟩
    · exact .inl heq
    · rw [hp] at hq
      cases hq
      exact .inr ⟨hrest, hx'⟩

theorem mem_nil_iff_of_le (hle : b.number ≤ target) (x : Block) :
    x ∈ ([] : List Block) ↔ c.IsAncestor x b ∧ target < x.number := by
  constructor
  · intro hx
    cases hx
  · rintro ⟨hx, hlt⟩
    exact absurd (hx.number_le.trans hle) (not_le.mpr hlt)

theorem mem_append_iff_of_ancestor {m z : Block} (hm : c.IsAncestor m b)
    (hmNumber : m.number = min target b.number) (hz : z.number ≤ m.number) {high low : List Block}
    (hhigh : ∀ x, x ∈ high ↔ c.IsAncestor x b ∧ target < x.number)
    (hlow : ∀ x, x ∈ low ↔ c.IsAncestor x m ∧ z.number < x.number) (x : Block) :
    x ∈ high ++ low ↔ c.IsAncestor x b ∧ z.number < x.number := by
  rw [List.mem_append, hhigh, hlow]
  constructor
  · rintro (⟨hx, hlt⟩ | ⟨hx, hlt⟩)
    · exact ⟨hx, by omega⟩
    · exact ⟨hx.trans hm, hlt⟩
  · rintro ⟨hx, hlt⟩
    by_cases habove : target < x.number
    · exact .inl ⟨hx, habove⟩
    · have hbound := hx.number_le
      exact .inr ⟨hx.of_number_le hm (by omega), hlt⟩

theorem dropCanonical_eq_some {oldChain : List Block} :
    dropCanonical canonical oldChain n = some h ↔ (∀ b ∈ oldChain, b.number ≠ n) ∧ canonical n = some h := by
  induction oldChain generalizing canonical with
  | nil => simp [dropCanonical]
  | cons b rest ih =>
    have hstep : dropCanonical canonical (b :: rest) =
        dropCanonical (update canonical b.number none) rest := rfl
    rw [hstep, ih, List.forall_mem_cons]
    by_cases hn : n = b.number
    · subst hn
      simp
    · rw [update_of_ne hn]
      have hne : b.number ≠ n := fun heq => hn heq.symm
      simp [hne]

/-- The canonical index after the entries of a chain with one block at each height are written. -/
theorem writeCanonical_eq_some {newChain : List Block}
    (hunique : ∀ x ∈ newChain, ∀ y ∈ newChain, x.number = y.number → x = y) :
    writeCanonical env canonical newChain n = some h ↔
      (∃ b ∈ newChain, b.number = n ∧ env.hash b.header = h) ∨
      (∀ b ∈ newChain, b.number ≠ n) ∧ canonical n = some h := by
  induction newChain with
  | nil => simp [writeCanonical]
  | cons b rest ih =>
    have hstep : writeCanonical env canonical (b :: rest) =
        update (writeCanonical env canonical rest) b.number (some (env.hash b.header)) := rfl
    rw [hstep]
    by_cases hn : n = b.number
    · subst hn
      rw [update_self]
      constructor
      · intro heq
        exact .inl ⟨b, List.mem_cons_self, rfl, Option.some.inj heq⟩
      · rintro (⟨x, hx, hnumber, rfl⟩ | ⟨hnone, -⟩)
        · rw [hunique x hx b List.mem_cons_self hnumber]
        · exact absurd rfl (hnone b List.mem_cons_self)
    · rw [update_of_ne hn,
        ih fun x hx y hy => hunique x (List.mem_cons_of_mem b hx) y (List.mem_cons_of_mem b hy)]
      have hne : b.number ≠ n := fun heq => hn heq.symm
      simp [hne]

namespace WellFormed

variable (hwf : c.WellFormed env)

include hwf

variable {b a block : Block} {fuel : Nat}

theorem stored_of_blocks (hb : c.blocks h = some b) : c.Stored env b := by
  unfold Stored
  rw [hwf.hash_eq h b hb]
  exact hb

theorem linked_of_stored (hb : c.Stored env b) : c.Linked b := hwf.linked _ b hb

theorem parentOf_of_linked (hb : c.Linked b) (hpos : 0 < b.number) :
    ∃ p, c.parentOf b = some p ∧ c.blocks b.parentHash = some p ∧ c.Stored env p := by
  obtain ⟨p, hp, hnumber⟩ := hb hpos
  exact ⟨p, parentOf_eq_some.mpr ⟨hp, hnumber⟩, hp, hwf.stored_of_blocks hp⟩

theorem stored_of_ancestor (h : c.IsAncestor a b) (hb : a = b → c.Stored env b) : c.Stored env a := by
  induction h using Relation.ReflTransGen.head_induction_on with
  | refl => exact hb rfl
  | head hp _ ih =>
    exact ih fun _ => hwf.stored_of_blocks (parentOf_eq_some.mp hp).1

/-- With the height as fuel, the walk reaches the ancestor at the target height and passes exactly the
ancestors above it. -/
theorem unwind_spec (target : Nat) (hb : c.Linked b) (hfuel : b.number ≤ fuel) :
    ∃ passed a, c.unwind target fuel b = some (passed, a) ∧ c.IsAncestor a b ∧
      a.number = min target b.number ∧ ∀ x, x ∈ passed ↔ c.IsAncestor x b ∧ target < x.number := by
  induction fuel generalizing b with
  | zero =>
    have hle : b.number ≤ target := by omega
    refine ⟨[], b, ?_, refl b, (min_eq_right hle).symm, mem_nil_iff_of_le hle⟩
    rw [unwind, if_neg (not_lt.mpr hle)]
  | succ fuel ih =>
    by_cases hlt : target < b.number
    · obtain ⟨p, hparent, hlookup, hstored⟩ := hwf.parentOf_of_linked hb (by omega)
      have hnumber := number_of_parentOf c b p hparent
      obtain ⟨passed, a, hwalk, hancestor, hreach, hpassed⟩ :=
        ih (hwf.linked_of_stored hstored) (by omega)
      refine ⟨b :: passed, a, ?_, of_parent hparent hancestor, ?_,
        mem_cons_iff_of_parent hparent hlt hpassed⟩
      · rw [unwind, if_pos hlt, hlookup]
        dsimp only
        rw [hwalk]
        rfl
      · rw [hreach]
        omega
    · have hle := not_lt.mp hlt
      refine ⟨[], b, ?_, refl b, (min_eq_right hle).symm, mem_nil_iff_of_le hle⟩
      rw [unwind, if_neg hlt]

theorem isDescendant_iff (hb : c.Linked b) (ha : c.Stored env a) (hlt : a.number < b.number) :
    c.isDescendant env b a = true ↔ c.IsAncestor a b := by
  obtain ⟨passed, reached, hwalk, hancestor, hreach, -⟩ := hwf.unwind_spec a.number hb le_rfl
  have hnumber : reached.number = a.number := by omega
  have hstored : c.Stored env reached := by
    refine hwf.stored_of_ancestor hancestor fun heq => ?_
    rw [heq] at hnumber
    omega
  unfold isDescendant
  rw [hwalk]
  rw [decide_eq_true_iff]
  constructor
  · intro h
    rw [← hstored.eq_of_hash_eq ha h]
    exact hancestor
  · intro h
    rw [hancestor.unique h hnumber]

/-- Two stored blocks at one height are walked back to a common ancestor. -/
theorem meet_spec {newBlock oldBlock : Block} (hnew : c.Stored env newBlock)
    (hold : c.Stored env oldBlock) (hlevel : newBlock.number = oldBlock.number) (hfuel : newBlock.number ≤ fuel) :
    ∃ newLow oldLow z, c.meet env fuel newBlock oldBlock = some (newLow, oldLow) ∧
      c.IsAncestor z newBlock ∧ c.IsAncestor z oldBlock ∧
      (∀ x, x ∈ newLow ↔ c.IsAncestor x newBlock ∧ z.number < x.number) ∧
      (∀ x, x ∈ oldLow ↔ c.IsAncestor x oldBlock ∧ z.number < x.number) := by
  induction fuel generalizing newBlock oldBlock with
  | zero =>
    have hnewRoot := hwf.root _ newBlock hnew (by omega)
    have holdRoot := hwf.root _ oldBlock hold (by omega)
    have hsame : newBlock = oldBlock := hnewRoot.trans holdRoot.symm
    subst hsame
    refine ⟨[], [], newBlock, ?_, refl _, refl _, mem_nil_iff_of_le le_rfl, mem_nil_iff_of_le le_rfl⟩
    rw [meet, if_pos rfl]
  | succ fuel ih =>
    by_cases hhash : env.hash newBlock.header = env.hash oldBlock.header
    · have hsame := hnew.eq_of_hash_eq hold hhash
      subst hsame
      refine ⟨[], [], newBlock, ?_, refl _, refl _, mem_nil_iff_of_le le_rfl, mem_nil_iff_of_le le_rfl⟩
      rw [meet, if_pos rfl]
    · have hpos : 0 < newBlock.number := by
        refine Nat.pos_of_ne_zero fun hzero => hhash ?_
        rw [hwf.root _ newBlock hnew hzero, hwf.root _ oldBlock hold (by omega)]
      obtain ⟨np, hnp, hnpLookup, hnpStored⟩ :=
        hwf.parentOf_of_linked (hwf.linked_of_stored hnew) hpos
      obtain ⟨op, hop, hopLookup, hopStored⟩ :=
        hwf.parentOf_of_linked (hwf.linked_of_stored hold) (by omega)
      have hnpNumber := number_of_parentOf c _ _ hnp
      have hopNumber := number_of_parentOf c _ _ hop
      obtain ⟨newLow, oldLow, z, hwalk, hzn, hzo, hnewLow, holdLow⟩ :=
        ih hnpStored hopStored (by omega) (by omega)
      have hzBelow := hzn.number_le
      refine ⟨newBlock :: newLow, oldBlock :: oldLow, z, ?_, of_parent hnp hzn,
        of_parent hop hzo, mem_cons_iff_of_parent hnp (by omega) hnewLow,
        mem_cons_iff_of_parent hop (by omega) holdLow⟩
      rw [meet, if_neg hhash, hnpLookup, hopLookup]
      dsimp only
      rw [hwalk]
      rfl

theorem exists_ancestor (hb : c.Linked b) (hn : n ≤ b.number) : ∃ a, c.IsAncestor a b ∧ a.number = n := by
  obtain ⟨-, a, -, hancestor, hnumber, -⟩ := hwf.unwind_spec n hb le_rfl
  exact ⟨a, hancestor, by omega⟩

theorem genesis_spec : c.genesis.number = 0 ∧ c.Stored env c.genesis ∧ c.IsAncestor c.genesis c.current := by
  obtain ⟨a, hancestor, hzero⟩ :=
    hwf.exists_ancestor (hwf.linked_of_stored hwf.current_stored) (Nat.zero_le _)
  have hstored := hwf.stored_of_ancestor hancestor fun _ => hwf.current_stored
  have hgenesis : a = c.genesis := hwf.root _ a hstored hzero
  rw [hgenesis] at hancestor hzero hstored
  exact ⟨hzero, hstored, hancestor⟩

theorem headerByNumber_of_ancestor (h : c.IsAncestor a c.current) : c.headerByNumber a.number = some a.header := by
  have hstored : c.Stored env a := hwf.stored_of_ancestor h fun _ => hwf.current_stored
  have hcanonical := (hwf.canonical_iff a.number (env.hash a.header)).mpr ⟨a, hstored, rfl, h⟩
  rw [Stored] at hstored
  simp [headerByNumber, hcanonical, hstored]

theorem ancestor_of_headerByNumber {number : Nat} {header : Header} (h : c.headerByNumber number = some header) :
    ∃ b, b.header = header ∧ b.number = number ∧ c.IsAncestor b c.current := by
  simp only [headerByNumber] at h
  split at h
  · cases h
  rename_i hash hcanonical
  obtain ⟨b, hb, hnumber, hancestor⟩ := (hwf.canonical_iff number hash).mp hcanonical
  rw [hb] at h
  simp only [hnumber, if_true, Option.some.injEq] at h
  exact ⟨b, h, hnumber, hancestor⟩

/-- When a stored block becomes the head, the blocks that join and that leave the canonical chain are
the ancestors of the two heads above a common ancestor. -/
theorem forkOf_spec (hblock : c.Stored env block) :
    ∃ newChain oldChain z, c.forkOf env block = some (newChain, oldChain) ∧
      c.IsAncestor z block ∧ c.IsAncestor z c.current ∧
      (∀ x, x ∈ newChain ↔ c.IsAncestor x block ∧ z.number < x.number) ∧
      (∀ x, x ∈ oldChain ↔ c.IsAncestor x c.current ∧ z.number < x.number) := by
  obtain ⟨newHigh, n, hnewWalk, hn, hnNumber, hnewHigh⟩ :=
    hwf.unwind_spec c.current.number (hwf.linked_of_stored hblock) le_rfl
  obtain ⟨oldHigh, o, holdWalk, ho, hoNumber, holdHigh⟩ :=
    hwf.unwind_spec n.number (hwf.linked_of_stored hwf.current_stored) le_rfl
  have hlevel : n.number = o.number := by omega
  obtain ⟨newLow, oldLow, z, hmeet, hzn, hzo, hnewLow, holdLow⟩ :=
    hwf.meet_spec (hwf.stored_of_ancestor hn fun _ => hblock)
      (hwf.stored_of_ancestor ho fun _ => hwf.current_stored) hlevel le_rfl
  refine ⟨newHigh ++ newLow, oldHigh ++ oldLow, z, ?_, hzn.trans hn, hzo.trans ho, ?_, ?_⟩
  · simp [forkOf, hnewWalk, holdWalk, hmeet]
  · exact mem_append_iff_of_ancestor hn (by omega) hzn.number_le hnewHigh hnewLow
  · exact mem_append_iff_of_ancestor ho (by omega) hzo.number_le holdHigh holdLow

/-- A stored block can always become the head, and the canonical index then names its ancestors. -/
theorem reorgTo_spec (hblock : c.Stored env block) :
    ∃ canonical, c.reorgTo env block = some { c with canonical := canonical, current := block } ∧
      WellFormed env { c with canonical := canonical, current := block } := by
  obtain ⟨newChain, oldChain, z, hfork, hzNew, hzOld, hnew, hold⟩ := hwf.forkOf_spec hblock
  refine ⟨writeCanonical env (dropCanonical c.canonical oldChain) newChain, ?_, ?_⟩
  · simp [reorgTo, hfork]
  refine { hwf with current_stored := hblock, canonical_iff := fun n h => ?_ }
  have hunique : ∀ x ∈ newChain, ∀ y ∈ newChain, x.number = y.number → x = y := fun x hx y hy heq =>
    ((hnew x).mp hx).1.unique ((hnew y).mp hy).1 heq
  rw [writeCanonical_eq_some hunique, dropCanonical_eq_some, hwf.canonical_iff]
  constructor
  · rintro (⟨b, hb, hnumber, rfl⟩ | ⟨-, hkept, b, hb, hnumber, hancestor⟩)
    · have hancestor := ((hnew b).mp hb).1
      exact ⟨b, hwf.stored_of_ancestor hancestor fun _ => hblock, hnumber, hancestor⟩
    · -- a kept entry is at or below the fork, so it is an ancestor of both heads
      have hlow : b.number ≤ z.number :=
        not_lt.mp fun hlt => hkept b ((hold b).mpr ⟨hancestor, hlt⟩) hnumber
      exact ⟨b, hb, hnumber, (hancestor.of_number_le hzOld hlow).trans hzNew⟩
  · rintro ⟨b, hb, hnumber, hancestor⟩
    by_cases hlt : z.number < b.number
    · exact .inl ⟨b, (hnew b).mpr ⟨hancestor, hlt⟩, hnumber, hwf.hash_eq h b hb⟩
    · have hlow := not_lt.mp hlt
      refine .inr ⟨fun x hx heq => ?_, fun x hx heq => ?_, b, hb, hnumber,
        (hancestor.of_number_le hzNew hlow).trans hzOld⟩
      · have := ((hnew x).mp hx).2
        omega
      · have := ((hold x).mp hx).2
        omega

end WellFormed

def Grows (c c' : BlockChain) : Prop := ∀ h b, c.blocks h = some b → c'.blocks h = some b

theorem Grows.refl (c : BlockChain) : c.Grows c := fun _ _ hb => hb

theorem Grows.trans {c₁ c₂ c₃ : BlockChain} (h₁ : c₁.Grows c₂) (h₂ : c₂.Grows c₃) : c₁.Grows c₃ :=
  fun h b hb => h₂ h b (h₁ h b hb)

theorem IsAncestor.mono (hgrows : c.Grows c') (h : c.IsAncestor a b) : c'.IsAncestor a b := by
  refine Ancestor.mono (fun x y hxy => ?_) h
  obtain ⟨hlookup, hnumber⟩ := parentOf_eq_some.mp hxy
  exact parentOf_eq_some.mpr ⟨hgrows _ _ hlookup, hnumber⟩

theorem Linked.mono (hgrows : c.Grows c') (h : c.Linked b) : c'.Linked b := by
  intro hpos
  obtain ⟨p, hp, hnumber⟩ := h hpos
  exact ⟨p, hgrows _ _ hp, hnumber⟩

variable (hwf : c.WellFormed env)

include hwf

theorem WellFormed.isAncestor_of_grows (hgrows : c.Grows c')
    (hb : c.Linked b) (h : c'.IsAncestor a b) : c.IsAncestor a b := by
  induction h using Relation.ReflTransGen.head_induction_on with
  | refl => exact refl a
  | head hp _ ih =>
    have hnumber := number_of_parentOf c' _ _ hp
    obtain ⟨p, hparent, hlookup, hstored⟩ := hwf.parentOf_of_linked hb (by omega)
    have hsame := (parentOf_eq_some.mp hp).1
    rw [hgrows _ _ hlookup] at hsame
    cases hsame
    exact of_parent hparent (ih (hwf.linked_of_stored hstored))

theorem WellFormed.writeBlock {block parent : Block}
    (hnew : c.blocks (env.hash block.header) = none) (hparent : c.blocks block.parentHash = some parent)
    (hnumber : block.number = parent.number + 1) :
    (c.writeBlock env block).WellFormed env ∧ c.Grows (c.writeBlock env block) ∧
      (c.writeBlock env block).Stored env block := by
  have hgrows : c.Grows (c.writeBlock env block) := by
    intro h b hb
    have hne : h ≠ env.hash block.header := by
      rintro rfl
      rw [hnew] at hb
      cases hb
    rw [writeBlock_blocks_of_ne env c hne]
    exact hb
  have hstored : (c.writeBlock env block).Stored env block := writeBlock_blocks_self env c block
  have hcases : ∀ h b, (c.writeBlock env block).blocks h = some b →
      (h = env.hash block.header ∧ b = block) ∨ c.blocks h = some b :=
    fun _ _ hb => (writeBlock_blocks_cases hb).imp_right And.right
  refine ⟨⟨?_, ?_, ?_, ?_, ?_, ?_⟩, hgrows, hstored⟩
  · intro h b hb
    rcases hcases h b hb with ⟨rfl, rfl⟩ | hold
    · rfl
    · exact hwf.hash_eq h b hold
  · intro h b hb hzero
    rcases hcases h b hb with ⟨rfl, rfl⟩ | hold
    · omega
    · exact hwf.root h b hold hzero
  · intro h b hb
    rcases hcases h b hb with ⟨rfl, rfl⟩ | hold
    · exact fun _ => ⟨parent, hgrows _ _ hparent, hnumber⟩
    · exact (hwf.linked h b hold).mono hgrows
  · exact hgrows _ _ hwf.current_stored
  · exact fun f hf => hgrows _ _ (hwf.finalized_stored f hf)
  · intro n h
    have hcurrent := hwf.linked_of_stored hwf.current_stored
    refine (hwf.canonical_iff n h).trans ⟨?_, ?_⟩
    · rintro ⟨b, hb, hbn, hancestor⟩
      exact ⟨b, hgrows h b hb, hbn, hancestor.mono hgrows⟩
    · rintro ⟨b, hb, hbn, hancestor⟩
      have hancestor' := hwf.isAncestor_of_grows hgrows hcurrent hancestor
      have hold := hwf.stored_of_ancestor hancestor' fun _ => hwf.current_stored
      have hhash : env.hash b.header = h := by
        rcases hcases h b hb with ⟨rfl, rfl⟩ | hold
        · rfl
        · exact hwf.hash_eq h b hold
      exact ⟨b, hhash ▸ hold, hbn, hancestor'⟩

theorem WellFormed.commit (s : StateDB) : (c.commit env s).WellFormed env := { hwf with }

theorem WellFormed.setFinalized {f : Block} (hf : c.Stored env f) : WellFormed env { c with finalized := some f } := by
  refine { hwf with finalized_stored := ?_ }
  intro f' hf'
  cases hf'
  exact hf

end BlockChain

end PadiChain.Chain

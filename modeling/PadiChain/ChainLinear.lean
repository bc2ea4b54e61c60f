import PadiChain.ChainFinality

/-! A chain on one branch. Every block that is imported extends the head, so the canonical index only
grows, and the attestation keys of a height stay the same once the block that settles them is canonical. -/

namespace PadiChain.Chain

open Core Staking Processor Function

namespace BlockChain

structure Linear (env : Env) (c : BlockChain) : Prop where
  hash_eq : ∀ {h b}, c.blocks h = some b → env.hash b.header = h
  current : c.blocks (env.hash c.current.header) = some c.current
  canonical : ∀ {h b}, c.blocks h = some b → c.canonical b.number = some h
  number_le : ∀ {h b}, c.blocks h = some b → b.number ≤ c.current.number
  indexed : ∀ {n}, n ≤ c.current.number → ∃ h b, c.canonical n = some h ∧ c.blocks h = some b ∧ b.number = n
  state : ∀ {h b}, c.blocks h = some b → ∃ s, c.states b.header.stateRoot = some s
  genesis : ∃ s, c.states c.genesis.header.stateRoot = some s

/-- The later chain has the same headers up to the earlier head, and what the earlier one stored. -/
structure Continues (c c' : BlockChain) : Prop where
  genesis : c'.genesis = c.genesis
  number_le : c.current.number ≤ c'.current.number
  header : ∀ {n}, n ≤ c.current.number → c'.headerByNumber n = c.headerByNumber n
  states : ∀ {root s}, c.states root = some s → c'.states root = some s

variable {env : Env} {c c' : BlockChain}

variable {n m now : Nat} {block b : Block} {s : StateDB} {final : Option Block} {hash : Hash}

theorem Linear.headerByNumber (h : c.Linear env) (hn : n ≤ c.current.number) :
    ∃ b : Block, c.headerByNumber n = some b.header ∧ b.number = n ∧ ∃ s, c.states b.header.stateRoot = some s := by
  obtain ⟨hash, b, hcanonical, hb, hnumber⟩ := h.indexed hn
  refine ⟨b, ?_, hnumber, h.state hb⟩
  simp only [BlockChain.headerByNumber, hcanonical, hb]
  rw [if_pos hnumber]

theorem Continues.refl (c : BlockChain) : c.Continues c :=
  ⟨rfl, le_rfl, fun _ => rfl, fun h => h⟩

theorem Continues.trans {c₁ c₂ c₃ : BlockChain} (h₁₂ : c₁.Continues c₂) (h₂₃ : c₂.Continues c₃) :
    c₁.Continues c₃ where
  genesis := h₂₃.genesis.trans h₁₂.genesis
  number_le := h₁₂.number_le.trans h₂₃.number_le
  header := fun hn => (h₂₃.header (hn.trans h₁₂.number_le)).trans (h₁₂.header hn)
  states := fun hs => h₂₃.states (h₁₂.states hs)

/-- The keys of a height whose boundary block is not above the head are settled. -/
theorem Continues.rawBLSKeysAt_eq (h : c.Continues c') (hlinear : c.Linear env)
    (hn : boundaryOf n ≤ c.current.number) : c'.rawBLSKeysAt n = c.rawBLSKeysAt n := by
  have hgenesis : c'.genesisBLSKeys = c.genesisBLSKeys := by
    obtain ⟨s, hs⟩ := hlinear.genesis
    rw [genesisBLSKeys, genesisBLSKeys, h.genesis, hs, h.states hs]
  have hsettled : c'.settledState n = c.settledState n := by
    obtain ⟨b, hb, -, s, hs⟩ := hlinear.headerByNumber hn
    simp [settledState, h.header hn, hb, hs, h.states hs]
  simp [rawBLSKeysAt, hsettled, hgenesis]

theorem rawBLSKeysAt_congr (hepoch : epochOf m = epochOf n) : c.rawBLSKeysAt m = c.rawBLSKeysAt n := by
  simp [rawBLSKeysAt, settledState, boundaryOf, hepoch]

theorem boundaryOf_le (hepoch : epochOf m = epochOf (n + 1)) : boundaryOf m ≤ n := by
  rw [boundaryOf, hepoch]
  simp only [epochStart, epochOf]
  have := Nat.div_mul_le_self (n + 1) epochLength
  omega

theorem unwind_self (b : Block) (fuel : Nat) : c.unwind b.number fuel b = some ([], b) := by
  cases fuel with
  | zero | succ _ => exact if_neg (lt_irrefl _)

theorem meet_self (b : Block) (fuel : Nat) : c.meet env fuel b b = some ([], []) := by
  cases fuel with
  | zero | succ _ => exact if_pos rfl

theorem reorgTo_child (hparent : c.blocks block.parentHash = some c.current)
    (hnumber : block.number = c.current.number + 1) :
    c.reorgTo env block = some { c with
      canonical := update c.canonical block.number (some (env.hash block.header))
      current := block } := by
  have hunwind : c.unwind c.current.number block.number block = some ([block], c.current) := by
    rw [hnumber]
    simp [unwind, if_pos (show c.current.number < block.number by omega), hparent, unwind_self]
  have hfork : c.forkOf env block = some ([block], []) := by
    simp [forkOf, hunwind, unwind_self, meet_self]
  simp [reorgTo, hfork, dropCanonical, writeCanonical]

/-- The chain after the import of a child of the head with a state and a finalized block. -/
def extend (env : Env) (c : BlockChain) (block : Block) (s : StateDB) (final : Option Block) : BlockChain :=
  { (c.commit env s).writeBlock env block with
    canonical := update c.canonical block.number (some (env.hash block.header))
    current := block
    finalized := final }

theorem Linear.adopt_child (h : c.Linear env) {parent : Block} (s : StateDB)
    (hparent : block.parentHash = env.hash c.current.header) (hcheck : c.checkBlock env now block = .ok parent) :
    ∃ final, (c.commit env s).adopt env block = (.ok (), c.extend env block s final) ∧
      block.number = c.current.number + 1 ∧ c.blocks (env.hash block.header) = none := by
  obtain ⟨hnew, hlookup, hverify, -⟩ := checkBlock_ok hcheck
  have hcurrent := h.current
  rw [← hparent] at hcurrent
  obtain rfl : c.current = parent := Option.some.inj (hcurrent.symm.trans hlookup)
  have hnumber : block.number = c.current.number + 1 := (verifyHeader_ok (verifyBlock_ok hverify).1).1
  obtain ⟨final, hfinal⟩ := applyJustification_eq env ((c.commit env s).writeBlock env block) block
  have hstored : ((c.commit env s).writeBlock env block).blocks block.parentHash = some c.current := by
    rw [writeBlock_blocks_of_ne]
    · exact hcurrent
    · rintro hsame
      rw [hsame, hnew] at hcurrent
      cases hcurrent
  have hmoved : reorgTo env { (c.commit env s).writeBlock env block with finalized := final } block =
      some (c.extend env block s final) := reorgTo_child hstored hnumber
  have hlt : ((c.commit env s).writeBlock env block).current.number < block.number := by
    change c.current.number < block.number
    omega
  refine ⟨final, ?_, hnumber, hnew⟩
  simp [adopt, hfinal, if_pos hlt, hmoved]

theorem Linear.insertBlock_cases (h : c.Linear env)
    (hparent : block.parentHash = env.hash c.current.header) (now : Nat) :
    (∃ e, (c.insertBlock env now block).1 = .error e ∧
      ((c.insertBlock env now block).2 = c ∨ ∃ s, (c.insertBlock env now block).2 = c.commit env s)) ∨
    ∃ s final, c.insertBlock env now block = (.ok (), c.extend env block s final) ∧
      block.number = c.current.number + 1 ∧ c.blocks (env.hash block.header) = none ∧
      env.stateRoot s = block.header.stateRoot := by
  rcases BlockChain.insertBlock_cases env c now block with ⟨e, hsame⟩ | ⟨parent, -, s, hcheck, -, hcommit | hadopt⟩
  · rw [hsame]
    exact .inl ⟨e, rfl, .inl rfl⟩
  · rw [hcommit]
    exact .inl ⟨_, rfl, .inr ⟨s, rfl⟩⟩
  · have hok : (c.insertBlock env now block).1 = .ok () := by
      obtain ⟨final, hresult, -, -⟩ := h.adopt_child s hparent hcheck
      rw [hadopt, hresult]
    obtain ⟨parent', -, s', hcheck', -, hroot, hinsert⟩ := insertBlock_ok hok
    obtain ⟨final, hresult, hnumber, hnew⟩ := h.adopt_child s' hparent hcheck'
    exact .inr ⟨s', final, hinsert.trans hresult, hnumber, hnew, hroot⟩

theorem extend_blocks_cases (hb : (c.extend env block s final).blocks hash = some b) :
    hash = env.hash block.header ∧ b = block ∨ hash ≠ env.hash block.header ∧ c.blocks hash = some b := by
  simp only [extend, writeBlock, update_apply] at hb
  split_ifs at hb with hsame
  · exact .inl ⟨hsame, (Option.some.inj hb).symm⟩
  · exact .inr ⟨hsame, hb⟩

theorem extend_blocks_of_some (hnew : c.blocks (env.hash block.header) = none) (hb : c.blocks hash = some b) :
    (c.extend env block s final).blocks hash = some b := by
  have hne : hash ≠ env.hash block.header := by
    rintro rfl
    rw [hnew] at hb
    cases hb
  exact (update_of_ne hne _ _).trans hb

variable (h : c.Linear env)

include h

theorem Linear.extend (hnumber : block.number = c.current.number + 1) (hnew : c.blocks (env.hash block.header) = none)
    (hroot : env.stateRoot s = block.header.stateRoot)
    (hstates : ∀ {root t}, c.states root = some t → (c.extend env block s final).states root = some t) :
    (c.extend env block s final).Linear env ∧ c.Continues (c.extend env block s final) := by
  have hindex : ∀ {n}, n ≤ c.current.number → (c.extend env block s final).canonical n = c.canonical n :=
    fun hn => update_of_ne (by omega) _ _
  have hself : (c.extend env block s final).canonical block.number = some (env.hash block.header) :=
    update_self _ _ _
  have hindexed : ∀ {n}, n ≤ c.current.number → ∃ hash b, c.canonical n = some hash ∧ b.number = n ∧
      c.blocks hash = some b ∧ (c.extend env block s final).canonical n = some hash ∧
      (c.extend env block s final).blocks hash = some b := by
    intro n hn
    obtain ⟨hash, b, hcanonical, hb, hbnumber⟩ := h.indexed hn
    exact ⟨hash, b, hcanonical, hbnumber, hb, (hindex hn).trans hcanonical, extend_blocks_of_some hnew hb⟩
  constructor
  · constructor
    case hash_eq =>
      intro hash b hb
      rcases extend_blocks_cases hb with ⟨rfl, rfl⟩ | ⟨-, hold⟩
      · rfl
      · exact h.hash_eq hold
    case current => exact update_self _ _ _
    case canonical =>
      intro hash b hb
      rcases extend_blocks_cases hb with ⟨rfl, rfl⟩ | ⟨-, hold⟩
      · exact hself
      · exact (hindex (h.number_le hold)).trans (h.canonical hold)
    case number_le =>
      intro hash b hb
      change b.number ≤ block.number
      rcases extend_blocks_cases hb with ⟨-, rfl⟩ | ⟨-, hold⟩
      · exact le_rfl
      · have := h.number_le hold
        omega
    case indexed =>
      intro n hn
      change n ≤ block.number at hn
      rcases Nat.lt_or_eq_of_le hn with hlt | rfl
      · obtain ⟨hash, b, -, hbnumber, -, hcanonical, hb⟩ := hindexed (n := n) (by omega)
        exact ⟨hash, b, hcanonical, hb, hbnumber⟩
      · exact ⟨_, block, hself, update_self _ _ _, rfl⟩
    case state =>
      intro hash b hb
      rcases extend_blocks_cases hb with ⟨-, rfl⟩ | ⟨-, hold⟩
      · rw [← hroot]
        exact ⟨s, update_self _ _ _⟩
      · obtain ⟨t, ht⟩ := h.state hold
        exact ⟨t, hstates ht⟩
    case genesis =>
      obtain ⟨t, ht⟩ := h.genesis
      exact ⟨t, hstates ht⟩
  · refine ⟨rfl, ?_, fun {n} hn => ?_, hstates⟩
    · change c.current.number ≤ block.number
      omega
    · obtain ⟨hash, b, hcanonical, -, hb, hcanonical', hb'⟩ := hindexed hn
      simp [BlockChain.headerByNumber, hcanonical, hb, hcanonical', hb']

theorem Linear.congr (hblocks : c'.blocks = c.blocks) (hcanonical : c'.canonical = c.canonical)
    (hcurrent : c'.current = c.current) (hgenesis : c'.genesis = c.genesis)
    (hstates : ∀ {root t}, c.states root = some t → c'.states root = some t) : c'.Linear env ∧ c.Continues c' := by
  constructor
  · constructor
    case hash_eq =>
      rw [hblocks]
      exact h.hash_eq
    case current =>
      rw [hblocks, hcurrent]
      exact h.current
    case canonical =>
      rw [hblocks, hcanonical]
      exact h.canonical
    case number_le =>
      rw [hblocks, hcurrent]
      exact h.number_le
    case indexed =>
      rw [hblocks, hcanonical, hcurrent]
      exact h.indexed
    case state =>
      intro hash b hb
      rw [hblocks] at hb
      obtain ⟨t, ht⟩ := h.state hb
      exact ⟨t, hstates ht⟩
    case genesis =>
      rw [hgenesis]
      obtain ⟨t, ht⟩ := h.genesis
      exact ⟨t, hstates ht⟩
  · refine ⟨hgenesis, by rw [hcurrent], fun _ => ?_, hstates⟩
    simp [BlockChain.headerByNumber, hblocks, hcanonical]

theorem Linear.insertBlock (hparent : block.parentHash = env.hash c.current.header) (now : Nat)
    (hstates : ∀ {root t}, c.states root = some t → (c.insertBlock env now block).2.states root = some t) :
    (c.insertBlock env now block).2.Linear env ∧ c.Continues (c.insertBlock env now block).2 ∧
      ((c.insertBlock env now block).1 = .ok () → (c.insertBlock env now block).2.current = block) := by
  rcases h.insertBlock_cases hparent now with ⟨e, herror, hsame | ⟨s, hcommit⟩⟩ | ⟨s, final, hok, hnumber, hnew, hroot⟩
  · rw [hsame, herror]
    exact ⟨h, .refl c, nofun⟩
  · rw [hcommit] at hstates ⊢
    obtain ⟨hlinear, hcontinues⟩ := Linear.congr h (show (c.commit env s).blocks = c.blocks from rfl) rfl rfl rfl hstates
    rw [herror]
    exact ⟨hlinear, hcontinues, nofun⟩
  · rw [hok] at hstates ⊢
    obtain ⟨hlinear, hcontinues⟩ := h.extend hnumber hnew hroot hstates
    exact ⟨hlinear, hcontinues, fun _ => rfl⟩

theorem Linear.states_of_insertBlock (hparent : block.parentHash = env.hash c.current.header)
    (hok : (c.insertBlock env now block).1 = .ok ()) (hfresh : c.states block.header.stateRoot = none) {root : Hash}
    {t : StateDB} (ht : c.states root = some t) : (c.insertBlock env now block).2.states root = some t := by
  rcases h.insertBlock_cases hparent now with ⟨e, herror, -⟩ | ⟨s, final, hinsert, -, -, hroot⟩
  · rw [herror] at hok
    cases hok
  · have hne : root ≠ env.stateRoot s := by
      rintro rfl
      rw [hroot, hfresh] at ht
      cases ht
    rw [hinsert]
    exact (update_of_ne hne _ _).trans ht

/-- On one branch a certificate finalizes a canonical block, so the head stays. -/
theorem Linear.finalize_eq (qc : QuorumCert) : ∃ final, (c.finalize env qc).2 = { c with finalized := final } := by
  rcases finalize_cases env c qc with hsame | ⟨block, hfinalizable, -, heq⟩
  · exact ⟨c.finalized, hsame⟩
  · have hstored : c.blocks qc.blockHash = some block := by
      simp only [finalizable] at hfinalizable
      split at hfinalizable
      · cases hfinalizable
      rename_i b hb
      split at hfinalizable
      · cases hfinalizable
      split at hfinalizable
      · exact hfinalizable ▸ hb
      split at hfinalizable
      · cases hfinalizable
      split at hfinalizable
      · exact hfinalizable ▸ hb
      · cases hfinalizable
    have hcanonical : c.canonical block.number = some (env.hash block.header) := by
      rw [h.hash_eq hstored]
      exact h.canonical hstored
    refine ⟨some block, ?_⟩
    rw [heq, finalizeBlock, if_pos hcanonical]

end BlockChain

theorem Genesis.linear_openChain {env : Env} {block : Block} {s : StateDB} (hnumber : block.number = 0)
    (hroot : block.header.stateRoot = env.stateRoot s) : (Genesis.openChain env block s).Linear env := by
  have hindex : (openChain env block s).canonical 0 = some (env.hash block.header) := rfl
  have hstate : (openChain env block s).states block.header.stateRoot = some s := if_pos hroot
  constructor
  case hash_eq =>
    intro h b hb
    obtain ⟨rfl, rfl⟩ := openChain_blocks hb
    rfl
  case current => exact if_pos rfl
  case canonical =>
    intro h b hb
    obtain ⟨rfl, rfl⟩ := openChain_blocks hb
    rw [hnumber]
    exact hindex
  case number_le =>
    intro h b hb
    obtain ⟨-, rfl⟩ := openChain_blocks hb
    exact le_rfl
  case indexed =>
    intro n hn
    change n ≤ block.number at hn
    rw [hnumber] at hn
    obtain rfl := Nat.le_zero.mp hn
    exact ⟨_, block, hindex, if_pos rfl, hnumber⟩
  case state =>
    intro h b hb
    obtain ⟨-, rfl⟩ := openChain_blocks hb
    exact ⟨s, hstate⟩
  case genesis => exact ⟨s, hstate⟩

end PadiChain.Chain

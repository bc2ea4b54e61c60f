import PadiChain.ChainIndex
import PadiChain.LibBloom

/-! Log queries. Before the receipts of a block are read, the bloom filter in its header is asked whether a matching
log is possible. The filter is part of the header and nobody compares it with the receipts: an import checks
the receipt root, the state root and the gas, and takes the filter as the proposer wrote it. A query misses
nothing exactly if the filters in the headers have all the bits of their receipts. -/

namespace PadiChain

open Core Staking Processor BloomFilter Transition List

namespace Core

variable (keccak : Bytes → Hash)

/-- `bloomPositions`: each pair of the first six bytes of the hash selects one of the 2048 bits. The bytes of the
filter are big-endian throughout, so the bits are numbered from the end. -/
def bloomPositions (d : Bytes) : List (Fin 2048) :=
  let h := hashBytes (keccak d)
  [0, 2, 4].map fun off => Fin.ofNat 2048 ((h.getD off 0).toNat * 256 + (h.getD (off + 1) 0).toNat)

def Log.entries (log : Log) : List Bytes := addressBytes log.address :: log.topics.map hashBytes

def createBloom (r : Receipt) : BitVec 2048 :=
  r.logs.foldl (fun b log => addAll (bloomPositions keccak) b log.entries) 0

def receiptsBloom (receipts : List Receipt) : BitVec 2048 := receipts.foldl (fun b r => b ||| createBloom keccak r) 0

def bloomTest (b : BitVec 2048) (d : Bytes) : Bool := test (bloomPositions keccak) b d

variable {keccak} {b : BitVec 2048}

theorem covers_foldl_logs_iff {b' : BitVec 2048} {logs : List Log} :
    Covers b (logs.foldl (fun b log => addAll (bloomPositions keccak) b log.entries) b') ↔
      Covers b b' ∧ ∀ log ∈ logs, ∀ d ∈ log.entries, bloomTest keccak b d = true := by
  induction logs generalizing b' with
  | nil => simp
  | cons log logs ih => rw [foldl_cons, ih, covers_addAll_iff, forall_mem_cons, and_assoc]; rfl

theorem covers_foldl_receipts_iff {b' : BitVec 2048} {receipts : List Receipt} :
    Covers b (receipts.foldl (fun b r => b ||| createBloom keccak r) b') ↔
      Covers b b' ∧ ∀ log ∈ receipts.flatMap Receipt.logs, ∀ d ∈ log.entries, bloomTest keccak b d = true := by
  induction receipts generalizing b' with
  | nil => simp
  | cons r receipts ih =>
    rw [foldl_cons, ih, covers_or_iff, createBloom, covers_foldl_logs_iff, flatMap_cons,
      forall_mem_append]
    simp only [covers_zero, true_and, and_assoc]

/-- A filter has the bits of the receipts exactly if it knows the address and the topics of every log. -/
theorem covers_receiptsBloom_iff {receipts : List Receipt} :
    Covers b (receiptsBloom keccak receipts) ↔
      ∀ log ∈ receipts.flatMap Receipt.logs, ∀ d ∈ log.entries, bloomTest keccak b d = true := by
  rw [receiptsBloom, covers_foldl_receipts_iff]
  exact and_iff_right (covers_zero b)

end Core

namespace Rpc

/-- `matchesFilter`: no addresses are any address, and at a position no topics are any topic. -/
def matchesFilter (log : Log) (addresses : List Address) (topics : List (List Hash)) : Bool :=
  if !addresses.isEmpty && !addresses.any (fun addr => log.address = addr) then false
  else if log.topics.length < topics.length then false
  else topics.zipIdx.all fun position =>
    position.1.isEmpty || position.1.any fun want => log.topics[position.2]? = some want

section Bloom

variable (keccak : Bytes → Hash)

def bloomMayContain (bloom : BitVec 2048) (addresses : List Address) (topics : List (List Hash)) : Bool :=
  if !addresses.isEmpty && !addresses.any (fun addr => bloomTest keccak bloom (addressBytes addr)) then false
  else topics.all fun allowed => allowed.isEmpty || allowed.any fun topic => bloomTest keccak bloom (hashBytes topic)

variable {keccak} {bloom : BitVec 2048} {log : Log} {addresses : List Address} {topics : List (List Hash)}

theorem isEmpty_or_any_iff {α : Type} {l : List α} {p : α → Bool} :
    (l.isEmpty || l.any p) = true ↔ l = [] ∨ ∃ a ∈ l, p a = true := by
  rw [Bool.or_eq_true, List.isEmpty_iff, List.any_eq_true]

theorem reject_eq_true_iff {α : Type} {l : List α} {p : α → Bool} {rest : Bool} :
    (if !l.isEmpty && !l.any p then false else rest) = true ↔ (l = [] ∨ ∃ a ∈ l, p a = true) ∧ rest = true := by
  rw [← isEmpty_or_any_iff]
  cases l.isEmpty <;> cases l.any p <;> simp

theorem matchesFilter_iff :
    matchesFilter log addresses topics = true ↔ (addresses = [] ∨ log.address ∈ addresses) ∧
      topics.length ≤ log.topics.length ∧ ∀ (i : Nat) (allowed : List Hash), topics[i]? = some allowed →
        allowed = [] ∨ ∃ want ∈ allowed, log.topics[i]? = some want := by
  have haddress : (∃ addr ∈ addresses, decide (log.address = addr) = true) ↔ log.address ∈ addresses := by
    simp
  have htopics : (topics.zipIdx.all fun position =>
        position.1.isEmpty || position.1.any fun want => log.topics[position.2]? = some want) = true ↔
      ∀ (i : Nat) (allowed : List Hash), topics[i]? = some allowed →
        allowed = [] ∨ ∃ want ∈ allowed, log.topics[i]? = some want := by
    simp only [all_eq_true, isEmpty_or_any_iff, decide_eq_true_eq, Prod.forall, mem_zipIdx_iff_getElem?]
    exact ⟨fun h i allowed hi => h allowed i hi, fun h allowed i hi => h i allowed hi⟩
  rw [matchesFilter, reject_eq_true_iff, haddress]
  split_ifs with hlength
  · simp [hlength]
  · rw [htopics]
    simp [not_lt.mp hlength]

theorem bloomMayContain_iff :
    bloomMayContain keccak bloom addresses topics = true ↔
      (addresses = [] ∨ ∃ addr ∈ addresses, bloomTest keccak bloom (addressBytes addr) = true) ∧
      ∀ allowed ∈ topics, allowed = [] ∨ ∃ topic ∈ allowed, bloomTest keccak bloom (hashBytes topic) = true := by
  rw [bloomMayContain, reject_eq_true_iff]
  simp

/-- A filter that knows a log lets every query through that the log answers. -/
theorem bloomMayContain_of_matchesFilter (hknown : ∀ d ∈ log.entries, bloomTest keccak bloom d = true)
    (hmatch : matchesFilter log addresses topics = true) : bloomMayContain keccak bloom addresses topics = true := by
  obtain ⟨haddress, -, htopics⟩ := matchesFilter_iff.mp hmatch
  refine bloomMayContain_iff.mpr ⟨haddress.imp_right fun hmem => ?_, fun allowed hallowed => ?_⟩
  · exact ⟨log.address, hmem, hknown _ mem_cons_self⟩
  · obtain ⟨i, hi⟩ := mem_iff_getElem?.mp hallowed
    refine (htopics i allowed hi).imp_right ?_
    rintro ⟨want, hwant, hlog⟩
    exact ⟨want, hwant, hknown _ (mem_cons_of_mem _ (mem_map_of_mem (mem_of_getElem? hlog)))⟩

/-- The queries for one address, or for one topic at its position, show what the filter knows of a log. -/
theorem bloomTest_of_bloomMayContain (h : ∀ addresses topics, matchesFilter log addresses topics = true →
      bloomMayContain keccak bloom addresses topics = true) : ∀ d ∈ log.entries, bloomTest keccak bloom d = true := by
  intro d hd
  rcases List.mem_cons.mp hd with rfl | hd
  · have hmatch : matchesFilter log [log.address] [] = true :=
      matchesFilter_iff.mpr ⟨.inr List.mem_cons_self, Nat.zero_le _, fun i allowed hi => by simp at hi⟩
    have hmay := (bloomMayContain_iff.mp (h _ _ hmatch)).1
    simpa using hmay
  · obtain ⟨topic, htopic, rfl⟩ := List.mem_map.mp hd
    obtain ⟨i, hi⟩ := List.mem_iff_getElem?.mp htopic
    have hmatch : matchesFilter log [] (List.replicate i [] ++ [[topic]]) = true := by
      refine matchesFilter_iff.mpr ⟨.inl rfl, ?_, fun j allowed hj => ?_⟩
      · obtain ⟨hlt, -⟩ := List.getElem?_eq_some_iff.mp hi
        rw [List.length_append, List.length_replicate, List.length_singleton]
        exact hlt
      · by_cases hlt : j < i
        · rw [List.getElem?_append_left (by simpa using hlt), List.getElem?_replicate, if_pos hlt] at hj
          exact .inl (Option.some.inj hj).symm
        · -- the only position after the wildcards is that of the topic
          rw [List.getElem?_append_right (by simpa using hlt), List.length_replicate] at hj
          obtain ⟨hone, rfl⟩ := List.getElem?_eq_some_iff.mp hj
          have hposition : j = i := by
            rw [List.length_singleton] at hone
            omega
          subst hposition
          refine .inr ⟨topic, ?_, hi⟩
          simp
    have hmay := (bloomMayContain_iff.mp (h _ _ hmatch)).2 [topic] (List.mem_append_right _ List.mem_cons_self)
    simpa using hmay

end Bloom

/-! ### Queries -/

inductive BlockTag where
  | head
  | earliest
  | number (n : Nat)

/-- What a query covers: one block, or the canonical blocks from one height to another. -/
inductive LogRange where
  | blockHash (hash : Hash)
  | heights (fromBlock toBlock : Option BlockTag)

inductive RpcError where
  | unknownBlock (hash : Hash)
  | fromAfterTo (fromBlock toBlock : Nat)
  | rangeTooLong (length : Nat)
  deriving DecidableEq, Repr

def BlockTag.resolve (head : Nat) : BlockTag → Nat
  | .head => head
  | .earliest => 0
  | .number n => n

def resolveRange (head : Nat) (fromBlock toBlock : Option BlockTag) : Except RpcError (Nat × Nat) :=
  let first := fromBlock.elim 0 (BlockTag.resolve head)
  let last := min (toBlock.elim head (BlockTag.resolve head)) head
  if last < first then .error (.fromAfterTo first last) else .ok (first, last)

def maxRange : Nat := 10000

section Queries

open Chain (Disk Session)

def getBlockByNumber (d : Disk) (number : Nat) : Option Block := (d.canonical number).bind d.blocks

def blocksBetween (d : Disk) (first last : Nat) : List Block :=
  (List.range' first (last + 1 - first)).filterMap (getBlockByNumber d)

def LogRange.select (s : Session) : LogRange → Except RpcError (List Block)
  | .blockHash hash =>
    match s.disk.blocks hash with
    | none => .error (.unknownBlock hash)
    | some block => .ok [block]
  | .heights fromBlock toBlock =>
    match resolveRange s.chain.current.number fromBlock toBlock with
    | .error e => .error e
    | .ok (first, last) =>
      if maxRange < last - first then .error (.rangeTooLong (last - first)) else .ok (blocksBetween s.disk first last)

variable (env : Env) (keccak : Bytes → Hash)

/-- `BlockChain.GetLogs`: the logs of the receipts that are stored for a block. -/
def logsOf (d : Disk) (block : Block) : List Log :=
  ((d.receipts (env.hash block.header)).getD []).flatMap Receipt.logs

def matching (d : Disk) (addresses : List Address) (topics : List (List Hash)) (block : Block) : List Log :=
  (logsOf env d block).filter fun log => matchesFilter log addresses topics

/-- The logs of a block that a query is answered with: the receipts are read if the filter lets the query through. -/
def answer (d : Disk) (addresses : List Address) (topics : List (List Hash)) (block : Block) : List Log :=
  if bloomMayContain keccak block.header.bloom addresses topics then matching env d addresses topics block else []

def getLogs (s : Session) (range : LogRange) (addresses : List Address) (topics : List (List Hash)) :
    Except RpcError (List Log) :=
  match range.select s with
  | .error e => .error e
  | .ok blocks => .ok (blocks.flatMap (answer env keccak s.disk addresses topics))

def collectLogs (s : Session) (first last : Nat) (addresses : List Address) (topics : List (List Hash)) : List Log :=
  (blocksBetween s.disk first last).flatMap (answer env keccak s.disk addresses topics)

end Queries

end Rpc

namespace Chain

open Rpc

/-- The receipts that are stored for a block hash to the root in its header, and the filter in its header has all
their bits. -/
structure Disk.Filtered (env : Env) (keccak : Bytes → Hash) (d : Disk) (genesis : Block) : Prop where
  receipts : ∀ h b, d.blocks h = some b → b = genesis ∨
    ∃ receipts, d.receipts h = some receipts ∧ env.receiptRoot receipts = b.header.receiptRoot
  covers : ∀ h b receipts, d.blocks h = some b → d.receipts h = some receipts →
    Covers b.header.bloom (receiptsBloom keccak receipts)

namespace BlockChain

variable (env : Env) (keccak : Bytes → Hash)

/-- If the block is accepted, no query that one of its logs answers is turned away by its filter. -/
def NothingMissed (now : Nat) (c : BlockChain) (block : Block) : Prop :=
  ∀ receipts s, c.Accepts env now block receipts s → ∀ log ∈ receipts.flatMap Receipt.logs, ∀ addresses topics,
    matchesFilter log addresses topics = true → bloomMayContain keccak block.header.bloom addresses topics = true

/-- If the block is accepted, the filter in its header has all the bits of its receipts. -/
def BloomCovers (now : Nat) (c : BlockChain) (block : Block) : Prop :=
  ∀ receipts s, c.Accepts env now block receipts s → Covers block.header.bloom (receiptsBloom keccak receipts)

variable {env keccak}

theorem nothingMissed_iff {now : Nat} {c : BlockChain} {block : Block} :
    c.NothingMissed env keccak now block ↔ c.BloomCovers env keccak now block := by
  constructor
  · intro h receipts s haccepts
    refine covers_receiptsBloom_iff.mpr fun log hlog => ?_
    exact bloomTest_of_bloomMayContain (h receipts s haccepts log hlog)
  · intro h receipts s haccepts log hlog addresses topics hmatch
    exact bloomMayContain_of_matchesFilter (covers_receiptsBloom_iff.mp (h receipts s haccepts) log hlog) hmatch

/-- The receipts of a block that is written hash to the root in its header and are covered by its filter. -/
def Recorded (env : Env) (keccak : Bytes → Hash) (_ : BlockChain) : Write → Prop
  | .block block receipts => env.receiptRoot receipts = block.header.receiptRoot ∧
      Covers block.header.bloom (receiptsBloom keccak receipts)
  | _ => True

theorem recorded_of_ne_block (c : BlockChain) (w : Write) (h : ∀ block receipts, w ≠ Write.block block receipts) :
    c.Recorded env keccak w := by
  cases w with
  | block block receipts => exact absurd rfl (h block receipts)
  | commit s | finalized block | reorg newChain oldChain block => trivial

theorem Accepts.receiptRoot {now : Nat} {c : BlockChain} {block : Block} {receipts : List Receipt} {s : StateDB}
    (h : c.Accepts env now block receipts s) : env.receiptRoot receipts = block.header.receiptRoot := by
  obtain ⟨parent, -, hexecute⟩ := h.checked
  simp only [executeBlock] at hexecute
  split at hexecute
  · cases hexecute
  split at hexecute
  · cases hexecute
  split at hexecute
  · cases hexecute
  · rename_i hroot
    cases hexecute
    exact not_not.mp hroot

end BlockChain

section Sessions

variable {env : Env} {keccak : Bytes → Hash} {txHash : Transaction → Hash}

variable {c : BlockChain} {d : Disk} {s : Session}

theorem Disk.Filtered.write (h : d.Filtered env keccak c.genesis) {w : Write}
    (hrecorded : c.Recorded env keccak w) : (d.write env txHash w).Filtered env keccak (c.written env w).genesis := by
  cases w with
  | commit _ | finalized _ | reorg _ _ _ => exact ⟨h.receipts, h.covers⟩
  | block block receipts =>
    refine ⟨fun hash b hb => ?_, fun hash b rs hb hrs => ?_⟩
    · simp only [Disk.write, Function.update_apply] at hb ⊢
      split_ifs at hb ⊢
      · cases hb
        exact .inr ⟨receipts, rfl, hrecorded.1⟩
      · exact h.receipts hash b hb
    · simp only [Disk.write, Function.update_apply] at hb hrs
      split_ifs at hb hrs
      · cases hb
        cases hrs
        exact hrecorded.2
      · exact h.covers hash b rs hb hrs

theorem Disk.Filtered.writeAll (h : d.Filtered env keccak c.genesis) {writes : List Write}
    (hsteps : Steps (BlockChain.written env) (BlockChain.Recorded env keccak) c writes) :
    (d.writeAll env txHash writes).Filtered env keccak (run (BlockChain.written env) c writes).genesis := by
  induction writes generalizing c d with
  | nil => exact h
  | cons w writes ih => exact ih (h.write hsteps.1) hsteps.2

/-- A session whose store is in order and whose filters cover the receipts. -/
structure Session.Searchable (env : Env) (keccak : Bytes → Hash) (s : Session) : Prop where
  intact : s.chain.Intact env
  holds : s.disk.Holds env s.chain
  filtered : s.disk.Filtered env keccak s.chain.genesis

theorem Session.Searchable.call (h : s.Searchable env keccak) {call : Call}
    (hsteps : Steps (BlockChain.written env) (BlockChain.Recorded env keccak) s.chain
      (call.writes env s.chain)) : (s.call env txHash call).Searchable env keccak := by
  have hchain := call.run_writes env s.chain
  refine ⟨call.intact_apply h.intact, ?_, ?_⟩
  · have hholds := h.holds.writeAll txHash (call.writes env s.chain)
    rw [hchain] at hholds
    exact hholds
  · change (s.disk.writeAll env txHash (call.writes env s.chain)).Filtered env keccak (call.apply env s.chain).genesis
    rw [← hchain]
    exact h.filtered.writeAll hsteps

/-- Where the filter covers the receipts, asking it first makes no difference. -/
theorem Disk.Filtered.answer_eq {genesis block : Block} (h : d.Filtered env keccak genesis)
    (hstored : d.blocks (env.hash block.header) = some block) (addresses : List Address) (topics : List (List Hash)) :
    answer env keccak d addresses topics block = matching env d addresses topics block := by
  rw [answer]
  split
  · rfl
  · rename_i hmay
    refine (filter_eq_nil_iff.mpr fun log hlog hmatch => hmay ?_).symm
    cases hreceipts : d.receipts (env.hash block.header) with
    | none =>
      rw [logsOf, hreceipts] at hlog
      cases hlog
    | some receipts =>
      rw [logsOf, hreceipts] at hlog
      have hknown := covers_receiptsBloom_iff.mp (h.covers _ block receipts hstored hreceipts) log hlog
      exact bloomMayContain_of_matchesFilter hknown hmatch

section

variable (h : s.Searchable env keccak)

include h

theorem Session.Searchable.stored_of_select {hash : Hash} {block : Block}
    (hblock : s.disk.blocks hash = some block) : s.disk.blocks (env.hash block.header) = some block := by
  rw [h.holds.blocks] at hblock ⊢
  exact h.intact.wellFormed.stored_of_blocks hblock

theorem Session.Searchable.stored_of_mem_blocksBetween {first last : Nat}
    {block : Block} (hmem : block ∈ blocksBetween s.disk first last) :
    s.disk.blocks (env.hash block.header) = some block := by
  obtain ⟨number, -, hnumber⟩ := mem_filterMap.mp hmem
  obtain ⟨hash, -, hblock⟩ := Option.bind_eq_some_iff.mp hnumber
  exact h.stored_of_select hblock

theorem Session.Searchable.collectLogs_eq (first last : Nat) (addresses : List Address) (topics : List (List Hash)) :
    collectLogs env keccak s first last addresses topics =
      (blocksBetween s.disk first last).flatMap (matching env s.disk addresses topics) := by
  refine flatMap_congr fun block hblock => ?_
  exact h.filtered.answer_eq (h.stored_of_mem_blocksBetween hblock) addresses topics

theorem Session.Searchable.getLogs_eq (range : LogRange) (addresses : List Address) (topics : List (List Hash)) :
    getLogs env keccak s range addresses topics =
      (range.select s).map fun blocks => blocks.flatMap (matching env s.disk addresses topics) := by
  have hstored : ∀ blocks, range.select s = .ok blocks → ∀ block ∈ blocks,
      s.disk.blocks (env.hash block.header) = some block := by
    intro blocks hselect block hblock
    cases range with
    | blockHash hash =>
      simp only [LogRange.select] at hselect
      split at hselect
      · cases hselect
      · rename_i found hfound
        cases hselect
        rw [mem_singleton.mp hblock]
        exact h.stored_of_select hfound
    | heights fromBlock toBlock =>
      simp only [LogRange.select] at hselect
      split at hselect
      · cases hselect
      split at hselect
      · cases hselect
      · cases hselect
        exact h.stored_of_mem_blocksBetween hblock
  rw [getLogs]
  split
  · rename_i e hselect
    rw [hselect]
    rfl
  · rename_i blocks hselect
    rw [hselect]
    refine congrArg Except.ok (flatMap_congr fun block hblock => ?_)
    exact h.filtered.answer_eq (hstored blocks hselect block hblock) addresses topics

end

theorem Genesis.searchable_of_commit {g : Genesis} (h : g.commit env = .ok c) :
    (Session.opened env c).Searchable env keccak := by
  refine ⟨Genesis.intact_of_commit h, Disk.ofChain_holds env c, fun hash b hb => ?_, fun _ _ _ _ hreceipts => nomatch hreceipts⟩
  exact .inl (Genesis.blocks_of_commit h hb).1

end Sessions

/-- The filter of an accepted block turns no query away that one of its logs answers exactly if it has all the bits of
the receipts. In every run from genesis in which the accepted blocks have such filters, queries are answered as if all
receipts were read. -/
theorem log_queries_complete (env : Env) (keccak : Bytes → Hash) (txHash : Transaction → Hash) :
    (∀ now c block, BlockChain.NothingMissed env keccak now c block ↔ BlockChain.BloomCovers env keccak now c block) ∧
      ∀ (g : Genesis) (c₀ : BlockChain) (ops : List Op) (s : Session), g.commit env = .ok c₀ →
        Steps (Session.apply env txHash) (Op.EachImport env (BlockChain.BloomCovers env keccak))
          (Session.opened env c₀) ops →
        run (Session.apply env txHash) (Session.opened env c₀) ops = s →
        (∀ h b, s.chain.blocks h = some b → b = s.chain.genesis ∨
          ∃ receipts, s.disk.receipts h = some receipts ∧ env.receiptRoot receipts = b.header.receiptRoot) ∧
        (∀ range addresses topics, getLogs env keccak s range addresses topics =
          (range.select s).map fun blocks => blocks.flatMap (matching env s.disk addresses topics)) ∧
        ∀ first last addresses topics, collectLogs env keccak s first last addresses topics =
          (blocksBetween s.disk first last).flatMap (matching env s.disk addresses topics) := by
  refine ⟨fun now c block => BlockChain.nothingMissed_iff, fun g c₀ ops s hgenesis hsteps hrun => ?_⟩
  have hsearchable : s.Searchable env keccak := by
    rw [← hrun]
    refine run_invariant (Op.invariant ?_ ?_) hsteps (Genesis.searchable_of_commit hgenesis)
    · intro s now block hcovers h
      refine h.call (BlockChain.steps_insertWrites BlockChain.recorded_of_ne_block fun receipts t haccepts => ?_)
      exact ⟨haccepts.receiptRoot, hcovers receipts t haccepts⟩
    · intro s qc h
      exact h.call (BlockChain.steps_finalizeWrites BlockChain.recorded_of_ne_block s.chain qc)
  refine ⟨fun h b hb => ?_, hsearchable.getLogs_eq, hsearchable.collectLogs_eq⟩
  rw [← hsearchable.holds.blocks] at hb
  exact hsearchable.filtered.receipts h b hb

/-! ### A header that hides a log -/

namespace LogsExample

/-- A call to account 9, which emits a log. -/
def env : Env :=
  { Env.plain (fun s => BitVec.ofNat 256 (s.balance 5).toNat) with
    message _ _ := some ⟨5, some 9, 0, 0, 21000, minBaseFee, minBaseFee, minBaseFee, [], []⟩
    evmCall _ _ gas s := .done ⟨gas, 0, false, [⟨9, [7], []⟩], s⟩ }

def genesis : Genesis := { Genesis.plain [1] with alloc := [⟨5, 10 ^ 15, 0, [], []⟩] }

def chain : BlockChain :=
  let s := genesis.toState.toOption.getD StateDB.empty
  Genesis.openChain env (genesis.toBlock env s) s

theorem chain_of_commit : genesis.commit env = .ok chain := rfl

def txHash (tx : Transaction) : Hash := BitVec.ofNat 256 tx.bytes.length

def keccak (d : Bytes) : Hash := BitVec.ofNat 256 (256 ^ 31 * (d.getLastD 0).toNat)

def receipts : List Receipt := [⟨true, 21000, [⟨9, [7], []⟩]⟩]

def block (bloom : BitVec 2048) : Block :=
  { emptyChild chain.genesis 1 1 [] with
    header.bloom := bloom
    header.gasUsed := 21000
    header.stateRoot := chain.genesis.header.stateRoot - BitVec.ofNat 256 (21000 * minBaseFee)
    transactions := [⟨[]⟩] }

def honest : Block := block (receiptsBloom keccak receipts)

def silent : Block := block 0

theorem receipts_of_accepts {bloom : BitVec 2048} {rs : List Receipt} {s : StateDB}
    (hcheck : chain.checkBlock env 100 (block bloom) = .ok chain.genesis)
    (hexecute : (chain.executeBlock env (block bloom) chain.genesis).map Prod.fst = .ok receipts)
    (h : chain.Accepts env 100 (block bloom) rs s) : rs = receipts := by
  obtain ⟨parent, hparent, hrun⟩ := h.checked
  cases hcheck.symm.trans hparent
  rw [hrun] at hexecute
  exact Except.ok.inj hexecute

theorem bloomCovers_honest : chain.BloomCovers env keccak 100 honest := by
  intro rs s h
  rw [receipts_of_accepts (by decide +kernel) (by decide +kernel) h]
  exact fun _ hbit => hbit

end LogsExample

open LogsExample in
/-- With the filter that `NewBlock` makes, the log is found. -/
theorem log_found_with_filter :
    ∃ s, run (Session.apply env txHash) (Session.opened env chain) [.insertBlock 100 honest] = s ∧
      s.chain.current = honest ∧
      getLogs env keccak s (.heights none none) [9] [[7]] = .ok [⟨9, [7], []⟩] := by
  refine ⟨_, rfl, by decide +kernel, ?_⟩
  have hsteps : Steps (Session.apply env txHash) (Op.EachImport env (BlockChain.BloomCovers env keccak))
      (Session.opened env chain) [.insertBlock 100 honest] := ⟨bloomCovers_honest, trivial⟩
  obtain ⟨-, hqueries, -⟩ := (log_queries_complete env keccak txHash).2 genesis chain _ _ chain_of_commit hsteps rfl
  rw [hqueries]
  decide +kernel

open LogsExample in
/-- A block with an empty filter and a log is accepted. -/
theorem log_hidden_by_header : ¬ ∀ (env : Env) (keccak : Bytes → Hash) (now : Nat) (c : BlockChain) (block : Block),
    c.NothingMissed env keccak now block := by
  intro h
  have haccepted : (chain.insertBlock env 100 silent).1 = .ok () := by decide +kernel
  obtain ⟨parent, rs, s, hcheck, hexecute, hroot, -⟩ := BlockChain.insertBlock_ok haccepted
  have haccepts : chain.Accepts env 100 silent rs s := ⟨⟨parent, hcheck, hexecute⟩, hroot⟩
  have hreceipts : rs = receipts := receipts_of_accepts (by decide +kernel) (by decide +kernel) haccepts
  have hlog : (⟨9, [7], []⟩ : Log) ∈ rs.flatMap Receipt.logs := by
    rw [hreceipts]
    decide
  have hmay := h env keccak 100 chain silent rs s haccepts _ hlog [9] [] (by decide)
  revert hmay
  decide +kernel

end Chain

end PadiChain

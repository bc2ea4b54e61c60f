import PadiChain.ChainExecution
import PadiChain.P2PPeer

/-! A node as the backend of its network layer. The network layer tells an honest sender from a hostile one by the
text of the error with which a block was refused. A known block, a missing parent and a running snapshot sync are
forgiven. Everything else is held against the sender, also where it comes from what the receiver happens to have
finalized, pruned or chosen as its canonical chain. -/

namespace PadiChain

open Core Processor Chain P2P

/-- The text of an import error up to the values it reports. -/
def Chain.BlockError.text : BlockError → String
  | .known => "chain: block is already known"
  | .unknownAncestor => "chain: parent block is unknown"
  | .invalidNumber => "consensus: block number does not follow its parent"
  | .parentMismatch => "consensus: parent block is unknown"
  | .extraDataTooLong => "consensus: extra data exceeds the limit"
  | .roundTooHigh => "consensus: round number is out of range"
  | .timestampTooEarly => "consensus: block timestamp does not respect the block period"
  | .futureBlock => "consensus: block timestamp is in the future"
  -- a missing seal and a wrong one have texts of their own
  | .invalidSeal => "consensus: "
  | .unauthorizedProposer => "consensus: block proposed by a non-validator"
  | .noValidators => "consensus: validator set is empty"
  | .wrongProposerTurn => "consensus: proposer is out of turn"
  | .coinbaseMismatch => "consensus: coinbase "
  | .blockTooLarge => "chain: block gas used exceeds its limit"
  | .gasLimitTooLow => "processor: gas limit "
  | .gasLimitDelta => "processor: gas limit changed too much between blocks"
  | .baseFee => "processor: base fee is "
  | .malformedJustification => "core: decoding aggregate attestation: "
  | .justifiesNonAncestor => "chain: block "
  -- the text of what could not be read: the state at the boundary, the one of genesis, or a key
  | .validatorSet => ""
  | .invalidJustification _ => "chain: block "
  | .txRootMismatch => "core: transaction root does not match the body"
  | .conflictsWithFinalized => "chain: block conflicts with finalized history"
  | .finalityRegression => "chain: refusing to move finality backwards"
  | .parentState => "chain: loading parent state: "
  | .process _ => "processor: "
  | .receiptRootMismatch => "chain: receipt root does not match execution"
  | .stateRootMismatch => "chain: state root does not match execution"
  | .quorumNotMet => "core: not enough attestations for a quorum"
  | .certificateHeight => "chain: certificate says height "
  | .certificateBlock => "chain: the certificate does not name the offered block"
  | .snapshotOverHistory => "chain: refusing to adopt a snapshot over "
  | .snapshotState => "chain: snapshot state "

def benignPhrases : List String := ["parent block is unknown", "already known", "snapshot sync in progress"]

/-- What errors say after their fixed texts: heights, hashes, addresses and the texts of wrapped errors. None of it
has one of the phrases. -/
structure Wording where
  detail : BlockError → String
  quiet : ∀ e, ∀ phrase ∈ benignPhrases, mentions phrase (e.text ++ detail e) = true → mentions phrase e.text = true

def Wording.message (wording : Wording) (e : BlockError) : String := e.text ++ wording.detail e

theorem isBenignBlockError_iff (text : String) :
    isBenignBlockError text = true ↔ ∃ phrase ∈ benignPhrases, mentions phrase text = true := by
  simp [isBenignBlockError, isMissingParent, benignPhrases, or_assoc]

theorem mentions_append {phrase text : String} (h : mentions phrase text = true) {detail : String} :
    mentions phrase (text ++ detail) = true := by
  rw [mentions, decide_eq_true_iff] at h ⊢
  exact h.trans (List.prefix_append _ _).isInfix

def Chain.BlockError.forgiven : BlockError → Bool
  | .known => true
  | .unknownAncestor => true
  | .parentMismatch => true
  | _ => false

theorem isBenignBlockError_text (e : BlockError) : isBenignBlockError e.text = e.forgiven := by
  cases e with
  | invalidJustification e =>
    change isBenignBlockError "chain: block " = false
    decide
  | process e =>
    change isBenignBlockError "processor: " = false
    decide
  | _ => decide

theorem isBenignBlockError_message (wording : Wording) (e : BlockError) :
    isBenignBlockError (wording.message e) = true ↔ e.forgiven = true := by
  have hfixed : isBenignBlockError (wording.message e) = true ↔ isBenignBlockError e.text = true := by
    rw [isBenignBlockError_iff, isBenignBlockError_iff]
    constructor
    · rintro ⟨phrase, hphrase, hmentions⟩
      exact ⟨phrase, hphrase, wording.quiet e phrase hphrase hmentions⟩
    · rintro ⟨phrase, hphrase, hmentions⟩
      exact ⟨phrase, hphrase, mentions_append hmentions⟩
  rw [hfixed, isBenignBlockError_text]

/-- The node as the network layer sees it: the chain, whether a snapshot sync is running, and the state nodes and
code of its store. -/
structure NodeState where
  chain : BlockChain
  snapSyncing : Bool
  blobs : Hash → Option Bytes

/-- The parts of the node that are not modelled here: what follows an import (the transaction pool, the vote pool and
the node's own vote, which may finalize a block but stores none), votes and transactions from peers, and the snapshot
download. -/
structure NodeServices where
  imported : NodeState → Block → NodeState
  imported_blocks : ∀ s block, (imported s block).chain.blocks = s.chain.blocks
  handleTransactions : NodeState → List Transaction → NodeState
  handleAttestations : NodeState → List Attestation → NodeState
  handleEvidence : NodeState → List Equivocation → NodeState
  localSnapshot : NodeState → Option (Block × QuorumCert)
  handleSnapshot : NodeState → Block → QuorumCert → NodeState
  handleStateNodes : NodeState → List Bytes → NodeState

def maxRequestBatch : Nat := 256

def serve (blobs : Hash → Option Bytes) (limit : Nat) : List Hash → List Bytes → List Bytes
  | [], out => out
  | wanted :: hashes, out =>
    if limit ≤ out.length then out
    else
      match blobs wanted with
      | none => serve blobs limit hashes out
      | some blob => serve blobs limit hashes (out ++ [blob])

theorem length_serve_le {blobs : Hash → Option Bytes} {limit : Nat} {hashes : List Hash} {out : List Bytes}
    (h : out.length ≤ limit) : (serve blobs limit hashes out).length ≤ limit := by
  induction hashes generalizing out with
  | nil => exact h
  | cons wanted hashes ih =>
    rw [serve]
    split
    · exact h
    · rename_i hroom
      split
      · exact ih h
      · refine ih ?_
        rw [List.length_append, List.length_singleton]
        exact Nat.lt_of_not_le hroom

namespace NodeState

variable (env : Env) (wording : Wording) (services : NodeServices)

/-- `HandleBlock`. The clock of the chain has seconds. -/
def handleBlock (now : Nat) (s : NodeState) (block : Block) : Option String × NodeState :=
  if s.snapSyncing then (some "node: snapshot sync in progress", s)
  else
    match s.chain.insertBlock env (now / second) block with
    | (.ok _, c) => (none, services.imported { s with chain := c } block)
    | (.error e, c) => (some (wording.message e), { s with chain := c })

def blockByNumber (s : NodeState) (number : Nat) : Option Block := (s.chain.canonical number).bind s.chain.blocks

def backend : Backend NodeState where
  head s := (env.hash s.chain.current.header, s.chain.current.number)
  blockByNumber := blockByNumber
  blockByHash s := s.chain.blocks
  handleBlock := handleBlock env wording services
  handleTransactions := services.handleTransactions
  handleAttestations := services.handleAttestations
  handleEvidence := services.handleEvidence
  localSnapshot := services.localSnapshot
  handleSnapshot := services.handleSnapshot
  serveStateNodes s hashes := serve s.blobs maxRequestBatch hashes []
  handleStateNodes := services.handleStateNodes

end NodeState

namespace Chain.BlockChain

variable {env : Env} {c d : BlockChain} {now : Nat} {block parent : Block} {e : BlockError}

variable (env c) in
def Keyed : Prop := ∀ k b, c.blocks k = some b → env.hash b.header = k

theorem Keyed.insertBlock (h : c.Keyed env) (now : Nat) (block : Block) : (c.insertBlock env now block).2.Keyed env := by
  intro k b hb
  rcases insertBlock_stored hb with hb | ⟨rfl, rfl⟩
  · exact h k b hb
  · rfl

variable (env c) in
/-- A block passes the checks of a chain, and its execution gives the state that the header claims. -/
structure Passes (now : Nat) (block parent : Block) : Prop where
  verified : c.verifyBlock env now block parent = .ok ()
  final : c.checkFinality env block = .ok ()
  executed : ∃ receipts s, c.executeBlock env block parent = .ok (receipts, s) ∧ env.stateRoot s = block.header.stateRoot

/-- A header that is refused is not refused as if its parent were missing, where blocks are found by their hashes. -/
theorem forgiven_of_verifyHeader {header parent : Header} (hkeyed : env.hash parent = header.parentHash)
    (h : c.verifyHeader env now header parent = .error e) : e.forgiven = false := by
  unfold verifyHeader at h
  split at h
  · cases h; rfl
  split at h
  · rename_i hparent
    exact absurd hkeyed.symm hparent
  -- the other checks each fail with an error of their own
  iterate 9
    split at h
    · cases h; rfl
  cases h

theorem forgiven_of_verifyGasLimit {parentLimit limit : Nat} (h : verifyGasLimit parentLimit limit = .error e) :
    e.forgiven = false := by
  unfold verifyGasLimit at h
  generalize (if parentLimit < limit then limit - parentLimit else parentLimit - limit) = diff at h
  dsimp only at h
  split_ifs at h
  all_goals cases h
  all_goals rfl

theorem forgiven_of_verifyJustification {header : Header} (h : c.verifyJustification env header = .error e) :
    e.forgiven = false := by
  unfold verifyJustification at h
  split at h
  · cases h; rfl
  · cases h
  split at h
  · cases h; rfl
  split at h
  · cases h; rfl
  split at h
  · cases h; rfl
  · cases h

theorem forgiven_of_verifyBlock (hkeyed : env.hash parent.header = block.parentHash)
    (h : c.verifyBlock env now block parent = .error e) : e.forgiven = false := by
  unfold verifyBlock at h
  split at h
  · rename_i hheader
    cases h
    exact forgiven_of_verifyHeader hkeyed hheader
  split at h
  · cases h; rfl
  split at h
  · rename_i hlimit
    cases h
    exact forgiven_of_verifyGasLimit hlimit
  split at h
  · cases h; rfl
  split at h
  · rename_i hjustification
    cases h
    exact forgiven_of_verifyJustification hjustification
  split at h
  · cases h; rfl
  · cases h

theorem forgiven_of_checkFinality (h : c.checkFinality env block = .error e) : e.forgiven = false := by
  unfold checkFinality at h
  split at h
  · cases h
  split at h
  · split at h
    · cases h
    split at h
    · cases h; rfl
    · cases h
  split at h
  · cases h
  · cases h; rfl

theorem forgiven_of_executeBlock (h : c.executeBlock env block parent = .error e) : e.forgiven = false := by
  unfold executeBlock at h
  split at h
  · cases h; rfl
  split at h
  · cases h; rfl
  split at h
  · cases h; rfl
  · cases h

/-- Only the walk to the new head can still fail once a block is stored, and then for a missing parent. -/
theorem forgiven_of_adopt (h : (c.adopt env block).1 = .error e) : e.forgiven = true := by
  unfold adopt at h
  dsimp only at h
  split at h
  · split at h
    · cases h; rfl
    · cases h
  · cases h

theorem held (h : e.forgiven = false) : ¬ ∀ e', (Except.error e : Except BlockError Unit) = .error e' → e'.forgiven = true :=
  fun hall => absurd (hall e rfl) (ne_true_of_eq_false h)

/-- An import is forgiven exactly when the block is known, its parent is not, or the block passes. -/
theorem insertBlock_forgiven_iff (hkeyed : c.Keyed env) :
    (∀ e, (c.insertBlock env now block).1 = .error e → e.forgiven = true) ↔
      (c.blocks (env.hash block.header)).isSome = true ∨ c.blocks block.parentHash = none ∨
        ∃ parent, c.blocks block.parentHash = some parent ∧ c.Passes env now block parent := by
  by_cases hknown : (c.blocks (env.hash block.header)).isSome = true
  · refine iff_of_true (fun e he => ?_) (.inl hknown)
    rw [insertBlock, checkBlock, if_pos hknown] at he
    cases he
    rfl
  cases hparent : c.blocks block.parentHash with
  | none =>
    refine iff_of_true (fun e he => ?_) (.inr (.inl rfl))
    rw [insertBlock, checkBlock, if_neg hknown, hparent] at he
    cases he
    rfl
  | some parent =>
    have hpasses : (∀ e, (c.insertBlock env now block).1 = .error e → e.forgiven = true) ↔
        c.Passes env now block parent := by
      rw [insertBlock, checkBlock, if_neg hknown, hparent]
      dsimp only
      cases hverify : c.verifyBlock env now block parent with
      | error e =>
        refine iff_of_false (held (forgiven_of_verifyBlock (hkeyed _ _ hparent) hverify)) fun h => ?_
        cases hverify.symm.trans h.verified
      | ok u =>
        cases hfinal : c.checkFinality env block with
        | error e =>
          refine iff_of_false (held (forgiven_of_checkFinality hfinal)) fun h => ?_
          cases hfinal.symm.trans h.final
        | ok u =>
          dsimp only
          cases hexecute : c.executeBlock env block parent with
          | error e =>
            refine iff_of_false (held (forgiven_of_executeBlock hexecute)) fun h => ?_
            obtain ⟨receipts, s, hok, -⟩ := h.executed
            cases hexecute.symm.trans hok
          | ok result =>
            obtain ⟨receipts, s⟩ := result
            dsimp only
            by_cases hroot : env.stateRoot s = block.header.stateRoot
            · rw [if_neg (not_not.mpr hroot)]
              exact iff_of_true (fun e he => forgiven_of_adopt he)
                ⟨hverify, hfinal, receipts, s, hexecute, hroot⟩
            · rw [if_pos hroot]
              refine iff_of_false (held rfl) fun h => ?_
              obtain ⟨receipts', s', hok, hsame⟩ := h.executed
              cases hexecute.symm.trans hok
              exact hroot hsame
    rw [hpasses]
    simp [hknown]

theorem exists_passes_of_insertBlock (h : (c.insertBlock env now block).1 = .ok ()) :
    ∃ parent, c.blocks block.parentHash = some parent ∧ c.Passes env now block parent := by
  obtain ⟨parent, receipts, s, hcheck, hexecuted, hroot, -⟩ := insertBlock_ok h
  obtain ⟨-, hparent, hverified, hfinal⟩ := checkBlock_ok hcheck
  exact ⟨parent, hparent, hverified, hfinal, receipts, s, hexecuted, hroot⟩

theorem verifyBlock_mono {now' : Nat} (hle : now ≤ now') (h : c.verifyBlock env now block parent = .ok ()) :
    c.verifyBlock env now' block parent = .ok () := by
  obtain ⟨-, -, -, -, -, hfuture, -⟩ := verifyHeader_ok (verifyBlock_ok h).1
  have hheader : c.verifyHeader env now' block.header parent.header = c.verifyHeader env now block.header parent.header := by
    unfold verifyHeader
    rw [if_neg (not_lt.mpr hfuture), if_neg (not_lt.mpr (hfuture.trans (Nat.add_le_add_right hle _)))]
  rw [verifyBlock, hheader]
  exact h

variable (env c d block) in
/-- The node `d` agrees with `c` on all that `c` read when it accepted the block, and has not finalized against it. -/
structure AgreesOn : Prop where
  genesis : c.SameGenesis d
  boundary : c.SameBoundary d block.number
  certificate : ∀ qc, decodeJustification env block.header.justification = some (some qc) → qc.number < block.number →
    c.SameBoundary d qc.number
  parent : ∀ p q, c.blocks block.parentHash = some p → d.blocks block.parentHash = some q → p.header = q.header
  state : ∀ p, c.blocks block.parentHash = some p → c.states p.header.stateRoot = d.states p.header.stateRoot
  reads : ∀ p s, c.blocks block.parentHash = some p → c.states p.header.stateRoot = some s → c.SameReads env d block s
  final : d.checkFinality env block = .ok ()

theorem agreesOn_refl (hfinal : c.checkFinality env block = .ok ()) : c.AgreesOn env c block where
  genesis := ⟨rfl, rfl⟩
  boundary _ := ⟨rfl, fun _ _ => rfl⟩
  certificate _ _ _ _ := ⟨rfl, fun _ _ => rfl⟩
  parent _ _ hp hq := congrArg Block.header (Option.some.inj (hp.symm.trans hq))
  state _ _ := rfl
  reads _ _ _ _ := ⟨Query.agree_of_forall (fun _ => rfl), fun _ _ => ⟨rfl, fun _ _ => rfl⟩, fun _ _ _ _ => rfl, fun _ => rfl⟩
  final := hfinal

theorem AgreesOn.passes (h : c.AgreesOn env d block) {now' : Nat} (hle : now ≤ now')
    (haccepted : (c.insertBlock env now block).1 = .ok ()) (hparent : d.blocks block.parentHash = some parent) :
    d.Passes env now' block parent := by
  obtain ⟨q, hq, hverified, -, receipts, s, hexecuted, hroot⟩ := exists_passes_of_insertBlock haccepted
  have hheader := h.parent q parent hq hparent
  refine ⟨?_, h.final, receipts, s, ?_, hroot⟩
  · rw [← h.genesis.verifyBlock_eq h.boundary h.certificate]
    have hlater := verifyBlock_mono hle hverified
    rw [verifyBlock, hheader] at hlater
    exact hlater
  · rw [executeBlock_congr h.genesis (h.state q hq) fun s hs => h.reads q s hq hs, executeBlock, hheader] at hexecuted
    exact hexecuted

end Chain.BlockChain

namespace NodeState

/-- The node takes a block without holding it against the sender: it is syncing a snapshot, knows the block, does not
have its parent, or finds nothing wrong with it. -/
def Takes (env : Env) (now : Nat) (s : NodeState) (block : Block) : Prop :=
  s.snapSyncing = true ∨ (s.chain.blocks (env.hash block.header)).isSome = true ∨
    s.chain.blocks block.parentHash = none ∨
      ∃ parent, s.chain.blocks block.parentHash = some parent ∧ s.chain.Passes env (now / second) block parent

theorem handleBlock_of_error {env : Env} {now : Nat} {s : NodeState} {block : Block} {e : BlockError}
    (hsync : s.snapSyncing = false) (h : (s.chain.insertBlock env (now / second) block).1 = .error e) (wording : Wording)
    (services : NodeServices) : (s.handleBlock env wording services now block).1 = some (wording.message e) := by
  rw [handleBlock, if_neg (ne_true_of_eq_false hsync)]
  generalize s.chain.insertBlock env (now / second) block = r at h ⊢
  obtain ⟨result, c⟩ := r
  cases h
  rfl

theorem takes_iff {env : Env} (wording : Wording) (services : NodeServices) (now : Nat) {s : NodeState} (block : Block)
    (hkeyed : s.chain.Keyed env) :
    (∀ err, (s.handleBlock env wording services now block).1 = some err → isBenignBlockError err = true) ↔
      s.Takes env now block := by
  rw [handleBlock, Takes]
  split_ifs with hsync
  · refine iff_of_true (fun err herr => ?_) (.inl hsync)
    cases herr
    decide
  · rw [or_iff_right hsync, ← BlockChain.insertBlock_forgiven_iff hkeyed]
    obtain ⟨result, c⟩ := s.chain.insertBlock env (now / second) block
    cases result with
    | ok u => exact iff_of_true nofun nofun
    | error e =>
      constructor
      · rintro h e' he
        cases he
        exact (isBenignBlockError_message wording e).mp (h _ rfl)
      · rintro h err herr
        cases herr
        exact (isBenignBlockError_message wording e).mpr (h e rfl)

theorem keyed_handleBlock {env : Env} {s : NodeState} (h : s.chain.Keyed env) (wording : Wording)
    (services : NodeServices) (now : Nat) (block : Block) :
    (s.handleBlock env wording services now block).2.chain.Keyed env := by
  have hinserted := h.insertBlock (now / second) block
  rw [handleBlock]
  split
  · exact h
  · generalize s.chain.insertBlock env (now / second) block = r at hinserted ⊢
    obtain ⟨result, c⟩ := r
    cases result with
    | error e => exact hinserted
    | ok u =>
      intro k b hb
      rw [services.imported_blocks] at hb
      exact hinserted k b hb

end NodeState

/-- A block that an honest node has accepted costs it nothing exactly when the receiver takes it, and the receiver
does if it agrees with what the sender read. -/
theorem relayed_block_unpunished {ι : Type} [DecidableEq ι] (env : Env) (wording : Wording) (services : NodeServices)
    (w : Wiring NodeState) (hw : w.toBackend = NodeState.backend env wording services) {c : BlockChain}
    {before now : Nat} (hclock : before ≤ now) {block : Block}
    (haccepted : (c.insertBlock env (before / second) block).1 = .ok ()) (p : ι) (h : Host ι NodeState)
    (hkeyed : h.state.chain.Keyed env) :
    (∀ m ∈ [PeerMessage.newBlock [block], .blocks [block]],
      (h.handle w now p m).penalties = [] ↔ h.state.Takes env now block) ∧
      (c.AgreesOn env h.state.chain block → h.state.Takes env now block) := by
  constructor
  · have htakes : Host.TakesAll w now h.state [block] ↔ h.state.Takes env now block := by
      rw [Host.TakesAll, Host.TakesAll, hw, ← NodeState.takes_iff wording services now block hkeyed]
      exact and_iff_left trivial
    obtain ⟨-, herror, hpenalties⟩ := Host.handleBlocks_spec w now p [block] false [] h
    intro m hm
    rw [← htakes, ← herror, hpenalties]
    rcases List.mem_cons.mp hm with rfl | hm
    · rfl
    · rw [List.mem_singleton.mp hm]
      rfl
  · intro hagrees
    cases hparent : h.state.chain.blocks block.parentHash with
    | none => exact .inr (.inr (.inl hparent))
    | some parent =>
      exact .inr (.inr (.inr ⟨parent, hparent, hagrees.passes (Nat.div_le_div_right hclock) haccepted hparent⟩))

theorem penalties_of_refused {ι : Type} [DecidableEq ι] {env : Env} {wording : Wording} {services : NodeServices}
    {w : Wiring NodeState} (hw : w.toBackend = NodeState.backend env wording services) {now : Nat} {block : Block}
    {p : ι} {h : Host ι NodeState} {e : BlockError} (hsync : h.state.snapSyncing = false)
    (hrefused : (h.state.chain.insertBlock env (now / second) block).1 = .error e) (hheld : e.forgiven = false) :
    (h.handle w now p (.newBlock [block])).penalties = [penaltyInvalidBlock] := by
  have herr : (w.handleBlock now h.state block).1 = some (wording.message e) := by
    rw [hw]
    exact NodeState.handleBlock_of_error hsync hrefused wording services
  refine Host.penalties_handleBlocks_of_bad w herr (Bool.eq_false_iff.mpr fun hbenign => ?_)
  rw [isBenignBlockError_message, hheld] at hbenign
  exact Bool.false_ne_true hbenign

namespace RelayExample

open ExecutionExample

def services : NodeServices where
  imported s _ := s
  imported_blocks _ _ := rfl
  handleTransactions s _ := s
  handleAttestations s _ := s
  handleEvidence s _ := s
  localSnapshot _ := none
  handleSnapshot s _ _ := s
  handleStateNodes s _ := s

def wording : Wording where
  detail _ := ""
  quiet e phrase _ h := by simpa using h

def wiring : Wiring NodeState where
  toBackend := NodeState.backend env wording services
  rules := ⟨fun _ => true, id⟩
  blockHash b := env.hash b.header
  txHash _ := 0
  keccak _ := 0
  size _ := 0

def host (c : BlockChain) : Host Nat NodeState where
  state := ⟨c, false, fun _ => none⟩
  gossip := ⟨⟨[]⟩, [1], fun _ => ⟨[]⟩⟩
  tracks _ := ⟨0, 0, 0, .ofPeer 0⟩
  book := ⟨[], List.nodup_nil, by decide⟩
  scores _ := none
  listener := none
  nodeURL := none

def first : Block := emptyChild chain.genesis 1 1 []

def other : Block := emptyChild chain.genesis 1 2 []

def vote : QuorumCert :=
  ⟨1, env.hash first.header, [1],
    List.replicate 48 1 ++ (SigningMessage.attestation 7 1 (env.hash first.header)).spell⟩

def settled : BlockChain := Transition.run (Op.apply env) chain (Op.imports 100 [first] ++ [.finalize vote])

end RelayExample

open ExecutionExample RelayExample in
/-- A node at genesis takes the first block from a node that was at genesis when it accepted it. -/
theorem first_block_unpunished :
    (chain.insertBlock env (100 * second / second) first).1 = .ok () ∧
      ((host chain).handle wiring (100 * second) 1 (.newBlock [first])).penalties = [] := by
  have haccepted : (chain.insertBlock env (100 * second / second) first).1 = .ok () := by
    decide +kernel
  have hfinal : chain.checkFinality env first = .ok () := rfl
  obtain ⟨hspared, htakes⟩ := relayed_block_unpunished env wording services wiring rfl (Nat.le_refl (100 * second))
    haccepted 1 (host chain) (Genesis.wellFormed_openChain rfl).hash_eq
  exact ⟨haccepted, (hspared _ List.mem_cons_self).mpr (htakes (BlockChain.agreesOn_refl hfinal))⟩

open ExecutionExample RelayExample in
/-- Two nodes at genesis have each accepted one of two blocks of the same proposer, and one of them has seen a quorum
for its own. It punishes the other for relaying the block that the other has accepted. -/
theorem relayed_block_punished :
    (chain.insertBlock env (100 * second / second) other).1 = .ok () ∧ settled.genesis = chain.genesis ∧
      ((host settled).handle wiring (100 * second) 1 (.newBlock [other])).penalties = [penaltyInvalidBlock] := by
  have hboth : (chain.insertBlock env (100 * second / second) other).1 = .ok () ∧ settled.genesis = chain.genesis ∧
      ((host settled).state.chain.insertBlock env (100 * second / second) other).1 = .error .conflictsWithFinalized := by
    decide +kernel
  obtain ⟨haccepted, hgenesis, hrefused⟩ := hboth
  exact ⟨haccepted, hgenesis, penalties_of_refused rfl rfl hrefused rfl⟩

end PadiChain

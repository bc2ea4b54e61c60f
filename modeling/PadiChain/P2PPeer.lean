import PadiChain.P2PAddressBook
import PadiChain.P2PGossip
import PadiChain.P2PReputation

/-! A connection to a peer: what a server does with each message, and how it answers a message it cannot accept. A
handler that fails costs the sender score and ends the connection, and so does a message beyond the budget of the
connection. Sends are taken to succeed, and what the source starts in the background is done at once. -/

namespace PadiChain.P2P

open Core

def maxBlocksPerRequest : Nat := 128

def maxStateNodesPerMessage : Nat := 256

def maxBackfillStep : Nat := 4096

inductive PeerMessage where
  | malformed (reason : String)
  | status (head : Hash) (number : Nat)
  | ping
  | pong
  | newBlock (blocks : List Block)
  | newTransactions (txs : List Transaction)
  | getBlocks (start count : Nat)
  | blocks (blocks : List Block)
  | getBlockByHash (wanted : Hash)
  | disconnect (reason : String)
  | attestations (votes : List Attestation)
  | evidence (proofs : List Equivocation)
  | getAddresses
  | addresses (addrs : List String)
  | getSnapshot
  | snapshot (block : Block) (qc : QuorumCert)
  | getStateNodes (hashes : List Hash)
  | stateNodes (nodes : List Bytes)
  | unknown

/-- What the network layer needs from the node. An import that fails returns the text of its error. -/
structure Backend (σ : Type) where
  head : σ → Hash × Nat
  blockByNumber : σ → Nat → Option Block
  blockByHash : σ → Hash → Option Block
  handleBlock : Nat → σ → Block → Option String × σ
  handleTransactions : σ → List Transaction → σ
  handleAttestations : σ → List Attestation → σ
  handleEvidence : σ → List Equivocation → σ
  localSnapshot : σ → Option (Block × QuorumCert)
  handleSnapshot : σ → Block → QuorumCert → σ
  serveStateNodes : σ → List Hash → List Bytes
  handleStateNodes : σ → List Bytes → σ

/-- The backend, how addresses are read, the hashes, and the length of a message on the wire. -/
structure Wiring (σ : Type) extends Backend σ where
  rules : AddressRules
  blockHash : Block → Hash
  txHash : Transaction → Hash
  keccak : Bytes → Hash
  size : PeerMessage → Nat

def textBytes (text : String) : Bytes := text.toByteArray.data.toList

def mentions (phrase text : String) : Bool := decide (textBytes phrase <:+: textBytes text)

def isMissingParent (err : String) : Bool := mentions "parent block is unknown" err

def isBenignBlockError (err : String) : Bool :=
  isMissingParent err || mentions "already known" err || mentions "snapshot sync in progress" err

structure PeerTrack where
  head : Hash
  headNumber : Nat
  backfillStep : Nat
  limiter : RateLimiter

/-- A server with its backend and its connections. -/
structure Host (ι σ : Type) where
  state : σ
  gossip : Server ι
  tracks : ι → PeerTrack
  book : AddressBook
  scores : Scoreboard ι
  listener : Option String
  nodeURL : Option String

/-- What handling a message comes to: an error, what the sender loses, and what is sent. -/
structure Handling (ι σ : Type) where
  error : Option String
  penalties : List Int
  sent : List (ι × PeerMessage)
  host : Host ι σ

namespace Host

variable {ι σ : Type} [DecidableEq ι]

def track (p : ι) (f : PeerTrack → PeerTrack) (h : Host ι σ) : Host ι σ :=
  { h with tracks := Function.update h.tracks p (f (h.tracks p)) }

/-- `setHead`: the head of a peer only moves forward. -/
def setHead (p : ι) (head : Hash) (number : Nat) (h : Host ι σ) : Host ι σ :=
  h.track p fun t => if t.headNumber ≤ number then { t with head, headNumber := number } else t

def nextBackfillStep (step : Nat) : Nat :=
  if step = 0 then 1 else if step < maxBackfillStep then step * 2 else step

/-- `backfill`: ask a peer for the blocks before one that did not connect. -/
def backfill (p : ι) (number : Nat) (h : Host ι σ) : List (ι × PeerMessage) × Host ι σ :=
  if number ≤ 1 then ([], h)
  else
    let step := nextBackfillStep (h.tracks p).backfillStep
    let start := if step < number then number - step else 1
    let count := number - start
    let request : PeerMessage :=
      if maxBlocksPerRequest < count then .getBlocks (number - maxBlocksPerRequest) maxBlocksPerRequest
      else .getBlocks start count
    ([(p, request)], h.track p fun t => { t with backfillStep := step })

def addPeerSeen (p : ι) (k : Hash) (h : Host ι σ) : Host ι σ :=
  { h with gossip.peerSeen := Function.update h.gossip.peerSeen p ((h.gossip.peerSeen p).add k).2 }

variable (w : Wiring σ)

def syncFrom (p : ι) (h : Host ι σ) : List (ι × PeerMessage) :=
  let ours := (w.head h.state).2
  let theirs := (h.tracks p).headNumber
  if theirs ≤ ours then []
  else
    (p, .getSnapshot) ::
      (List.range ((theirs - ours + maxBlocksPerRequest - 1) / maxBlocksPerRequest)).map fun i =>
        let start := ours + 1 + i * maxBlocksPerRequest
        (p, .getBlocks start (min maxBlocksPerRequest (theirs - start + 1)))

def broadcastBlock (block : Block) (h : Host ι σ) : List (ι × PeerMessage) × Host ι σ :=
  let targets := h.gossip.peers.filter fun q => w.blockHash block ∉ (h.gossip.peerSeen q).order
  (targets.map fun q => (q, .newBlock [block]), { h with gossip.seen := (h.gossip.seen.add (w.blockHash block)).2 })

/-- What follows an import: the search for an ancestor starts anew, and a block that is new is relayed. -/
def relayBlock (p : ι) (block : Block) (h : Host ι σ) : List (ι × PeerMessage) × Host ι σ :=
  let h := h.track p fun t => { t with backfillStep := 0 }
  if (h.gossip.seen.add (w.blockHash block)).1 then
    broadcastBlock w block { h with gossip.seen := (h.gossip.seen.add (w.blockHash block)).2 }
  else ([], h)

/-- What follows an import that failed for an ordinary reason. -/
def missBlock (p : ι) (block : Block) (err : String) (h : Host ι σ) : List (ι × PeerMessage) × Host ι σ :=
  if isMissingParent err then h.backfill p block.number else ([], h)

/-- The blocks of a `MsgNewBlock` or `MsgBlocks`, in turn. The first that fails verification ends the handling. -/
def handleBlocks (now : Nat) (p : ι) : List Block → Bool → List (ι × PeerMessage) → Host ι σ → Handling ι σ
  | [], imported, sent, h => ⟨none, [], if imported then sent ++ h.syncFrom w p else sent, h⟩
  | block :: rest, imported, sent, h =>
    let h := (h.addPeerSeen p (w.blockHash block)).setHead p (w.blockHash block) block.number
    match w.handleBlock now h.state block with
    | (none, s) =>
      let (relayed, h) := relayBlock w p block { h with state := s }
      handleBlocks now p rest true (sent ++ relayed) h
    | (some err, s) =>
      let h := { h with state := s }
      if isBenignBlockError err then
        let (asked, h) := missBlock p block err h
        handleBlocks now p rest imported (sent ++ asked) h
      else ⟨some err, [penaltyInvalidBlock], sent, h⟩

/-- The blocks from a height on, up to the first that is missing. -/
def blocksFrom (s : σ) (start : Nat) : Nat → List Block
  | 0 => []
  | count + 1 =>
    match w.blockByNumber s start with
    | none => []
    | some block => block :: blocksFrom s (start + 1) count

/-- Gossip of one topic: what is new goes to the node and, as far as the broadcast sends it, to the peers. -/
def handleGossip {α : Type} (topic : Topic α) (items : List α) (toMessage : List α → PeerMessage)
    (toNode : σ → List α → σ) (refuse : String) (p : ι) (h : Host ι σ) : Handling ι σ :=
  match h.gossip.handle topic p items with
  | .error _ => ⟨some refuse, [], [], h⟩
  | .ok r =>
    let s := if r.handed.isEmpty then h.state else toNode h.state r.handed
    ⟨none, [], r.sent.map fun m => (m.1, toMessage m.2), { h with gossip := r.server, state := s }⟩

def addressesReply (h : Host ι σ) : PeerMessage :=
  .addresses (h.book.sample w.rules maxAddressesPerMessage ++ h.listener.toList)

/-- `exchangeAddresses`: the message to every peer, with the address under which the node can be reached. -/
def exchangeAddresses (h : Host ι σ) : PeerMessage :=
  .addresses (h.book.sample w.rules maxAddressesPerMessage ++ h.nodeURL.toList)

/-- The answer to `MsgGetBlocks`, if there is a block to send. -/
def blocksReply (start count : Nat) (h : Host ι σ) : Option PeerMessage :=
  match blocksFrom w h.state start (min count maxBlocksPerRequest) with
  | [] => none
  | block :: rest => some (.blocks (block :: rest))

def stateNodesReply (hashes : List Hash) (h : Host ι σ) : PeerMessage :=
  .stateNodes (w.serveStateNodes h.state (hashes.take maxStateNodesPerMessage))

def exceeds (count : Nat) (what : String) : String := s!"p2p: {count} {what} exceeds the per-message limit"

def atMost (limit count : Nat) (what : String) (h h' : Host ι σ) : Handling ι σ :=
  if limit < count then ⟨some (exceeds count what), [], [], h⟩ else ⟨none, [], [], h'⟩

def handle (now : Nat) (p : ι) (m : PeerMessage) (h : Host ι σ) : Handling ι σ :=
  match m with
  | .malformed reason => ⟨some reason, [], [], h⟩
  | .status head number => ⟨none, [], [], h.setHead p head number⟩
  | .ping => ⟨none, [], [(p, .pong)], h⟩
  | .pong => ⟨none, [], [], h⟩
  | .newBlock blocks => h.handleBlocks w now p blocks false []
  | .blocks blocks => h.handleBlocks w now p blocks false []
  | .newTransactions txs => h.handleGossip (.transactions w.txHash) txs .newTransactions w.handleTransactions "" p
  | .getBlocks start count => ⟨none, [], (h.blocksReply w start count).toList.map fun m => (p, m), h⟩
  | .getBlockByHash wanted =>
    ⟨none, [], (w.blockByHash h.state wanted).toList.map fun b => (p, .blocks [b]), h⟩
  | .attestations votes =>
    h.handleGossip (.attestations w.keccak) votes .attestations w.handleAttestations
      (exceeds votes.length "attestations") p
  | .evidence proofs =>
    ⟨none, [], [], { h with state := if proofs.isEmpty then h.state else w.handleEvidence h.state proofs }⟩
  | .getAddresses => ⟨none, [], [(p, h.addressesReply w)], h⟩
  | .addresses addrs =>
    atMost maxAddressesPerMessage addrs.length "addresses" h
      { h with book := addrs.foldl (fun book addr => (book.add w.rules now addr).2) h.book }
  | .getSnapshot => ⟨none, [], (w.localSnapshot h.state).toList.map fun r => (p, .snapshot r.1 r.2), h⟩
  | .snapshot block qc => ⟨none, [], [], { h with state := w.handleSnapshot h.state block qc }⟩
  | .getStateNodes hashes => ⟨none, [], [(p, h.stateNodesReply w hashes)], h⟩
  | .stateNodes nodes =>
    atMost maxStateNodesPerMessage nodes.length "state nodes" h
      { h with state := w.handleStateNodes h.state nodes }
  | .disconnect reason => ⟨some s!"p2p: peer disconnected: {reason}", [], [], h⟩
  | .unknown => ⟨none, [], [], h⟩

def cost (m : PeerMessage) : ℚ := 1 + (w.size m : ℚ) / 65536

/-- A message of a peer came in: what the peer loses, whether the connection is closed, and what is sent. -/
structure Received (ι σ : Type) where
  penalties : List Int
  closed : Bool
  sent : List (ι × PeerMessage)
  host : Host ι σ

/-- Lower the score of a peer, and close the connection if asked to or if the peer is banned by it. -/
def settle (now : Nat) (p : ι) (penalties : List Int) (close : Bool) (sent : List (ι × PeerMessage)) (h : Host ι σ) :
    Received ι σ :=
  let r := penalties.foldl (fun (r : Bool × Scoreboard ι) amount =>
    let s := r.2.penalise now p amount
    (r.1 || s.1, s.2)) (close, h.scores)
  ⟨penalties, r.1, sent,
    { h with scores := r.2, gossip.peers := if r.1 then h.gossip.peers.filter (· ≠ p) else h.gossip.peers }⟩

def charge (now : Nat) (p : ι) (m : PeerMessage) (h : Host ι σ) : Bool × Host ι σ :=
  let budget := (h.tracks p).limiter.allowN now (cost w m)
  (budget.1, h.track p fun t => { t with limiter := budget.2 })

/-- The body of the loop of `run`, for one message. -/
def receive (now : Nat) (p : ι) (m : PeerMessage) (h : Host ι σ) : Received ι σ :=
  let (allowed, h) := h.charge w now p m
  if allowed then
    let r := h.handle w now p m
    match r.error with
    | none => r.host.settle now p r.penalties false r.sent
    | some _ => r.host.settle now p (r.penalties ++ [penaltyBadMessage]) true r.sent
  else h.settle now p [penaltyFlood] true []

/-- The message is handled without an error, costs the sender nothing and leaves the connection open. -/
def Accepts (now : Nat) (p : ι) (m : PeerMessage) (h : Host ι σ) : Prop :=
  (h.receive w now p m).penalties = [] ∧ (h.receive w now p m).closed = false ∧
    (h.receive w now p m).host.scores = h.scores ∧ (h.receive w now p m).host.gossip.peers = h.gossip.peers

structure Keeps (h h' : Host ι σ) : Prop where
  scores : h'.scores = h.scores
  peers : h'.gossip.peers = h.gossip.peers

omit [DecidableEq ι] in
theorem Keeps.trans {h h' h'' : Host ι σ} (h₁ : h.Keeps h') (h₂ : h'.Keeps h'') : h.Keeps h'' :=
  ⟨h₂.scores.trans h₁.scores, h₂.peers.trans h₁.peers⟩

theorem keeps_relayBlock (p : ι) (block : Block) (h : Host ι σ) :
    h.Keeps (h.relayBlock w p block).2 ∧ (h.relayBlock w p block).2.state = h.state := by
  rw [relayBlock]
  split
  all_goals exact ⟨⟨rfl, rfl⟩, rfl⟩

theorem keeps_missBlock (p : ι) (block : Block) (err : String) (h : Host ι σ) :
    h.Keeps (h.missBlock p block err).2 ∧ (h.missBlock p block err).2.state = h.state := by
  rw [missBlock]
  split
  · rw [backfill]
    split
    all_goals exact ⟨⟨rfl, rfl⟩, rfl⟩
  · exact ⟨⟨rfl, rfl⟩, rfl⟩

/-- Every block is imported or fails for an ordinary reason, in the state that the blocks before it leave. -/
def TakesAll (now : Nat) : σ → List Block → Prop
  | _, [] => True
  | s, block :: rest =>
    (∀ err, (w.handleBlock now s block).1 = some err → isBenignBlockError err = true) ∧
      TakesAll now (w.handleBlock now s block).2 rest

variable (now : Nat)

/-- Handling blocks leaves scores and connections alone, and fails exactly at a block that fails verification. -/
theorem handleBlocks_spec (p : ι) (blocks : List Block) (imported : Bool) (sent : List (ι × PeerMessage))
    (h : Host ι σ) :
    h.Keeps (h.handleBlocks w now p blocks imported sent).host ∧
      ((h.handleBlocks w now p blocks imported sent).error = none ↔ TakesAll w now h.state blocks) ∧
      ((h.handleBlocks w now p blocks imported sent).error = none ↔
        (h.handleBlocks w now p blocks imported sent).penalties = []) := by
  induction blocks generalizing imported sent h with
  | nil => exact ⟨⟨rfl, rfl⟩, ⟨fun _ => trivial, fun _ => rfl⟩, ⟨fun _ => rfl, fun _ => rfl⟩⟩
  | cons block rest ih =>
    rw [handleBlocks, TakesAll]
    have hstate : ((h.addPeerSeen p (w.blockHash block)).setHead p (w.blockHash block) block.number).state =
        h.state := rfl
    rw [hstate]
    generalize hheard : (h.addPeerSeen p (w.blockHash block)).setHead p (w.blockHash block) block.number = heard
    have hkeeps : ∀ s, h.Keeps { heard with state := s } := fun s => hheard ▸ ⟨rfl, rfl⟩
    obtain ⟨result, s⟩ := w.handleBlock now h.state block
    cases result with
    | none =>
      obtain ⟨hrelay, hsame⟩ := keeps_relayBlock w p block { heard with state := s }
      obtain ⟨hrest, herror, hpenalties⟩ := ih true (sent ++ (relayBlock w p block { heard with state := s }).1)
        (relayBlock w p block { heard with state := s }).2
      rw [hsame] at herror
      refine ⟨((hkeeps s).trans hrelay).trans hrest, herror.trans ?_, hpenalties⟩
      simp
    | some err =>
      dsimp only
      split
      · rename_i hbenign
        obtain ⟨hmiss, hsame⟩ := keeps_missBlock p block err { heard with state := s }
        obtain ⟨hrest, herror, hpenalties⟩ := ih imported (sent ++ (missBlock p block err { heard with state := s }).1)
          (missBlock p block err { heard with state := s }).2
        rw [hsame] at herror
        refine ⟨((hkeeps s).trans hmiss).trans hrest, herror.trans ?_, hpenalties⟩
        simp [hbenign]
      · rename_i hbad
        refine ⟨hkeeps s, ?_, ?_⟩
        · simp [hbad]
        · exact iff_of_false nofun nofun

theorem penalties_handleBlocks_of_bad {now : Nat} {p : ι} {block : Block} {rest : List Block} {h : Host ι σ}
    {err : String} (herr : (w.handleBlock now h.state block).1 = some err) (hbad : isBenignBlockError err = false) :
    (h.handleBlocks w now p (block :: rest) false []).penalties = [penaltyInvalidBlock] := by
  rw [handleBlocks]
  have hstate : ((h.addPeerSeen p (w.blockHash block)).setHead p (w.blockHash block) block.number).state =
      h.state := rfl
  rw [hstate]
  generalize w.handleBlock now h.state block = r at herr ⊢
  obtain ⟨result, s⟩ := r
  cases herr
  dsimp only
  rw [if_neg (ne_true_of_eq_false hbad)]

theorem handleGossip_spec {α : Type} (topic : Topic α) (items : List α) (toMessage : List α → PeerMessage)
    (toNode : σ → List α → σ) (refuse : String) (p : ι) (h : Host ι σ) :
    h.Keeps (h.handleGossip topic items toMessage toNode refuse p).host ∧
      (h.handleGossip topic items toMessage toNode refuse p).penalties = [] := by
  rw [handleGossip]
  split
  · exact ⟨⟨rfl, rfl⟩, rfl⟩
  · rename_i r hr
    exact ⟨⟨rfl, (Server.handle_eq_ok hr).2.2.2.1⟩, rfl⟩

omit [DecidableEq ι] in
theorem atMost_error {limit count : Nat} {what : String} {h k : Host ι σ} :
    (atMost limit count what h k).error = none ↔ count ≤ limit := by
  rw [atMost]
  split
  · rename_i hmany
    exact ⟨(nomatch ·), fun hfew => absurd hmany (Nat.not_lt.mpr hfew)⟩
  · rename_i hfew
    exact ⟨fun _ => Nat.le_of_not_lt hfew, fun _ => rfl⟩

omit [DecidableEq ι] in
theorem keeps_atMost (limit count : Nat) (what : String) {h k : Host ι σ} (hkeeps : h.Keeps k) :
    h.Keeps (atMost limit count what h k).host ∧ (atMost limit count what h k).penalties = [] := by
  rw [atMost]
  split
  · exact ⟨⟨rfl, rfl⟩, rfl⟩
  · exact ⟨hkeeps, rfl⟩

/-- Handling a message leaves scores and connections alone; only a handling that fails has penalties. -/
theorem handle_spec (p : ι) (m : PeerMessage) (h : Host ι σ) :
    h.Keeps (h.handle w now p m).host ∧ ((h.handle w now p m).error = none → (h.handle w now p m).penalties = []) := by
  cases m with
  | newBlock blocks | blocks blocks =>
    obtain ⟨hkeeps, -, hpenalties⟩ := handleBlocks_spec w now p blocks false [] h
    exact ⟨hkeeps, hpenalties.mp⟩
  | newTransactions txs =>
    obtain ⟨hkeeps, hpenalties⟩ := handleGossip_spec (.transactions w.txHash) txs .newTransactions
      w.handleTransactions "" p h
    exact ⟨hkeeps, fun _ => hpenalties⟩
  | attestations votes =>
    obtain ⟨hkeeps, hpenalties⟩ := handleGossip_spec (.attestations w.keccak) votes .attestations
      w.handleAttestations (exceeds votes.length "attestations") p h
    exact ⟨hkeeps, fun _ => hpenalties⟩
  | addresses addrs =>
    have hbook : h.Keeps { h with book := addrs.foldl (fun book addr => (book.add w.rules now addr).2) h.book } :=
      ⟨rfl, rfl⟩
    obtain ⟨hkeeps, hpenalties⟩ := keeps_atMost maxAddressesPerMessage addrs.length "addresses" hbook
    exact ⟨hkeeps, fun _ => hpenalties⟩
  | stateNodes nodes =>
    have hstate : h.Keeps { h with state := w.handleStateNodes h.state nodes } := ⟨rfl, rfl⟩
    obtain ⟨hkeeps, hpenalties⟩ := keeps_atMost maxStateNodesPerMessage nodes.length "state nodes" hstate
    exact ⟨hkeeps, fun _ => hpenalties⟩
  | _ => exact ⟨⟨rfl, rfl⟩, fun _ => rfl⟩

theorem accepts_iff (p : ι) (m : PeerMessage) (h : Host ι σ) :
    h.Accepts w now p m ↔ cost w m ≤ (h.tracks p).limiter.tokensAt now ∧
      ((h.charge w now p m).2.handle w now p m).error = none := by
  have hallowed : (h.charge w now p m).1 = true ↔ cost w m ≤ (h.tracks p).limiter.tokensAt now := by
    rw [charge, RateLimiter.allowN]
    split
    · rename_i hshort
      simpa using hshort
    · rename_i henough
      simpa using henough
  rw [← hallowed, Accepts, receive]
  dsimp only
  split
  · rename_i hpaid
    obtain ⟨hkeeps, hpenalties⟩ := handle_spec w now p m (h.charge w now p m).2
    cases herror : ((h.charge w now p m).2.handle w now p m).error with
    | none =>
      rw [hpenalties herror]
      exact ⟨fun _ => ⟨hpaid, rfl⟩, fun _ => ⟨rfl, rfl, hkeeps.scores, hkeeps.peers⟩⟩
    | some err =>
      refine ⟨fun haccepts => ?_, fun hok => nomatch hok.2⟩
      exact absurd haccepts.1 (List.append_ne_nil_of_right_ne_nil _ (List.cons_ne_nil _ _))
  · rename_i hflood
    exact ⟨fun haccepts => (nomatch haccepts.1), fun hok => absurd hok.1 hflood⟩

theorem accepts_addresses_iff (p : ι) (addrs : List String) (h : Host ι σ) :
    h.Accepts w now p (.addresses addrs) ↔ cost w (.addresses addrs) ≤ (h.tracks p).limiter.tokensAt now ∧
      addrs.length ≤ maxAddressesPerMessage := by
  rw [accepts_iff]
  exact and_congr_right fun _ => atMost_error

theorem accepts_stateNodes_iff (p : ι) (nodes : List Bytes) (h : Host ι σ) :
    h.Accepts w now p (.stateNodes nodes) ↔ cost w (.stateNodes nodes) ≤ (h.tracks p).limiter.tokensAt now ∧
      nodes.length ≤ maxStateNodesPerMessage := by
  rw [accepts_iff]
  exact and_congr_right fun _ => atMost_error

theorem accepts_blocks_iff (p : ι) (blocks : List Block) (h : Host ι σ) :
    h.Accepts w now p (.blocks blocks) ↔ cost w (.blocks blocks) ≤ (h.tracks p).limiter.tokensAt now ∧
      TakesAll w now h.state blocks := by
  rw [accepts_iff]
  exact and_congr_right fun _ => (handleBlocks_spec w now p blocks false [] _).2.1

end Host

end PadiChain.P2P

import PadiChain.CoreAttestation
import PadiChain.CoreBlock
import PadiChain.LibRecent
import PadiChain.LibTransition

/-! Gossip of transactions and attestations. A server remembers the hashes of what it has seen, so that nothing
bounces between peers. It looks into this memory when a message arrives, and what was new it hands to the node
and broadcasts; but the broadcast looks into the same memory again, where everything has just been entered, and
sends nothing. An item goes no further than to the peers of the node where it was injected. -/

namespace PadiChain.P2P

open Core Function Recent Transition List

def maxAttestationsPerMessage : Nat := 512

def seenLimit : Nat := 8192

def peerSeenLimit : Nat := 4096

/-- A kind of gossip: the hash of an item, and how many items a message may have. -/
structure Topic (α : Type) where
  hash : α → Hash
  maxItems : Option Nat
  maxItems_pos : ∀ n ∈ maxItems, 0 < n

namespace Topic

def transactions (txHash : Transaction → Hash) : Topic Transaction := ⟨txHash, none, nofun⟩

/-- `MsgAttestations`. The hash of an attestation is that of its signature. -/
def attestations (keccak : Bytes → Hash) : Topic Attestation :=
  ⟨fun a => keccak a.signature, some maxAttestationsPerMessage, by decide⟩

variable {α : Type} (topic : Topic α)

def Fits (items : List α) : Prop := ∀ n ∈ topic.maxItems, items.length ≤ n

instance (items : List α) : Decidable (topic.Fits items) := by
  cases h : topic.maxItems with
  | none => exact isTrue fun n hn => nomatch h.symm.trans hn
  | some n => exact decidable_of_iff (items.length ≤ n) (by simp [Fits, h])

end Topic

structure Server (ι : Type) where
  seen : Recent Hash seenLimit
  peers : List ι
  peerSeen : ι → Recent Hash peerSeenLimit

/-- What the handling of a message gives to the node and sends to peers. -/
structure Handled (ι α : Type) where
  handed : List α
  sent : List (ι × List α)
  server : Server ι

inductive GossipError where
  | tooMany (items : Nat)
  deriving DecidableEq, Repr

namespace Server

variable {ι α : Type} [DecidableEq ι] (topic : Topic α)

/-- `BroadcastTransactions` and `BroadcastAttestations`. -/
def broadcast (items : List α) (s : Server ι) : List (ι × List α) × Server ι :=
  let (fresh, seen) := s.seen.takeNew topic.hash items
  (if fresh.isEmpty then [] else s.peers.map fun q => (q, fresh), { s with seen })

def handle (p : ι) (items : List α) (s : Server ι) : Except GossipError (Handled ι α) :=
  if topic.Fits items then
    let known := ((s.peerSeen p).takeNew topic.hash items).2
    let (fresh, seen) := s.seen.takeNew topic.hash items
    let s := { s with seen, peerSeen := update s.peerSeen p known }
    if fresh.isEmpty then .ok ⟨[], [], s⟩
    else
      let (sent, s) := s.broadcast topic fresh
      .ok ⟨fresh, sent, s⟩
  else .error (.tooMany items.length)

variable {topic} {s : Server ι} {p : ι} {items : List α}

omit [DecidableEq ι] in
theorem mem_broadcast {m : ι × List α} (h : m ∈ (s.broadcast topic items).1) :
    m.1 ∈ s.peers ∧ m.2 = (s.seen.takeNew topic.hash items).1 ∧ m.2 ≠ [] := by
  rw [broadcast] at h
  dsimp only at h
  split at h
  · cases h
  · rename_i hsome
    obtain ⟨q, hq, rfl⟩ := mem_map.mp h
    exact ⟨hq, rfl, fun hnil => hsome (isEmpty_iff.mpr hnil)⟩

variable {r : Handled ι α}

/-- The items that are handed over are the new ones, and what is sent are those that are new a second time. -/
theorem handle_eq_ok (h : s.handle topic p items = .ok r) :
    topic.Fits items ∧ r.handed = (s.seen.takeNew topic.hash items).1 ∧
      r.server.seen = ((s.seen.takeNew topic.hash items).2.takeNew topic.hash r.handed).2 ∧
      r.server.peers = s.peers ∧
      ∀ m ∈ r.sent, m.1 ∈ s.peers ∧
        m.2 = ((s.seen.takeNew topic.hash items).2.takeNew topic.hash r.handed).1 ∧ m.2 ≠ [] := by
  rw [handle] at h
  split at h
  · rename_i hfits
    refine ⟨hfits, ?_⟩
    dsimp only at h
    split at h
    · rename_i hempty
      have hnil := isEmpty_iff.mp hempty
      cases h
      rw [hnil]
      exact ⟨rfl, rfl, rfl, nofun⟩
    · cases h
      exact ⟨rfl, rfl, rfl, fun m hm => mem_broadcast hm⟩
  · cases h

theorem exists_handle (s : Server ι) (p : ι) (hfits : topic.Fits items) : ∃ r, s.handle topic p items = .ok r := by
  rw [handle, if_pos hfits]
  dsimp only
  split
  · exact ⟨_, rfl⟩
  · exact ⟨_, rfl⟩

/-- A message that fits into the memory is not relayed: all that was new is remembered when it is broadcast. -/
theorem sent_eq_nil (h : s.handle topic p items = .ok r) (hlength : items.length ≤ seenLimit) : r.sent = [] := by
  obtain ⟨-, hhanded, -, -, hsent⟩ := handle_eq_ok h
  have hroom : (s.seen.takeNew topic.hash items).1.length ≤ seenLimit :=
    Nat.le_trans (length_takeNew_le s.seen items) hlength
  have hknown := (nodup_takeNew hroom).2
  rw [← hhanded] at hknown
  cases hlist : r.sent with
  | nil => rfl
  | cons m rest =>
    obtain ⟨-, hitems, hsome⟩ := hsent m (hlist ▸ mem_cons_self)
    rw [takeNew_of_forall_mem hknown] at hitems
    exact absurd hitems hsome

theorem handed_of_notMem (h : s.handle topic p items = .ok r) (hlength : items.length ≤ seenLimit) :
    (r.handed.map topic.hash).Nodup ∧ (∀ x ∈ r.handed, x ∈ items) ∧
      ∀ x ∈ items, topic.hash x ∉ s.seen.order → topic.hash x ∈ r.handed.map topic.hash := by
  obtain ⟨-, hhanded, -⟩ := handle_eq_ok h
  have hroom : (s.seen.takeNew topic.hash items).1.length ≤ seenLimit :=
    Nat.le_trans (length_takeNew_le s.seen items) hlength
  rw [hhanded]
  refine ⟨(nodup_takeNew hroom).1, takeNew_subset s.seen items, fun x hx hnew => ?_⟩
  exact (mem_or_mem_takeNew s.seen items x hx).resolve_left hnew

variable (topic s p items)

/-- What is not remembered is handed to the node once, and sent to every other peer. -/
def Relays [DecidableEq α] : Prop :=
  ∀ x ∈ items, topic.hash x ∉ s.seen.order → ∃ r, s.handle topic p items = .ok r ∧ r.handed.count x = 1 ∧
    ∀ q ∈ s.peers, q ≠ p → ∃ m ∈ r.sent, m.1 = q ∧ x ∈ m.2

def Distinct : Prop :=
  ∀ x ∈ items, ∀ y ∈ items, topic.hash x ∉ s.seen.order → topic.hash x = topic.hash y → x = y

variable {topic s p items}

theorem relays_iff [DecidableEq α] (hlength : items.length ≤ seenLimit) :
    s.Relays topic p items ↔ (∀ x ∈ items, topic.hash x ∈ s.seen.order) ∨
      (∀ q ∈ s.peers, q = p) ∧ topic.Fits items ∧ s.Distinct topic items := by
  constructor
  · intro h
    refine or_iff_not_imp_left.mpr fun hunseen => ?_
    simp only [not_forall] at hunseen
    obtain ⟨x, hx, hnew⟩ := hunseen
    obtain ⟨r, hr, -, hrelayed⟩ := h x hx hnew
    refine ⟨fun q hq => ?_, (handle_eq_ok hr).1, fun x hx y hy hnew hsame => ?_⟩
    · by_contra hne
      obtain ⟨m, hm, -⟩ := hrelayed q hq hne
      rw [sent_eq_nil hr hlength] at hm
      cases hm
    · -- both are handed over, and of one hash only one item is
      have hhanded : ∀ z ∈ items, topic.hash z ∉ s.seen.order → z ∈ r.handed := by
        intro z hz hnew
        obtain ⟨r', hr', hcount, -⟩ := h z hz hnew
        cases hr.symm.trans hr'
        exact count_pos_iff.mp (hcount ▸ Nat.one_pos)
      exact inj_on_of_nodup_map (handed_of_notMem hr hlength).1 (hhanded x hx hnew)
        (hhanded y hy (hsame ▸ hnew)) hsame
  · rintro (hseen | ⟨halone, hfits, hdistinct⟩) x hx hnew
    · exact absurd (hseen x hx) hnew
    · obtain ⟨r, hr⟩ := exists_handle s p hfits
      obtain ⟨hnodup, hsubset, hcovers⟩ := handed_of_notMem hr hlength
      refine ⟨r, hr, ?_, fun q hq hne => absurd (halone q hq) hne⟩
      obtain ⟨y, hy, hsame⟩ := mem_map.mp (hcovers x hx hnew)
      rw [← hdistinct x hx y (hsubset y hy) hnew hsame.symm] at hy
      exact count_eq_one_of_mem hnodup.of_map hy

end Server

/-! ### Networks -/

structure Envelope (ι α : Type) where
  sender : ι
  receiver : ι
  items : List α

/-- Nodes with their servers, the messages on their way, and what each node holds. -/
structure Network (ι α : Type) where
  server : ι → Server ι
  inFlight : List (Envelope ι α)
  held : ι → List α

/-- A node broadcasts items of its own, or the message at some place of the queue arrives. -/
inductive Event (ι α : Type) where
  | inject (a : ι) (items : List α)
  | deliver (n : Nat)

namespace Network

variable {ι α : Type} [DecidableEq ι] (topic : Topic α)

def quiet (peers : ι → List ι) : Network ι α := ⟨fun a => ⟨⟨[]⟩, peers a, fun _ => ⟨[]⟩⟩, [], fun _ => []⟩

/-- A node gets items and sends messages, beside the messages that stay on their way. -/
def act (net : Network ι α) (a : ι) (server : Server ι) (rest : List (Envelope ι α)) (sent : List (ι × List α))
    (items : List α) : Network ι α where
  server := update net.server a server
  inFlight := rest ++ sent.map fun m => ⟨a, m.1, m.2⟩
  held := update net.held a (net.held a ++ items)

/-- A message arrives. If it is refused, nothing comes of it. -/
def receive (net : Network ι α) (m : Envelope ι α) (rest : List (Envelope ι α)) : Network ι α :=
  match (net.server m.receiver).handle topic m.sender m.items with
  | .error _ => { net with inFlight := rest }
  | .ok r => net.act m.receiver r.server rest r.sent r.handed

def step (net : Network ι α) : Event ι α → Network ι α
  | .inject a items =>
    let (sent, server) := (net.server a).broadcast topic items
    net.act a server net.inFlight sent items
  | .deliver n =>
    match net.inFlight[n]? with
    | none => net
    | some m => net.receive topic m (net.inFlight.eraseIdx n)

def run (net : Network ι α) (events : List (Event ι α)) : Network ι α := Transition.run (step topic) net events

def injected (events : List (Event ι α)) : List α :=
  events.flatMap fun
    | .inject _ items => items
    | .deliver _ => []

def Fit (events : List (Event ι α)) : Prop :=
  ∀ e ∈ events, ∀ a items, e = .inject a items → topic.Fits items

/-- An item that a node injects reaches every node once all messages are delivered. -/
def Spreads (peers : ι → List ι) (a : ι) : Prop :=
  ∀ x items before after, Fit topic (before ++ .inject a items :: after) → x ∈ items →
    (∀ y ∈ injected (before ++ .inject a items :: after), topic.hash y = topic.hash x → y = x) →
    topic.hash x ∉ ((run topic (quiet peers) before).server a).seen.order →
    (run topic (quiet peers) (before ++ .inject a items :: after)).inFlight = [] →
    ∀ b, x ∈ (run topic (quiet peers) (before ++ .inject a items :: after)).held b

variable {topic} {net : Network ι α} {peers : ι → List ι} {all : List α}

variable (topic peers all) in
/-- What holds in a network while the nodes broadcast items of a list. -/
structure Sound (net : Network ι α) : Prop where
  peers : ∀ b, (net.server b).peers = peers b
  fits : ∀ m ∈ net.inFlight, topic.Fits m.items
  flying : ∀ m ∈ net.inFlight, ∀ x ∈ m.items, x ∈ all
  holding : ∀ b, ∀ x ∈ net.held b, x ∈ all
  remembered : ∀ b, ∀ k ∈ (net.server b).seen.order, ∃ x ∈ net.held b, topic.hash x = k

variable (topic all) in
/-- A broadcast of items of the list that fits into a message. -/
def Allowed : Event ι α → Prop
  | .inject _ items => topic.Fits items ∧ ∀ x ∈ items, x ∈ all
  | .deliver _ => True

omit [DecidableEq ι] in
theorem sound_quiet (topic : Topic α) (peers : ι → List ι) {all : List α} : (quiet peers).Sound topic peers all where
  peers _ := rfl
  fits _ hm := nomatch hm
  flying _ hm := nomatch hm
  holding _ _ hx := nomatch hx
  remembered _ _ hk := nomatch hk

variable {a b : ι} {server : Server ι} {rest : List (Envelope ι α)} {sent : List (ι × List α)} {items : List α} {x : α}
  {m : Envelope ι α} {events : List (Event ι α)}

theorem mem_held_act :
    x ∈ (net.act a server rest sent items).held b ↔ x ∈ net.held b ∨ b = a ∧ x ∈ items := by
  change x ∈ update net.held a (net.held a ++ items) b ↔ _
  by_cases hb : b = a
  · subst hb
    simp
  · simp [hb]

theorem server_act :
    (net.act a server rest sent items).server b = if b = a then server else net.server b :=
  update_apply _ _ _ _

section

variable (h : net.Sound topic peers all)

include h

theorem Sound.act (hpeers : server.peers = (net.server a).peers)
    (hseen : ∀ k ∈ server.seen.order, k ∈ (net.server a).seen.order ∨ ∃ x ∈ items, topic.hash x = k)
    (hrest : ∀ m ∈ rest, m ∈ net.inFlight) (hsent : ∀ m ∈ sent, topic.Fits m.2 ∧ ∀ x ∈ m.2, x ∈ items)
    (hitems : ∀ x ∈ items, x ∈ all) : (net.act a server rest sent items).Sound topic peers all := by
  have hflight : ∀ m ∈ (net.act a server rest sent items).inFlight,
      m ∈ net.inFlight ∨ topic.Fits m.items ∧ ∀ x ∈ m.items, x ∈ items := by
    intro m hm
    rcases mem_append.mp hm with hm | hm
    · exact .inl (hrest m hm)
    · obtain ⟨m', hm', rfl⟩ := mem_map.mp hm
      exact .inr (hsent m' hm')
  constructor
  case peers =>
    intro b
    rw [server_act]
    split_ifs with hb
    · rw [hpeers, hb, h.peers a]
    · exact h.peers b
  case fits => exact fun m hm => (hflight m hm).elim (h.fits m) fun hnew => hnew.1
  case flying =>
    intro m hm x hx
    rcases hflight m hm with hold | ⟨-, hnew⟩
    · exact h.flying m hold x hx
    · exact hitems x (hnew x hx)
  case holding =>
    intro b x hx
    rcases mem_held_act.mp hx with hx | ⟨-, hx⟩
    · exact h.holding b x hx
    · exact hitems x hx
  case remembered =>
    intro b k hk
    have hold : k ∈ (net.server b).seen.order → ∃ x ∈ (net.act a server rest sent items).held b, topic.hash x = k := by
      intro hk
      obtain ⟨x, hx, hhash⟩ := h.remembered b k hk
      exact ⟨x, mem_held_act.mpr (.inl hx), hhash⟩
    rw [server_act] at hk
    split_ifs at hk with hb
    · subst hb
      rcases hseen k hk with hk | ⟨x, hx, hhash⟩
      · exact hold hk
      · exact ⟨x, mem_held_act.mpr (.inr ⟨rfl, hx⟩), hhash⟩
    · exact hold hk

theorem Sound.receive (hm : m ∈ net.inFlight) (hrest : ∀ m' ∈ rest, m' ∈ net.inFlight) :
    (net.receive topic m rest).Sound topic peers all := by
  obtain ⟨r, hr⟩ := Server.exists_handle (net.server m.receiver) m.sender (h.fits m hm)
  obtain ⟨hfits, hhanded, hseen, hpeers, hsent⟩ := Server.handle_eq_ok hr
  have hsubset : ∀ x ∈ r.handed, x ∈ m.items := by
    rw [hhanded]
    exact takeNew_subset _ _
  have hlength : r.handed.length ≤ m.items.length := by
    rw [hhanded]
    exact length_takeNew_le _ _
  rw [Network.receive, hr]
  refine h.act hpeers (fun k hk => ?_) hrest (fun m' hm' => ?_) fun x hx => h.flying m hm x (hsubset x hx)
  · rw [hseen] at hk
    rcases mem_takeNew_order hk with hk | hk
    · rcases mem_takeNew_order hk with hk | hk
      · exact .inl hk
      · rw [← hhanded] at hk
        exact .inr (mem_map.mp hk)
    · obtain ⟨x, hx, hhash⟩ := mem_map.mp hk
      exact .inr ⟨x, takeNew_subset _ _ x hx, hhash⟩
  · obtain ⟨-, hitems, -⟩ := hsent m' hm'
    rw [hitems]
    refine ⟨fun n hn => ?_, takeNew_subset _ _⟩
    exact (length_takeNew_le _ _).trans (hlength.trans (hfits n hn))

theorem Sound.step {e : Event ι α} (he : Allowed topic all e) : (net.step topic e).Sound topic peers all := by
  cases e with
  | inject a items =>
    obtain ⟨hfits, hall⟩ := he
    refine h.act rfl (fun k hk => ?_) (fun _ hm => hm) (fun m hm => ?_) hall
    · rcases mem_takeNew_order hk with hk | hk
      · exact .inl hk
      · obtain ⟨x, hx, hhash⟩ := mem_map.mp hk
        exact .inr ⟨x, takeNew_subset _ _ x hx, hhash⟩
    · rw [(Server.mem_broadcast hm).2.1]
      exact ⟨fun n hn => (length_takeNew_le _ _).trans (hfits n hn), takeNew_subset _ _⟩
  | deliver n =>
    rw [Network.step]
    split
    · exact h
    · rename_i m hm
      exact h.receive (mem_of_getElem? hm) fun m' hm' => mem_of_mem_eraseIdx hm'

end

/-- The node holds the item, or a message with it is on its way there. -/
def Bound (net : Network ι α) (x : α) (b : ι) : Prop :=
  x ∈ net.held b ∨ ∃ m ∈ net.inFlight, m.receiver = b ∧ x ∈ m.items

theorem eq_or_mem_eraseIdx {β : Type} {l : List β} {n : Nat} {m m' : β} (hm : l[n]? = some m) (hm' : m' ∈ l) :
    m' = m ∨ m' ∈ l.eraseIdx n := by
  obtain ⟨i, hi⟩ := mem_iff_getElem?.mp hm'
  by_cases hsame : i = n
  · subst hsame
    exact .inl (Option.some.inj (hi.symm.trans hm))
  · exact .inr (mem_eraseIdx_iff_getElem?.mpr ⟨i, hsame, hi⟩)

theorem Bound.step (hsound : net.Sound topic peers all) (h : net.Bound x b)
    (hunique : ∀ y ∈ all, topic.hash y = topic.hash x → y = x) (e : Event ι α) : (net.step topic e).Bound x b := by
  cases e with
  | inject a items =>
    rcases h with hheld | ⟨m, hm, hrest⟩
    · exact .inl (mem_held_act.mpr (.inl hheld))
    · exact .inr ⟨m, mem_append_left _ hm, hrest⟩
  | deliver n =>
    rw [Network.step]
    split
    · exact h
    · rename_i m hm
      have hmem := mem_of_getElem? hm
      obtain ⟨r, hr⟩ := Server.exists_handle (net.server m.receiver) m.sender (hsound.fits m hmem)
      rw [receive, hr]
      rcases h with hheld | ⟨m', hm', hreceiver, hx⟩
      · exact .inl (mem_held_act.mpr (.inl hheld))
      · rcases eq_or_mem_eraseIdx hm hm' with rfl | hstays
        · -- the message with the item arrives: the item is new there, or it is held already
          refine .inl (mem_held_act.mpr ?_)
          rcases mem_or_mem_takeNew (net.server m'.receiver).seen m'.items x hx with hold | hnew
          · obtain ⟨y, hy, hhash⟩ := hsound.remembered _ _ hold
            rw [hunique y (hsound.holding _ y hy) hhash] at hy
            exact .inl (hreceiver ▸ hy)
          · rw [← (Server.handle_eq_ok hr).2.1] at hnew
            obtain ⟨y, hy, hhash⟩ := mem_map.mp hnew
            have hitem : y ∈ m'.items := by
              rw [(Server.handle_eq_ok hr).2.1] at hy
              exact takeNew_subset _ _ y hy
            rw [hunique y (hsound.flying m' hmem y hitem) hhash] at hy
            exact .inr ⟨hreceiver.symm, hy⟩
        · exact .inr ⟨m', mem_append_left _ hstays, hreceiver, hx⟩

omit [DecidableEq ι] in
theorem allowed_of_fit (hfit : Fit topic events) : ∀ e ∈ events, Allowed topic (injected events) e := by
  intro e he
  cases e with
  | inject a items => exact ⟨hfit _ he a items rfl, fun x hx => mem_flatMap.mpr ⟨_, he, hx⟩⟩
  | deliver n => trivial

theorem Sound.run (h : net.Sound topic peers all)
    (hallowed : ∀ e ∈ events, Allowed topic all e) : (net.run topic events).Sound topic peers all :=
  run_invariant (P := fun net => net.Sound topic peers all) (fun _ _ he hsound => hsound.step he)
    (steps_of_forall_mem hallowed net) h

theorem Bound.run (hsound : net.Sound topic peers all) (h : net.Bound x b)
    (hunique : ∀ y ∈ all, topic.hash y = topic.hash x → y = x)
    (hallowed : ∀ e ∈ events, Allowed topic all e) : (net.run topic events).Bound x b := by
  refine (run_invariant (P := fun net => net.Sound topic peers all ∧ net.Bound x b) ?_
    (steps_of_forall_mem hallowed net) ⟨hsound, h⟩).2
  intro net e he ⟨hsound, hbound⟩
  exact ⟨hsound.step he, hbound.step hsound hunique e⟩

theorem mem_inFlight_inject (h : m ∈ (net.step topic (.inject a items)).inFlight) :
    m ∈ net.inFlight ∨ m.receiver ∈ (net.server a).peers ∧ m.items.length ≤ items.length := by
  rcases mem_append.mp h with hm | hm
  · exact .inl hm
  · obtain ⟨m', hm', rfl⟩ := mem_map.mp hm
    obtain ⟨hpeer, hitems, -⟩ := Server.mem_broadcast hm'
    rw [hitems]
    exact .inr ⟨hpeer, length_takeNew_le _ _⟩

/-- What a node injects for the first time is with the node and on its way to each of its peers. -/
theorem Sound.bound_inject (h : net.Sound topic peers all) (hx : x ∈ items)
    (hall : ∀ y ∈ items, y ∈ all) (hunique : ∀ y ∈ all, topic.hash y = topic.hash x → y = x)
    (hnew : topic.hash x ∉ (net.server a).seen.order) (hb : b = a ∨ b ∈ peers a) :
    (net.step topic (.inject a items)).Bound x b := by
  rcases hb with rfl | hb
  · exact .inl (mem_held_act.mpr (.inr ⟨rfl, hx⟩))
  · obtain hmem | hmem := mem_or_mem_takeNew (net.server a).seen items x hx
    · exact absurd hmem hnew
    · obtain ⟨y, hy, hhash⟩ := mem_map.mp hmem
      have hsubset : y ∈ items := takeNew_subset _ _ y hy
      rw [hunique y (hall y hsubset) hhash] at hy
      have hsome : ((net.server a).seen.takeNew topic.hash items).1.isEmpty = false :=
        isEmpty_eq_false_iff_exists_mem.mpr ⟨x, hy⟩
      refine .inr ⟨⟨a, b, _⟩, mem_append_right _ (mem_map_of_mem (a := (b, _)) ?_), rfl, hy⟩
      rw [hsome, h.peers a]
      exact mem_map_of_mem hb

theorem exists_drain (topic : Topic α) (net : Network ι α) (hlength : ∀ m ∈ net.inFlight, m.items.length ≤ seenLimit) :
    ∃ n, (net.run topic (.replicate n (.deliver 0))).inFlight = [] ∧
      ∀ b x, x ∈ (net.run topic (.replicate n (.deliver 0))).held b →
        x ∈ net.held b ∨ ∃ m ∈ net.inFlight, m.receiver = b := by
  generalize hqueue : net.inFlight = queue at hlength ⊢
  induction queue generalizing net with
  | nil => exact ⟨0, hqueue, fun _ _ hx => .inl hx⟩
  | cons m rest ih =>
    have hstep : net.step topic (.deliver 0) = net.receive topic m rest := by
      rw [step, hqueue]
      rfl
    have hreceive : (net.receive topic m rest).inFlight = rest ∧
        ∀ b x, x ∈ (net.receive topic m rest).held b → x ∈ net.held b ∨ m.receiver = b := by
      rw [receive]
      split
      · exact ⟨rfl, fun _ _ hx => .inl hx⟩
      · rename_i r hr
        refine ⟨?_, fun b x hx => (mem_held_act.mp hx).imp_right fun h => h.1.symm⟩
        rw [act, Server.sent_eq_nil hr (hlength m mem_cons_self)]
        exact append_nil rest
    obtain ⟨n, hdone, hheld⟩ := ih _ hreceive.1 fun m' hm' => hlength m' (mem_cons_of_mem m hm')
    refine ⟨n + 1, ?_⟩
    rw [replicate_succ, Network.run, run_cons, hstep]
    refine ⟨hdone, fun b x hx => ?_⟩
    rcases hheld b x hx with hx | ⟨m', hm', hreceiver⟩
    · exact (hreceive.2 b x hx).imp_right fun h => ⟨m, mem_cons_self, h⟩
    · exact .inr ⟨m', mem_cons_of_mem m hm', hreceiver⟩

/-- Without relaying, what a node injects reaches the nodes it is connected to and no others. -/
theorem spreads_iff [Inhabited α] (topic : Topic α) (peers : ι → List ι) (a : ι) :
    Spreads topic peers a ↔ ∀ b, b = a ∨ b ∈ peers a := by
  constructor
  · intro h b
    -- a run in which the node broadcasts one item, and all messages are delivered
    have hsent : ∀ m ∈ ((quiet peers).step topic (.inject a [default])).inFlight,
        m.receiver ∈ peers a ∧ m.items.length ≤ 1 :=
      fun m hm => (mem_inFlight_inject hm).resolve_left not_mem_nil
    obtain ⟨n, hdone, hheld⟩ := exists_drain topic ((quiet peers).step topic (.inject a [default]))
      fun m hm => (hsent m hm).2.trans (by decide)
    have hfit : Fit topic (.inject a [default] :: List.replicate n (.deliver 0)) := by
      intro e he a' items heq
      rcases mem_cons.mp he with rfl | he
      · cases heq
        exact fun k hk => topic.maxItems_pos k hk
      · cases heq
        cases eq_of_mem_replicate he
    have hinjected : ∀ y ∈ injected (.inject a [default] :: List.replicate n (.deliver 0)), y = (default : α) := by
      intro y hy
      obtain ⟨e, he, hy⟩ := mem_flatMap.mp hy
      rcases mem_cons.mp he with rfl | he
      · exact mem_singleton.mp hy
      · cases eq_of_mem_replicate he
        cases hy
    have hspread := h default [default] [] (.replicate n (.deliver 0)) hfit mem_cons_self
      (fun y hy _ => hinjected y hy) not_mem_nil hdone b
    rcases hheld b _ hspread with hx | ⟨m, hm, rfl⟩
    · rcases mem_held_act.mp hx with hx | ⟨hb, -⟩
      · cases hx
      · exact .inl hb
    · exact .inr (hsent m hm).1
  · intro hpeers x items before after hfit hx hunique hnew hdone b
    have hallowed := allowed_of_fit hfit
    have hstart := (sound_quiet topic peers).run fun e he => hallowed e (mem_append_left _ he)
    obtain ⟨hfits, hall⟩ := hallowed (.inject a items) (mem_append_right _ mem_cons_self)
    have hinjected := hstart.step (e := .inject a items) ⟨hfits, hall⟩
    have hbound := hstart.bound_inject hx hall hunique hnew (hpeers b)
    have hend := hbound.run hinjected hunique fun e he =>
      hallowed e (mem_append_right _ (mem_cons_of_mem _ he))
    rw [run, Transition.run_append, run_cons] at hdone ⊢
    rcases hend with hheld | ⟨m, hm, -⟩
    · exact hheld
    · rw [run, run, hdone] at hm
      cases hm

/-- Whatever nodes broadcast, and in whatever order messages arrive, a node holds and a message carries only items
that were injected, and a node takes for known only what it was handed. -/
theorem nothing_invented {topic : Topic α} (peers : ι → List ι) {events : List (Event ι α)} (hfit : Fit topic events) :
    let net := (quiet peers).run topic events
    (∀ b, ∀ x ∈ net.held b, x ∈ injected events) ∧
      (∀ m ∈ net.inFlight, topic.Fits m.items ∧ ∀ x ∈ m.items, x ∈ injected events) ∧
      ∀ b, ∀ k ∈ (net.server b).seen.order, ∃ x ∈ net.held b, topic.hash x = k := by
  intro net
  have h := (sound_quiet topic peers).run (allowed_of_fit hfit)
  exact ⟨h.holding, fun m hm => ⟨h.fits m hm, h.flying m hm⟩, h.remembered⟩

end Network

section Relay

variable {ι α : Type} [DecidableEq ι] [DecidableEq α] [Inhabited α]

/-- A message is relayed as it should be exactly when there is nothing to relay, or nobody to relay to and every item
comes to the node; and exactly the peers of a node get what it injects. -/
theorem gossip_goes_one_hop (topic : Topic α) :
    (∀ (s : Server ι) (p : ι) (items : List α), items.length ≤ seenLimit →
      (s.Relays topic p items ↔ (∀ x ∈ items, topic.hash x ∈ s.seen.order) ∨
        (∀ q ∈ s.peers, q = p) ∧ topic.Fits items ∧ s.Distinct topic items)) ∧
      (∀ (s : Server ι) (p : ι) (items : List α), (∀ x ∈ items, topic.hash x ∈ s.seen.order) →
        s.Relays topic p items) ∧
      ∀ (peers : ι → List ι) (a : ι), Network.Spreads topic peers a ↔ ∀ b, b = a ∨ b ∈ peers a :=
  ⟨fun _ _ _ hlength => Server.relays_iff hlength, fun _ _ _ hseen x hx hnew => absurd (hseen x hx) hnew,
    Network.spreads_iff topic⟩

end Relay

instance : Inhabited Transaction := ⟨⟨[]⟩⟩

namespace GossipExample

def topic : Topic Transaction := .transactions fun _ => 0

def fresh (peers : List (Fin 3)) : Server (Fin 3) := ⟨⟨[]⟩, peers, fun _ => ⟨[]⟩⟩

def line : Fin 3 → List (Fin 3)
  | 0 => [1]
  | 1 => [0, 2]
  | 2 => [1]

theorem line_connected (a b : Fin 3) : Relation.ReflTransGen (fun a b => b ∈ line a) a b := by
  have hstep : ∀ a b, b ∈ line a → Relation.ReflTransGen (fun a b => b ∈ line a) a b := fun _ _ h => .single h
  have hto : ∀ a, Relation.ReflTransGen (fun a b => b ∈ line a) a 1 := by
    intro a
    match a with
    | 0 => exact hstep 0 1 (by decide)
    | 1 => exact .refl
    | 2 => exact hstep 2 1 (by decide)
  have hfrom : ∀ b, Relation.ReflTransGen (fun a b => b ∈ line a) 1 b := by
    intro b
    match b with
    | 0 => exact hstep 1 0 (by decide)
    | 1 => exact .refl
    | 2 => exact hstep 1 2 (by decide)
  exact (hto a).trans (hfrom b)

end GossipExample

open GossipExample in
theorem nothing_invented_on_line :
    ((Network.quiet line).run topic [.inject 0 [⟨[]⟩], .deliver 0]).held 1 ⊆ [⟨[]⟩] := by
  refine (Network.nothing_invented line fun e _ a items _ n hn => ?_).1 1
  cases hn

open GossipExample in
/-- A leaf hands what it gets to its node, and has nobody to relay it to. -/
theorem gossip_at_leaf : (fresh [1]).Relays topic 1 [⟨[]⟩] ∧ Network.Spreads topic (fun _ : Fin 2 => [0, 1]) 0 := by
  refine ⟨((gossip_goes_one_hop topic).1 (fresh [1]) 1 [⟨[]⟩] (by decide)).mpr (.inr ⟨?_, ?_, ?_⟩),
    ((gossip_goes_one_hop topic).2.2 _ _).mpr (by decide)⟩
  · decide
  · nofun
  · intro x hx y hy _ _
    rw [mem_singleton.mp hx, mem_singleton.mp hy]

open GossipExample in
/-- The node in the middle of the line does not relay a new transaction, which so does not reach the other end. -/
theorem relay_stops_in_the_middle :
    ¬ (fresh [0, 2]).Relays topic 0 [⟨[]⟩] ∧ (∀ a b, Relation.ReflTransGen (fun a b => b ∈ line a) a b) ∧
      ¬ Network.Spreads topic line 0 := by
  refine ⟨fun h => ?_, line_connected, fun h => ?_⟩
  · rcases (Server.relays_iff (by decide)).mp h with hseen | ⟨halone, -⟩
    · exact nomatch hseen _ mem_cons_self
    · exact absurd (halone 2 (by decide)) (by decide)
  · exact absurd ((Network.spreads_iff topic line 0).mp h 2) (by decide)

end PadiChain.P2P

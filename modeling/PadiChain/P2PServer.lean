import PadiChain.LibTransition

/-! The peer table of the server. Any number of connection handlers run at the same time; each takes the lock only to
look at the table, to register and to remove, so between any two of its steps every other handler and every ban may
have been at work. -/

namespace PadiChain.P2P.Table

open Function Transition

variable {ID Key : Type} [DecidableEq ID] [DecidableEq Key]

/-- Where a handler stands in `handleConnectionAs`. -/
inductive Phase (ID : Type) where
  | absent
  | admitted
  | authenticated (id : ID)
  | vetted (id : ID)
  | running (id : ID)
  | stopped (id : ID)
  | done
  deriving DecidableEq

structure Server (ID : Type) where
  phase : Nat → Phase ID
  isOpen : Nat → Bool
  /-- The peers of the table: the identity of each, from which its key is made, and its handler. -/
  peers : List (ID × Nat)
  banned : ID → Bool

def Server.new : Server ID := ⟨fun _ => .absent, fun _ => false, [], fun _ => false⟩

inductive Event (ID : Type) where
  | connect (h : Nat)
  | authenticate (h : Nat) (id : ID)
  | vet (h : Nat)
  | register (h : Nat)
  | fail (h : Nat)
  | stop (h : Nat)
  | remove (h : Nat)
  | penalise (id : ID)
  | expire (id : ID)

def Server.move (s : Server ID) (h : Nat) (phase : Phase ID) (isOpen : Bool) : Server ID :=
  { s with phase := update s.phase h phase, isOpen := update s.isOpen h isOpen }

variable (maxPeers : Nat) (key : ID → Key)

def Server.taken (s : Server ID) (id : ID) : Bool := s.peers.any fun e => key e.1 == key id

def Server.step (s : Server ID) : Event ID → Server ID
  | .connect h =>
    match s.phase h with
    | .absent => if s.peers.length ≥ maxPeers then s.move h .done false else s.move h .admitted true
    | _ => s
  | .authenticate h id =>
    match s.phase h with
    | .admitted => s.move h (.authenticated id) true
    | _ => s
  | .vet h =>
    match s.phase h with
    | .authenticated id => if s.banned id then s.move h .done false else s.move h (.vetted id) true
    | _ => s
  | .register h =>
    match s.phase h with
    | .vetted id =>
      if s.taken key id then s.move h .done false
      else { s.move h (.running id) true with peers := (id, h) :: s.peers }
    | _ => s
  -- a failed handshake, an identity other than the expected one
  | .fail h =>
    match s.phase h with
    | .admitted | .authenticated _ | .vetted _ => s.move h .done false
    | _ => s
  -- `run` closes its connection as it returns
  | .stop h =>
    match s.phase h with
    | .running id => s.move h (.stopped id) false
    | _ => s
  | .remove h =>
    match s.phase h with
    | .stopped id => { s.move h .done false with peers := s.peers.filter fun e => key e.1 ≠ key id }
    | _ => s
  | .penalise id =>
    { s with
      isOpen := fun h => s.isOpen h && !s.peers.contains (id, h)
      peers := s.peers.filter fun e => e.1 ≠ id
      banned := update s.banned id true }
  | .expire id => { s with banned := update s.banned id false }

/-- What the table is for: it is bounded, its entries are open connections, and it has all of them. -/
structure Server.Accurate (s : Server ID) : Prop where
  bounded : s.peers.length ≤ maxPeers
  entries : ∀ e ∈ s.peers, s.isOpen e.2 = true
  registered : ∀ h id, s.phase h = .running id → s.isOpen h = true → (id, h) ∈ s.peers

/-- No handler is between the end of its run and the removal of its entry. -/
def Server.Settled (s : Server ID) : Prop := ∀ h id, s.phase h ≠ .stopped id

/-- A registration finds room in the table, and a removal finds no entry of another connection under its key. -/
def Orderly (s : Server ID) : Event ID → Prop
  | .register h => ∀ id, s.phase h = .vetted id → s.taken key id = true ∨ s.peers.length < maxPeers
  | .remove h => ∀ id, s.phase h = .stopped id → ∀ e ∈ s.peers, key e.1 = key id → e.2 = h
  | _ => True

structure Server.Tracked (s : Server ID) : Prop where
  bounded : s.peers.length ≤ maxPeers
  entries : ∀ id h, (id, h) ∈ s.peers → (s.phase h = .running id ∧ s.isOpen h = true) ∨ s.phase h = .stopped id
  registered : ∀ h id, s.phase h = .running id → s.isOpen h = true → (id, h) ∈ s.peers

variable {maxPeers key} {s : Server ID} {h : Nat} {phase : Phase ID} {isOpen : Bool}

omit [DecidableEq ID] in
/-- A handler moves, and only its own entry changes. -/
theorem Server.Tracked.move (hs : s.Tracked maxPeers) {peers : List (ID × Nat)} (hbounded : peers.length ≤ maxPeers)
    (hothers : ∀ id k, k ≠ h → ((id, k) ∈ peers ↔ (id, k) ∈ s.peers))
    (hentry : ∀ id, (id, h) ∈ peers → (phase = .running id ∧ isOpen = true) ∨ phase = .stopped id)
    (hregistered : ∀ id, phase = .running id → (id, h) ∈ peers) :
    Server.Tracked maxPeers { s.move h phase isOpen with peers := peers } := by
  refine ⟨hbounded, fun id k hk => ?_, fun k id hrun hopen => ?_⟩
  · obtain rfl | hne := eq_or_ne k h
    · simpa [Server.move] using hentry id hk
    · simpa [Server.move, hne] using hs.entries id k ((hothers id k hne).mp hk)
  · obtain rfl | hne := eq_or_ne k h
    · exact hregistered id (by simpa [Server.move] using hrun)
    · simp only [Server.move, update_of_ne hne] at hrun hopen
      exact (hothers id k hne).mpr (hs.registered k id hrun hopen)

omit [DecidableEq ID] in
/-- A handler that is not in the table moves, short of being registered. -/
theorem Server.Tracked.pass (hs : s.Tracked maxPeers) (hidle : ∀ id, s.phase h ≠ .running id ∧ s.phase h ≠ .stopped id)
    (hphase : ∀ id, phase ≠ .running id) : (s.move h phase isOpen).Tracked maxPeers := by
  refine hs.move hs.bounded (fun _ _ _ => Iff.rfl) (fun id hid => ?_) fun id hrun => absurd hrun (hphase id)
  have := hs.entries id h hid
  have := hidle id
  tauto

theorem Server.Tracked.step (hs : s.Tracked maxPeers) {event : Event ID} (horderly : Orderly maxPeers key s event) :
    (s.step maxPeers key event).Tracked maxPeers := by
  cases event with simp only [Server.step]
  | connect h | authenticate h id | vet h | fail h =>
    split <;> (try split) <;> first | exact hs | exact hs.pass (by simp [*]) (by simp)
  | register h =>
    split
    · rename_i id hphase
      split
      · exact hs.pass (by simp [hphase]) (by simp)
      · rename_i hfree
        have hroom := (horderly id hphase).resolve_left hfree
        refine hs.move hroom (fun i k hne => by simp [hne]) (fun i hi => ?_) fun i hrun => ?_
        · obtain hnew | hold := List.mem_cons.mp hi
          · cases hnew
            simp
          · simpa [hphase] using hs.entries i h hold
        · cases hrun
          exact List.mem_cons_self
    · exact hs
  | stop h =>
    split
    · rename_i id hphase
      refine hs.move hs.bounded (fun _ _ _ => Iff.rfl) (fun i hi => ?_) nofun
      have := hs.entries i h hi
      simp_all
    · exact hs
  | remove h =>
    split
    · rename_i id hphase
      refine hs.move (Nat.le_trans (List.length_filter_le _ _) hs.bounded) (fun i k hne => ?_) (fun i hi => ?_) nofun
      · simpa using fun hmem hkey => hne (horderly id hphase (i, k) hmem hkey)
      · obtain ⟨hmem, hkey⟩ := List.mem_filter.mp hi
        have := hs.entries i h hmem
        simp_all
    · exact hs
  | penalise id =>
    refine ⟨Nat.le_trans (List.length_filter_le _ _) hs.bounded, fun i k hk => ?_, fun k i hrun hopen => ?_⟩
    · obtain ⟨hmem, hi⟩ := List.mem_filter.mp hk
      have := hs.entries i k hmem
      have hother : (id, k) ∉ s.peers := by
        intro hin
        have := hs.entries id k hin
        grind
      simp_all
    · have hmem := hs.registered k i hrun (by simp_all)
      refine List.mem_filter.mpr ⟨hmem, ?_⟩
      grind
  | expire id => exact ⟨hs.bounded, hs.entries, hs.registered⟩

def crowded : List (Event Nat) :=
  [.connect 0, .connect 1, .authenticate 0 7, .authenticate 1 8, .vet 0, .vet 1, .register 0, .register 1]

def displaced : List (Event Nat) :=
  [.connect 0, .authenticate 0 7, .vet 0, .register 0, .connect 1, .authenticate 1 7, .vet 1, .penalise 7, .register 1,
    .stop 0, .remove 0]

end PadiChain.P2P.Table

import PadiChain.LibTransition

/-! The peer handshake in the symbolic model. Honest nodes run any number of sessions; the network belongs to an
attacker, who reads and hands over whatever it likes and owns some node keys. A signature is the pair of the key and
the transcript it was made for, and the transcript is the tuple that is hashed, so nothing is forged and no two
transcripts collide. What a session draws for itself bears the number of the session. -/

namespace PadiChain.P2P.Handshake

open Transition

/-- An ephemeral key or a nonce: what an honest session has drawn, or anything else. -/
inductive Value where
  | drawn (session : Nat)
  | foreign (n : Nat)
  deriving DecidableEq

/-- The unsigned part of a `handshakeMessage`. -/
structure Opening (ID : Type) where
  ephemeral : Value
  nonce : Value
  staticKey : ID
  deriving DecidableEq

/-- `handshakeTranscript`: the initiator's material first. -/
structure Transcript where
  initiatorEph : Value
  initiatorNonce : Value
  responderEph : Value
  responderNonce : Value
  deriving DecidableEq

/-- Both ephemeral keys were drawn by honest sessions. -/
def Transcript.Drawn (t : Transcript) : Prop :=
  ∃ i j, t.initiatorEph = .drawn i ∧ t.responderEph = .drawn j

inductive Status where
  | running
  | completed
  | failed
  deriving DecidableEq

/-- The sessions of the honest nodes: whose each is, and whether it dialled. -/
structure Sessions (ID : Type) where
  owner : Nat → ID
  initiator : Nat → Bool

/-- How far every session has come, and the signatures that were made, by honest nodes and by the attacker. -/
structure Net (ID : Type) where
  theirs : Nat → Option (Opening ID)
  status : Nat → Status
  signed : List (ID × Transcript)

inductive Event (ID : Type) where
  | readOpening (i : Nat) (theirs : Opening ID)
  | readSignature (i : Nat) (signature : ID × Transcript)
  | abort (i : Nat)
  | attackerSigns (key : ID) (t : Transcript)

variable {ID : Type}

def Net.new : Net ID := ⟨fun _ => none, fun _ => .running, []⟩

def Net.end (n : Net ID) (i : Nat) (status : Status) : Net ID :=
  { n with status := Function.update n.status i status }

variable [DecidableEq ID] (ss : Sessions ID) (owned : ID → Bool)

def Sessions.transcript (i : Nat) (theirs : Opening ID) : Transcript :=
  if ss.initiator i then ⟨.drawn i, .drawn i, theirs.ephemeral, theirs.nonce⟩
  else ⟨theirs.ephemeral, theirs.nonce, .drawn i, .drawn i⟩

/-- The steps of `performHandshake` in the sessions, and the attacker's signatures. -/
def Net.step (n : Net ID) : Event ID → Net ID
  | .readOpening i theirs =>
    if n.status i = .running ∧ n.theirs i = none then
      -- nobody talks to itself
      if theirs.staticKey = ss.owner i then n.end i .failed
      else
        { n with
          theirs := Function.update n.theirs i (some theirs)
          signed := (ss.owner i, ss.transcript i theirs) :: n.signed }
    else n
  | .readSignature i signature =>
    match n.theirs i with
    | some theirs =>
      if n.status i = .running then
        -- only a signature that was made can verify
        if signature ∈ n.signed ∧ signature = (theirs.staticKey, ss.transcript i theirs) then n.end i .completed
        else n.end i .failed
      else n
    | none => n
  | .abort i => if n.status i = .running then n.end i .failed else n
  | .attackerSigns key t => if owned key then { n with signed := (key, t) :: n.signed } else n

def Aloof : Net ID → Event ID → Prop
  | _, .attackerSigns key t => owned key = true → ¬ t.Drawn
  | _, _ => True

def Net.Signs (n : Net ID) (i : Nat) (t : Transcript) : Prop :=
  ∃ theirs, n.theirs i = some theirs ∧ ss.transcript i theirs = t

structure Net.Sound (n : Net ID) : Prop where
  signer : ∀ key t, (key, t) ∈ n.signed → owned key = false → ∃ i, n.Signs ss i t ∧ ss.owner i = key
  other : ∀ i theirs, n.theirs i = some theirs → theirs.staticKey ≠ ss.owner i
  completed : ∀ i, n.status i = .completed →
    ∃ theirs, n.theirs i = some theirs ∧ (theirs.staticKey, ss.transcript i theirs) ∈ n.signed

/-- No owned key has signed a transcript of two honest sessions. -/
def Net.Unmixed (n : Net ID) : Prop := ∀ key t, (key, t) ∈ n.signed → owned key = true → ¬ t.Drawn

variable {ss owned} {n : Net ID} {i : Nat}

omit [DecidableEq ID] in
theorem Net.Sound.end (h : n.Sound ss owned) {status : Status} (hdone : status = .completed →
    ∃ theirs, n.theirs i = some theirs ∧ (theirs.staticKey, ss.transcript i theirs) ∈ n.signed) :
    (n.end i status).Sound ss owned := by
  refine ⟨h.signer, h.other, fun j hj => ?_⟩
  obtain rfl | hne := eq_or_ne j i
  · exact hdone (by simpa [Net.end] using hj)
  · exact h.completed j (by simpa [Net.end, hne] using hj)

theorem Net.Sound.step (h : n.Sound ss owned) (e : Event ID) : (n.step ss owned e).Sound ss owned := by
  cases e with simp only [Net.step]
  | readOpening i theirs =>
    split_ifs with hfresh hself
    · exact h.end (nomatch ·)
    · have hkeep : ∀ {j th}, n.theirs j = some th → Function.update n.theirs i (some theirs) j = some th := by
        rintro j th hj
        obtain rfl | hne := eq_or_ne j i
        · exact nomatch hfresh.2.symm.trans hj
        · simpa [hne] using hj
      refine ⟨fun key t hsigned hkey => ?_, fun j th hj => ?_, fun j hj => ?_⟩
      · rcases List.mem_cons.mp hsigned with hnew | hold
        · cases hnew
          exact ⟨i, ⟨theirs, by simp, rfl⟩, rfl⟩
        · obtain ⟨j, ⟨th, hth, rfl⟩, hown⟩ := h.signer key t hold hkey
          exact ⟨j, ⟨th, hkeep hth, rfl⟩, hown⟩
      · obtain rfl | hne := eq_or_ne j i
        · simp only [Function.update_self, Option.some.injEq] at hj
          exact hj ▸ hself
        · exact h.other j th (by simpa [hne] using hj)
      · obtain ⟨th, hth, hmem⟩ := h.completed j hj
        exact ⟨th, hkeep hth, List.mem_cons_of_mem _ hmem⟩
    · exact h
  | readSignature i signature =>
    split
    · rename_i theirs htheirs
      split_ifs with hrunning hverifies
      · exact h.end fun _ => ⟨theirs, htheirs, hverifies.2 ▸ hverifies.1⟩
      · exact h.end (nomatch ·)
      · exact h
    · exact h
  | abort i =>
    split
    · exact h.end (nomatch ·)
    · exact h
  | attackerSigns key t =>
    split
    · rename_i hkey
      refine ⟨fun k t' hsigned hk => ?_, h.other, fun j hj => ?_⟩
      · rcases List.mem_cons.mp hsigned with hnew | hold
        · cases hnew
          exact nomatch hk.symm.trans hkey
        · exact h.signer k t' hold hk
      · obtain ⟨th, hth, hmem⟩ := h.completed j hj
        exact ⟨th, hth, List.mem_cons_of_mem _ hmem⟩
    · exact h

theorem Net.Unmixed.step (hhonest : ∀ i, owned (ss.owner i) = false) (h : n.Unmixed owned) {e : Event ID}
    (he : Aloof owned n e) : (n.step ss owned e).Unmixed owned := by
  have hcons : ∀ {key t}, (owned key = true → ¬ Transcript.Drawn t) →
      ∀ k t', (k, t') ∈ (key, t) :: n.signed → owned k = true → ¬ t'.Drawn := by
    intro key t hnew k t' hmem hk
    rcases List.mem_cons.mp hmem with heq | hold
    · cases heq
      exact hnew hk
    · exact h k t' hold hk
  cases e <;> simp only [Net.step]
  case readOpening i theirs =>
    split_ifs
    · exact h
    · exact hcons fun howned => nomatch howned.symm.trans (hhonest i)
    · exact h
  case attackerSigns key t =>
    split
    · exact hcons he
    · exact h
  all_goals
    repeat' split
    all_goals exact h

omit [DecidableEq ID] in
/-- Two sessions with one transcript are the same, or the two ends of a connection. -/
theorem eq_or_opposite {j : Nat} {theirs theirs' : Opening ID} (h : ss.transcript i theirs = ss.transcript j theirs') :
    i = j ∨ (ss.initiator j = !ss.initiator i) ∧ (ss.transcript i theirs).Drawn := by
  cases hi : ss.initiator i <;> cases hj : ss.initiator j <;>
    simp [Sessions.transcript, Transcript.Drawn, hi, hj] at h ⊢ <;> grind

omit [DecidableEq ID] in
theorem Net.Sound.peer (h : n.Sound ss owned) {theirs : Opening ID} (htheirs : n.theirs i = some theirs)
    (hsigned : (theirs.staticKey, ss.transcript i theirs) ∈ n.signed) (hkey : owned theirs.staticKey = false) :
    ∃ j, n.Signs ss j (ss.transcript i theirs) ∧ ss.owner j = theirs.staticKey ∧
      (ss.initiator j = !ss.initiator i) ∧ (ss.transcript i theirs).Drawn := by
  obtain ⟨j, ⟨theirs', htheirs', heq⟩, howner⟩ := h.signer _ _ hsigned hkey
  obtain rfl | hopposite := eq_or_opposite heq.symm
  · exact absurd howner.symm (h.other i theirs htheirs)
  · exact ⟨j, ⟨theirs', htheirs', heq⟩, howner, hopposite⟩

/-- In every run, a session that completes with the key of an honest node has a session of that node opposite, with
the same transcript in the other role. If the attacker signs no transcript of two honest sessions with a key of its own,
that session completes with the key of the first one or not at all. -/
theorem handshake_authenticates (ss : Sessions ID) (owned : ID → Bool) (hhonest : ∀ i, owned (ss.owner i) = false)
    (events : List (Event ID)) (i : Nat) (theirs : Opening ID) :
    let n := run (Net.step ss owned) Net.new events
    n.status i = .completed → n.theirs i = some theirs → owned theirs.staticKey = false →
    ∃ j, n.Signs ss j (ss.transcript i theirs) ∧ ss.owner j = theirs.staticKey ∧
      (ss.initiator j = !ss.initiator i) ∧
      (Steps (Net.step ss owned) (Aloof owned) Net.new events → n.status j = .completed →
        (n.theirs j).map Opening.staticKey = some (ss.owner i)) := by
  intro n hdone htheirs hkey
  have hsound : n.Sound ss owned :=
    run_preserves (fun _ e h => h.step e) events ⟨by simp [Net.new], by simp [Net.new], by simp [Net.new]⟩
  obtain ⟨theirs', hsome, hsigned⟩ := hsound.completed i hdone
  obtain rfl : theirs' = theirs := Option.some.inj (hsome.symm.trans htheirs)
  obtain ⟨j, ⟨theirsB, htheirsB, heq⟩, howner, hrole, hdrawn⟩ := hsound.peer htheirs hsigned hkey
  refine ⟨j, ⟨theirsB, htheirsB, heq⟩, howner, hrole, fun hsteps hb => ?_⟩
  have hunmixed : n.Unmixed owned :=
    run_invariant (fun _ _ he h => h.step hhonest he) hsteps (by simp [Net.Unmixed, Net.new])
  -- the other end completed with a key that has signed the transcript, which is not an owned one
  obtain ⟨theirs'', hsomeB, hsignedB⟩ := hsound.completed j hb
  obtain rfl : theirs'' = theirsB := Option.some.inj (hsomeB.symm.trans htheirsB)
  have hkeyB : owned theirs''.staticKey = false := by
    refine Bool.eq_false_iff.mpr fun howned => hunmixed _ _ hsignedB howned ?_
    rw [heq]
    exact hdrawn
  obtain ⟨k, ⟨theirsC, -, heqC⟩, hownerC, hroleC, -⟩ := hsound.peer htheirsB hsignedB hkeyB
  obtain rfl | ⟨hopposite, -⟩ := eq_or_opposite (heqC.trans heq)
  · rw [htheirsB, Option.map_some, hownerC]
  · simp [hroleC, hrole] at hopposite

/-- Node 0 dials node 1, in session 0 on its side and session 1 on the other. -/
def dial : Sessions Nat := ⟨fun i => if i = 0 then 0 else 1, fun i => i == 0⟩

def dialled : Transcript := ⟨.drawn 0, .drawn 0, .drawn 1, .drawn 1⟩

theorem handshake_authenticates_dial :
    let n := run (Net.step dial (· == 2)) Net.new
      [.readOpening 0 ⟨.drawn 1, .drawn 1, 1⟩, .readOpening 1 ⟨.drawn 0, .drawn 0, 0⟩, .readSignature 0 (1, dialled),
        .readSignature 1 (0, dialled)]
    ∃ j, n.Signs dial j dialled ∧ dial.owner j = 1 ∧ dial.initiator j = false ∧
      (Steps (Net.step dial (· == 2)) (Aloof (· == 2)) Net.new
        [.readOpening 0 ⟨.drawn 1, .drawn 1, 1⟩, .readOpening 1 ⟨.drawn 0, .drawn 0, 0⟩, .readSignature 0 (1, dialled),
          .readSignature 1 (0, dialled)] → n.status j = .completed → (n.theirs j).map Opening.staticKey = some 0) :=
  handshake_authenticates dial (· == 2) (fun i => by by_cases h : i = 0 <;> simp [dial, h]) _ 0
    ⟨.drawn 1, .drawn 1, 1⟩ (by decide) (by decide) rfl

/-- The attacker puts the key of its node 2 into the opening of node 0 and signs the transcript: node 0 has completed
with node 1, and node 1 believes that it talks to node 2. -/
theorem relayed_handshake_misattributes :
    ¬ ∀ (ss : Sessions Nat) (owned : Nat → Bool), (∀ i, owned (ss.owner i) = false) →
      ∀ (events : List (Event Nat)) (i : Nat) (theirs : Opening Nat),
      let n := run (Net.step ss owned) Net.new events
      n.status i = .completed → n.theirs i = some theirs → owned theirs.staticKey = false →
      ∃ j, n.Signs ss j (ss.transcript i theirs) ∧ ss.owner j = theirs.staticKey ∧
        (ss.initiator j = !ss.initiator i) ∧
        (n.status j = .completed → (n.theirs j).map Opening.staticKey = some (ss.owner i)) := by
  intro h
  obtain ⟨j, ⟨theirs, htheirs, -⟩, -, -, hagree⟩ := h dial (· == 2)
    (fun i => by by_cases h : i = 0 <;> simp [dial, h])
    [.readOpening 0 ⟨.drawn 1, .drawn 1, 1⟩, .readOpening 1 ⟨.drawn 0, .drawn 0, 2⟩, .readSignature 0 (1, dialled),
      .attackerSigns 2 dialled, .readSignature 1 (2, dialled)] 0 ⟨.drawn 1, .drawn 1, 1⟩ (by decide) (by decide) rfl
  match j with
  | 0 | 1 => exact absurd (hagree (by decide)) (by decide)
  | j + 2 => exact nomatch htheirs

end PadiChain.P2P.Handshake

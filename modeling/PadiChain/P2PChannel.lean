import PadiChain.Common
import PadiChain.LibTransition

/-! The encrypted channel of two nodes that have completed a handshake. The cipher is ideal: a byte string opens under
a key and a nonce exactly when it was sealed under them, which the list of all seals records. The network hands a
reader whatever bytes it likes at every call, so nothing links them to what was written. -/

namespace PadiChain.P2P.Channel

open Function Transition

def maxMessageSize : Nat := 16 * 1024 * 1024

structure Message where
  code : UInt8
  payload : Bytes
  deriving DecidableEq

inductive FrameError where
  | messageTooLarge (bytes : Nat)
  | sequenceOverflow
  | frameTooLarge (bytes : Nat)
  | frameCorrupt
  | connection
  deriving DecidableEq

structure Sealing where
  key : Bytes
  nonce : Bytes
  plaintext : Bytes
  ciphertext : Bytes

/-- `Open` of the ideal cipher. -/
def openFrame (sealings : List Sealing) (key nonce ciphertext : Bytes) : Option Bytes :=
  (sealings.find? fun s => s.key == key && s.nonce == nonce && s.ciphertext == ciphertext).map Sealing.plaintext

/-- `nonceFor`: four zero bytes and the counter. -/
def nonceFor (seq : Nat) : Bytes := List.replicate 4 0 ++ fillBytes 8 seq

structure Session where
  sendKey : Bytes
  recvKey : Bytes
  sendSeq : Nat
  recvSeq : Nat

def label (initiator : Bool) : String := if initiator then "initiator" else "responder"

/-- The end of `performHandshake`. `deriveKey` is taken at the secret and the transcript of the handshake, which the
two ends share. -/
def newSession (deriveKey : String → Bytes) (initiator : Bool) : Session :=
  ⟨deriveKey (label initiator), deriveKey (label !initiator), 0, 0⟩

/-- `writeFrame`: the sealing it makes, the session after it and the bytes for the wire. A message counts as written
once it is sealed, whether or not the connection then takes the bytes. -/
def writeFrame (aead : Bytes → Bytes → Bytes → Bytes) (s : Session) (m : Message) :
    Except FrameError (Sealing × Session × Bytes) :=
  if m.payload.length > maxMessageSize then .error (.messageTooLarge m.payload.length)
  else if s.sendSeq = 2 ^ 64 - 1 then .error .sequenceOverflow
  else
    let plaintext := m.code :: m.payload
    let ciphertext := aead s.sendKey (nonceFor s.sendSeq) plaintext
    .ok (⟨s.sendKey, nonceFor s.sendSeq, plaintext, ciphertext⟩, { s with sendSeq := s.sendSeq + 1 },
      fillBytes 4 ciphertext.length ++ ciphertext)

def readFrame (sealings : List Sealing) (s : Session) (stream : Bytes) : Except FrameError Message × Session × Bytes :=
  if stream.length < 4 then (.error .connection, s, [])
  else
    let length := bytesToNat (stream.take 4)
    let rest := stream.drop 4
    if length > maxMessageSize + 1024 then (.error (.frameTooLarge length), s, rest)
    else if length = 0 then (.error .frameCorrupt, s, rest)
    else if rest.length < length then (.error .connection, s, [])
    else
      match openFrame sealings s.recvKey (nonceFor s.recvSeq) (rest.take length) with
      | none => (.error .frameCorrupt, s, rest.drop length)
      | some plaintext =>
        let s' := { s with recvSeq := (s.recvSeq + 1) % 2 ^ 64 }
        match plaintext with
        | [] => (.error .frameCorrupt, s', rest.drop length)
        | code :: payload => (.ok ⟨code, payload⟩, s', rest.drop length)

/-- The two ends, `true` the initiator, with what each has written and what its reads have returned. -/
structure Pair where
  session : Bool → Session
  sealings : List Sealing
  written : Bool → List Message
  received : Bool → List Message

inductive Event where
  | write (initiator : Bool) (m : Message)
  | read (initiator : Bool) (stream : Bytes)

variable (deriveKey : String → Bytes) (aead : Bytes → Bytes → Bytes → Bytes)

def Pair.new : Pair := ⟨newSession deriveKey, [], fun _ => [], fun _ => []⟩

def Pair.step (p : Pair) : Event → Pair
  | .write e m =>
    match writeFrame aead (p.session e) m with
    | .error _ => p
    | .ok (sealing, s, _) =>
      { p with
        session := update p.session e s
        sealings := sealing :: p.sealings
        written := update p.written e (p.written e ++ [m]) }
  | .read e stream =>
    let (result, s, _) := readFrame p.sealings (p.session e) stream
    { p with
      session := update p.session e s
      received := match result with
        | .ok m => update p.received e (p.received e ++ [m])
        | .error _ => p.received }

def Sealing.Of (s : Sealing) (p : Pair) (e : Bool) (i : Nat) (m : Message) : Prop :=
  s.key = deriveKey (label e) ∧ s.nonce = nonceFor i ∧ (p.written e)[i]? = some m ∧ s.plaintext = m.code :: m.payload

/-- The counters of the two ends are linked by the messages written: a writer's counter is their number, and a reader
has returned as many of the other end's as its counter says. -/
structure Pair.Linked (p : Pair) : Prop where
  keys : ∀ e, (p.session e).sendKey = deriveKey (label e) ∧ (p.session e).recvKey = deriveKey (label !e)
  sent : ∀ e, (p.session e).sendSeq = (p.written e).length ∧ (p.written e).length < 2 ^ 64
  got : ∀ e, p.received e = (p.written !e).take (p.session e).recvSeq ∧ (p.session e).recvSeq ≤ (p.written !e).length
  sealings : ∀ s ∈ p.sealings, ∃ e i m, s.Of deriveKey p e i m
  nodup : (p.sealings.map fun s => (s.key, s.nonce)).Nodup

variable {deriveKey aead} {p : Pair} {e : Bool} {s s' : Session} {m : Message}

theorem nonceFor_inj {i j : Nat} (hi : i < 2 ^ 64) (hj : j < 2 ^ 64) (h : nonceFor i = nonceFor j) : i = j :=
  fillBytes_inj 8 hi hj (List.append_cancel_left h)

theorem deriveKey_inj {d : Bool} (hkdf : deriveKey "initiator" ≠ deriveKey "responder")
    (h : deriveKey (label d) = deriveKey (label e)) : d = e := by
  cases d <;> cases e
  case false.true => exact absurd h.symm hkdf
  case true.false => exact absurd h hkdf
  all_goals rfl

theorem writeFrame_ok {sealing : Sealing} {wire : Bytes} (h : writeFrame aead s m = .ok (sealing, s', wire)) :
    s.sendSeq ≠ 2 ^ 64 - 1 ∧ s' = { s with sendSeq := s.sendSeq + 1 } ∧ sealing.key = s.sendKey ∧
      sealing.nonce = nonceFor s.sendSeq ∧ sealing.plaintext = m.code :: m.payload := by
  simp only [writeFrame] at h
  split at h
  · cases h
  split at h
  · cases h
  · rename_i hseq
    cases h
    exact ⟨hseq, rfl, rfl, rfl, rfl⟩

/-- A call of `readFrame` that opens nothing changes nothing; one that does advances the counter. -/
theorem readFrame_cases {sealings : List Sealing} {stream rest : Bytes} {result : Except FrameError Message}
    (h : readFrame sealings s stream = (result, s', rest)) :
    ((∃ err, result = .error err) ∧ s' = s) ∨
      ∃ sealing ∈ sealings, sealing.key = s.recvKey ∧ sealing.nonce = nonceFor s.recvSeq ∧
        s' = { s with recvSeq := (s.recvSeq + 1) % 2 ^ 64 } ∧
        ∀ m : Message, sealing.plaintext = m.code :: m.payload → result = .ok m := by
  unfold readFrame at h
  dsimp only at h
  iterate 4
    split at h
    · cases h
      exact .inl ⟨⟨_, rfl⟩, rfl⟩
  split at h
  · cases h
    exact .inl ⟨⟨_, rfl⟩, rfl⟩
  · rename_i plaintext hopen
    obtain ⟨sealing, hfind, rfl⟩ := Option.map_eq_some_iff.mp hopen
    have hmatch := List.find?_some hfind
    simp only [Bool.and_eq_true, beq_iff_eq] at hmatch
    refine .inr ⟨sealing, List.mem_of_find?_eq_some hfind, hmatch.1.1, hmatch.1.2, ?_, fun m hm => ?_⟩
    · split at h <;> cases h <;> rfl
    · rw [hm] at h
      cases h
      rfl

section

variable (hkdf : deriveKey "initiator" ≠ deriveKey "responder")

include hkdf

theorem Pair.Linked.write (h : p.Linked deriveKey) (e : Bool) (m : Message) :
    (p.step aead (.write e m)).Linked deriveKey := by
  simp only [Pair.step]
  split
  · exact h
  rename_i sealing s' wire hwrite
  obtain ⟨hseq, rfl, hkey, hnonce, hplain⟩ := writeFrame_ok hwrite
  rw [(h.keys e).1] at hkey
  rw [(h.sent e).1] at hseq hnonce
  have hlt := (h.sent e).2
  refine ⟨fun d => ?_, fun d => ?_, fun d => ?_, fun s hs => ?_, ?_⟩
  · obtain rfl | hd := eq_or_ne d e
    · simpa using h.keys d
    · simpa [hd] using h.keys d
  · obtain rfl | hd := eq_or_ne d e
    · simp only [update_self, List.length_append, List.length_singleton, (h.sent d).1]
      exact ⟨trivial, by omega⟩
    · simpa [hd] using h.sent d
  · have hrecv : (update p.session e { p.session e with sendSeq := (p.session e).sendSeq + 1 } d).recvSeq =
        (p.session d).recvSeq := by
      obtain rfl | hd := eq_or_ne d e
      · simp
      · simp [hd]
    simp only [hrecv]
    obtain ⟨hgot, hle⟩ := h.got d
    obtain rfl | hd := eq_or_ne (!d) e
    · simpa [List.take_append_of_le_length hle, hgot] using Nat.le_succ_of_le hle
    · simpa [hd] using ⟨hgot, hle⟩
  · rcases List.mem_cons.mp hs with rfl | hold
    · exact ⟨e, (p.written e).length, m, hkey, hnonce, by simp, hplain⟩
    · obtain ⟨d, i, m', hkey', hnonce', hget, hplain'⟩ := h.sealings s hold
      refine ⟨d, i, m', hkey', hnonce', ?_, hplain'⟩
      obtain rfl | hd := eq_or_ne d e
      · simpa [List.getElem?_append_left (List.getElem?_eq_some_iff.mp hget).1] using hget
      · simpa [hd] using hget
  · refine List.nodup_cons.mpr ⟨fun hin => ?_, h.nodup⟩
    -- a sealing under this key and nonce would be of a message before this one
    obtain ⟨s, hs, heq⟩ := List.mem_map.mp hin
    obtain ⟨d, i, m', hkey', hnonce', hget, -⟩ := h.sealings s hs
    rw [Prod.mk.injEq, hkey, hnonce, hkey', hnonce'] at heq
    obtain rfl : d = e := deriveKey_inj hkdf heq.1
    have hi := (List.getElem?_eq_some_iff.mp hget).1
    have := nonceFor_inj (by omega) (by omega) heq.2
    omega

theorem Pair.Linked.read (h : p.Linked deriveKey) (e : Bool) (stream : Bytes) :
    (p.step aead (.read e stream)).Linked deriveKey := by
  rcases hread : readFrame p.sealings (p.session e) stream with ⟨result, s', rest⟩
  simp only [Pair.step, hread]
  obtain ⟨⟨err, rfl⟩, rfl⟩ | ⟨sealing, hmem, hkey, hnonce, rfl, hok⟩ := readFrame_cases hread
  · simpa using h
  obtain ⟨d, i, m, hkey', hnonce', hget, hplain⟩ := h.sealings sealing hmem
  obtain ⟨hgot, hle⟩ := h.got e
  obtain rfl : d = !e := deriveKey_inj hkdf (hkey'.symm.trans (hkey.trans (h.keys e).2))
  have hlt := (h.sent !e).2
  obtain ⟨hi, hm⟩ := List.getElem?_eq_some_iff.mp hget
  obtain rfl : i = (p.session e).recvSeq := nonceFor_inj (by omega) (by omega) (hnonce'.symm.trans hnonce)
  obtain rfl := hok m hplain
  refine ⟨fun d => ?_, fun d => ?_, fun d => ?_, h.sealings, h.nodup⟩
  · obtain rfl | hd := eq_or_ne d e
    · simpa using h.keys d
    · simpa [hd] using h.keys d
  · obtain rfl | hd := eq_or_ne d e
    · simpa using h.sent d
    · simpa [hd] using h.sent d
  · obtain rfl | hd := eq_or_ne d e
    · simp only [update_self, Nat.mod_eq_of_lt (show (p.session d).recvSeq + 1 < 2 ^ 64 by omega)]
      rw [List.take_add_one, hget, hgot]
      exact ⟨rfl, hi⟩
    · simpa [hd] using h.got d

end

/-- Whatever the two ends write and whatever bytes their reads are handed, what one end has read is a beginning of
what the other has written, and no key is used twice with one nonce. -/
theorem channel_integrity (deriveKey : String → Bytes) (hkdf : deriveKey "initiator" ≠ deriveKey "responder")
    (aead : Bytes → Bytes → Bytes → Bytes) (events : List Event) :
    let p := run (Pair.step aead) (Pair.new deriveKey) events
    (∀ e, p.received e <+: p.written !e) ∧ (p.sealings.map fun s => (s.key, s.nonce)).Nodup := by
  have hnew : (Pair.new deriveKey).Linked deriveKey :=
    ⟨fun e => ⟨rfl, rfl⟩, fun e => ⟨rfl, Nat.two_pow_pos 64⟩, fun e => ⟨rfl, le_rfl⟩, by simp [Pair.new], by simp [Pair.new]⟩
  have hlinked : (run (Pair.step aead) (Pair.new deriveKey) events).Linked deriveKey := by
    refine run_preserves (fun p event h => ?_) events hnew
    cases event with
    | write e m => exact h.write hkdf e m
    | read e stream => exact h.read hkdf e stream
  refine ⟨fun e => ?_, hlinked.nodup⟩
  rw [(hlinked.got e).1]
  exact List.take_prefix _ _

/-- The first frame is delivered, then delivered again and then given another length. -/
theorem channel_integrity_replayed :
    let p := run (Pair.step fun _ _ plaintext => plaintext)
      (Pair.new fun label => if label = "initiator" then [1] else [2])
      [.write true ⟨1, [7]⟩, .read false [0, 0, 0, 2, 1, 7], .read false [0, 0, 0, 2, 1, 7], .read false [0, 0, 0, 1, 1]]
    (∀ e, p.received e <+: p.written !e) ∧ (p.sealings.map fun s => (s.key, s.nonce)).Nodup :=
  channel_integrity _ (by decide) _ _

end PadiChain.P2P.Channel

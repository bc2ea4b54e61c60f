import PadiChain.ChainGenesis
import PadiChain.CoreTransaction

/-! The proposer's seal: an ECDSA signature over the header without the seal, from which `Author` recovers
the proposer. Neither `Author` nor `VerifyHeader` asks for the lower half of the group order, so the
mirror image of an accepted seal is accepted as well, in a block with another hash. -/

namespace PadiChain

open Core Rlp Secp256k1 Processor

namespace Core.Header

def sealedFields (h : Header) : List Item :=
  [.bytes (hashBytes h.parentHash), .bytes (addressBytes h.coinbase), .bytes (hashBytes h.stateRoot),
    .bytes (hashBytes h.txRoot), .bytes (hashBytes h.receiptRoot), .bytes (fillBytes 256 h.bloom.toNat),
    uintItem h.number, uintItem h.gasLimit, uintItem h.gasUsed, uintItem h.time, .bytes h.extra,
    uintItem h.baseFee, uintItem h.round, .bytes h.randaoReveal, .bytes h.justification]

def sealingHash (keccak : Bytes → Hash) (h : Header) : Hash := keccak (Item.list h.sealedFields).layout

def hash (keccak : Bytes → Hash) (h : Header) : Hash :=
  keccak (Item.list (h.sealedFields ++ [.bytes h.proposerSeal])).layout

def withSeal (h : Header) (bytes : Bytes) : Header := { h with proposerSeal := bytes }

@[simp] theorem sealingHash_withSeal (keccak : Bytes → Hash) (h : Header) {bytes : Bytes} :
    (h.withSeal bytes).sealingHash keccak = h.sealingHash keccak := rfl

@[simp] theorem withSeal_proposerSeal (h : Header) (bytes : Bytes) : (h.withSeal bytes).proposerSeal = bytes := rfl

end Core.Header

namespace Chain

section Author

variable {Point : Type} [AddCommGroup Point] (curve : Curve Point) (keccak : Bytes → Hash)

/-- The key `Author` recovers from a seal. -/
def authorKey (header : Header) : Option Key :=
  if header.proposerSeal.isEmpty then none
  else
    match parseSignature header.proposerSeal with
    | .error _ => none
    | .ok sig => (recover curve (header.sealingHash keccak).toNat sig).toOption

def author (header : Header) : Option Address := (authorKey curve keccak header).map (keyAddress keccak)

end Author

/-- A header is verified with its seal only through the author the seal names. -/
theorem verifyHeader_withSeal {env : Env} {c : BlockChain} {now : Nat} {header parent : Header} {bytes : Bytes}
    (h : env.author (header.withSeal bytes) = env.author header) :
    c.verifyHeader env now (header.withSeal bytes) parent = c.verifyHeader env now header parent := by
  simp only [BlockChain.verifyHeader, h]
  rfl

theorem author_of_verifyHeader {env : Env} {c : BlockChain} {now : Nat} {header parent : Header}
    (h : c.verifyHeader env now header parent = .ok ()) : env.author header = some header.coinbase := by
  obtain ⟨-, -, -, -, -, -, hauthor, -⟩ := BlockChain.verifyHeader_ok h
  exact hauthor

section Twins

variable {Point : Type} [AddCommGroup Point] {curve : Curve Point} {keccak : Bytes → Hash}

theorem authorKey_eq_some {header : Header} {key : Key} (h : authorKey curve keccak header = some key) :
    ∃ sig, parseSignature header.proposerSeal = .ok sig ∧
      recover curve (header.sealingHash keccak).toNat sig = .ok key := by
  rw [authorKey] at h
  split at h
  · cases h
  split at h
  · cases h
  · rename_i sig hsig
    refine ⟨sig, hsig, ?_⟩
    unfold Except.toOption at h
    split at h
    · rename_i hrecover
      cases h
      exact hrecover
    · cases h

theorem authorKey_of_recover {header : Header} {sig : Secp256k1.Signature} {key : Key}
    (hsig : parseSignature header.proposerSeal = .ok sig)
    (h : recover curve (header.sealingHash keccak).toNat sig = .ok key) : authorKey curve keccak header = some key := by
  have hne : ¬ header.proposerSeal.isEmpty = true := by
    intro hempty
    rw [List.isEmpty_iff.mp hempty] at hsig
    cases hsig
  rw [authorKey, if_neg hne, hsig]
  dsimp only
  rw [h]
  rfl

theorem N_lt : N < 256 ^ 32 := by decide

/-- The mirror image of an accepted seal is another accepted seal: every accepted header has a twin with
the same sealing hash. -/
theorem verifyHeader_mirror {env : Env} {c : BlockChain} {now : Nat} {header parent : Header} {sig : Secp256k1.Signature}
    (hauthor : env.author = author curve keccak) (hsig : parseSignature header.proposerSeal = .ok sig)
    (h : c.verifyHeader env now header parent = .ok ()) :
    c.verifyHeader env now (header.withSeal sig.mirror.bytes) parent = .ok () ∧
      header.withSeal sig.mirror.bytes ≠ header := by
  have hnamed := author_of_verifyHeader h
  rw [hauthor, author] at hnamed
  obtain ⟨key, hkey, -⟩ := Option.map_eq_some_iff.mp hnamed
  obtain ⟨sig', hsig', hrecover⟩ := authorKey_eq_some hkey
  obtain rfl : sig = sig' := Except.ok.inj (hsig.symm.trans hsig')
  have hmirror := recover_mirror hrecover
  obtain ⟨y', hrec'⟩ := recovers_of_recover hmirror
  have hr : sig.r < 256 ^ 32 := by
    obtain ⟨hlength, hform⟩ := parseSignature_ok hsig
    have hlt := bytesToNat_lt (header.proposerSeal.take 32)
    rw [List.length_take, hlength] at hlt
    rw [hform]
    exact hlt
  have hparse : parseSignature sig.mirror.bytes = .ok sig.mirror :=
    parseSignature_bytes hr (hrec'.s_lt.trans N_lt) hrec'.recoveryID
  have hkey' : authorKey curve keccak (header.withSeal sig.mirror.bytes) = some key :=
    authorKey_of_recover hparse hmirror
  constructor
  · rw [verifyHeader_withSeal, h]
    rw [hauthor, author, author, hkey, hkey']
  · intro heq
    have hbytes := congrArg Header.proposerSeal heq
    rw [Header.withSeal_proposerSeal] at hbytes
    rw [hbytes, hsig] at hparse
    have hs : sig.s = N - sig.s := congrArg Secp256k1.Signature.s (Except.ok.inj hparse)
    have hodd : N % 2 = 1 := by decide
    omega

/-- Take two accepted headers that differ in the seal at most and whose seals use one nonce point, the
hash not colliding on the two recovered keys. They are the same header exactly if `S` is in the same half
of the group order in both. -/
theorem withSeal_eq_iff_isLowS (curve : Curve Point) (keccak : Bytes → Hash) (env : Env)
    (hauthor : env.author = author curve keccak) (c : BlockChain) (now : Nat) (header parent : Header)
    (bytes : Bytes) (sig sig' : Secp256k1.Signature) (hsig : parseSignature header.proposerSeal = .ok sig)
    (hsig' : parseSignature bytes = .ok sig') (hr : sig.r = sig'.r) (hwrap : sig.v &&& 2 = sig'.v &&& 2)
    (hkeys : ∀ key key', authorKey curve keccak header = some key →
      authorKey curve keccak (header.withSeal bytes) = some key' →
      keyAddress keccak key = keyAddress keccak key' → key = key') (h : c.verifyHeader env now header parent = .ok ())
    (h' : c.verifyHeader env now (header.withSeal bytes) parent = .ok ()) :
    header.withSeal bytes = header ↔ isLowS sig.s = isLowS sig'.s := by
  have hnamed := author_of_verifyHeader h
  have hnamed' := author_of_verifyHeader h'
  rw [hauthor, author] at hnamed hnamed'
  obtain ⟨key, hkey, haddress⟩ := Option.map_eq_some_iff.mp hnamed
  obtain ⟨key', hkey', haddress'⟩ := Option.map_eq_some_iff.mp hnamed'
  obtain rfl := hkeys key key' hkey hkey' (haddress.trans haddress'.symm)
  obtain ⟨first, hfirst, hrecover⟩ := authorKey_eq_some hkey
  obtain ⟨second, hsecond, hrecover'⟩ := authorKey_eq_some hkey'
  obtain rfl : sig = first := Except.ok.inj (hsig.symm.trans hfirst)
  obtain rfl : sig' = second := Except.ok.inj (hsig'.symm.trans hsecond)
  rw [← eq_iff_isLowS_of_recover hrecover hrecover' hr hwrap]
  constructor
  · intro heq
    have hbytes : bytes = header.proposerSeal := congrArg Header.proposerSeal heq
    rw [hbytes, hsig] at hsig'
    exact Except.ok.inj hsig'
  · rintro rfl
    rw [parseSignature_inj hsig' hsig]
    rfl

end Twins

/-! ### A block and its twin -/

namespace SealExample

open TxData.MalleabilityExample (plainKeccak)

def key : Key := (7, 0)

def proposer : Address := keyAddress plainKeccak key

def env : Env :=
  { Env.plain fun _ => 0 with
    author := author Curve.plain plainKeccak
    hash := Header.hash plainKeccak }

def chain : BlockChain := Genesis.plainChain env [proposer]

def unsealed : Header :=
  { (emptyChild chain.genesis proposer 1 []).header with parentHash := env.hash chain.genesis.header }

/-- The signature of the proposer's key with the nonce point 1. -/
def sig : Secp256k1.Signature := ⟨1, ((unsealed.sealingHash plainKeccak).toNat + key.1) % N, 1⟩

def header : Header := unsealed.withSeal sig.bytes

def twin : Header := header.withSeal sig.mirror.bytes

theorem header_accepted : chain.verifyHeader env 1000 header chain.genesis.header = .ok () := by
  decide +kernel

theorem header_signature : parseSignature header.proposerSeal = .ok sig := by
  decide +kernel

theorem twin_accepted : chain.verifyHeader env 1000 twin chain.genesis.header = .ok () :=
  (verifyHeader_mirror rfl header_signature header_accepted).1

end SealExample

open SealExample TxData.MalleabilityExample in
theorem withSeal_ne_of_mirror : ¬ header.withSeal sig.mirror.bytes = header := by
  have hkeys : authorKey Curve.plain plainKeccak (header.withSeal sig.mirror.bytes)
      = authorKey Curve.plain plainKeccak header := by
    decide +kernel
  refine (withSeal_eq_iff_isLowS Curve.plain plainKeccak SealExample.env rfl chain 1000 header
    chain.genesis.header sig.mirror.bytes sig sig.mirror header_signature (by decide +kernel) rfl
    (by decide) ?_ header_accepted twin_accepted).not.mpr (by decide +kernel)
  intro key key' hkey hkey' _
  rw [hkeys, hkey] at hkey'
  exact Option.some.inj hkey'

open SealExample TxData.MalleabilityExample in
/-- From an accepted block anyone derives a second accepted one: the same sealing hash, a seal in the
upper half of the group order, another block hash. -/
theorem accepted_seal_malleable :
    chain.verifyHeader SealExample.env 1000 header chain.genesis.header = .ok () ∧
      chain.verifyHeader SealExample.env 1000 twin chain.genesis.header = .ok () ∧
      twin.sealingHash plainKeccak = header.sealingHash plainKeccak ∧
      parseSignature twin.proposerSeal = .ok sig.mirror ∧ isLowS sig.mirror.s = false ∧
      SealExample.env.hash twin ≠ SealExample.env.hash header := by
  exact ⟨header_accepted, twin_accepted, Header.sealingHash_withSeal plainKeccak header, by decide +kernel,
    by decide +kernel, by decide +kernel⟩

end Chain

end PadiChain

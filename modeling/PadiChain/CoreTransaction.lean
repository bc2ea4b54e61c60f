import PadiChain.CoreBlock
import PadiChain.CryptoSecp256k1
import PadiChain.RlpEncode

/-! Signed transactions. The signature covers every field that execution reads and the signer's chain
id, but neither `V` nor the chain id a typed transaction carries. What the sender check admits for these
two decides whether a signed transaction has one wire encoding. -/

namespace PadiChain.Core

open Rlp Secp256k1

structure LegacyTx where
  nonce : Nat
  gasPrice : Nat
  gas : Nat
  toAddress : Option Address
  value : Nat
  data : Bytes
  v : Nat
  r : Nat
  s : Nat
  deriving DecidableEq, Repr

structure DynamicFeeTx where
  chainID : Nat
  nonce : Nat
  gasTipCap : Nat
  gasFeeCap : Nat
  gas : Nat
  toAddress : Option Address
  value : Nat
  data : Bytes
  accessList : AccessList
  v : Nat
  r : Nat
  s : Nat
  deriving DecidableEq, Repr

inductive TxData where
  | legacy (tx : LegacyTx)
  | dynamicFee (tx : DynamicFeeTx)
  deriving DecidableEq, Repr

inductive SenderError where
  | unsignedTx
  | highS
  | chainIDMismatch (got : Int) (want : Nat)
  | invalidV (v : Nat)
  | unencodable
  | recovery (e : SignatureError)
  deriving DecidableEq, Repr

def dynamicTxType : UInt8 := 0x02

def uintItem (v : Nat) : Item := .bytes (putUint v)

/-- `addrOrEmpty`: no recipient means a contract creation. -/
def addrOrEmpty : Option Address → Bytes
  | none => []
  | some a => addressBytes a

def AccessList.item (list : AccessList) : Item :=
  .list (list.map fun tuple =>
    .list [.bytes (addressBytes tuple.1), .list (tuple.2.map fun key => .bytes (hashBytes key))])

/-- The address of a public key: the last 20 bytes of its hash. -/
def keyAddress (keccak : Bytes → Hash) (key : Key) : Address := (keccak key.bytes).setWidth 160

namespace LegacyTx

def fields (tx : LegacyTx) : List Item :=
  [uintItem tx.nonce, uintItem tx.gasPrice, uintItem tx.gas, .bytes (addrOrEmpty tx.toAddress),
    uintItem tx.value, .bytes tx.data]

/-- The chain id that EIP-155 packs into `V`; the families 27 and 28 have none. -/
def chainID (tx : LegacyTx) : Option Int :=
  if tx.v % 2 ^ 64 = 27 ∨ tx.v % 2 ^ 64 = 28 then none else some (((tx.v : Int) - 35) / 2)

end LegacyTx

def DynamicFeeTx.fields (tx : DynamicFeeTx) : List Item :=
  [uintItem tx.nonce, uintItem tx.gasTipCap, uintItem tx.gasFeeCap, uintItem tx.gas,
    .bytes (addrOrEmpty tx.toAddress), uintItem tx.value, .bytes tx.data, tx.accessList.item]

namespace TxData

def r : TxData → Nat
  | .legacy tx => tx.r
  | .dynamicFee tx => tx.r

def s : TxData → Nat
  | .legacy tx => tx.s
  | .dynamicFee tx => tx.s

def v : TxData → Nat
  | .legacy tx => tx.v
  | .dynamicFee tx => tx.v

def chainID : TxData → Option Int
  | .legacy tx => tx.chainID
  | .dynamicFee tx => some tx.chainID

def marshalBinary : TxData → Option Bytes
  | .legacy tx => encode (.list (tx.fields ++ [uintItem tx.v, uintItem tx.r, uintItem tx.s]))
  | .dynamicFee tx =>
    (encode (.list (uintItem tx.chainID :: tx.fields ++ [uintItem tx.v, uintItem tx.r, uintItem tx.s]))).map
      (dynamicTxType :: ·)

/-- What `SigningHash` hashes, for a signer of the given chain. -/
def signingPayload (signer : Nat) : TxData → Option Bytes
  | .legacy tx => encode (.list (tx.fields ++ [uintItem signer, uintItem 0, uintItem 0]))
  | .dynamicFee tx => (encode (.list (uintItem signer :: tx.fields))).map (dynamicTxType :: ·)

def recoveryID (signer : Nat) : TxData → Except SenderError UInt8
  | .legacy tx =>
    if tx.v % 2 ^ 64 = 27 ∨ tx.v % 2 ^ 64 = 28 then .ok (UInt8.ofNat (tx.v % 2 ^ 64 - 27))
    else if tx.v < 2 * signer + 35 ∨ 2 * signer + 36 < tx.v then .error (.invalidV tx.v)
    else .ok (UInt8.ofNat (tx.v - (2 * signer + 35)))
  | .dynamicFee tx => if 1 < tx.v then .error (.invalidV tx.v) else .ok (UInt8.ofNat tx.v)

section Sender

variable {Point : Type} [AddCommGroup Point] (c : Curve Point) (keccak : Bytes → Hash) (signer : Nat)

def signingHash (tx : TxData) : Option Hash := (tx.signingPayload signer).map keccak

/-- The part of `Sender` that recovers the key. -/
def senderKey (tx : TxData) : Except SenderError Key :=
  if tx.r = 0 ∧ tx.s = 0 then .error .unsignedTx
  else if !isLowS tx.s then .error .highS
  else
    match tx.chainID.filter fun id : Int => id ≠ 0 ∧ id ≠ signer with
    | some id => .error (.chainIDMismatch id signer)
    | none =>
      match tx.recoveryID signer with
      | .error e => .error e
      | .ok id =>
        match tx.signingHash keccak signer with
        | none => .error .unencodable
        | some hash =>
          match recover c hash.toNat ⟨tx.r, tx.s, id⟩ with
          | .error e => .error (.recovery e)
          | .ok key => .ok key

def sender (tx : TxData) : Except SenderError Address :=
  match tx.senderKey c keccak signer with
  | .error e => .error e
  | .ok key => .ok (keyAddress keccak key)

end Sender

/-- How a transaction writes what its signature does not cover: a legacy one with the chain id in `V`
or in the family 27 and 28, with anything above the low 64 bits; a typed one with or without its
chain id. -/
def form : TxData → Option Nat
  | .legacy tx => if tx.v % 2 ^ 64 = 27 ∨ tx.v % 2 ^ 64 = 28 then some (tx.v / 2 ^ 64) else none
  | .dynamicFee tx => if tx.chainID = 0 then some 0 else none

end TxData

theorem uintItem_injective {v w : Nat} (h : uintItem v = uintItem w) : v = w :=
  putUint_injective (Item.bytes.inj h)

theorem addrOrEmpty_injective {a b : Option Address} (h : addrOrEmpty a = addrOrEmpty b) : a = b := by
  have hlength : ∀ a : Address, addressBytes a ≠ [] := by
    intro a hnil
    have := congrArg List.length hnil
    cases this
  cases a with
  | none =>
    cases b with
    | none => rfl
    | some b => exact absurd h.symm (hlength b)
  | some a =>
    cases b with
    | none => exact absurd h (hlength a)
    | some b => rw [addressBytes_injective h]

theorem AccessList.item_injective {list list' : AccessList}
    (h : AccessList.item list = AccessList.item list') : list = list' := by
  refine List.map_injective_iff.mpr ?_ (Item.list.inj h)
  rintro ⟨address, keys⟩ ⟨address', keys'⟩ htuple
  simp only [Item.list.injEq, List.cons.injEq, Item.bytes.injEq, and_true] at htuple
  obtain ⟨haddress, hkeys⟩ := htuple
  rw [addressBytes_injective haddress,
    List.map_injective_iff.mpr (fun key key' hkey => hashBytes_injective (Item.bytes.inj hkey)) hkeys]

theorem LegacyTx.fields_inj {tx tx' : LegacyTx} (h : tx.fields = tx'.fields) (hv : tx.v = tx'.v)
    (hr : tx.r = tx'.r) (hs : tx.s = tx'.s) : tx = tx' := by
  simp only [fields, List.cons.injEq, Item.bytes.injEq, and_true] at h
  obtain ⟨hnonce, hprice, hgas, hto, hvalue, hdata⟩ := h
  cases tx
  cases tx'
  simp only [LegacyTx.mk.injEq]
  exact ⟨uintItem_injective hnonce, uintItem_injective hprice, uintItem_injective hgas,
    addrOrEmpty_injective hto, uintItem_injective hvalue, hdata, hv, hr, hs⟩

theorem DynamicFeeTx.fields_inj {tx tx' : DynamicFeeTx} (h : tx.fields = tx'.fields)
    (hchain : tx.chainID = tx'.chainID) (hv : tx.v = tx'.v) (hr : tx.r = tx'.r) (hs : tx.s = tx'.s) : tx = tx' := by
  simp only [fields, List.cons.injEq, Item.bytes.injEq, and_true] at h
  obtain ⟨hnonce, htip, hcap, hgas, hto, hvalue, hdata, haccess⟩ := h
  cases tx
  cases tx'
  simp only [DynamicFeeTx.mk.injEq]
  exact ⟨hchain, uintItem_injective hnonce, uintItem_injective htip, uintItem_injective hcap,
    uintItem_injective hgas, addrOrEmpty_injective hto, uintItem_injective hvalue, hdata,
    AccessList.item_injective haccess, hv, hr, hs⟩

namespace TxData

variable {items items' : List Item} {b : Bytes} {signer : Nat} {tx tx' : TxData} {id : UInt8}

/-- A typed payload starts with its type, an untyped one with the header of a list. -/
theorem encode_list_ne_cons : encode (.list items) ≠ some (dynamicTxType :: b) := by
  intro h
  rw [encode] at h
  split at h
  · rename_i hmax
    rw [Item.layout, List.length_append] at hmax
    have hkind := kind_writeHeader (n := (layoutAll items).length) (.inr ⟨rfl, rfl⟩) (by omega) (layoutAll items)
    rw [Option.some.injEq, Item.layout] at h
    rw [h] at hkind
    cases hkind
  · cases h

theorem untyped_ne_typed (h : encode (.list items) = some b)
    (h' : (encode (.list items')).map (dynamicTxType :: ·) = some b) : False := by
  obtain ⟨payload, -, rfl⟩ := Option.map_eq_some_iff.mp h'
  exact encode_list_ne_cons h

theorem typed_inj (h : (encode (.list items)).map (dynamicTxType :: ·) = some b)
    (h' : (encode (.list items')).map (dynamicTxType :: ·) = some b) : items = items' := by
  obtain ⟨payload, hpayload, rfl⟩ := Option.map_eq_some_iff.mp h
  obtain ⟨payload', hpayload', htail⟩ := Option.map_eq_some_iff.mp h'
  obtain rfl := (List.cons.inj htail).2
  exact Item.list.inj (encode_inj hpayload hpayload')

def SameFields : TxData → TxData → Prop
  | .legacy tx, .legacy tx' => tx.fields = tx'.fields
  | .dynamicFee tx, .dynamicFee tx' => tx.fields = tx'.fields
  | _, _ => False

theorem sameFields_of_signingPayload (h : tx.signingPayload signer = some b) (h' : tx'.signingPayload signer = some b) :
    tx.SameFields tx' := by
  cases tx with
  | legacy tx =>
    cases tx' with
    | legacy tx' =>
      have hitems := Item.list.inj (encode_inj h h')
      exact (List.append_inj' hitems rfl).1
    | dynamicFee tx' =>
      exact (untyped_ne_typed h h').elim
  | dynamicFee tx =>
    cases tx' with
    | legacy tx' =>
      exact (untyped_ne_typed h' h).elim
    | dynamicFee tx' =>
      exact (List.cons.inj (typed_inj h h')).2

theorem marshalBinary_inj (h : tx.marshalBinary = some b) (h' : tx'.marshalBinary = some b) : tx = tx' := by
  have hsignature : ∀ {v r s v' r' s' : Nat},
      [uintItem v, uintItem r, uintItem s] = [uintItem v', uintItem r', uintItem s'] →
        v = v' ∧ r = r' ∧ s = s' := by
    intro v r s v' r' s' hlist
    simp only [List.cons.injEq, and_true] at hlist
    exact ⟨uintItem_injective hlist.1, uintItem_injective hlist.2.1, uintItem_injective hlist.2.2⟩
  cases tx with
  | legacy tx =>
    cases tx' with
    | legacy tx' =>
      obtain ⟨hfields, htail⟩ := List.append_inj' (Item.list.inj (encode_inj h h')) rfl
      obtain ⟨hv, hr, hs⟩ := hsignature htail
      rw [LegacyTx.fields_inj hfields hv hr hs]
    | dynamicFee tx' =>
      exact (untyped_ne_typed h h').elim
  | dynamicFee tx =>
    cases tx' with
    | legacy tx' =>
      exact (untyped_ne_typed h' h).elim
    | dynamicFee tx' =>
      obtain ⟨hcons, htail⟩ := List.append_inj' (typed_inj h h') rfl
      obtain ⟨hchain, hfields⟩ := List.cons.inj hcons
      obtain ⟨hv, hr, hs⟩ := hsignature htail
      rw [DynamicFeeTx.fields_inj hfields (uintItem_injective hchain) hv hr hs]

theorem recoveryID_lt (h : tx.recoveryID signer = .ok id) : id = 0 ∨ id = 1 := by
  have hbit : ∀ {n : Nat}, n ≤ 1 → UInt8.ofNat n = 0 ∨ UInt8.ofNat n = 1 := by
    intro n hn
    rcases Nat.le_one_iff_eq_zero_or_eq_one.mp hn with rfl | rfl
    · exact .inl rfl
    · exact .inr rfl
  cases tx with
  | legacy tx =>
    simp only [recoveryID] at h
    split at h
    · cases h
      exact hbit (by omega)
    split at h
    · cases h
    · cases h
      exact hbit (by omega)
  | dynamicFee tx =>
    simp only [recoveryID] at h
    split at h
    · cases h
    · cases h
      exact hbit (by omega)

/-- Among transactions of one type with one recovery id, the form decides `V`. -/
theorem legacy_v_eq_iff {tx tx' : LegacyTx}
    (h : (TxData.legacy tx).recoveryID signer = .ok id) (h' : (TxData.legacy tx').recoveryID signer = .ok id) :
    tx.v = tx'.v ↔ (TxData.legacy tx).form = (TxData.legacy tx').form := by
  have hbit : ∀ {n m : Nat}, n ≤ 1 → m ≤ 1 → UInt8.ofNat n = UInt8.ofNat m → n = m := by
    intro n m hn hm heq
    have := congrArg UInt8.toNat heq
    rw [UInt8.toNat_ofNat', UInt8.toNat_ofNat'] at this
    omega
  constructor
  · intro hv
    rw [form, form, hv]
  · intro hform
    simp only [recoveryID] at h h'
    simp only [form] at hform
    split at h
    · split at h'
      · rw [if_pos ‹_›, if_pos ‹_›, Option.some.injEq] at hform
        have hlow := hbit (by omega) (by omega) ((Except.ok.inj h).trans (Except.ok.inj h').symm)
        omega
      · rw [if_pos ‹_›, if_neg ‹_›] at hform
        cases hform
    · split at h'
      · rw [if_neg ‹_›, if_pos ‹_›] at hform
        cases hform
      · split at h
        · cases h
        split at h'
        · cases h'
        have hparity := hbit (by omega) (by omega) ((Except.ok.inj h).trans (Except.ok.inj h').symm)
        omega

theorem dynamicFee_v_eq {tx tx' : DynamicFeeTx} (h : (TxData.dynamicFee tx).recoveryID signer = .ok id)
    (h' : (TxData.dynamicFee tx').recoveryID signer = .ok id) : tx.v = tx'.v := by
  simp only [recoveryID] at h h'
  split at h
  · cases h
  split at h'
  · cases h'
  have heq := congrArg UInt8.toNat ((Except.ok.inj h).trans (Except.ok.inj h').symm)
  rw [UInt8.toNat_ofNat', UInt8.toNat_ofNat'] at heq
  omega

section Malleability

variable {Point : Type} [AddCommGroup Point] {c : Curve Point} {keccak : Bytes → Hash} {signer : Nat}

/-- What an accepted sender says about the signature. -/
structure Accepted (c : Curve Point) (keccak : Bytes → Hash) (signer : Nat) (tx : TxData) (key : Key)
    (id : UInt8) (hash : Hash) : Prop where
  chain : ∀ i : Int, tx.chainID = some i → i = 0 ∨ i = signer
  recoveryID : tx.recoveryID signer = .ok id
  signingHash : tx.signingHash keccak signer = some hash
  recovered : recover c hash.toNat ⟨tx.r, tx.s, id⟩ = .ok key

variable {tx tx' : TxData} {key : Key} {hash : Hash}

theorem accepted_of_senderKey (h : tx.senderKey c keccak signer = .ok key) :
    ∃ id hash, Accepted c keccak signer tx key id hash := by
  rw [senderKey] at h
  split at h
  · cases h
  split at h
  · cases h
  split at h
  · cases h
  rename_i hchain
  split at h
  · cases h
  rename_i id hid
  split at h
  · cases h
  rename_i hash hhash
  split at h
  · cases h
  · rename_i key' hkey
    cases h
    refine ⟨id, hash, fun i hi => ?_, hid, hhash, hkey⟩
    rw [hi, Option.filter_some] at hchain
    split at hchain
    · cases hchain
    · rename_i hguard
      by_contra hother
      exact hguard (decide_eq_true (not_or.mp hother))

theorem Accepted.id_eq {id' : UInt8}
    (h : Accepted c keccak signer tx key id hash) (h' : Accepted c keccak signer tx' key id' hash)
    (hr : tx.r = tx'.r) (hs : tx.s = tx'.s) : id = id' := by
  have hwrap : id &&& 2 = id' &&& 2 := by
    rcases recoveryID_lt h.recoveryID with rfl | rfl <;> rcases recoveryID_lt h'.recoveryID with rfl | rfl <;> rfl
  rcases eq_or_mirror_of_recover h.recovered h'.recovered hr hwrap with heq | hmirror
  · exact congrArg Signature.v heq
  · have hsum : tx.s = N - tx'.s := congrArg Signature.s hmirror
    have hodd : N % 2 = 1 := by decide
    omega

/-- With the signed fields, the signature and the recovery id given, the form is all that is left. -/
theorem Accepted.eq_iff_form_eq {key' : Key} {hash' : Hash}
    (h : Accepted c keccak signer tx key id hash) (h' : Accepted c keccak signer tx' key' id hash')
    (hfields : tx.SameFields tx') (hr : tx.r = tx'.r) (hs : tx.s = tx'.s) : tx = tx' ↔ tx.form = tx'.form := by
  refine ⟨fun heq => by rw [heq], fun hform => ?_⟩
  cases tx with
  | legacy tx =>
    cases tx' with
    | dynamicFee tx' => exact hfields.elim
    | legacy tx' =>
      have hv := (legacy_v_eq_iff h.recoveryID h'.recoveryID).mpr hform
      rw [LegacyTx.fields_inj hfields hv hr hs]
  | dynamicFee tx =>
    cases tx' with
    | legacy tx' => exact hfields.elim
    | dynamicFee tx' =>
      have hv := dynamicFee_v_eq h.recoveryID h'.recoveryID
      have hchain := h.chain _ rfl
      have hchain' := h'.chain _ rfl
      have hsame : tx.chainID = tx'.chainID := by
        simp only [form] at hform
        split at hform <;> split at hform
        · omega
        · cases hform
        · cases hform
        · omega
      rw [DynamicFeeTx.fields_inj hfields hsame hv hr hs]

/-- Take two accepted transactions with one signing hash, one `(R, S)` and one sender, where the hash
collides neither on the two signing payloads nor on the two recovered keys. Their wire encodings and
hashes are identical exactly if both write `V` and the chain id in the same form. -/
theorem marshalBinary_eq_iff_form_eq (c : Curve Point) (keccak : Bytes → Hash) (signer : Nat)
    (tx tx' : TxData) (a : Address) (h : tx.sender c keccak signer = .ok a) (h' : tx'.sender c keccak signer = .ok a)
    (hhash : tx.signingHash keccak signer = tx'.signingHash keccak signer) (hr : tx.r = tx'.r) (hs : tx.s = tx'.s)
    (hpayload : ∀ b b', tx.signingPayload signer = some b → tx'.signingPayload signer = some b' →
      keccak b = keccak b' → b = b')
    (hkeys : ∀ key key', tx.senderKey c keccak signer = .ok key → tx'.senderKey c keccak signer = .ok key' →
      keyAddress keccak key = keyAddress keccak key' → key = key')
    (b b' : Bytes) (hb : tx.marshalBinary = some b) (hb' : tx'.marshalBinary = some b') :
    (b = b' ∧ keccak b = keccak b') ↔ tx.form = tx'.form := by
  have hkey : ∃ key, tx.senderKey c keccak signer = .ok key ∧ tx'.senderKey c keccak signer = .ok key := by
    simp only [sender] at h h'
    split at h
    · cases h
    rename_i key hkey
    split at h'
    · cases h'
    rename_i key' hkey'
    have hsame := hkeys key key' hkey hkey' ((Except.ok.inj h).trans (Except.ok.inj h').symm)
    exact ⟨key, hkey, hsame ▸ hkey'⟩
  obtain ⟨key, hkey, hkey'⟩ := hkey
  obtain ⟨id, hash, hacc⟩ := accepted_of_senderKey hkey
  obtain ⟨id', hash', hacc'⟩ := accepted_of_senderKey hkey'
  obtain rfl : hash = hash' := by
    rw [hacc.signingHash, hacc'.signingHash] at hhash
    exact Option.some.inj hhash
  obtain rfl := hacc.id_eq hacc' hr hs
  obtain ⟨p, hp, hph⟩ := Option.map_eq_some_iff.mp hacc.signingHash
  obtain ⟨p', hp', hph'⟩ := Option.map_eq_some_iff.mp hacc'.signingHash
  obtain rfl := hpayload p p' hp hp' (hph.trans hph'.symm)
  have hform := hacc.eq_iff_form_eq hacc' (sameFields_of_signingPayload hp hp') hr hs
  have hencoding : b = b' ↔ tx = tx' := by
    constructor
    · rintro rfl
      exact marshalBinary_inj hb hb'
    · rintro rfl
      exact Option.some.inj (hb.symm.trans hb')
  rw [← hform, ← hencoding]
  constructor
  · exact And.left
  · rintro rfl
    exact ⟨rfl, rfl⟩

end Malleability

/-! ### One signed transfer in several encodings -/

namespace MalleabilityExample

def plainKeccak (b : Bytes) : Hash := b.foldl (fun h x => h * 257 + BitVec.ofNat 256 x.toNat) 0

def transfer (v : Nat) : TxData := .legacy ⟨0, 1, 21000, some 9, 5, [], v, 1, 5⟩

def typedTransfer (chainID : Nat) : TxData :=
  .dynamicFee ⟨chainID, 0, 1, 2, 21000, some 9, 5, [], [], 0, 1, 5⟩

def payer : Address := 0x1cfa6f74fef5a510f9f30b3453a3b8a98bd1f1aa

def wire (v : Nat) : Bytes := (transfer v).marshalBinary.getD []

/-- Two transactions that chain 7 accepts from one sender, with one signature on one hash, and that have
different encodings and hashes. -/
def Twins (tx tx' : TxData) : Prop :=
  (tx.sender Curve.plain plainKeccak 7).toOption.isSome ∧
    tx.sender Curve.plain plainKeccak 7 = tx'.sender Curve.plain plainKeccak 7 ∧
    tx.signingHash plainKeccak 7 = tx'.signingHash plainKeccak 7 ∧ tx.r = tx'.r ∧ tx.s = tx'.s ∧
    tx.marshalBinary ≠ tx'.marshalBinary ∧
    tx.marshalBinary.map plainKeccak ≠ tx'.marshalBinary.map plainKeccak

end MalleabilityExample

open MalleabilityExample in
/-- The form with the chain id in `V` and the form without it differ on the wire. -/
theorem marshalBinary_ne_of_form_ne : ¬ (wire 49 = wire 27 ∧ plainKeccak (wire 49) = plainKeccak (wire 27)) := by
  have hpayload : (transfer 49).signingPayload 7 = (transfer 27).signingPayload 7 := by
    decide
  have hkey : (transfer 49).senderKey Curve.plain plainKeccak 7
      = (transfer 27).senderKey Curve.plain plainKeccak 7 := by
    decide +kernel
  refine (marshalBinary_eq_iff_form_eq Curve.plain plainKeccak 7 (transfer 49) (transfer 27) payer
    (by decide +kernel) (by decide +kernel) (by decide +kernel) rfl rfl ?_ ?_ (wire 49) (wire 27)
    (by decide) (by decide)).not.mpr (by decide)
  · intro b b' hb hb' _
    rw [hpayload, hb'] at hb
    exact (Option.some.inj hb).symm
  · intro key key' h h' _
    rw [hkey, h'] at h
    exact (Except.ok.inj h).symm

open MalleabilityExample in
/-- Anyone can rewrite a signed transfer: drop the chain id from `V`, add a multiple of `2^64` to it, or
drop the chain id of a typed transfer. -/
theorem twins_transfer :
    Twins (transfer 49) (transfer 27) ∧ Twins (transfer 27) (transfer (27 + 2 ^ 64)) ∧
      Twins (typedTransfer 7) (typedTransfer 0) := by
  unfold Twins
  decide +kernel

end TxData

end PadiChain.Core

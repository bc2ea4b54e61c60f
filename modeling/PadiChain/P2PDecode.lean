import PadiChain.RlpSafety

/-! What a node decodes from its peers: blocks, transactions and the payloads of messages, each by the
fields of its Go type. A transaction and a payload are decoded without a crash whatever the input. A block
may hold a transaction whose list is overlong, and a split list an overlong element; only there does
decoding crash. -/

namespace PadiChain.P2P

open Rlp Outcome

/-- The fields of a struct without tags. -/
def plain : List (String × Target) → Fields
  | [] => .nil
  | (name, target) :: more => .cons name false false target (plain more)

def hash : Target := .fixed 32

def address : Target := .fixed 20

def uint64 : Target := .uint 64

def attestation : Target :=
  .struct (plain [("Number", uint64), ("BlockHash", hash), ("Index", uint64), ("Signature", .bytes)])

def equivocation : Target :=
  .struct (plain [("Validator", address), ("Number", uint64), ("Index", uint64), ("First", attestation),
    ("Second", attestation)])

def header : Target :=
  .struct (plain [("ParentHash", hash), ("Coinbase", address), ("StateRoot", hash), ("TxRoot", hash),
    ("ReceiptRoot", hash), ("Bloom", .fixed 256), ("Number", .bigInt), ("GasLimit", uint64), ("GasUsed", uint64),
    ("Time", uint64), ("Extra", .bytes), ("BaseFee", .bigInt), ("Round", uint64), ("RandaoReveal", .bytes),
    ("Justification", .bytes), ("ProposerSeal", .bytes)])

def recipient (more : Fields) : Fields := .cons "To" false true address more

def signature : List (String × Target) := [("V", .bigInt), ("R", .bigInt), ("S", .bigInt)]

def legacyTx : Target :=
  .struct (.cons "Nonce" false false uint64 (.cons "GasPrice" false false .bigInt (.cons "Gas" false false uint64
    (recipient (plain ([("Value", .bigInt), ("Data", .bytes)] ++ signature))))))

def accessTuple : Target := .struct (plain [("Address", address), ("StorageKeys", .slice hash)])

def dynamicFeeTx : Target :=
  .struct (.cons "ChainID" false false .bigInt (.cons "Nonce" false false uint64
    (.cons "GasTipCap" false false .bigInt (.cons "GasFeeCap" false false .bigInt (.cons "Gas" false false uint64
      (recipient (plain ([("Value", .bigInt), ("Data", .bytes), ("AccessList", .slice accessTuple)] ++
        signature))))))))

def transaction : Target := .transaction legacyTx dynamicFeeTx

def blockBody : Target := .struct (plain [("Header", header), ("Txs", .slice transaction)])

/-- The payloads that a peer sends. -/
inductive Message where
  | status
  | getBlocks
  | blocks
  | transactions
  | getBlockByHash
  | disconnect
  | attestations
  | evidence
  | addresses
  | snapshot
  | stateNodesRequest
  | stateNodes
  deriving DecidableEq

def Message.target : Message → Target
  | .status => .struct (plain [("Version", uint64), ("NetworkID", .bigInt), ("Genesis", hash), ("Head", hash),
      ("HeadNumber", uint64), ("ListenPort", uint64), ("NodeName", .string), ("Observed", .string)])
  | .getBlocks => .struct (plain [("From", uint64), ("Count", uint64)])
  | .blocks => .struct (plain [("Blocks", .slice .bytes)])
  | .transactions => .struct (plain [("Transactions", .slice .bytes)])
  | .getBlockByHash => .struct (plain [("Hash", hash)])
  | .disconnect => .struct (plain [("Reason", .string)])
  | .attestations => .struct (plain [("Attestations", .slice attestation)])
  | .evidence => .struct (plain [("Evidence", .slice equivocation)])
  | .addresses => .struct (plain [("Addresses", .slice .string)])
  | .snapshot => .struct (plain [("Block", .bytes), ("Certificate", .bytes)])
  | .stateNodesRequest => .struct (plain [("Hashes", .slice hash)])
  | .stateNodes => .struct (plain [("Nodes", .slice .bytes)])

def decodePayload (message : Message) (data : Slice) : Outcome StreamError Value := decode message.target data

def unmarshalTransaction (data : Slice) : Outcome StreamError Value :=
  unmarshalBinary (decodeValue legacyTx) (decodeValue dynamicFeeTx) data

def field (i : Nat) : Value → Value
  | .list values => (values[i]?).getD .zero
  | _ => .zero

def elements : Value → List Value
  | .list values => values
  | _ => []

def bodyRoot (deriveRoot : List Value → Bytes) (emptyRoot : Bytes) (txs : List Value) : Bytes :=
  if txs.isEmpty then emptyRoot else deriveRoot txs

/-- `Block.UnmarshalBinary`. The transaction root of the header is compared with the one that the
transactions have. -/
def unmarshalBlock (deriveRoot : List Value → Bytes) (emptyRoot : Bytes) (data : Slice) :
    Outcome StreamError Value := do
  let body ← decode blockBody data
  match field 0 body with
  | .zero => .error .noHeader
  | decoded =>
    let want := bodyRoot deriveRoot emptyRoot (elements (field 1 body))
    match field 3 decoded with
    | .bytes txRoot => if want = txRoot then pure body else .error .txRootMismatch
    | _ => .error .txRootMismatch

/-! ### Crashes -/

theorem returns_decode {target : Target} (h : target.rawFree = true) (data : Slice) : (decode target data).Returns :=
  returns_decodeWith (fun s => returns_decodeValue target s h) data

theorem rawFree_message (message : Message) : message.target.rawFree = true := by
  cases message <;> rfl

theorem returns_unmarshalTransaction (data : Slice) : (unmarshalTransaction data).Returns :=
  returns_unmarshalBinary (fun s => returns_decodeValue legacyTx s rfl)
    (fun s => returns_decodeValue dynamicFeeTx s rfl) data

theorem returns_decodeValue_transactions {data : Bytes} (hfits : FitsAt 2 data) {s : Stream}
    (hs : Starts data 1 s.rest) : (decodeValue (.slice transaction) s).Returns := by
  refine returns_bind.mpr ⟨s.returns_list, ?_⟩
  rintro ⟨inner, s'⟩ hlist
  refine returns_bind.mpr ⟨?_, fun vs _ => returns_pure⟩
  exact returns_decodeElems (P := Starts data 2)
    (fun s hs => returns_decodeValue_transaction rfl rfl (hfits _ hs)) (fun _ _ _ h => next_of_decodeValue h)
    (fun _ _ h hnext => .next h hnext) _ _ le_rfl (.inner hs ((Stream.list_readsAs _).read_eq hlist))

theorem returns_decodeValue_blockBody {s : Stream} (hfits : FitsAt 2 s.rest) : (decodeValue blockBody s).Returns := by
  refine returns_bind.mpr ⟨s.returns_list, ?_⟩
  rintro ⟨inner, s'⟩ hlist
  have hinner : Starts s.rest 1 inner.rest := .inner .top ((Stream.list_readsAs _).read_eq hlist)
  refine returns_bind.mpr ⟨?_, fun p _ => ?_⟩
  · refine returns_decodeFields_cons (returns_decodeValue header inner rfl) (fun h => by cases h) ?_
    intro v s₁ hheader
    have htxs := returns_decodeValue_transactions hfits (.next hinner (next_of_decodeValue hheader))
    exact returns_decodeFields_cons htxs (fun h => by cases h) fun _ _ _ => returns_pure
  · dsimp only
    split
    · exact returns_pure
    · exact returns_error

theorem returns_unmarshalBlock (deriveRoot : List Value → Bytes) (emptyRoot : Bytes) {data : Slice}
    (hfits : FitsAt 2 data.1) : (unmarshalBlock deriveRoot emptyRoot data).Returns := by
  have hdecode : (decode blockBody data).Returns := by
    exact returns_bind.mpr ⟨returns_decodeValue_blockBody hfits, fun p _ => returns_check⟩
  refine returns_bind.mpr ⟨hdecode, fun body _ => ?_⟩
  split
  · exact returns_error
  dsimp only
  split
  · split
    · exact returns_pure
    · exact returns_error
  · exact returns_error

/-- A list of nine bytes: a header that declares the largest size there is, and nothing behind it. -/
def overlongElement : Slice := ⟨[0xC9, 0xBF, 0x7F, 0xFF, 0xFF, 0xFF, 0xFF, 0xFF, 0xFF, 0xFF], by decide⟩

end PadiChain.P2P

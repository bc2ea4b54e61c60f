import PadiChain.Common
import PadiChain.LibFraming

/-! The file store: a log of checksummed records and an index of the live values in it. A batch is
written record by record and flushed once; nothing in the log says where a batch ends. Opening a file
replays the log up to the first record that did not land whole, so a crash inside a batch brings back
the part of the batch that did. -/

namespace PadiChain.Db

open Framing Function List

def opPut : UInt8 := 1

def opDelete : UInt8 := 2

/-- The length of a header: op, key length, value length, checksum. -/
def headerLen : Nat := 13

structure RecordLoc where
  offset : Nat
  length : Nat
  deriving DecidableEq, Repr

/-- A record of the log: the header as it is written, and the body after it. -/
structure Record where
  op : UInt8
  header : Bytes
  key : Bytes
  value : Bytes
  length_header : header.length = headerLen

def Record.bytes (r : Record) : Bytes := r.header ++ (r.key ++ r.value)

theorem Record.length_bytes (r : Record) : r.bytes.length = headerLen + (r.key.length + r.value.length) := by
  rw [bytes, length_append, length_append, r.length_header]

/-- The store as it is open: the log, flushed or still buffered, and the index. No entry of the index
points past the end of the log. -/
structure FileDB where
  file : Bytes
  index : Bytes → Option RecordLoc
  bounded : ∀ {key loc}, index key = some loc → loc.offset + loc.length ≤ file.length

namespace FileDB

def empty : FileDB where
  file := []
  index _ := none
  bounded h := nomatch h

/-- What one record does to the store, when it is written and when it is replayed. The index holds the
length of a value in 32 bits. -/
def enter (d : FileDB) (r : Record) : FileDB where
  file := d.file ++ r.bytes
  index := update d.index r.key
    (if r.op = opDelete then none
      else some ⟨d.file.length + headerLen + r.key.length, r.value.length % 2 ^ 32⟩)
  bounded := by
    intro key loc h
    have hmod := Nat.mod_le r.value.length (2 ^ 32)
    rw [List.length_append, r.length_bytes]
    rw [update_apply] at h
    split_ifs at h with hkey
    · cases h
      dsimp only
      omega
    · have hloc := d.bounded h
      omega

def get (d : FileDB) (key : Bytes) : Option Bytes :=
  match d.index key with
  | none => none
  | some loc => if loc.length = 0 then some [] else some ((d.file.drop loc.offset).take loc.length)

end FileDB

/-- One bit of the checksum with the reflected Castagnoli polynomial. -/
def crcShift (c : UInt32) : UInt32 := if c &&& 1 = 1 then (c >>> 1) ^^^ 0x82F63B78 else c >>> 1

/-- `crc32.Checksum` with the table of `crc32.Castagnoli`. -/
def castagnoli (body : Bytes) : UInt32 :=
  ~~~ body.foldl (fun c x => Nat.repeat crcShift 8 (c ^^^ x.toUInt32)) (~~~ 0)

-- the published check value of the polynomial, for the digits from 1 to 9
example : castagnoli [0x31, 0x32, 0x33, 0x34, 0x35, 0x36, 0x37, 0x38, 0x39] = 0xE3069283 := by
  decide +kernel

/-! What follows holds for every checksum. -/

variable (crc : Bytes → UInt32)

/-- The record `appendRecord` writes. Lengths are written in 32 bits. -/
def newRecord (op : UInt8) (key value : Bytes) : Record where
  op := op
  header := op :: (fillBytes 4 key.length ++ (fillBytes 4 value.length ++ fillBytes 4 (crc (key ++ value)).toNat))
  key := key
  value := value
  length_header := by
    simp only [List.length_cons, List.length_append, length_fillBytes]
    rfl

def FileDB.appendRecord (d : FileDB) (op : UInt8) (key value : Bytes) : FileDB :=
  d.enter (newRecord crc op key value)

structure FileOp where
  key : Bytes
  value : Bytes
  delete : Bool
  deriving DecidableEq, Repr

def FileOp.kind (op : FileOp) : UInt8 := if op.delete then opDelete else opPut

def FileDB.write (d : FileDB) (ops : List FileOp) : FileDB :=
  ops.foldl (fun d op => d.appendRecord crc op.kind op.key op.value) d

/-- The store after a sequence of batch writes to a new file. -/
def FileDB.writeAll (batches : List (List FileOp)) : FileDB := batches.foldl (FileDB.write crc) .empty

/-- One turn of the loop of `replay`: the record at the front of what is left of the log, or nothing
where the loop breaks off. -/
def readRecord (rest : Bytes) : Option (Record × Bytes) :=
  if hheader : (rest.take headerLen).length = headerLen then
    let header := rest.take headerLen
    let op := header.headD 0
    let keyLen := bytesToNat ((header.drop 1).take 4)
    let valLen := bytesToNat ((header.drop 5).take 4)
    let want := bytesToNat ((header.drop 9).take 4)
    let body := (rest.drop headerLen).take (keyLen + valLen)
    if op ≠ opPut ∧ op ≠ opDelete then
      -- corrupt record; everything after it is unusable
      none
    else if body.length ≠ keyLen + valLen then
      -- torn body
      none
    else if (crc body).toNat ≠ want then
      -- the record did not land intact
      none
    else
      some (⟨op, header, body.take keyLen, body.drop keyLen, hheader⟩, rest.drop (headerLen + (keyLen + valLen)))
  else
    -- clean end, or a torn header
    none

/-- The loop of `replay`. The log read so far is the file of the store that is being rebuilt. -/
def replay : Nat → FileDB → Bytes → FileDB
  | 0, d, _ => d
  | fuel + 1, d, rest =>
    match readRecord crc rest with
    | none => d
    | some (r, rest) => replay fuel (d.enter r) rest

/-- `OpenFile`: the index is rebuilt and the file truncated to the records that were read. -/
def openFile (file : Bytes) : FileDB := replay crc (file.length + 1) .empty file

/-! The purpose of the store: a map from keys to values. -/

def FileOp.apply (m : Bytes → Option Bytes) (op : FileOp) : Bytes → Option Bytes :=
  update m op.key (if op.delete then none else some op.value)

def applied (ops : List FileOp) : Bytes → Option Bytes := ops.foldl FileOp.apply fun _ => none

def FileOp.Fits (op : FileOp) : Prop := op.key.length < 2 ^ 32 ∧ op.value.length < 2 ^ 32

instance (op : FileOp) : Decidable op.Fits := inferInstanceAs (Decidable (_ ∧ _))

def FileOp.record (op : FileOp) : Record := newRecord crc op.kind op.key op.value

def FileOp.bytes (op : FileOp) : Bytes := (op.record crc).bytes

section Reading

theorem FileDB.get_enter (d : FileDB) {r : Record} (hfits : r.value.length < 2 ^ 32) :
    (d.enter r).get = update d.get r.key (if r.op = opDelete then none else some r.value) := by
  funext key
  by_cases hkey : key = r.key
  · subst hkey
    rw [update_self, get]
    simp only [enter, update_self]
    by_cases hop : r.op = opDelete
    · simp only [if_pos hop]
    · simp only [if_neg hop, Nat.mod_eq_of_lt hfits]
      split
      · next hzero => rw [eq_nil_of_length_eq_zero hzero]
      · -- the offset skips the old log, the header and the key
        have hskip : (d.file ++ r.bytes).drop (d.file.length + headerLen + r.key.length) = r.value := by
          rw [Record.bytes, ← append_assoc, ← append_assoc]
          apply drop_left'
          rw [length_append, length_append, r.length_header]
        rw [hskip, take_length]
  · rw [update_of_ne hkey, get, get]
    simp only [enter, update_of_ne hkey]
    cases hloc : d.index key with
    | none => rfl
    | some loc =>
      have hbound := d.bounded hloc
      have hread : ((d.file ++ r.bytes).drop loc.offset).take loc.length =
          (d.file.drop loc.offset).take loc.length := by
        rw [drop_append_of_le_length (by omega)]
        apply take_append_of_le_length
        rw [length_drop]
        omega
      simp only [hread]

theorem FileOp.record_op_eq_opDelete (op : FileOp) : (op.record crc).op = opDelete ↔ op.delete = true := by
  change op.kind = opDelete ↔ _
  rw [kind]
  cases op.delete <;> decide

theorem FileDB.get_enter_record (d : FileDB) {op : FileOp} (hfits : op.Fits) :
    (d.enter (op.record crc)).get = op.apply d.get := by
  rw [get_enter d hfits.2, FileOp.apply]
  simp only [FileOp.record_op_eq_opDelete]
  rfl

theorem FileDB.get_run {d : FileDB} {ops : List FileOp} (hfits : ∀ op ∈ ops, op.Fits) :
    (ops.foldl (fun d op => d.enter (op.record crc)) d).get = ops.foldl FileOp.apply d.get := by
  induction ops generalizing d with
  | nil => rfl
  | cons op ops ih =>
    rw [foldl_cons, foldl_cons, ← get_enter_record crc d (hfits op mem_cons_self)]
    exact ih fun t ht => hfits t (mem_cons_of_mem op ht)

theorem FileDB.file_run (d : FileDB) (ops : List FileOp) :
    (ops.foldl (fun d op => d.enter (op.record crc)) d).file = d.file ++ ops.flatMap (FileOp.bytes crc) := by
  induction ops generalizing d with
  | nil => rw [flatMap_nil, append_nil, foldl_nil]
  | cons op ops ih =>
    rw [foldl_cons, ih, flatMap_cons, ← append_assoc]
    rfl

theorem FileDB.writeAll_eq (batches : List (List FileOp)) :
    writeAll crc batches = batches.flatten.foldl (fun d op => d.enter (op.record crc)) .empty := by
  rw [foldl_flatten]
  rfl

theorem FileDB.writeAll_file (batches : List (List FileOp)) :
    (writeAll crc batches).file = batches.flatten.flatMap (FileOp.bytes crc) := by
  rw [writeAll_eq, file_run]
  rfl

end Reading

section Replaying

theorem FileOp.length_header (op : FileOp) : (op.record crc).header.length = headerLen :=
  (op.record crc).length_header

theorem bytesToNat_fillBytes_of_lt {v : Nat} (h : v < 2 ^ 32) : bytesToNat (fillBytes 4 v) = v :=
  (bytesToNat_fillBytes 4 v).trans (Nat.mod_eq_of_lt h)

theorem header_fields {a b c : Bytes} (op : UInt8) (ha : a.length = 4) (hb : b.length = 4) (hc : c.length = 4) :
    ((op :: (a ++ (b ++ c))).drop 1).take 4 = a ∧ ((op :: (a ++ (b ++ c))).drop 5).take 4 = b ∧
      ((op :: (a ++ (b ++ c))).drop 9).take 4 = c := by
  refine ⟨?_, ?_, ?_⟩
  · exact take_left' ha
  · have hskip : (op :: (a ++ (b ++ c))).drop 5 = b ++ c := drop_left' ha
    rw [hskip]
    exact take_left' hb
  · have hskip : (op :: (a ++ (b ++ c))).drop 9 = c := by
      rw [show op :: (a ++ (b ++ c)) = (op :: (a ++ b)) ++ c by simp]
      apply drop_left'
      rw [length_cons, length_append, ha, hb]
    rw [hskip]
    exact take_of_length_le hc.le

theorem readRecord_header {op : FileOp} (hfits : op.Fits) (tail : Bytes) :
    readRecord crc ((op.record crc).header ++ tail) =
      if (tail.take (op.key.length + op.value.length)).length ≠ op.key.length + op.value.length then none
      else if (crc (tail.take (op.key.length + op.value.length))).toNat ≠ (crc (op.key ++ op.value)).toNat then none
      else some (⟨op.kind, (op.record crc).header, (tail.take (op.key.length + op.value.length)).take op.key.length,
        (tail.take (op.key.length + op.value.length)).drop op.key.length, op.length_header crc⟩,
        tail.drop (op.key.length + op.value.length)) := by
  have htake : ((op.record crc).header ++ tail).take headerLen = (op.record crc).header :=
    take_left' (op.length_header crc)
  have hdrop : ((op.record crc).header ++ tail).drop headerLen = tail := drop_left' (op.length_header crc)
  obtain ⟨hkey, hvalue, hcrc⟩ := header_fields op.kind (length_fillBytes 4 op.key.length)
    (length_fillBytes 4 op.value.length) (length_fillBytes 4 (crc (op.key ++ op.value)).toNat)
  have hkind : ¬ (op.kind ≠ opPut ∧ op.kind ≠ opDelete) := by
    rw [FileOp.kind]
    cases op.delete <;> decide
  simp only [readRecord, htake, op.length_header crc, dite_true, ← drop_drop, hdrop]
  simp only [FileOp.record, newRecord, headD_cons, hkey, hvalue, hcrc, bytesToNat_fillBytes_of_lt hfits.1,
    bytesToNat_fillBytes_of_lt hfits.2, bytesToNat_fillBytes_of_lt (crc _).toNat_lt, if_neg hkind]

theorem fileCode : Code (fun r : Record => r.bytes) (readRecord crc) fun r => ∃ op : FileOp, op.Fits ∧ r = op.record crc where
  decode_encode := by
    rintro r ⟨op, hfits, rfl⟩ rest
    have hbody : (op.key ++ op.value ++ rest).take (op.key.length + op.value.length) = op.key ++ op.value :=
      take_left' (length_append)
    have hrest : (op.key ++ op.value ++ rest).drop (op.key.length + op.value.length) = rest :=
      drop_left' (length_append)
    have hbytes : (op.record crc).bytes ++ rest = (op.record crc).header ++ (op.key ++ op.value ++ rest) :=
      append_assoc _ _ _
    rw [hbytes, readRecord_header crc hfits, hbody, hrest, if_neg (not_not.mpr length_append),
      if_neg (not_not.mpr rfl)]
    simp only [take_left, drop_left]
    rfl
  decode_take := by
    rintro r ⟨op, hfits, rfl⟩ n hn
    rw [Record.length_bytes] at hn
    change n < headerLen + (op.key.length + op.value.length) at hn
    by_cases hheader : n < headerLen
    · have hshort : ((((op.record crc).bytes).take n).take headerLen).length ≠ headerLen := by
        rw [length_take, length_take]
        omega
      rw [readRecord, dif_neg hshort]
    · have hbytes : (op.record crc).bytes.take n =
          (op.record crc).header ++ (op.key ++ op.value).take (n - headerLen) := by
        rw [Record.bytes, take_append, op.length_header crc, take_of_length_le]
        · rfl
        · rw [op.length_header crc]
          omega
      have hshort : (((op.key ++ op.value).take (n - headerLen)).take (op.key.length + op.value.length)).length ≠
          op.key.length + op.value.length := by
        rw [length_take, length_take]
        omega
      rw [hbytes, readRecord_header crc hfits, if_pos hshort]
  encode_pos := by
    rintro r ⟨op, hfits, rfl⟩
    rw [Record.length_bytes]
    exact Nat.lt_of_lt_of_le (by decide) (Nat.le_add_right _ _)

theorem replay_eq_scan (fuel : Nat) (d : FileDB) (rest : Bytes) :
    replay crc fuel d rest = (scan (readRecord crc) fuel rest).foldl FileDB.enter d := by
  induction fuel generalizing d rest with
  | zero => rfl
  | succ fuel ih =>
    rw [replay, scan]
    cases readRecord crc rest with
    | none => rfl
    | some read => exact ih (d.enter read.1) read.2

theorem whole_map_record (n : Nat) (ops : List FileOp) :
    whole (fun r : Record => r.bytes) n (ops.map (FileOp.record crc)) =
      (whole (FileOp.bytes crc) n ops).map (FileOp.record crc) := by
  induction ops generalizing n with
  | nil => rfl
  | cons op ops ih =>
    rw [map_cons, whole, whole, ih]
    change (if (op.bytes crc).length ≤ n then _ else _) = _
    split <;> rfl

/-- A log that was cut off at any byte is replayed up to the last record before the cut. -/
theorem openFile_take {ops : List FileOp} (hfits : ∀ op ∈ ops, op.Fits) (n : Nat) :
    openFile crc ((ops.flatMap (FileOp.bytes crc)).take n) =
      (whole (FileOp.bytes crc) n ops).foldl (fun d op => d.enter (op.record crc)) .empty := by
  have hlog : ops.flatMap (FileOp.bytes crc) = (ops.map (FileOp.record crc)).flatMap fun r => r.bytes := by
    rw [flatMap_map]
    rfl
  have hvalid : ∀ r ∈ ops.map (FileOp.record crc), ∃ op : FileOp, op.Fits ∧ r = op.record crc := by
    intro r hr
    obtain ⟨op, hop, rfl⟩ := mem_map.mp hr
    exact ⟨op, hfits op hop, rfl⟩
  have hscan := scan_take (n := n) (fileCode crc) hvalid rfl (Nat.lt_succ_self _)
  rw [openFile, replay_eq_scan, hlog, hscan, whole_map_record, foldl_map]

end Replaying

section Crash

variable {crc} {batches : List (List FileOp)}

theorem get_openFile_take (hfits : ∀ batch ∈ batches, ∀ op ∈ batch, op.Fits) (n : Nat) :
    (openFile crc ((FileDB.writeAll crc batches).file.take n)).get =
      applied (whole (FileOp.bytes crc) n batches.flatten) := by
  have hall : ∀ op ∈ batches.flatten, op.Fits := by
    intro op hop
    obtain ⟨batch, hbatch, hmem⟩ := mem_flatten.mp hop
    exact hfits batch hbatch op hmem
  rw [FileDB.writeAll_file, openFile_take crc hall, FileDB.get_run crc fun op hop =>
    hall op (whole_subset n hop)]
  rfl

/-- A store that was cut off at byte `n` opens as the map of whole batches, as long as a batch that the
cut tears apart does no more, by its operations before the cut, than make the map of whole batches
again. -/
theorem openFile_whole_batches_iff (hfits : ∀ batch ∈ batches, ∀ op ∈ batch, op.Fits) (n : Nat) :
    (∃ k, (openFile crc ((FileDB.writeAll crc batches).file.take n)).get = applied (batches.take k).flatten) ↔
      ∀ before batch after, batches = before ++ batch :: after → Torn (FileOp.bytes crc) n before batch →
        ∃ k, applied (before.flatten ++ whole (FileOp.bytes crc) (n - size (FileOp.bytes crc) before.flatten) batch) =
          applied (batches.take k).flatten := by
  rw [get_openFile_take hfits]
  constructor
  · intro h before batch after hbatches htorn
    rwa [whole_of_torn hbatches htorn] at h
  · intro h
    by_cases htorn : ∃ before batch after, batches = before ++ batch :: after ∧
        Torn (FileOp.bytes crc) n before batch
    · obtain ⟨before, batch, after, hbatches, htorn⟩ := htorn
      rw [whole_of_torn hbatches htorn]
      exact h before batch after hbatches htorn
    · have huntorn : ∃ k, whole (FileOp.bytes crc) n batches.flatten = (batches.take k).flatten :=
        whole_of_untorn batches fun before batch after hbatches hcut => htorn ⟨before, batch, after, hbatches, hcut⟩
      obtain ⟨k, hk⟩ := huntorn
      exact ⟨k, congrArg applied hk⟩

namespace CrashExample

def put (key value : UInt8) : FileOp := ⟨[key], [value], false⟩

def pair : List FileOp := [put 1 10, put 2 20]

end CrashExample

open CrashExample in
/-- A cut inside the first record of the second batch leaves the first batch. -/
theorem openFile_first_batch :
    ∃ k, (openFile castagnoli ((FileDB.writeAll castagnoli [[put 3 30], pair]).file.take 20)).get =
      applied ([[put 3 30], pair].take k).flatten := by
  refine (openFile_whole_batches_iff ?_ 20).mpr ?_
  · decide
  · intro before batch after hbatches htorn
    match before, hbatches with
    | [], hbatches =>
      cases hbatches
      exact absurd htorn (by decide)
    | [_], hbatches =>
      cases hbatches
      exact absurd htorn (by decide)
    | _ :: _ :: before, hbatches =>
      have hlen := congrArg length hbatches
      simp at hlen

open CrashExample in
/-- A batch of two writes, cut off after the first of them, opens with the one and without the other. -/
theorem openFile_half_batch :
    ¬ ∃ k, (openFile castagnoli ((FileDB.writeAll castagnoli [pair]).file.take 15)).get =
      applied ([pair].take k).flatten := by
  rintro ⟨k, hk⟩
  have hget : (openFile castagnoli ((FileDB.writeAll castagnoli [pair]).file.take 15)).get [1] = some [10] ∧
      (openFile castagnoli ((FileDB.writeAll castagnoli [pair]).file.take 15)).get [2] = none := by
    decide +kernel
  rw [hk] at hget
  obtain ⟨hfirst, hsecond⟩ := hget
  cases k with
  | zero => exact absurd hfirst (by decide)
  | succ k =>
    rw [take_succ_cons, take_nil] at hsecond
    exact absurd hsecond (by decide)

variable (crc) in
/-- A store that was opened from a log cut off at any byte and then written to is opened again as it was left, with
what was replayed and all that was written since. -/
theorem openFile_after_crash (before after : List (List FileOp)) (hbefore : ∀ op ∈ before.flatten, op.Fits)
    (hafter : ∀ op ∈ after.flatten, op.Fits) (n : Nat) :
    let d := after.foldl (FileDB.write crc) (openFile crc ((FileDB.writeAll crc before).file.take n))
    openFile crc d.file = d ∧ d.get = applied (whole (FileOp.bytes crc) n before.flatten ++ after.flatten) := by
  intro d
  obtain ⟨ops, hops⟩ : ∃ ops, ops = whole (FileOp.bytes crc) n before.flatten ++ after.flatten := ⟨_, rfl⟩
  have hfits : ∀ op ∈ ops, op.Fits := by
    rw [hops]
    exact forall_mem_append.mpr ⟨fun op hop => hbefore op (whole_subset n hop), hafter⟩
  have hd : d = ops.foldl (fun d op => d.enter (op.record crc)) .empty := by
    rw [hops, foldl_append, ← openFile_take crc hbefore, ← FileDB.writeAll_file, foldl_flatten]
    rfl
  have hall : whole (FileOp.bytes crc) (size (FileOp.bytes crc) ops) (ops ++ []) = ops ++ [] :=
    whole_append_of_le le_rfl
  have hopen := openFile_take crc hfits (size (FileOp.bytes crc) ops)
  rw [append_nil] at hall
  rw [hall, size, take_length] at hopen
  rw [← hops, hd, FileDB.get_run crc hfits, FileDB.file_run]
  exact ⟨hopen, rfl⟩

open CrashExample in
theorem openFile_after_torn_pair :
    let d := FileDB.write castagnoli (openFile castagnoli ((FileDB.writeAll castagnoli [pair]).file.take 20)) [put 2 30]
    openFile castagnoli d.file = d ∧ d.get [1] = some [10] ∧ d.get [2] = some [30] :=
  ⟨(openFile_after_crash castagnoli [pair] [[put 2 30]] (by decide) (by decide) 20).1, by decide +kernel⟩

end Crash

end PadiChain.Db

import PadiChain.CoreAggregate
import PadiChain.EvmMachine

/-! Jump destinations as the source finds them, in a bit vector with eight positions to a byte that marks the immediate
data of every push. A destination is valid exactly if it holds a `JUMPDEST` that the decoding of the code, from left to
right, comes to. -/

namespace PadiChain.Evm

open Core (Bitfield)

/-- `bitvec.set`. An index out of range panics. -/
def Bitvec.set (bits : Bytes) (pos : Nat) : Option Bytes :=
  if pos / 8 < bits.length then some (Bitfield.set bits pos) else none

def Bitvec.isCode (bits : Bytes) (pos : Nat) : Option Bool :=
  if pos / 8 < bits.length then some (!Bitfield.has bits pos) else none

/-- The inner loop of `codeBitmap`. -/
def setImmediates (len : Nat) : Nat → Nat → Bytes → Option Bytes
  | 0, _, bits => some bits
  | size + 1, pos, bits =>
    if pos < len then (Bitvec.set bits pos).bind (setImmediates len size (pos + 1)) else some bits

/-- The outer loop. The length of the code is an `int`, so that no position wraps. -/
def setFrom (code : Bytes) (pc : Nat) (bits : Bytes) : Option Bytes :=
  if h : pc < code.length then
    let size := (OpCode.ofByte code[pc]).pushSize
    (setImmediates code.length size (pc + 1) bits).bind fun bits => setFrom code (pc + 1 + size) bits
  else some bits
termination_by code.length - pc

/-- `codeBitmap`. -/
def packedBitmap (code : Bytes) : Option Bytes := setFrom code 0 (List.replicate (code.length / 8 + 1 + 4) 0)

/-- `validJumpdest`, over the bit vector. -/
def Contract.packedJumpdest (c : Contract) (dest : Word) : Option Bool :=
  if !dest.isUint64 then some false
  else
    match c.code[dest.uint64]? with
    | none => some false
    | some b =>
      if OpCode.ofByte b ≠ .jumpdest then some false
      else (packedBitmap c.code).bind fun bits => Bitvec.isCode bits dest.uint64

/-- The decoding from one position comes to an instruction at another. -/
inductive Starts (code : Bytes) : Nat → Nat → Prop
  | here (pc : Nat) : Starts code pc pc
  | next {b : UInt8} {pc pos : Nat} (hb : code[pc]? = some b)
      (h : Starts code (pc + 1 + (OpCode.ofByte b).pushSize) pos) : Starts code pc pos

variable {code bits : Bytes} {b : UInt8} {len size pc pos : Nat}

theorem Starts.le (h : Starts code pc pos) : pc ≤ pos := by
  induction h with
  | here => exact Nat.le_refl _
  | next _ _ ih => omega

theorem starts_iff (hb : code[pc]? = some b) :
    Starts code pc pos ↔ pos = pc ∨ Starts code (pc + 1 + (OpCode.ofByte b).pushSize) pos := by
  constructor
  · intro h
    cases h with
    | here => exact .inl rfl
    | next hb' h =>
      cases hb.symm.trans hb'
      exact .inr h
  · rintro (rfl | h)
    · exact .here _
    · exact .next hb h

theorem setImmediates_spec (size pos : Nat) (hlen : len ≤ 8 * bits.length) :
    ∃ bits', setImmediates len size pos bits = some bits' ∧ bits'.length = bits.length ∧
      ∀ q, Bitfield.has bits' q = true ↔ Bitfield.has bits q = true ∨ pos ≤ q ∧ q < pos + size ∧ q < len := by
  induction size generalizing pos bits with
  | zero => exact ⟨bits, rfl, rfl, fun q => by grind⟩
  | succ size ih =>
    rw [setImmediates]
    by_cases hpos : pos < len
    · have hbyte : pos / 8 < bits.length := by omega
      have hset : len ≤ 8 * (Bitfield.set bits pos).length := by rwa [Bitfield.length_set]
      obtain ⟨bits', hbits', hlength, hhas⟩ := ih (pos + 1) hset
      rw [if_pos hpos, Bitvec.set, if_pos hbyte]
      refine ⟨bits', hbits', hlength.trans (Bitfield.length_set ..), fun q => ?_⟩
      rw [hhas, Bitfield.has_set hbyte, Bool.or_eq_true, decide_eq_true_iff]
      grind
    · exact ⟨bits, if_neg hpos, rfl, fun q => by grind⟩

theorem setFrom_spec (pc : Nat) (hlen : code.length ≤ 8 * bits.length) :
    ∃ bits', setFrom code pc bits = some bits' ∧ bits'.length = bits.length ∧
      ∀ q < code.length, Bitfield.has bits' q = true ↔ Bitfield.has bits q = true ∨ pc ≤ q ∧ ¬ Starts code pc q := by
  induction pc, bits using setFrom.induct code with
  | case1 pc bits h size ih =>
    obtain ⟨marked, hmarked, hlength, hhas⟩ := setImmediates_spec size (pc + 1) hlen
    obtain ⟨bits', hbits', hlength', hhas'⟩ := ih marked (by rwa [hlength])
    rw [setFrom, dif_pos h]
    refine ⟨bits', ?_, hlength'.trans hlength, fun q hq => ?_⟩
    · change (setImmediates code.length size (pc + 1) bits).bind _ = some bits'
      rw [hmarked]
      exact hbits'
    · have hle : Starts code (pc + 1 + size) q → pc + 1 + size ≤ q := Starts.le
      rw [hhas' q hq, hhas, starts_iff (List.getElem?_eq_getElem h)]
      grind
  | case2 pc bits h => exact ⟨bits, by rw [setFrom, dif_neg h], rfl, fun q hq => by grind⟩

/-- The bit vector is built, can be read at every position of the code, and has the immediate data marked. -/
theorem packedBitmap_spec (code : Bytes) :
    ∃ bits, packedBitmap code = some bits ∧
      ∀ pos < code.length, ∃ mark, Bitvec.isCode bits pos = some mark ∧ (mark = true ↔ Starts code 0 pos) := by
  have hlen : code.length ≤ 8 * (List.replicate (code.length / 8 + 1 + 4) (0 : UInt8)).length := by
    rw [List.length_replicate]
    omega
  obtain ⟨bits, hbits, hlength, hhas⟩ := setFrom_spec 0 hlen
  refine ⟨bits, hbits, fun pos hpos => ⟨!Bitfield.has bits pos, if_pos ?_, ?_⟩⟩
  · rw [hlength, List.length_replicate]
    omega
  · rw [Bool.not_eq_true', ← Bool.not_eq_true, hhas pos hpos, Bitfield.has_replicate]
    grind

theorem immediates_getD {n i start : Nat} {rest : Bytes} (hrest : code.drop pc = rest) (hi : i < rest.length)
    (hstart : start = pc + n) (hpos : pos = pc + i) :
    (immediates n rest).getD i false = false ↔ Starts code start pos := by
  induction rest generalizing pc n i start with
  | nil => cases hi
  | cons b rest ih =>
    have hb : code[pc]? = some b := by rw [← List.head?_drop, hrest, List.head?_cons]
    have hdrop : code.drop (pc + 1) = rest := by rw [← List.tail_drop, hrest, List.tail_cons]
    cases n with
    | succ n =>
      cases i with
      | zero =>
        refine iff_of_false nofun fun h => ?_
        have := h.le
        omega
      | succ i => exact ih hdrop (Nat.lt_of_succ_lt_succ hi) (by omega) (by omega)
    | zero =>
      subst hstart
      rw [starts_iff hb]
      cases i with
      | zero => exact iff_of_true rfl (.inl hpos)
      | succ i =>
        rw [or_iff_right (by omega)]
        exact ih hdrop (Nat.lt_of_succ_lt_succ hi) (by omega) (by omega)

/-- Building the bit vector and reading it at a position of the code stay in range. A destination is valid exactly if
it is the position of a `JUMPDEST` that is the start of an instruction. -/
theorem validJumpdest_iff_starts (c : Contract) (hcode : c.code.length < 2 ^ 63) (dest : Word) :
    (∃ bits, packedBitmap c.code = some bits ∧ ∀ pos < c.code.length, (Bitvec.isCode bits pos).isSome) ∧
      c.packedJumpdest dest = some (c.validJumpdest dest) ∧
      (c.validJumpdest dest = true ↔
        ∃ b, c.code[dest.toNat]? = some b ∧ OpCode.ofByte b = .jumpdest ∧ Starts c.code 0 dest.toNat) := by
  obtain ⟨bits, hbits, hmarks⟩ := packedBitmap_spec c.code
  refine ⟨⟨bits, hbits, fun pos hpos => ?_⟩, ?_⟩
  · obtain ⟨mark, hmark, -⟩ := hmarks pos hpos
    rw [hmark]
    rfl
  simp only [Contract.packedJumpdest, Contract.validJumpdest, hbits]
  by_cases hfits : dest.isUint64 = true
  · rw [Word.uint64_of_isUint64 hfits]
    cases hb : c.code[dest.toNat]? with
    | none => simp [hfits]
    | some b =>
      have hlt := (List.getElem?_eq_some_iff.mp hb).1
      obtain ⟨mark, hmark, hstarts⟩ := hmarks _ hlt
      have himmediate : (codeBitmap c.code).getD dest.toNat false = false ↔ Starts c.code 0 dest.toNat :=
        immediates_getD rfl hlt rfl (Nat.zero_add _).symm
      have hsame : mark = !(codeBitmap c.code).getD dest.toNat false := by
        rw [Bool.eq_iff_iff, hstarts, Bool.not_eq_true', himmediate]
      rw [← hsame]
      by_cases hop : OpCode.ofByte b = .jumpdest
      · simp [hfits, hop, hmark, hstarts]
      · simp [hfits, hop]
  · have hnone : c.code[dest.toNat]? = none := List.getElem?_eq_none (by simp [Word.isUint64] at hfits; omega)
    simp [hfits, hnone]

/-- In `PUSH1 JUMPDEST JUMPDEST` the second one is a destination, and the first one is not. -/
theorem validJumpdest_after_push :
    let c : Contract := ⟨0, 0, [0x60, 0x5b, 0x5b], [], 0⟩
    c.validJumpdest 2 = true ∧ Starts c.code 0 2 ∧ ¬ Starts c.code 0 1 := by
  have hvalid := fun dest =>
    (validJumpdest_iff_starts ⟨0, 0, [0x60, 0x5b, 0x5b], [], 0⟩ (by decide) dest).2.2
  refine ⟨by decide, ?_, ?_⟩
  · obtain ⟨b, -, -, h⟩ := (hvalid 2).mp (by decide)
    exact h
  · intro h
    have := (hvalid 1).mpr ⟨0x5b, rfl, rfl, h⟩
    revert this
    decide

end PadiChain.Evm

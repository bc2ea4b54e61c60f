import PadiChain.RlpSafety

/-! Splitting a list that was written gives the encodings of its elements back, and each of them is read as
what it is. -/

namespace PadiChain.Rlp

open Stream Item List

/-- `rlp.Decode` into a byte slice. -/
def decodeBytes (item : Slice) : Outcome StreamError Bytes := do
  let (b, s) ← (new item).bytes
  if 0 < s.remaining then .error .trailingData else pure b.1

variable {b : Bytes} {item : Slice}

theorem isByte_cases (h : isByte b = true) : ∃ x, x < 0x80 ∧ b = [x] := by
  match b, h with
  | [x], h => exact ⟨x, of_decide_eq_true h, rfl⟩

theorem kind_writeBytes (hmax : b.length ≤ maxInt) (hbyte : isByte b = false) (rest : Bytes) :
    kind (writeBytes b ++ rest) = .ok (.string, b.length) := by
  rw [writeBytes, hbyte, if_neg Bool.false_ne_true, append_assoc]
  exact kind_writeHeader (.inl ⟨rfl, rfl⟩) hmax _

theorem length_header (offset : UInt8) (k : Kind) (hk : k ≠ .byte) (n : Nat) :
    headerSize k n = (writeHeader n offset).length := by
  rw [length_writeHeader]
  cases k with
  | byte => exact absurd rfl hk
  | string | list => rfl

theorem readRaw_layout {x : Item} (hmax : x.layout.length ≤ maxInt) (rest : Bytes) :
    readRaw (x.layout ++ rest) = .ok (x.layout, rest) ∧ overlong (x.layout ++ rest) = false := by
  have hwritten : ∀ (k : Kind) (offset : UInt8) (content : Bytes), k ≠ .byte →
      kind (writeHeader content.length offset ++ content ++ rest) = .ok (k, content.length) →
      (writeHeader content.length offset ++ content).length ≤ maxInt →
      readRaw (writeHeader content.length offset ++ content ++ rest) =
          .ok (writeHeader content.length offset ++ content, rest) ∧
        overlong (writeHeader content.length offset ++ content ++ rest) = false := by
    intro k offset content hk hkind hle
    have htotal : headerSize k content.length + content.length = (writeHeader content.length offset ++ content).length := by
      rw [length_append, length_header offset k hk]
    constructor
    · simp only [readRaw, hkind, if_neg hk, htotal]
      rw [if_neg (by rw [length_append]; omega), take_left, drop_left]
    · simp only [overlong, hkind, htotal]
      exact decide_eq_false (not_lt.mpr hle)
  cases x with
  | bytes b =>
    rw [layout] at hmax ⊢
    have hb := (length_le_writeBytes b).trans hmax
    cases hbyte : isByte b with
    | true =>
      obtain ⟨x, hx, rfl⟩ := isByte_cases hbyte
      have hkind : kind (writeBytes [x] ++ rest) = .ok (.byte, 1) := by
        rw [writeBytes, hbyte, if_pos rfl]
        exact if_pos hx
      constructor
      · simp only [readRaw, hkind, if_true]
        rw [writeBytes, hbyte, if_pos rfl]
        rfl
      · simp only [overlong, hkind]
        decide
    | false =>
      have hkind := kind_writeBytes hb hbyte rest
      rw [writeBytes, hbyte, if_neg Bool.false_ne_true] at hkind hmax ⊢
      exact hwritten .string 0x80 b (by decide) hkind hmax
  | list items =>
    rw [layout] at hmax ⊢
    have hpayload : (layoutAll items).length ≤ maxInt := by
      rw [length_append] at hmax
      omega
    refine hwritten .list 0xC0 (layoutAll items) (by decide) ?_ hmax
    rw [append_assoc]
    exact kind_writeHeader (.inr ⟨rfl, rfl⟩) hpayload _

theorem splitElems_layoutAll : ∀ (items : List Item) (fuel : Nat) (s : Stream), s.rest = layoutAll items →
    s.remaining ≤ fuel → ∃ parts, splitElems fuel s = .ok parts ∧ parts.map Subtype.val = items.map layout
  | [], fuel, s, hrest, _ => by
    refine ⟨[], ?_, rfl⟩
    have hempty : s.empty = true := s.empty_iff.mpr (by rw [hrest]; rfl)
    cases fuel <;> exact if_pos hempty
  | x :: items, fuel, s, hrest, hfuel => by
    rw [layoutAll] at hrest
    have hle : x.layout.length ≤ maxInt := by
      have hlength := congrArg List.length hrest
      rw [s.length_rest, length_append] at hlength
      have := s.remaining_le
      omega
    obtain ⟨hread, hlong⟩ := readRaw_layout hle (layoutAll items)
    rw [← hrest] at hread hlong
    obtain ⟨c, s', hraw, hc, hs', hlt⟩ := (s.raw_readsAs hlong).of_ok hread
    have hempty : ¬ s.empty = true := not_empty_of_next (next_of_raw hraw)
    rw [← hs', s'.length_rest] at hlt
    match fuel, hfuel with
    | 0, hfuel => omega
    | fuel + 1, hfuel =>
      obtain ⟨parts, hparts, hmap⟩ := splitElems_layoutAll items fuel s' hs' (by omega)
      refine ⟨c :: parts, ?_, by rw [map_cons, map_cons, hc, hmap]⟩
      rw [splitElems, if_neg hempty, hraw, Outcome.ok_bind]
      simp only [hparts, Outcome.ok_bind]
      rfl

theorem split_layout {items : List Item} (hmax : (list items).layout.length ≤ maxInt) :
    ∃ parts, split ⟨(list items).layout, hmax⟩ = .ok parts ∧ parts.map Subtype.val = items.map layout := by
  have hpayload : (layoutAll items).length ≤ maxInt := by
    rw [layout, length_append] at hmax
    omega
  have hread : readList (list items).layout = .ok (layoutAll items, []) := by
    have h := readList_writeHeader (layoutAll items) hpayload []
    rwa [append_nil] at h
  obtain ⟨inner, s', hlist, hinner, -⟩ := (new ⟨(list items).layout, hmax⟩).list_readsAs.of_ok hread
  obtain ⟨parts, hparts, hmap⟩ := splitElems_layoutAll items inner.remaining inner hinner le_rfl
  refine ⟨parts, ?_, hmap⟩
  rw [split, hlist, Outcome.ok_bind]
  exact hparts

theorem decodeBytes_layout (h : item.1 = (bytes b).layout) : decodeBytes item = .ok b := by
  have hb : b.length ≤ maxInt := by
    have := item.2
    rw [h, layout] at this
    exact (length_le_writeBytes b).trans this
  have hread : readBytes (new item).rest = .ok (b, []) := by
    rw [rest_new, h, ← append_nil (bytes b).layout]
    exact readBytes_writeBytes hb []
  obtain ⟨c, s', hbytes, hc, hs', -⟩ := (new item).bytes_readsAs.of_ok hread
  have hremaining : ¬ 0 < s'.remaining := by
    rw [← s'.length_rest, hs']
    exact Nat.not_lt_zero 0
  rw [decodeBytes, hbytes, Outcome.ok_bind]
  simp only [if_neg hremaining, hc]
  rfl

theorem kind_list {items : List Item} (h : item.1 = (list items).layout) :
    ∃ size, (new item).kind = .ok (.list, size) := by
  have hle := item.2
  rw [h, layout, length_append] at hle
  refine ⟨(layoutAll items).length, (new item).kind_of_ok ?_⟩
  rw [rest_new, h, layout]
  exact kind_writeHeader (.inr ⟨rfl, rfl⟩) (by omega) _

theorem kind_bytes (h : item.1 = (bytes b).layout) : ∃ k size, (new item).kind = .ok (k, size) ∧ k ≠ .list := by
  have hle := item.2
  rw [h, layout] at hle
  have hb := (length_le_writeBytes b).trans hle
  cases hbyte : isByte b with
  | true =>
    obtain ⟨x, hx, rfl⟩ := isByte_cases hbyte
    refine ⟨.byte, 1, (new item).kind_of_ok ?_, by decide⟩
    rw [rest_new, h, layout, writeBytes, hbyte, if_pos rfl]
    exact if_pos hx
  | false =>
    refine ⟨.string, b.length, (new item).kind_of_ok ?_, by decide⟩
    rw [rest_new, h, ← append_nil (bytes b).layout]
    exact kind_writeBytes hb hbyte []

/-- A list of byte strings is split and decoded into the strings that were encoded. -/
theorem decode_encoded_strings {bs : List Bytes} (hmax : (list (bs.map bytes)).layout.length ≤ maxInt) :
    ∃ parts, split ⟨(list (bs.map bytes)).layout, hmax⟩ = .ok parts ∧
      parts.map decodeBytes = bs.map Outcome.ok := by
  obtain ⟨parts, hsplit, hparts⟩ := split_layout hmax
  rw [map_map, ← forall₂_eq_eq_eq, forall₂_map_left_iff, forall₂_map_right_iff] at hparts
  refine ⟨parts, hsplit, ?_⟩
  rw [← forall₂_eq_eq_eq, forall₂_map_left_iff, forall₂_map_right_iff]
  exact hparts.imp fun _ _ => decodeBytes_layout

theorem decode_encoded_pair : ∃ parts, split ⟨(list (map bytes [[1], [2, 3]])).layout, by decide⟩ = .ok parts ∧
    parts.map decodeBytes = [.ok [1], .ok [2, 3]] :=
  decode_encoded_strings (by decide)

end PadiChain.Rlp

import Grammarian.Parse.Finish
import Grammarian.Proofs.Text.Bytes

/-!
# Slices

A finished tree counts in bytes, a draft in characters left. `IsSlice` says what a span is to mean: two
positions between characters of the input, and the text from the one to the other. The offsets of two
places of the input, in order, are such a span.
-/

namespace Grammarian

/-- `text` is the part of `input` from byte `start` to byte `stop`, both of which lie between
characters. -/
structure IsSlice (input : String) (start stop : Nat) (text : String) : Prop where
  start_le : start ≤ stop
  stop_le : stop ≤ input.utf8ByteSize
  start_valid : String.Pos.Raw.IsValid input ⟨start⟩
  stop_valid : String.Pos.Raw.IsValid input ⟨stop⟩
  text_eq : text = String.Pos.Raw.extract input ⟨start⟩ ⟨stop⟩

/-- A text between two others is a slice. -/
theorem isSlice_append (front text back : List Char) :
    IsSlice (String.ofList (front ++ text ++ back)) (Text.byteCount front)
      (Text.byteCount (front ++ text)) (String.ofList text) where
  start_le := by
    rw [Text.byteCount_append]
    exact Nat.le_add_right _ _
  stop_le := by
    rw [← Text.byteCount_toList, String.toList_ofList, Text.byteCount_append _ back]
    exact Nat.le_add_right _ _
  start_valid := by
    refine String.Pos.Raw.isValid_ofList.2 ⟨front.length, ?_⟩
    rw [List.append_assoc, List.take_left, ← Text.byteCount_toList, String.toList_ofList]
  stop_valid := by
    refine String.Pos.Raw.isValid_ofList.2 ⟨(front ++ text).length, ?_⟩
    rw [List.take_left, ← Text.byteCount_toList, String.toList_ofList]
  text_eq := by
    rw [Text.byteCount_append, Text.byteCount_eq_utf8Len, Text.byteCount_eq_utf8Len,
      String.extract_of_valid]

namespace Draft

variable {input : List Char} {left after : Nat}

/-- Further to the right the offset is no smaller. -/
theorem offset_le_offset (input : List Char) (h : after ≤ left) :
    offset input left ≤ offset input after := by
  have hprefix : input.take (input.length - left) <+: input.take (input.length - after) :=
    List.take_prefix_take_left (Nat.sub_le_sub_left h _)
  obtain ⟨middle, hmiddle⟩ := hprefix
  unfold offset
  rw [← hmiddle, Text.byteCount_append]
  exact Nat.le_add_right _ _

theorem offset_length (input : List Char) : offset input input.length = 0 := by
  simp [offset]

theorem offset_zero (input : List Char) : offset input 0 = Text.byteCount input := by
  simp [offset]

theorem offset_of_append {front rest : List Char} (h : front ++ rest = input) :
    offset input rest.length = Text.byteCount front := by
  rw [offset, ← h]
  simp

theorem slice_of_append {front middle rest : List Char} (h : front ++ (middle ++ rest) = input) :
    slice input (middle ++ rest).length rest.length = String.ofList middle := by
  rw [slice, ← h]
  simp

theorem take_append_slice (h : after ≤ left) (hleft : left ≤ input.length) :
    input.take (input.length - left) ++ (input.drop (input.length - left)).take (left - after) =
      input.take (input.length - after) := by
  rw [← List.take_add]
  congr 1
  omega

/-- The text between two places is the slice between their offsets. -/
theorem isSlice_slice {input : String} (h : after ≤ left) (hleft : left ≤ input.toList.length) :
    IsSlice input (offset input.toList left) (offset input.toList after)
      (slice input.toList left after) := by
  have hslice := isSlice_append (input.toList.take (input.toList.length - left))
    ((input.toList.drop (input.toList.length - left)).take (left - after))
    (input.toList.drop (input.toList.length - after))
  rw [take_append_slice h hleft, List.take_append_drop, String.ofList_toList] at hslice
  exact hslice

theorem slice_of_suffix {rest : List Char} (h : rest <:+ input) :
    slice input rest.length 0 = String.ofList rest := by
  obtain ⟨front, rfl⟩ := h
  simp [slice]

/-- What is left over is the slice up to the end of the input. -/
theorem isSlice_rest {input : String} {rest : List Char} (h : rest <:+ input.toList) :
    IsSlice input (offset input.toList rest.length) (Text.byteCount input.toList)
      (String.ofList rest) := by
  rw [← slice_of_suffix h, ← offset_zero]
  exact isSlice_slice (Nat.zero_le _) h.length_le

/-- The input before a rest ends at the offset of the rest. -/
theorem exists_front_of_suffix {input : String} {rest : List Char} (h : rest <:+ input.toList) :
    ∃ front : String, front ++ String.ofList rest = input ∧
      offset input.toList rest.length = front.utf8ByteSize := by
  obtain ⟨front, hfront⟩ := h
  refine ⟨String.ofList front, ?_, ?_⟩
  · rw [← String.ofList_append, hfront, String.ofList_toList]
  · rw [← Text.byteCount_toList, String.toList_ofList, offset_of_append hfront]

/-- The whole front of the input with what is left over is the input. -/
theorem slice_append_rest {input : String} {rest : List Char} (h : rest <:+ input.toList) :
    slice input.toList input.toList.length rest.length ++ String.ofList rest = input := by
  obtain ⟨front, hfront⟩ := h
  rw [← String.ofList_toList (s := input), ← hfront]
  simp [slice]

end Draft

end Grammarian

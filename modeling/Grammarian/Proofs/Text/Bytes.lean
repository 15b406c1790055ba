import Mathlib.Data.String.Basic
import Grammarian.Text.Utf8

/-!
# Bytes of strings

Counting bytes over the characters of a string gives its size, so offsets are positions of strings in
the sense of the core library.
-/

namespace Grammarian.Text

theorem byteCount_eq_utf8Len (cs : List Char) : byteCount cs = String.utf8Len cs := by
  induction cs with
  | nil => rfl
  | cons c cs ih => rw [byteCount_cons, String.utf8Len_cons, ih, Nat.add_comm]

theorem byteCount_toList (s : String) : byteCount s.toList = s.utf8ByteSize := by
  rw [byteCount_eq_utf8Len, String.utf8Len_toList]

theorem length_le_byteCount (cs : List Char) : cs.length ≤ byteCount cs := by
  induction cs with
  | nil => exact Nat.le_refl 0
  | cons c cs ih =>
    rw [List.length_cons, byteCount_cons, Nat.add_comm]
    exact Nat.add_le_add c.utf8Size_pos ih

end Grammarian.Text

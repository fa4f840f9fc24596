import Mathlib.Data.Nat.Notation

/-!
# Overlay — a file as the list of its bytes

Reading and writing at a position. A write over a part of the same length leaves the parts
before and behind it, and a write at the end appends.
-/

namespace UnixSys

variable {α : Type}

/-- The `n` bytes from position `pos` on, as far as there are any. -/
def readAt (bytes : List α) (pos n : Nat) : List α := (bytes.drop pos).take n

/-- `bs` written at position `pos`. A gap between the end and `pos` is filled. -/
def writeAt (fill : α) (bytes : List α) (pos : Nat) (bs : List α) : List α :=
  bytes.take pos ++ List.replicate (pos - bytes.length) fill ++ bs ++ bytes.drop (pos + bs.length)

theorem readAt_append (a b c : List α) : readAt (a ++ b ++ c) a.length b.length = b := by
  rw [readAt, List.append_assoc, List.drop_left, List.take_left]

/-- What is read where a part begins. -/
theorem readAt_of_drop {bytes b c : List α} {pos : Nat} (h : bytes.drop pos = b ++ c) :
    readAt bytes pos b.length = b := by
  rw [readAt, h, List.take_left]

/-- What is behind a part. -/
theorem drop_add_of_drop {bytes b c : List α} {pos : Nat} (h : bytes.drop pos = b ++ c) :
    bytes.drop (pos + b.length) = c := by
  rw [← List.drop_drop, h, List.drop_left]

theorem readAt_of_ge {bytes : List α} {pos : Nat} (h : bytes.length ≤ pos) (n : Nat) :
    readAt bytes pos n = [] := by
  rw [readAt, List.drop_of_length_le h, List.take_nil]

theorem writeAt_append (fill : α) {a b b' : List α} (h : b'.length = b.length) (c : List α) :
    writeAt fill (a ++ b ++ c) a.length b' = a ++ b' ++ c := by
  have hgap : a.length - (a ++ b ++ c).length = 0 := by
    simp only [List.length_append]
    omega
  have hrest : (a ++ b ++ c).drop (a.length + b'.length) = c := by
    rw [h, ← List.length_append, List.drop_left]
  rw [writeAt, hgap, hrest, List.append_assoc a b c, List.take_left]
  simp

theorem writeAt_length (fill : α) (bytes bs : List α) :
    writeAt fill bytes bytes.length bs = bytes ++ bs := by
  rw [writeAt, Nat.sub_self, List.take_length, List.drop_of_length_le (by omega)]
  simp

end UnixSys

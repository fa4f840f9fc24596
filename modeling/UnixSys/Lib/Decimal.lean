import Mathlib.Algebra.GroupWithZero.Nat
import Mathlib.Data.Int.Notation

/-!
# Decimal — numbers as text

`decimal` and `padded` write a natural number as C's `%d` and `%*d` do, and `number` reads
one as `atol` does: blanks, a sign, and the digits up to the first other character. A
number that has been written, with blanks before it and anything but a digit behind it, is
read back.
-/

namespace UnixSys

/-- The decimal digits of a number. -/
def decimal (n : Nat) : List Char := Nat.toDigits 10 n

/-- The digits, with blanks before them up to the width. -/
def padded (width n : Nat) : List Char :=
  List.replicate (width - (decimal n).length) ' ' ++ decimal n

/-- A number with its sign. -/
def signed (n : Int) : List Char :=
  if n < 0 then '-' :: decimal n.natAbs else decimal n.natAbs

/-- `isspace` in the C locale. -/
def isSpace (c : Char) : Bool :=
  c = ' ' || c = '\t' || c = '\n' || c = '\x0b' || c = '\x0c' || c = '\r'

/-- The value of the digits that a text starts with. -/
def leading (s : List Char) : Nat := Nat.ofDigitChars 10 (s.takeWhile Char.isDigit) 0

/-- The number that a text starts with, after blanks. -/
def number (s : List Char) : Int :=
  match s.dropWhile isSpace with
  | '-' :: t => -(leading t : Int)
  | '+' :: t => leading t
  | t => leading t

/-- The greatest `long`. -/
def longMax : Int := 9223372036854775807

/-- `atol`, which stays at the bounds of a `long`. -/
def atol (s : List Char) : Int := max (-longMax - 1) (min longMax (number s))

/-- `atoi`: the `int` with the low bits of the `long`. -/
def atoi (s : List Char) : Int := (atol s).bmod 4294967296

theorem isDigit_of_mem_decimal {n : Nat} {c : Char} (h : c ∈ decimal n) : c.isDigit = true :=
  Nat.isDigit_of_mem_toDigits (by decide) (by decide) h

theorem decimal_ne_nil (n : Nat) : decimal n ≠ [] := Nat.toDigits_ne_nil

theorem length_decimal_le_iff {n k : Nat} (hk : 0 < k) : (decimal n).length ≤ k ↔ n < 10 ^ k :=
  Nat.length_toDigits_le_iff (by decide) hk

theorem length_padded {width n : Nat} (hw : 0 < width) (h : n < 10 ^ width) :
    (padded width n).length = width := by
  have hle := (length_decimal_le_iff hw).mpr h
  rw [padded, List.length_append, List.length_replicate]
  omega

theorem signed_natCast (n : Nat) : signed n = decimal n := by
  rw [signed, if_neg (by omega), Int.natAbs_natCast]

/-- A character that is not a digit is none of a number's. -/
theorem not_mem_decimal {n : Nat} {c : Char} (h : c.isDigit = false) : c ∉ decimal n := by
  intro hc
  rw [isDigit_of_mem_decimal hc] at h
  cases h

/-- The digits of a number, up to the first other character. -/
theorem leading_decimal {n : Nat} {rest : List Char}
    (hrest : ∀ c ∈ rest.head?, c.isDigit = false) : leading (decimal n ++ rest) = n := by
  have htake : (decimal n ++ rest).takeWhile Char.isDigit = decimal n := by
    rw [List.takeWhile_append_of_pos fun c hc => isDigit_of_mem_decimal hc]
    cases rest with
    | nil => simp
    | cons c rest => simp [hrest c rfl]
  rw [leading, htake]
  exact Nat.ofDigitChars_ten_toDigits

/-- What `number` does at a digit. -/
theorem number_of_digit {c : Char} {s : List Char} (hc : c.isDigit = true) :
    number (c :: s) = leading (c :: s) := by
  have hne : ∀ d : Char, d.isDigit = false → c ≠ d := by
    rintro d hd rfl
    rw [hc] at hd
    cases hd
  have hspace : isSpace c = false := by
    simp [isSpace, hne ' ' rfl, hne '\t' rfl, hne '\n' rfl, hne '\x0b' rfl, hne '\x0c' rfl,
      hne '\r' rfl]
  rw [number, List.dropWhile_cons_of_neg (by simp [hspace])]
  split
  · rename_i heq
    exact absurd (List.head_eq_of_cons_eq heq) (hne '-' rfl)
  · rename_i heq
    exact absurd (List.head_eq_of_cons_eq heq) (hne '+' rfl)
  · rfl

theorem number_decimal {n : Nat} {rest : List Char}
    (hrest : ∀ c ∈ rest.head?, c.isDigit = false) : number (decimal n ++ rest) = n := by
  obtain ⟨c, s, hs⟩ := List.exists_cons_of_ne_nil (decimal_ne_nil n)
  have hc : c.isDigit = true := isDigit_of_mem_decimal (hs ▸ List.mem_cons_self)
  rw [hs, List.cons_append, number_of_digit hc, ← List.cons_append, ← hs, leading_decimal hrest]

/-- A padded number is read back. -/
theorem number_padded {width n : Nat} {rest : List Char}
    (hrest : ∀ c ∈ rest.head?, c.isDigit = false) : number (padded width n ++ rest) = n := by
  have hblanks : ∀ k, number (List.replicate k ' ' ++ (decimal n ++ rest)) = n := by
    intro k
    have hdrop : (List.replicate k ' ' ++ (decimal n ++ rest)).dropWhile isSpace =
        (decimal n ++ rest).dropWhile isSpace :=
      List.dropWhile_append_of_pos fun c hc => by rw [List.eq_of_mem_replicate hc]; rfl
    rw [number, hdrop]
    exact number_decimal hrest
  rw [padded, List.append_assoc]
  exact hblanks _

end UnixSys

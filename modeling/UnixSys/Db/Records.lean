import UnixSys.Db.Files
import Mathlib.Data.List.TakeWhile

/-!
# Records — what is read of a record that was written

`splitRecord` takes an index record apart at its separators. It gives back the key, the
offset and the length that were written, unless there is a separator in the key: then it
aborts.
-/

namespace UnixSys.Db

theorem cstr_eq {s : Str} (h : NUL ∉ s) : cstr s = s :=
  List.takeWhile_eq_self_iff.mpr fun c hc => by
    have hne : c ≠ NUL := fun heq => h (heq ▸ hc)
    simpa using hne

/-- The first separator is the one behind a part without any. -/
theorem strchr_append {s : Str} {c : Byte} (h : c ∉ s) (t : Str) :
    strchr (s ++ c :: t) c = some (s, t) := by
  have hs : ∀ d ∈ s, decide (d ≠ c) = true := by
    intro d hd
    have hne : d ≠ c := fun heq => h (heq ▸ hd)
    simpa using hne
  rw [strchr, if_pos (by simp), List.takeWhile_append_of_pos hs, List.dropWhile_append_of_pos hs]
  simp

theorem atol_natCast {s : Str} {n : Nat} (h : number s = n) (hn : (n : Int) ≤ longMax) :
    atol s = n := by
  simp only [atol, h, longMax] at hn ⊢
  omega

theorem atol_decimal {n : Nat} (hn : (n : Int) ≤ longMax) : atol (decimal n) = n := by
  refine atol_natCast ?_ hn
  have h : number (decimal n ++ []) = n := number_decimal (by simp)
  rwa [List.append_nil] at h

theorem atol_padded {width n : Nat} (hn : (n : Int) ≤ longMax) : atol (padded width n) = n := by
  refine atol_natCast ?_ hn
  have h : number (padded width n ++ []) = n := number_padded (by simp)
  rwa [List.append_nil] at h

theorem sizeT_natCast {n : Nat} (h : n ≤ idxlenMax) : sizeT n = n := by
  simp only [sizeT, idxlenMax] at h ⊢
  omega

section
variable {key : Str} {off n : Nat}

theorem nul_notMem_fields (off n : Nat) : NUL ∉ decimal off ++ sep :: decimal n := by
  have hoff : NUL ∉ decimal off := not_mem_decimal rfl
  have hn : NUL ∉ decimal n := not_mem_decimal rfl
  have hsep : NUL ≠ sep := by decide
  simp only [List.mem_append, List.mem_cons, not_or]
  exact ⟨hoff, hsep, hn⟩

/-- An index record, without its newline. -/
theorem recordText_take (key : Str) (off n : Nat) :
    (recordText key off n).take ((recordText key off n).length - 1) =
      key ++ sep :: (decimal off ++ sep :: decimal n) := by
  have hcut : recordText key off n =
      (key ++ sep :: (decimal off ++ sep :: decimal n)) ++ [newline] := by
    simp [recordText, signed_natCast]
  rw [hcut, List.length_append]
  exact List.take_left

/-- A record whose key has no separator is taken apart as it was put together. -/
theorem splitRecord_eq (hsep : sep ∉ key) (hnul : NUL ∉ key) (hoff : (off : Int) ≤ longMax)
    (hpos : 0 < n) (hn : n ≤ datlenMax) :
    splitRecord (key ++ sep :: (decimal off ++ sep :: decimal n)) = .ret (key, (off : Int), n) := by
  have htext : NUL ∉ key ++ sep :: (decimal off ++ sep :: decimal n) := by
    have := nul_notMem_fields off n
    simp only [List.mem_append, List.mem_cons, not_or] at this ⊢
    exact ⟨hnul, by decide, this⟩
  have hlong : (n : Int) ≤ longMax := by
    simp only [datlenMax, longMax] at hn ⊢
    omega
  have hdigits : ∀ m, sep ∉ decimal m := fun m => not_mem_decimal rfl
  rw [splitRecord, cstr_eq htext, strchr_append hsep]
  simp only [strchr_append (hdigits off), errDumpIf, if_neg (hdigits n), atol_decimal hoff,
    atol_decimal hlong, sizeT_natCast hn]
  rw [CallTree.ret_bind, if_neg (by omega), CallTree.ret_bind, if_neg (by omega)]
  rfl

/-- A separator in the key is one too many. -/
theorem splitRecord_sep (hsep : sep ∈ key) (hnul : NUL ∉ key) :
    splitRecord (key ++ sep :: (decimal off ++ sep :: decimal n)) =
      .stop (.dump "_db_readidx: too many separators") := by
  have htext : NUL ∉ key ++ sep :: (decimal off ++ sep :: decimal n) := by
    have := nul_notMem_fields off n
    simp only [List.mem_append, List.mem_cons, not_or] at this ⊢
    exact ⟨hnul, by decide, this⟩
  obtain ⟨k₁, k₂, rfl, hk₁⟩ := List.eq_append_cons_of_mem hsep
  rw [splitRecord, cstr_eq htext, List.append_assoc, List.cons_append, strchr_append hk₁]
  -- what is left of the key ends at the next separator, which is in it or behind it
  by_cases hk₂ : sep ∈ k₂
  · obtain ⟨k₃, k₄, rfl, hk₃⟩ := List.eq_append_cons_of_mem hk₂
    simp only [List.append_assoc, List.cons_append, strchr_append hk₃]
    rw [errDumpIf, if_pos (by simp)]
    rfl
  · simp only [strchr_append hk₂]
    rw [errDumpIf, if_pos (by simp)]
    rfl

end

end UnixSys.Db

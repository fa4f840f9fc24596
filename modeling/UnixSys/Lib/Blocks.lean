import UnixSys.Posix.Descriptors
import Mathlib.Data.List.TakeWhile

/-!
# Blocks — C memory as a list of byte blocks

A memory is a list of blocks (arrays and `malloc`ed objects) of bytes; a
pointer is a block with an offset. Accesses outside a block, and reads of
indeterminate pointers, have no result: they are undefined behaviour.
-/

namespace UnixSys

/-- The value of a `char *` object; `undef` before its first assignment. -/
inductive Ptr where
  | undef
  | null
  | at (blk off : Nat)
  deriving DecidableEq

abbrev Mem := List Str

/-- An array of `char *`, from some index to its end. -/
abbrev PtrArr := List Ptr

/-! ## C strings -/

/-- The C string at the start of `s`: the bytes before the first NUL. -/
def cstrOf (s : Str) : Option Str :=
  if NUL ∈ s then some (s.takeWhile (· ≠ NUL)) else none

theorem takeWhile_append_stop {α : Type} {p : α → Bool} {t : List α}
    (h : ∀ c ∈ t, p c = true) {d : α} (hd : p d = false) (r : List α) :
    (t ++ d :: r).takeWhile p = t := by
  induction t with
  | nil => simp [hd]
  | cons c t ih =>
      rw [List.cons_append, List.takeWhile_cons_of_pos (h c (by simp)),
        ih fun x hx => h x (by simp [hx])]

@[simp] theorem cstrOf_append {t : Str} (h : NUL ∉ t) (r : Str) :
    cstrOf (t ++ NUL :: r) = some t := by
  have hall : ∀ c ∈ t, decide (c ≠ NUL) = true := by
    intro c hc
    rw [decide_eq_true_iff]
    rintro rfl
    exact h hc
  simp only [cstrOf, List.mem_append, List.mem_cons, true_or, or_true, if_true]
  rw [takeWhile_append_stop hall (by simp)]

theorem not_mem_of_cstrOf {s t : Str} (h : cstrOf s = some t) : NUL ∉ t := by
  simp only [cstrOf] at h
  split at h
  · cases h
    intro hm
    simpa using List.mem_takeWhile_imp hm
  · cases h

namespace Mem

variable (m : Mem)

/-- The C string at offset `o` of block `b`. -/
def cstr (b o : Nat) : Option Str := do
  let s ← m[b]?
  cstrOf (s.drop o)

/-- The C string a pointer points to. -/
def str : Ptr → Option Str
  | .at b o => cstr m b o
  | _ => none

/-- Store the C string `t` at the start of block `b`. -/
def writeStr (b : Nat) (t : Str) : Option Mem := do
  let s ← m[b]?
  if t.length + 1 ≤ s.length then
    some (m.set b (t ++ NUL :: s.drop (t.length + 1)))
  else none

/-- `strdup`: a new block that holds `t`. -/
def strdup (t : Str) : Mem × Ptr := (m ++ [t ++ [NUL]], .at m.length 0)

/-- Run a function that only touches the contents of block `b`. -/
def onBlock {β : Type} (b : Nat) (f : Str → Option (Str × β)) : Option (Mem × β) := do
  let s ← m[b]?
  let (s, x) ← f s
  some (m.set b s, x)

/-- The argument list a NULL-terminated array of pointers denotes. -/
def args : PtrArr → Option (List Str)
  | [] => none
  | .undef :: _ => none
  | .null :: _ => some []
  | .at b o :: rest => do
      let s ← cstr m b o
      let ss ← args rest
      some (s :: ss)

variable {m}

theorem cstr_of_block {b : Nat} {pre t r : Str} (hb : m[b]? = some (pre ++ t ++ NUL :: r))
    (ht : NUL ∉ t) : m.cstr b pre.length = some t := by
  simp [cstr, hb, ht]

theorem cstr_append {b o : Nat} {s : Str} (h : m.cstr b o = some s) (x : Mem) :
    cstr (m ++ x) b o = some s := by
  simp only [cstr] at h ⊢
  cases hb : m[b]? with
  | none => simp [hb] at h
  | some t =>
      have hlt : b < m.length := (List.getElem?_eq_some_iff.mp hb).1
      rw [List.getElem?_append_left hlt, hb]
      simpa [hb] using h

theorem str_append {p : Ptr} {s : Str} (h : m.str p = some s) (x : Mem) :
    str (m ++ x) p = some s := by
  cases p with
  | undef => cases h
  | null => cases h
  | «at» b o => exact cstr_append h x

theorem args_append {a : PtrArr} {ss : List Str} (h : m.args a = some ss) (x : Mem) :
    args (m ++ x) a = some ss := by
  induction a generalizing ss with
  | nil => cases h
  | cons p rest ih =>
      cases p with
      | undef => cases h
      | null => exact h
      | «at» b o =>
          simp only [args] at h ⊢
          cases hc : m.cstr b o with
          | none => simp [hc] at h
          | some s =>
              cases hr : m.args rest with
              | none => simp [hc, hr] at h
              | some ss' =>
                  simp only [hc, hr] at h
                  simp only [cstr_append hc x, ih hr]
                  exact h

@[simp] theorem str_strdup {t : Str} (ht : NUL ∉ t) :
    str (m.strdup t).1 (m.strdup t).2 = some t := by
  simp [strdup, str, cstr, ht]

/-- The string in the `k`-th of some new blocks. -/
theorem str_block (x : Mem) (k : Nat) (t : Str) (ht : NUL ∉ t) (hk : x[k]? = some (t ++ [NUL])) :
    str (m ++ x) (.at (m.length + k) 0) = some t := by
  have hget : (m ++ x)[m.length + k]? = x[k]? := by
    rw [List.getElem?_append_right (by omega), Nat.add_sub_cancel_left]
  simp [str, cstr, hget, hk, ht]

theorem args_cons {p : Ptr} {rest : PtrArr} {s : Str} {ss : List Str}
    (hp : m.str p = some s) (hr : m.args rest = some ss) :
    m.args (p :: rest) = some (s :: ss) := by
  cases p with
  | undef => cases hp
  | null => cases hp
  | «at» b o =>
      have hc : m.cstr b o = some s := hp
      simp [args, hc, hr]

@[simp] theorem args_null (a : PtrArr) : m.args (.null :: a) = some [] := rfl

theorem args_cons_some {p : Ptr} {rest : PtrArr} {ss : List Str} (hp : p ≠ .null)
    (h : m.args (p :: rest) = some ss) :
    ∃ s ss', m.str p = some s ∧ m.args rest = some ss' ∧ ss = s :: ss' := by
  cases p with
  | undef => cases h
  | null => exact absurd rfl hp
  | «at» b o =>
      simp only [args] at h
      cases hc : m.cstr b o with
      | none => simp [hc] at h
      | some s =>
          cases hr : m.args rest with
          | none => simp [hc, hr] at h
          | some ss' =>
              simp only [hc, hr] at h
              exact ⟨s, ss', hc, rfl, by cases h; rfl⟩

theorem args_eq_nil {a : PtrArr} (h : m.args a = some []) : ∃ r, a = .null :: r := by
  cases a with
  | nil => cases h
  | cons p r =>
      by_cases hp : p = .null
      · exact ⟨r, by rw [hp]⟩
      · obtain ⟨s, ss', -, -, hs⟩ := args_cons_some hp h
        cases hs

/-- A non-empty argument list starts with a pointer into a block. -/
theorem args_eq_cons {a : PtrArr} {s : Str} {ss : List Str} (h : m.args a = some (s :: ss)) :
    ∃ b o r, a = .at b o :: r ∧ m.cstr b o = some s ∧ m.args r = some ss := by
  cases a with
  | nil => cases h
  | cons p r =>
      by_cases hp : p = .null
      · subst hp
        cases h
      · obtain ⟨t, ts, ht, hr, he⟩ := args_cons_some hp h
        cases he
        cases p with
        | undef => cases ht
        | null => exact absurd rfl hp
        | «at» b o => exact ⟨b, o, r, rfl, ht, hr⟩

theorem not_mem_of_str {p : Ptr} {s : Str} (h : m.str p = some s) : NUL ∉ s := by
  cases p with
  | undef => cases h
  | null => cases h
  | «at» b o =>
      simp only [str, cstr] at h
      cases hb : m[b]? with
      | none => simp [hb] at h
      | some t =>
          simp only [hb] at h
          exact not_mem_of_cstrOf h

/-- Entries after the NULL do not count. -/
theorem args_append_null (a r : PtrArr) : m.args (a ++ .null :: r) = m.args (a ++ [.null]) := by
  induction a with
  | nil => rfl
  | cons p a ih =>
      cases p with
      | undef => rfl
      | null => rfl
      | «at» b o => simp only [List.cons_append, args, ih]

/-- One more argument before the NULL. -/
theorem args_concat {a : PtrArr} {p : Ptr} {s : Str} {ss : List Str}
    (ha : m.args (a ++ [.null]) = some ss) (hnull : .null ∉ a) (hp : m.str p = some s) :
    m.args (a ++ [p] ++ [.null]) = some (ss ++ [s]) := by
  rw [List.append_assoc]
  induction a generalizing ss with
  | nil =>
      cases ha
      exact args_cons hp rfl
  | cons q a ih =>
      have hq : q ≠ .null := fun he => hnull (by simp [he])
      obtain ⟨t, ts, ht, hts, rfl⟩ := args_cons_some hq ha
      exact args_cons ht (ih hts fun h => hnull (by simp [h]))

theorem onBlock_zero {β : Type} (s : Str) (h : Mem) (f : Str → Option (Str × β)) :
    onBlock (s :: h) 0 f = (f s).map fun r => (r.1 :: h, r.2) := by
  cases hf : f s <;> simp [onBlock, hf]

theorem onBlock_one {β : Type} (s t : Str) (h : Mem) (f : Str → Option (Str × β)) :
    onBlock (s :: t :: h) 1 f = (f t).map fun r => (s :: r.1 :: h, r.2) := by
  cases hf : f t <;> simp [onBlock, hf]

theorem cstr_zero {t : Str} (ht : NUL ∉ t) (r : Str) (h : Mem) :
    cstr ((t ++ NUL :: r) :: h) 0 0 = some t := by
  simp [cstr, ht]

theorem cstr_one {t : Str} (ht : NUL ∉ t) (s r : Str) (h : Mem) :
    cstr (s :: (t ++ NUL :: r) :: h) 1 0 = some t := by
  simp [cstr, ht]

end Mem

/-! ## Arrays of pointers -/

namespace PtrArr

/-- `a[k] = p`. -/
def store (a : PtrArr) (k : Nat) (p : Ptr) : Option PtrArr :=
  if k < a.length then some (a.set k p) else none

@[simp] theorem store_of_lt {a : PtrArr} {k : Nat} (h : k < a.length) (p : Ptr) :
    store a k p = some (a.set k p) := if_pos h

@[simp] theorem store_of_ge {a : PtrArr} {k : Nat} (h : a.length ≤ k) (p : Ptr) :
    store a k p = none := if_neg (by omega)

end PtrArr

end UnixSys

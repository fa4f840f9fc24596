import Mathlib.Data.Nat.Find
import Mathlib.Tactic.SplitIfs
import Mathlib.Data.Int.Order.Basic

/-!
# Descriptors — the descriptor table of a process

A descriptor table maps small integers to open file descriptions. The four
operations the programs of the repository perform on it are `open`/`dup`/`pipe`
(which take the lowest free descriptor), `dup2` and `close`. A table has only
finitely many open descriptors, none of them negative: that is a field of the
structure, so the lowest free descriptor always exists. Descriptors are C's
`int`: a failed call returns `-1`, which is never open.
-/

namespace UnixSys

/-- A byte. Bytes are written as characters, so that the literals below read
like the ones of the C source; nothing depends on there being only 256 of
them. -/
abbrev Byte := Char

abbrev Str := List Byte

/-- The byte `'\0'` that ends a C string. -/
def NUL : Byte := '\x00'

/-- The flags and the creation mode of one `open` call. -/
structure OpenHow where
  write : Bool
  creat : Bool
  trunc : Bool
  perm : Option Nat
  deriving DecidableEq, Repr

/-- An open file description: one that the program found open when it started,
one it opened by name, or one end of a pipe it made. -/
inductive Ofd where
  | init (n : Nat)
  | file (path : Str) (how : OpenHow)
  | pipeR (id : Nat)
  | pipeW (id : Nat)
  deriving DecidableEq, Repr

@[ext] structure FdTable where
  get : Int → Option Ofd
  bounded : ∃ N : Nat, ∀ fd, get fd ≠ none → 0 ≤ fd ∧ fd < N

namespace FdTable

variable (T : FdTable)

theorem exists_free : ∃ n : Nat, T.get n = none := by
  obtain ⟨N, hN⟩ := T.bounded
  refine ⟨N, ?_⟩
  by_contra hne
  have := (hN N hne).2
  omega

/-- The lowest descriptor that is not open. -/
def lowest : Int := (Nat.find T.exists_free : Nat)

theorem lowest_nonneg : 0 ≤ T.lowest := Int.natCast_nonneg _

@[simp] theorem get_lowest : T.get T.lowest = none := Nat.find_spec T.exists_free

theorem open_of_lt_lowest {fd : Int} (h0 : 0 ≤ fd) (h : fd < T.lowest) :
    T.get fd ≠ none := by
  obtain ⟨n, rfl⟩ := Int.eq_ofNat_of_zero_le h0
  have hn : n < Nat.find T.exists_free := by
    simpa [lowest] using h
  exact Nat.find_min T.exists_free hn

theorem lowest_le {fd : Int} (h0 : 0 ≤ fd) (h : T.get fd = none) : T.lowest ≤ fd := by
  by_contra hlt
  exact T.open_of_lt_lowest h0 (by omega) h

theorem lowest_pos (h : T.get 0 ≠ none) : 1 ≤ T.lowest := by
  have h0 := T.lowest_nonneg
  have : T.lowest ≠ 0 := by
    intro he
    exact h (he ▸ T.get_lowest)
  omega

/-- Make `fd` refer to `o`. -/
def put (fd : Int) (o : Ofd) : FdTable where
  get x := if x = fd ∧ 0 ≤ fd then some o else T.get x
  bounded := by
    obtain ⟨N, hN⟩ := T.bounded
    refine ⟨max N (fd.toNat + 1), fun x hx => ?_⟩
    split_ifs at hx with h
    · omega
    · have := hN x hx
      omega

/-- `close(fd)`; closing a descriptor that is not open changes nothing. -/
def close (fd : Int) : FdTable where
  get x := if x = fd then none else T.get x
  bounded := by
    obtain ⟨N, hN⟩ := T.bounded
    refine ⟨N, fun x hx => ?_⟩
    split_ifs at hx with h
    · exact absurd rfl hx
    · exact hN x hx

/-- `dup2(old, new)`; with `old` not open the call fails and changes nothing. -/
def dup2 (old new : Int) : FdTable :=
  match T.get old with
  | none => T
  | some o => T.put new o

/-- The two descriptors of `pipe`, the read end first. -/
def pipeFds (id : Nat) : Int × Int :=
  (T.lowest, (T.put T.lowest (.pipeR id)).lowest)

/-- The table after `pipe` made the pipe `id`. -/
def pipe (id : Nat) : FdTable :=
  (T.put (T.pipeFds id).1 (.pipeR id)).put (T.pipeFds id).2 (.pipeW id)

@[simp] theorem get_put (fd : Int) (o : Ofd) (x : Int) :
    (T.put fd o).get x = if x = fd ∧ 0 ≤ fd then some o else T.get x := rfl

@[simp] theorem get_close (fd x : Int) :
    (T.close fd).get x = if x = fd then none else T.get x := rfl

theorem dup2_of_get {old new : Int} {o : Ofd} (h : T.get old = some o) :
    T.dup2 old new = T.put new o := by
  simp only [dup2, h]

/-! ## The descriptors of a new pipe -/

theorem pipeFds_nonneg (id : Nat) : 0 ≤ (T.pipeFds id).1 ∧ 0 ≤ (T.pipeFds id).2 :=
  ⟨T.lowest_nonneg, lowest_nonneg _⟩

theorem pipeFds_free (id : Nat) :
    T.get (T.pipeFds id).1 = none ∧ T.get (T.pipeFds id).2 = none := by
  refine ⟨T.get_lowest, ?_⟩
  have h := (T.put T.lowest (.pipeR id)).get_lowest
  rw [get_put] at h
  split_ifs at h
  exact h

/-- The write end lies above the read end: below the read end every descriptor
is open. -/
theorem pipeFds_lt (id : Nat) : (T.pipeFds id).1 < (T.pipeFds id).2 := by
  have hfree := (T.pipeFds_free id).2
  have hnn := (T.pipeFds_nonneg id).2
  have hne : (T.pipeFds id).2 ≠ (T.pipeFds id).1 := by
    intro he
    have h := (T.put T.lowest (.pipeR id)).get_lowest
    rw [get_put, if_pos ⟨he, T.lowest_nonneg⟩] at h
    cases h
  by_contra hlt
  exact T.open_of_lt_lowest hnn (by simp only [pipeFds] at *; omega) hfree

end FdTable

/-- Descriptors 0, 1 and 2, as a terminal session opens them. -/
def stdFds : FdTable where
  get fd := if 0 ≤ fd ∧ fd < 3 then some (.init fd.toNat) else none
  bounded := ⟨3, fun fd h => by
    split_ifs at h with h3
    · exact h3
    · exact absurd rfl h⟩

end UnixSys

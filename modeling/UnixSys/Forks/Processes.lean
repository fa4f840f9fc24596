import UnixSys.Forks.Source
import Mathlib.Algebra.BigOperators.Group.List.Basic

/-!
# Processes — every run ends

Each call lowers a rank, and a process that has to wait waits for one that was made after it.
So no run is without end, and a run ends when every process has ended. This holds of any program.
-/

namespace UnixSys.Forks

/-! ## Statements -/

section
variable {Q : Prog → Prop} {s t body : Stmt}

/-- What holds of the rest of a program holds of the statement with the rest. -/
def Stmt.Keeps (Q : Prog → Prop) (s : Stmt) : Prop := ∀ next, Q next → Q (s next)

theorem Stmt.Keeps.comp (hs : Stmt.Keeps Q s) (ht : Stmt.Keeps Q t) : Stmt.Keeps Q (s ∘ t) :=
  fun next hnext => hs _ (ht next hnext)

theorem Stmt.Keeps.forLoop (h : Stmt.Keeps Q body) (k : Nat) : Stmt.Keeps Q (forLoop k body) := by
  induction k with
  | zero => exact fun _ hnext => hnext
  | succ k ih => exact h.comp ih

variable (hQ : ∀ child parent failed, Q child → Q parent → Q failed →
  Q (.fork child parent failed))
include hQ

theorem keeps_fork : Stmt.Keeps Q fork := fun _ h => hQ _ _ _ h h h

theorem Stmt.Keeps.ifForkAnd (h : Stmt.Keeps Q body) : Stmt.Keeps Q (ifForkAnd body) := by
  intro next hnext
  have hsecond := hQ _ _ _ hnext (h next hnext) (h next hnext)
  exact hQ _ _ _ hnext hsecond hsecond

theorem Stmt.Keeps.ifForkOr (h : Stmt.Keeps Q body) : Stmt.Keeps Q (ifForkOr body) := by
  intro next hnext
  have hsecond := hQ _ _ _ hnext (h next hnext) (h next hnext)
  exact hQ _ _ _ hsecond (h next hnext) (h next hnext)

/-- The cases of the `switch` in `tryFork`. -/
theorem keeps_of_forks {caseNum : Int} (h : forks caseNum = some s) : Stmt.Keeps Q s := by
  have hfork := keeps_fork hQ
  have hand := hfork.ifForkAnd hQ
  unfold forks at h
  split_ifs at h <;> cases h
  · exact hfork
  · exact hfork.comp hfork
  · exact hfork.comp (hfork.comp hfork)
  · exact hand.comp (hand.comp hand)
  · exact hfork.forLoop 4

end

/-! ## Rank -/

/-- More than the calls of a process and of those that it makes. -/
def Prog.size : Prog → Nat
  | .printf _ next => next.size + 1
  | .eprintf _ next => next.size + 1
  | .fork child parent failed => child.size + parent.size + failed.size + 1
  | .waitAll next => next.size + 1
  | .ifFirst yes no => yes.size + no.size + 1
  | .exit => 2

def Status.rank : Status → Nat
  | .running prog => prog.size
  | .zombie => 1
  | .reaped => 0

theorem sum_map_set {α : Type} (f : α → Nat) {l : List α} {i : Nat} {a : α} (hi : l[i]? = some a)
    (b : α) : ((l.set i b).map f).sum + f a = (l.map f).sum + f b := by
  induction l generalizing i with
  | nil => cases hi
  | cons c l ih =>
      cases i with
      | zero =>
          obtain rfl : c = a := Option.some.inj hi
          simp only [List.set_cons_zero, List.map_cons, List.sum_cons]
          omega
      | succ i =>
          have hrest := ih (i := i) hi
          simp only [List.set_cons_succ, List.map_cons, List.sum_cons]
          omega

namespace System

def rank (S : System) : Nat := (S.procs.map (·.status.rank)).sum

variable {tty mayFail : Bool} {S S' : System} {i : Nat} {p p' : Proc}

theorem rank_set (hi : S.procs[i]? = some p) (p' : Proc) :
    (S.set i p').rank + p.status.rank = S.rank + p'.status.rank :=
  sum_map_set (·.status.rank) hi p'

theorem rank_lt (h : Step tty mayFail S S') : S'.rank < S.rank := by
  cases h with
  | @printf i p line next hi hp =>
      have hlt : ∀ p', p'.status = .running next → (S.set i p').rank < S.rank := by
        intro p' hp'
        have hset := rank_set hi p'
        rw [hp, hp'] at hset
        simp only [Status.rank, Prog.size] at hset
        omega
      cases tty with
      | true => exact hlt _ rfl
      | false => exact hlt _ rfl
  | @eprintf i p text next hi hp =>
      have hset := rank_set hi { p with status := .running next }
      rw [hp] at hset
      simp only [Status.rank, Prog.size] at hset
      show (S.set i _).rank < S.rank
      omega
  -- the program before the `fork` is larger than what parent and child go on with
  | @fork i p child parent failed hi hp =>
      have hset := rank_set hi { p with status := .running parent }
      rw [hp] at hset
      simp only [Status.rank, Prog.size] at hset
      simp only [rank, set, List.map_append, List.sum_append, List.map_cons, List.map_nil,
        List.sum_cons, List.sum_nil, Status.rank] at hset ⊢
      omega
  | @forkFailed i p child parent failed hi hp _ =>
      have hset := rank_set hi { p with status := .running failed }
      rw [hp] at hset
      simp only [Status.rank, Prog.size] at hset
      omega
  | @reap i j p q next hi hp hj _ hq =>
      have hset := rank_set hj { q with status := .reaped }
      rw [hq] at hset
      simp only [Status.rank] at hset
      omega
  | @waited i p next hi hp _ =>
      have hset := rank_set hi { p with status := .running next }
      rw [hp] at hset
      simp only [Status.rank, Prog.size] at hset
      omega
  | @ifFirst i p yes no hi hp =>
      have hset := rank_set hi { p with
        status := .running (if S.getppid p = .starter then yes else no) }
      have hle : (if S.getppid p = .starter then yes else no).size ≤ yes.size + no.size := by
        split <;> omega
      rw [hp] at hset
      simp only [Status.rank, Prog.size] at hset
      omega
  | @exit i p hi hp =>
      have hset := rank_set hi { p with status := .zombie, buffer := [] }
      rw [hp] at hset
      simp only [Status.rank, Prog.size] at hset
      show (S.set i _).rank < S.rank
      omega

/-- No run goes on for ever. -/
theorem no_infinite_run (run : Nat → System) : ∃ k, ¬ Step tty mayFail (run k) (run (k + 1)) := by
  by_contra h
  simp only [not_exists, not_not] at h
  have hrank : ∀ k, (run k).rank + k ≤ (run 0).rank := by
    intro k
    induction k with
    | zero => exact Nat.le_refl _
    | succ k ih =>
        have hlt := rank_lt (h k)
        omega
  have hle := hrank ((run 0).rank + 1)
  omega

/-- From every state there is a run to an end. -/
theorem exists_end (tty mayFail : Bool) (S : System) :
    ∃ S', Reachable (Step tty mayFail) S S' ∧ Stuck (Step tty mayFail) S' := by
  obtain ⟨-, S', hreach, -, hstuck⟩ := exists_stuck Nat.lt_wfRel.wf
    (I := fun k (S : System) => S.rank = k)
    (fun k S S' hk hstep => ⟨S'.rank, hk ▸ rank_lt hstep, rfl⟩) (rfl : S.rank = S.rank)
  exact ⟨S', hreach, hstuck⟩

/-! ## Parents -/

/-- The first process is that of the starter, and each other process was made by one before
it. -/
structure Parents (procs : List Proc) : Prop where
  first : ∃ p, procs[0]? = some p ∧ p.parent = .starter
  rest : ∀ (j : Nat) q, procs[j]? = some q → j ≠ 0 → ∃ i < j, q.parent = .proc i

theorem Parents.set {procs : List Proc} (h : Parents procs) (hi : procs[i]? = some p)
    (hp : p'.parent = p.parent) : Parents (procs.set i p') := by
  have hlt := (List.getElem?_eq_some_iff.mp hi).1
  -- the process at a place, before and now
  have hsame : ∀ (j : Nat) q, (procs.set i p')[j]? = some q →
      ∃ q', procs[j]? = some q' ∧ q.parent = q'.parent := by
    intro j q hq
    by_cases hj : j = i
    · subst hj
      rw [List.getElem?_set_self hlt] at hq
      obtain rfl := Option.some.inj hq
      exact ⟨p, hi, hp⟩
    · rw [List.getElem?_set_ne (Ne.symm hj)] at hq
      exact ⟨q, hq, rfl⟩
  refine ⟨?_, fun j q hq hj => ?_⟩
  · obtain ⟨r, hr, hstarter⟩ := h.first
    have hpos : 0 < (procs.set i p').length := by
      rw [List.length_set]
      exact (List.getElem?_eq_some_iff.mp hr).1
    obtain ⟨q', hq', hparent⟩ := hsame 0 _ (List.getElem?_eq_getElem hpos)
    obtain rfl : r = q' := Option.some.inj (hr.symm.trans hq')
    exact ⟨_, List.getElem?_eq_getElem hpos, hparent.trans hstarter⟩
  · obtain ⟨q', hq', hparent⟩ := hsame j q hq
    rw [hparent]
    exact h.rest j q' hq' hj

theorem Parents.append {procs : List Proc} (h : Parents procs) (hi : i < procs.length)
    (hp : p.parent = .proc i) : Parents (procs ++ [p]) := by
  obtain ⟨r, hr, hstarter⟩ := h.first
  refine ⟨⟨r, ?_, hstarter⟩, fun j q hq hj => ?_⟩
  · rw [List.getElem?_append_left (List.getElem?_eq_some_iff.mp hr).1]
    exact hr
  · rw [List.getElem?_append] at hq
    split at hq
    · exact h.rest j q hq hj
    · rw [List.getElem?_singleton] at hq
      split at hq
      · obtain rfl := Option.some.inj hq
        exact ⟨i, by omega, hp⟩
      · cases hq

theorem parents_start (prog : Prog) : Parents (start prog).procs := by
  refine ⟨⟨_, rfl, rfl⟩, fun j q hq hj => ?_⟩
  have hq : [Proc.mk .starter (.running prog) []][j]? = some q := hq
  rw [List.getElem?_singleton, if_neg hj] at hq
  cases hq

theorem parents_step (h : Parents S.procs) (hstep : Step tty mayFail S S') :
    Parents S'.procs := by
  cases hstep with
  | printf hi hp =>
      cases tty with
      | true => exact h.set hi rfl
      | false => exact h.set hi rfl
  | eprintf hi hp => exact h.set hi rfl
  | @fork i p child parent failed hi hp =>
      have hset : Parents (S.procs.set i { p with status := .running parent }) := h.set hi rfl
      refine hset.append (i := i) ?_ rfl
      rw [List.length_set]
      exact (List.getElem?_eq_some_iff.mp hi).1
  | forkFailed hi hp _ => exact h.set hi rfl
  | reap hi hp hj _ _ => exact h.set hj rfl
  | waited hi hp _ => exact h.set hi rfl
  | ifFirst hi hp => exact h.set hi rfl
  | exit hi hp => exact h.set hi rfl

theorem parents {prog : Prog} (hreach : Reachable (Step tty mayFail) (start prog) S) :
    Parents S.procs :=
  hreach.invariant (parents_start prog) fun _ _ h hstep => parents_step h hstep

/-! ## Progress -/

/-- A process that cannot go on waits for another that has not ended. -/
theorem blocked (hstuck : Stuck (Step tty mayFail) S) (hparents : Parents S.procs)
    (hrun : S.Running i) : ∃ j, i < j ∧ S.Running j := by
  obtain ⟨p, prog, hi, hp⟩ := hrun
  cases prog with
  | printf line next => exact absurd (.printf hi hp) (hstuck _)
  | eprintf text next => exact absurd (.eprintf hi hp) (hstuck _)
  | fork child parent failed => exact absurd (.fork hi hp) (hstuck _)
  | ifFirst yes no => exact absurd (.ifFirst hi hp) (hstuck _)
  | exit => exact absurd (.exit hi hp) (hstuck _)
  | waitAll next =>
      by_contra hnone
      refine hstuck _ (.waited hi hp fun q hq hparent => ?_)
      obtain ⟨j, hj⟩ := List.mem_iff_getElem?.mp hq
      have hlt : i < j := by
        obtain ⟨r, hr, hstarter⟩ := hparents.first
        have hne : j ≠ 0 := by
          rintro rfl
          obtain rfl := Option.some.inj (hr.symm.trans hj)
          cases hparent.symm.trans hstarter
        obtain ⟨k, hk, hparent'⟩ := hparents.rest j q hj hne
        cases hparent.symm.trans hparent'
        exact hk
      cases hstatus : q.status with
      | running prog => exact absurd ⟨j, hlt, q, prog, hj, hstatus⟩ hnone
      | zombie => exact absurd (.reap hi hp hj hparent hstatus) (hstuck _)
      | reaped => rfl

/-- **A run ends when every process has ended**, and not before. -/
theorem not_running_of_stuck (hstuck : Stuck (Step tty mayFail) S) (hparents : Parents S.procs)
    (i : Nat) : ¬ S.Running i := by
  -- the process that is waited for was made later, and there is a last one
  have hlate : ∀ k i, S.procs.length ≤ i + k → ¬ S.Running i := by
    intro k
    induction k with
    | zero =>
        rintro i hlen ⟨p, prog, hi, -⟩
        have hlt := (List.getElem?_eq_some_iff.mp hi).1
        omega
    | succ k ih =>
        intro i hlen hrun
        obtain ⟨j, hij, hj⟩ := blocked hstuck hparents hrun
        exact ih j (by omega) hj
  exact hlate S.procs.length i (Nat.le_add_left _ _)

end System

end UnixSys.Forks

import UnixSys.Posix.Ahead
import UnixSys.Posix.Solo

/-!
# Wait — the loop `while (wait(&status) != pid);`

The loop ends only when `wait` returns the child it asks for. With `SIGCHLD`
ignored the kernel keeps no status of a child that has ended: `wait` then fails
with `ECHILD`, and the loop calls it again for ever.
-/

namespace UnixSys

variable {W α β : Type}

/-- `wait` fails with `ECHILD`: process `pid` has waited for all its children, or
the kernel has dropped them. -/
def NoChildLeft (s : Sys W α) (pid : Nat) : Prop :=
  ∀ q ∈ s.procs, q.parent = some pid → ∃ e, q.code = .reaped e

/-- Process `pid` is `p`, in the loop that waits for `child` and goes on as `k`. -/
structure Awaits (s : Sys W α) (pid : Nat) (p : Proc α) (child : Nat) (k : Prog α) : Prop where
  proc : s.procs[pid]? = some p
  code : p.code = .prog (.waitFor child k)

/-- A process in the loop has a child left to wait for, and whatever `wait`
returns to it ends the loop. -/
def LoopsEnd (M : Machine W α) (s : Sys W α) : Prop :=
  ∀ pid p child k, Awaits s pid p child k → ¬ NoChildLeft s pid ∧
    ∀ s', ProcStep M s pid p s' → s'.procs[pid]? = some (p.goto (.prog k))

/-- Some process is in the loop, and the child it asks for has ended. -/
def AwaitsEnded (s : Sys W α) : Prop :=
  ∃ pid p child k q, Awaits s pid p child k ∧ s.procs[child]? = some q ∧ q.code.live = false

/-! ## No zombies when `SIGCHLD` is ignored -/

/-- With `SIGCHLD` ignored no process is a zombie. -/
def Unkept (M : Machine W α) (s : Sys W α) : Prop :=
  M.sigchldIgnored = true → ∀ p ∈ s.procs, ∀ e, p.code ≠ .zombie e

section
variable {M : Machine W α} {s s' : Sys W α} {p q : Proc α} {pid : Nat}

theorem ended_ne_zombie (h : M.sigchldIgnored = true) (e e' : Ending) : M.ended e ≠ .zombie e' := by
  unfold Machine.ended
  rw [if_pos h]
  intro hne
  cases hne

/-- One process changes, and not into a zombie. -/
theorem Unkept.set (hu : Unkept M s) (hp : s'.procs = s.procs.set pid q)
    (hq : M.sigchldIgnored = true → ∀ e, q.code ≠ .zombie e) : Unkept M s' := by
  intro hi r hr
  rw [hp] at hr
  rcases List.mem_or_eq_of_mem_set hr with hr | rfl
  · exact hu hi r hr
  · exact hq hi

theorem Unkept.update (hu : Unkept M s) (hq : M.sigchldIgnored = true → ∀ e, q.code ≠ .zombie e) :
    Unkept M (s.update pid q) := hu.set rfl hq

theorem Unkept.write {p' bad : Proc α} {b : Byte} (hu : Unkept M s)
    (hp' : ∀ e, p'.code ≠ .zombie e) (hbad : M.sigchldIgnored = true → ∀ e, bad.code ≠ .zombie e)
    (h : WriteStep M s pid p b p' bad s') : Unkept M s' := by
  obtain ⟨q, hq, hprocs, -⟩ := h.cases
  refine hu.set hprocs ?_
  intro hi
  rcases hq with rfl | rfl | rfl
  · exact hp'
  · exact hbad hi
  · exact ended_ne_zombie hi _

theorem Unkept.prog {q : Prog α} (hu : Unkept M s) (h : ProgStep M s pid p q s') :
    Unkept M s' := by
  -- where the process goes on with a program, it is no zombie
  have hgoto : ∀ (k : Prog α) (e : Ending), (p.goto (.prog k)).code ≠ .zombie e := by
    intro k e hne
    cases hne
  cases q with
  | ret a =>
      obtain ⟨q, -, rfl⟩ := h
      exact hu.update fun _ => hgoto q
  | ub => exact h.elim
  | exit n =>
      obtain rfl := h
      exact hu.update fun _ e hne => by cases hne
  | call c k =>
      simp only [ProgStep] at h
      split at h
      · subst h
        exact hu.update fun _ => hgoto _
      · subst h
        exact hu.update fun _ e hne => by cases hne
  | fork k =>
      obtain rfl := h
      intro hi r hr
      rcases List.mem_append.mp hr with hr | hr
      · exact hu.update (fun _ => hgoto _) hi r hr
      · obtain rfl := List.mem_singleton.mp hr
        intro e hne
        cases hne
  | execvp argv k =>
      simp only [ProgStep] at h
      split at h
      · subst h
        exact hu.update fun _ => hgoto _
      · subst h
        exact hu.update fun _ e hne => by cases hne
  | waitpid child k =>
      simp only [ProgStep, WaitpidStep] at h
      split at h
      · split at h
        · split at h
          · subst h
            exact (hu.update fun _ e hne => by cases hne).update fun _ => hgoto _
          · subst h
            exact hu.update fun _ => hgoto _
          · exact h.elim
        · subst h
          exact hu.update fun _ => hgoto _
      · subst h
        exact hu.update fun _ => hgoto _
  | waitFor child k =>
      rcases h with ⟨c, q, e, -, -, -, rfl⟩ | ⟨-, rfl⟩
      · exact (hu.update fun _ e hne => by cases hne).update fun _ => hgoto _
      · exact hu

/-- No step makes a zombie: a process that ends is forgotten at once. -/
theorem Unkept.step (hu : Unkept M s) (h : Step M s s') : Unkept M s' := by
  obtain ⟨pid, p, -, hstep⟩ := h
  unfold ProcStep at hstep
  split at hstep
  · exact hu.prog hstep
  · split at hstep
    · obtain ⟨c, hc, hprocs, -⟩ := hstep.cases
      refine hu.set hprocs ?_
      intro hi
      rcases hc with rfl | ⟨_, _, rfl⟩
      · exact ended_ne_zombie hi _
      · intro e hne
        cases hne
    · exact hu.write (fun e hne => by cases hne) (fun hi => ended_ne_zombie hi _) hstep
    · subst hstep
      exact hu.update fun hi => ended_ne_zombie hi _
  · rename_i hcode
    split at hstep
    · subst hstep
      exact hu.update fun hi => ended_ne_zombie hi _
    · refine hu.write ?_ (fun _ => ?_) hstep
      · intro e hne
        rw [hcode] at hne
        cases hne
      · intro e hne
        rw [hcode] at hne
        cases hne
  · exact hstep.elim
  · exact hstep.elim

theorem Unkept.start (prog : Prog α) (T : FdTable) (w : W) (pipes : Nat) (unread : Ofd → Str) :
    Unkept M (Sys.start prog T w pipes unread) := by
  intro _ p hp e hne
  obtain rfl := List.mem_singleton.mp hp
  cases hne

end

/-! ## The loop of a shell with one child at a time -/

namespace SoloInv

variable {M : Machine W α} {U : Prop} {R : Nat → List Str → FdTable → Prop}
  {Q : α → View → Prop} {s : Sys W α}

/-- A process in the loop is the shell, and it waits for its one child. -/
theorem awaits {pid child : Nat} {p : Proc α} {k : Prog α} (h : SoloInv M U R Q s)
    (hw : Awaits s pid p child k) : pid = 0 ∧ ∃ done q, Shape s p done (some q) ∧
      child = done.length + 1 ∧ KidOk M U (R child) q := by
  obtain ⟨sh, done, kid, hsh, hshell, hkid⟩ := h
  rcases hsh.getElem?_cases hw.proc with ⟨rfl, rfl⟩ | hmem | ⟨rfl, rfl⟩
  · simp only [ShellOk, hw.code, Prog.Solo, Sys.view] at hshell
    cases kid with
    | none => cases hshell.1
    | some q =>
        obtain rfl := Option.some.inj hshell.1
        exact ⟨rfl, done, q, hsh, rfl, hkid q rfl⟩
  · obtain ⟨e, he⟩ := (hsh.done p hmem).2
    rw [hw.code] at he
    cases he
  · have hp := hkid p rfl
    simp only [KidOk, hw.code] at hp
    exact hp.elim

/-- The loops end exactly when the kernel keeps the status of the children, or the
child that is waited for has not ended. -/
theorem loopsEnd_iff (h : SoloInv M U R Q s) (hu : Unkept M s) :
    LoopsEnd M s ↔ (M.sigchldIgnored = false ∨ ¬ AwaitsEnded s) := by
  constructor
  · intro hends
    by_cases hi : M.sigchldIgnored = false
    · exact .inl hi
    · right
      rintro ⟨pid, p, child, k, q, hw, hq, hlive⟩
      obtain ⟨rfl, done, q', hsh, rfl, -⟩ := h.awaits hw
      obtain rfl : q' = q := Option.some.inj (hsh.getElem?_kid.symm.trans hq)
      -- the child has been forgotten, like those before it
      refine (hends 0 p _ k hw).1 ?_
      intro r hr hparent
      rw [hsh.procs] at hr
      rcases List.mem_cons.mp hr with rfl | hr
      · rw [hsh.shell] at hparent
        cases hparent
      rcases List.mem_append.mp hr with hr | hr
      · exact (hsh.done r hr).2
      · obtain rfl := List.mem_singleton.mp hr
        cases hcode : r.code with
        | reaped e => exact ⟨e, rfl⟩
        | zombie e =>
            have hi' : M.sigchldIgnored = true := by simpa using hi
            exact absurd hcode (hu hi' r (List.mem_of_getElem? hq) e)
        | prog _ => simp [hcode, Code.live] at hlive
        | image _ _ _ _ => simp [hcode, Code.live] at hlive
        | exiting _ => simp [hcode, Code.live] at hlive
  · intro hcond pid p child k hw
    obtain ⟨rfl, done, q, hsh, rfl, hq⟩ := h.awaits hw
    have hget := hsh.getElem?_kid
    have hmem := List.mem_of_getElem? hget
    -- the child is there: it has not ended, or it is a zombie
    have hkept : ∀ e, q.code ≠ .reaped e := by
      intro e hcode
      simp only [KidOk, hcode] at hq
      rcases hcond with hi | hrun
      · rw [hi] at hq
        cases hq
      · exact hrun ⟨0, p, _, k, q, hw, hget, by simp [hcode, Code.live]⟩
    have hleft : ¬ NoChildLeft s 0 := by
      intro hnone
      obtain ⟨e, he⟩ := hnone q hmem (hsh.kid q rfl)
      exact hkept e he
    refine ⟨hleft, ?_⟩
    intro s' hs'
    simp only [ProcStep, hw.code, ProgStep] at hs'
    rcases hs' with ⟨c, r, e, hr, hparent, hcode, rfl⟩ | ⟨hnone, -⟩
    · rcases hsh.getElem?_cases hr with ⟨rfl, rfl⟩ | hdone | ⟨rfl, -⟩
      · rw [hsh.shell] at hparent
        cases hparent
      · obtain ⟨e', he'⟩ := (hsh.done r hdone).2
        rw [hcode] at he'
        cases he'
      · rw [if_pos rfl]
        simp [Sys.update, hsh.procs]
    · exact absurd hnone hleft

end SoloInv

/-! ## A run to the loop -/

section
variable {M : Machine W α} {s : Sys W α} {sh : Proc α}

/-- The child of the `fork` runs a command that ends at once: the shell comes to
the loop, and its child has ended. -/
theorem reach_awaitsEnded {k : ForkResult → Prog α} {argv : List Str} {p q : Prog α} {img : Image}
    {w : W} (hs : s.procs = [sh]) (hcode : sh.code = .prog (.fork k))
    (hchild : k .child = .execvp argv p) (hparent : k (.parent 1) = .waitFor 1 q)
    (hexec : M.env.exec s.world (sh.fds.launch argv) = some (img, w))
    (hexit : img [] false [] = .exit) : ∃ s', Reachable (Step M) s s' ∧ AwaitsEnded s' := by
  obtain ⟨s', hs', hprocs, -⟩ := reach_ended hs hcode hchild hparent hexec hexit
  refine ⟨s', hs', 0, sh.goto (.prog (.waitFor 1 q)), 1, q,
    ⟨some 0, M.ended (.done [] false []), sh.fds, []⟩, ⟨?_, rfl⟩, ?_, ?_⟩
  · rw [hprocs]
    rfl
  · rw [hprocs]
    rfl
  · by_cases hi : M.sigchldIgnored = true
    · simp [Machine.ended, hi, Code.live]
    · simp [Machine.ended, hi, Code.live]

end

end UnixSys

import UnixSys.Posix.Kernel
import UnixSys.Posix.Sequential

/-!
# Ahead — the calls that a process makes next

Calls never block. A process that is scheduled until it comes to something else
(a `fork`, an `execvp`, a wait or its end) is where `Prog.ahead` says, and nothing
but its own calls has changed the system.
-/

namespace UnixSys

variable {W α β : Type}

/-- What is left of the program after the calls it makes first, and the context
that these leave. -/
def Prog.ahead (env : Env W) : Prog α → Ctx W → Prog α × Ctx W
  | .call c k, x =>
      match c.apply env x with
      | none => (.ub, x)
      | some (r, y) => (k r).ahead env y
  | p, x => (p, x)

theorem Prog.ahead_call {env : Env W} {c : Call} {k : c.Res → Prog α} {x y : Ctx W} {r : c.Res}
    (h : c.apply env x = some (r, y)) :
    (Prog.call c k).ahead env x = (k r).ahead env y := by
  simp only [Prog.ahead, h]

/-- Programs that make the same calls are at related programs after them. -/
theorem Prog.Rel.ahead {V : α → β → Prop} {p : Prog α} {q : Prog β} (h : p.Rel V q)
    (env : Env W) (x : Ctx W) :
    (p.ahead env x).1.Rel V (q.ahead env x).1 ∧ (p.ahead env x).2 = (q.ahead env x).2 := by
  induction h generalizing x with
  | call c _ ih =>
      simp only [Prog.ahead]
      cases happ : c.apply env x with
      | none => exact ⟨.ub, rfl⟩
      | some ry => exact ih ry.1 (Call.valid_of_apply happ) ry.2
  | ret hab => exact ⟨.ret hab, rfl⟩
  | ub => exact ⟨.ub, rfl⟩
  | exit n => exact ⟨.exit n, rfl⟩
  | fork hk _ => exact ⟨.fork hk, rfl⟩
  | execvp argv hk _ => exact ⟨.execvp argv hk, rfl⟩
  | waitpid pid hk _ => exact ⟨.waitpid pid hk, rfl⟩
  | waitFor pid hk _ => exact ⟨.waitFor pid hk, rfl⟩

/-- A call makes no process. -/
theorem procs_of_apply {env : Env W} {c : Call} {x y : Ctx W} {r : c.Res}
    (h : c.apply env x = some (r, y)) : y.procs = x.procs := by
  unfold Call.apply at h
  split at h
  · cases h
    rfl
  · cases h
    rfl
  · cases h
  · cases h
    rfl
  · cases h
    rfl
  · split at h
    · cases h
      rfl
    · cases h
      rfl
  · split at h
    · cases h
      rfl
    · cases h
      rfl
  · cases h
    rfl
  · cases h
    rfl
  · cases h
    rfl

section
variable {M : Machine W α} {s : Sys W α} {pid : Nat} {p : Proc α}

theorem commit_self {q : Prog α} (hp : s.procs[pid]? = some p) (hcode : p.code = .prog q) :
    s.commit pid p (s.ctx p) q = s := by
  obtain ⟨hlt, hget⟩ := List.getElem?_eq_some_iff.mp hp
  have hset : s.procs.set pid { p with code := .prog q, fds := p.fds, buf := p.buf } = s.procs := by
    rw [← hcode, ← hget]
    exact List.set_getElem_self hlt
  unfold Sys.commit Sys.ctx
  rw [hset]

/-- Some run lets the process make the calls it is at. -/
theorem reach_ahead {q : Prog α} (hp : s.procs[pid]? = some p) (hcode : p.code = .prog q) :
    Reachable (Step M) s
      (s.commit pid p (q.ahead M.env (s.ctx p)).2 (q.ahead M.env (s.ctx p)).1) := by
  induction q generalizing s p with
  | call c k ih =>
      simp only [Prog.ahead]
      cases happ : c.apply M.env (s.ctx p) with
      | none =>
          have hstep : Step M s (s.update pid (p.goto (.prog .ub))) :=
            ⟨pid, p, hp, by simp only [ProcStep, hcode, ProgStep, happ]⟩
          exact .tail (.refl s) hstep
      | some ry =>
          obtain ⟨r, x⟩ := ry
          have hstep : Step M s (s.commit pid p x (k r)) :=
            ⟨pid, p, hp, by simp only [ProcStep, hcode, ProgStep, happ]⟩
          let p' : Proc α := { p with code := .prog (k r), fds := x.fds, buf := x.buf }
          have hlt := (List.getElem?_eq_some_iff.mp hp).1
          have hp' : (s.commit pid p x (k r)).procs[pid]? = some p' :=
            List.getElem?_set_self hlt
          have hctx : (s.commit pid p x (k r)).ctx p' = x := by
            have hprocs := procs_of_apply happ
            obtain ⟨fds, buf, world, pipes, procs⟩ := x
            obtain rfl : procs = s.procs.length := hprocs
            show (⟨fds, buf, world, pipes, (s.procs.set pid _).length⟩ : Ctx W) = _
            rw [List.length_set]
          have hrest := ih r hp' rfl
          rw [hctx] at hrest
          -- the second change of the process covers the first
          have hset : ∀ (y : Ctx W) (q : Prog α),
              (s.commit pid p x (k r)).commit pid p' y q = s.commit pid p y q := by
            intro y q
            show Sys.mk _ _ _ _ _ _ = Sys.mk _ _ _ _ _ _
            simp [Sys.commit, p']
          rw [hset] at hrest
          exact hrest.head hstep
  | _ =>
      simp only [Prog.ahead]
      rw [commit_self hp hcode]
      exact .refl s

end

/-- A program that forks, and whose child comes to an `execvp`: some run takes both
there. -/
theorem reach_execvp {M : Machine W α} {prog q : Prog α} {T : FdTable} {w : W} {n : Nat}
    {unread : Ofd → Str} {k : ForkResult → Prog α} {x y : Ctx W} {argv : List Str}
    (hfork : prog.ahead M.env ⟨T, [], w, n, 1⟩ = (.fork k, x))
    (hchild : (k .child).ahead M.env { x with procs := 2 } = (.execvp argv q, y)) :
    ∃ s p, Reachable (Step M) (Sys.start prog T w n unread) s ∧ s.procs[1]? = some p ∧
      p.code = .prog (.execvp argv q) ∧ p.fds = y.fds := by
  let s₀ : Sys W α := Sys.start prog T w n unread
  let sh : Proc α := ⟨none, .prog prog, T, []⟩
  let sh₁ : Proc α := ⟨none, .prog (.fork k), x.fds, x.buf⟩
  let kid : Proc α := ⟨some 0, .prog (k .child), x.fds, x.buf⟩
  have h₁ : Reachable (Step M) s₀ (s₀.commit 0 sh x (.fork k)) := by
    have h := reach_ahead (M := M) (show s₀.procs[0]? = some sh from rfl) rfl
    rwa [show s₀.ctx sh = ⟨T, [], w, n, 1⟩ from rfl, hfork] at h
  -- the shell forks, and its child makes its calls
  let s₂ : Sys W α := (s₀.commit 0 sh x (.fork k)).spawn 0 (sh₁.goto (.prog (k (.parent 1)))) kid
  have h₂ : Step M (s₀.commit 0 sh x (.fork k)) s₂ := ⟨0, sh₁, rfl, rfl⟩
  have h₃ := reach_ahead (M := M) (show s₂.procs[1]? = some kid from rfl) rfl
  rw [show s₂.ctx kid = { x with procs := 2 } from rfl, hchild] at h₃
  exact ⟨_, _, (h₁.tail h₂).trans h₃, rfl, rfl, rfl⟩

section
variable {M : Machine W α} {s : Sys W α} {sh : Proc α} {k : ForkResult → Prog α}
  {argv : List Str} {p q : Prog α} {img : Image} {w : W} (hs : s.procs = [sh])
  (hcode : sh.code = .prog (.fork k)) (hchild : k .child = .execvp argv p)
  (hparent : k (.parent 1) = .waitFor 1 q)
  (hexec : M.env.exec s.world (sh.fds.launch argv) = some (img, w))
  (hexit : img [] false [] = .exit)
include hs hcode hchild hparent hexec hexit

/-- A program that forks, and whose child runs a command that ends at once. -/
theorem reach_ended : ∃ s', Reachable (Step M) s s' ∧
    s'.procs = [sh.goto (.prog (.waitFor 1 q)),
      ⟨some 0, M.ended (.done [] false []), sh.fds, []⟩] ∧
    s'.world = w ∧ s'.pipes = s.pipes := by
  let sh' := sh.goto (.prog (.waitFor 1 q))
  let kid : Proc α := { sh with parent := some 0, code := .prog (.execvp argv p) }
  let run : Proc α := { kid with code := .image img [] false [], buf := [] }
  -- the shell forks
  have hfork : Step M s (s.spawn 0 sh' kid) := by
    refine ⟨0, sh, by rw [hs]; rfl, ?_⟩
    simp only [ProcStep, hcode, ProgStep, hs, hchild, List.length_singleton, hparent]
    rfl
  have hprocs : (s.spawn 0 sh' kid).procs = [sh', kid] := by
    simp [Sys.spawn, hs]
  -- its child runs the command
  obtain ⟨s₂, hs₂, hprocs₂, hworld, hpipes⟩ : ∃ s₂, Step M (s.spawn 0 sh' kid) s₂ ∧
      s₂.procs = [sh', run] ∧ s₂.world = w ∧ s₂.pipes = s.pipes := by
    refine ⟨((s.spawn 0 sh' kid).update 1 run).note (sh.fds.launch argv) w, ⟨1, kid, ?_, ?_⟩, ?_,
      rfl, rfl⟩
    · rw [hprocs]
      rfl
    · have hexec' : M.env.exec (s.spawn 0 sh' kid).world (kid.fds.launch argv) = some (img, w) :=
        hexec
      simp only [ProcStep, kid, ProgStep]
      simp only [kid] at hexec'
      rw [hexec']
    · simp [Sys.note, Sys.update, hprocs]
  -- the command ends
  have hend : Step M s₂ (s₂.update 1 (run.goto (M.ended (.done [] false [])))) := by
    refine ⟨1, run, by rw [hprocs₂]; rfl, ?_⟩
    simp only [ProcStep, run, hexit]
  refine ⟨_, .head hfork (.head hs₂ (.head hend (.refl _))), ?_, hworld, hpipes⟩
  simp [Sys.update, hprocs₂, Proc.goto, run, kid, sh']

/-- The shell waits for the command, and makes its next calls. -/
theorem reach_waited (hi : M.sigchldIgnored = false) {r : Prog α} {x : Ctx W}
    (hnext : q.ahead M.env ⟨sh.fds, sh.buf, w, s.pipes, 2⟩ = (r, x)) :
    ∃ s', Reachable (Step M) s s' ∧ s'.procs =
      [{ sh with code := .prog r, fds := x.fds, buf := x.buf },
        ⟨some 0, .reaped (.done [] false []), sh.fds, []⟩] := by
  obtain ⟨s₁, hs₁, hprocs, hworld, hpipes⟩ := reach_ended hs hcode hchild hparent hexec hexit
  let waiting := sh.goto (.prog (.waitFor 1 q))
  let kid : Proc α := ⟨some 0, .zombie (.done [] false []), sh.fds, []⟩
  have hprocs : s₁.procs = [waiting, kid] := by
    rw [hprocs, Machine.ended, hi]
    rfl
  let s₂ : Sys W α := (s₁.update 1 (kid.goto (.reaped (.done [] false [])))).update 0
    (waiting.goto (.prog q))
  have hwait : Step M s₁ s₂ := by
    refine ⟨0, waiting, by rw [hprocs]; rfl, .inl ⟨1, kid, _, by rw [hprocs]; rfl, rfl, rfl, ?_⟩⟩
    rw [if_pos rfl]
  have hprocs₂ : s₂.procs = [waiting.goto (.prog q), kid.goto (.reaped (.done [] false []))] := by
    simp [s₂, Sys.update, hprocs]
  have hahead := reach_ahead (M := M) (show s₂.procs[0]? = some (waiting.goto (.prog q)) by
    rw [hprocs₂]; rfl) rfl
  have hctx : s₂.ctx (waiting.goto (.prog q)) = ⟨sh.fds, sh.buf, w, s.pipes, 2⟩ := by
    simp only [Sys.ctx, hprocs₂]
    show (⟨_, _, s₁.world, s₁.pipes, _⟩ : Ctx W) = _
    rw [hworld, hpipes]
    rfl
  rw [hctx, hnext] at hahead
  refine ⟨_, (hs₁.tail hwait).trans hahead, ?_⟩
  show s₂.procs.set 0 _ = _
  rw [hprocs₂]
  rfl

end

end UnixSys

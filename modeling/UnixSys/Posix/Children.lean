import UnixSys.Posix.Policy

/-!
# Children — programs whose children do not return

A child that ends in `execvp` or `exit` never gets to what its parent does next.
Where all of them do, the sequential run of `p >>= f` is that of `p`, and then that of `f`
on the result of `p`.
-/

namespace UnixSys

variable {W α β : Type} {env : Env W}

/-- The run of what comes next, where there is a result. -/
def Run.bind (r : Run W α) (f : α → Ctx W → Run W β) : Run W β :=
  match r.outcome with
  | .ret a => (f a r.ctx).prepend r.log
  | .exited n => ⟨.exited n, r.ctx, r.log⟩
  | .execed => ⟨.execed, r.ctx, r.log⟩
  | .ub => ⟨.ub, r.ctx, r.log⟩

theorem Run.bind_prepend (r : Run W α) (f : α → Ctx W → Run W β) (log : List Event) :
    (r.prepend log).bind f = (r.bind f).prepend log := by
  rw [Run.bind, Run.bind, outcome_prepend, ctx_prepend, log_prepend]
  cases r.outcome with
  | ret a => exact (prepend_prepend log r.log _).symm
  | exited n => rfl
  | execed => rfl
  | ub => rfl

namespace Prog

/-- No path of the program has a result. -/
def NeverReturns (p : Prog α) : Prop := p.Obeys {} fun _ => False

/-- No child of the program returns. -/
def ChildrenEnd : Prog α → Prop
  | .ret _ | .ub | .exit _ => True
  | .call _ k => ∀ r, (k r).ChildrenEnd
  | .fork k => (k .child).NeverReturns ∧ (k .failed).ChildrenEnd ∧
      ∀ pid, (k (.parent pid)).ChildrenEnd
  | .execvp _ k | .waitpid _ k | .waitFor _ k => k.ChildrenEnd

theorem NeverReturns.bind_left {p : Prog α} (hp : p.NeverReturns) (f : α → Prog β) :
    (p >>= f).NeverReturns := Obeys.bind hp fun _ h => h.elim

theorem NeverReturns.bind (p : Prog α) {f : α → Prog β} (hf : ∀ a, (f a).NeverReturns) :
    (p >>= f).NeverReturns := (obeys_trivial p).bind fun a _ => hf a

theorem ChildrenEnd.bind {p : Prog α} {f : α → Prog β} (hp : p.ChildrenEnd)
    (hf : ∀ a, (f a).ChildrenEnd) : (p >>= f).ChildrenEnd := by
  induction p with
  | ret a => exact hf a
  | ub => trivial
  | exit n => trivial
  | call c k ih => exact fun r => ih r (hp r)
  | fork k ih => exact ⟨hp.1.bind_left f, ih _ hp.2.1, fun pid => ih _ (hp.2.2 pid)⟩
  | execvp argv k ih => exact ih hp
  | waitpid pid k ih => exact ih hp
  | waitFor pid k ih => exact ih hp

/-- What does not return leaves the same whatever were to come next. -/
theorem NeverReturns.run_bind {p : Prog α} (hp : p.NeverReturns) (f : α → Prog β) (env : Env W)
    (x : Ctx W) :
    ((p >>= f).run env x).log = (p.run env x).log ∧
      ((p >>= f).run env x).ctx = (p.run env x).ctx := by
  induction p generalizing x with
  | ret a => exact hp.elim
  | ub => exact ⟨rfl, rfl⟩
  | exit n => exact ⟨rfl, rfl⟩
  | call c k ih =>
      simp only [call_bind, Prog.run]
      cases happ : c.apply env x with
      | none => exact ⟨rfl, rfl⟩
      | some ry =>
          obtain ⟨hlog, hctx⟩ := ih ry.1 (hp.2 _ (Call.valid_of_apply happ)) ry.2
          exact ⟨congrArg (_ ++ ·) hlog, hctx⟩
  | fork k ih =>
      obtain ⟨hlog, hctx⟩ := ih .child (hp .child) { x with procs := x.procs + 1 }
      simp only [fork_bind, Prog.run, hlog, hctx]
      obtain ⟨hlog', hctx'⟩ := ih (.parent x.procs) (hp _)
        (x.after ((k .child).run env { x with procs := x.procs + 1 }).ctx)
      exact ⟨congrArg (_ ++ ·) hlog', hctx'⟩
  | execvp argv k ih =>
      simp only [execvp_bind, Prog.run]
      cases env.exec x.world (x.fds.launch argv) with
      | none =>
          obtain ⟨hlog, hctx⟩ := ih hp.2 x
          exact ⟨congrArg (_ ++ ·) hlog, hctx⟩
      | some iw => exact ⟨rfl, rfl⟩
  | waitpid pid k ih => exact ih hp x
  | waitFor pid k ih => exact ih hp x

theorem ChildrenEnd.run_bind {p : Prog α} (hp : p.ChildrenEnd) (f : α → Prog β) (x : Ctx W) :
    (p >>= f).run env x = (p.run env x).bind fun a y => (f a).run env y := by
  induction p generalizing x with
  | ret a => rfl
  | ub => rfl
  | exit n => rfl
  | call c k ih =>
      simp only [call_bind, Prog.run]
      cases c.apply env x with
      | none => rfl
      | some ry =>
          show ((k ry.1 >>= f).run env ry.2).prepend _ = _
          rw [ih ry.1 (hp ry.1), Run.bind_prepend]
  | fork k ih =>
      obtain ⟨hlog, hctx⟩ := hp.1.run_bind f env { x with procs := x.procs + 1 }
      simp only [fork_bind, Prog.run, hlog, hctx]
      rw [ih _ (hp.2.2 x.procs), Run.bind_prepend]
  | execvp argv k ih =>
      simp only [execvp_bind, Prog.run]
      cases env.exec x.world (x.fds.launch argv) with
      | none =>
          show ((k >>= f).run env x).prepend _ = _
          rw [ih hp, Run.bind_prepend]
      | some iw => rfl
  | waitpid pid k ih => exact ih hp x
  | waitFor pid k ih => exact ih hp x

end Prog

end UnixSys

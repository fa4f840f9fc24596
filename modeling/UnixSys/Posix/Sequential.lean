import UnixSys.Posix.Prog

/-!
# Sequential — running a program one process at a time

The run in which every child goes on to its `execvp` or `exit`, and a command
to its end, before its parent takes another step. Its log has every call with
its arguments and its result. `Prog.Rel` relates two programs that make the same calls; they
have the same log and leave the system in the same state.
-/

namespace UnixSys

/-- A call without a result is undefined behaviour. -/
inductive Event where
  | call (c : Call) (r : Option c.Res)
  | launch (l : Launch)

def Event.launch? : Event → Option Launch
  | .call _ _ => none
  | .launch l => some l

/-- How a process left the program: with a result, through `exit`, through a
successful `execvp`, or into undefined behaviour. -/
inductive Outcome (α : Type) where
  | ret (a : α)
  | exited (status : Nat)
  | execed
  | ub

structure Run (W α : Type) where
  outcome : Outcome α
  ctx : Ctx W
  log : List Event

namespace Run

variable {W α : Type}

/-- The launches of a run, in order. -/
def launches (r : Run W α) : List Launch := r.log.filterMap Event.launch?

def prepend (log : List Event) (r : Run W α) : Run W α := { r with log := log ++ r.log }

@[simp] theorem outcome_prepend (log : List Event) (r : Run W α) :
    (r.prepend log).outcome = r.outcome := rfl

@[simp] theorem ctx_prepend (log : List Event) (r : Run W α) :
    (r.prepend log).ctx = r.ctx := rfl

@[simp] theorem log_prepend (log : List Event) (r : Run W α) :
    (r.prepend log).log = log ++ r.log := rfl

theorem launches_prepend (log : List Event) (r : Run W α) :
    (r.prepend log).launches = log.filterMap Event.launch? ++ r.launches := by
  simp [launches, List.filterMap_append]

@[simp] theorem prepend_prepend (l₁ l₂ : List Event) (r : Run W α) :
    (r.prepend l₂).prepend l₁ = r.prepend (l₁ ++ l₂) := by
  simp [prepend]

end Run

variable {W α β : Type}

/-- The context the parent goes on with when its child left the system as in `y`. -/
def Ctx.after (x y : Ctx W) : Ctx W :=
  { x with world := y.world, pipes := y.pipes, procs := y.procs }

/-- A process with the descriptors of a terminal session, and no other process. -/
def Ctx.terminal : Ctx Unit := ⟨stdFds, [], (), 0, 1⟩

/-- The sequential run. -/
def Prog.run (env : Env W) : Prog α → Ctx W → Run W α
  | .ret a, x => ⟨.ret a, x, []⟩
  | .ub, x => ⟨.ub, x, []⟩
  | .exit n, x => ⟨.exited n, x, []⟩
  | .call c k, x =>
      match c.apply env x with
      | none => ⟨.ub, x, [.call c none]⟩
      | some (r, y) => ((k r).run env y).prepend [.call c (some r)]
  | .fork k, x =>
      let child := (k .child).run env { x with procs := x.procs + 1 }
      ((k (.parent x.procs)).run env (x.after child.ctx)).prepend child.log
  | .execvp argv k, x =>
      let l := x.fds.launch argv
      match env.exec x.world l with
      | some (_, w) => ⟨.execed, { x with world := w }, [.launch l]⟩
      | none => (k.run env x).prepend [.launch l]
  | .waitpid _ k, x => k.run env x
  | .waitFor _ k, x => k.run env x

/-! ## Programs that make the same calls -/

/-- The two programs make the same calls, whatever (valid) results these have,
and return results related by `R`. -/
inductive Prog.Rel (R : α → β → Prop) : Prog α → Prog β → Prop
  | ret {a : α} {b : β} : R a b → Rel R (.ret a) (.ret b)
  | ub : Rel R .ub .ub
  | exit (n : Nat) : Rel R (.exit n) (.exit n)
  | call (c : Call) {k : c.Res → Prog α} {k' : c.Res → Prog β} :
      (∀ r, c.Valid r → Rel R (k r) (k' r)) → Rel R (.call c k) (.call c k')
  | fork {k : ForkResult → Prog α} {k' : ForkResult → Prog β} :
      (∀ r, Rel R (k r) (k' r)) → Rel R (.fork k) (.fork k')
  | execvp (argv : List Str) {k : Prog α} {k' : Prog β} :
      Rel R k k' → Rel R (.execvp argv k) (.execvp argv k')
  | waitpid (pid : Nat) {k : Prog α} {k' : Prog β} :
      Rel R k k' → Rel R (.waitpid pid k) (.waitpid pid k')
  | waitFor (pid : Nat) {k : Prog α} {k' : Prog β} :
      Rel R k k' → Rel R (.waitFor pid k) (.waitFor pid k')

namespace Prog.Rel

theorem bind {γ δ : Type} {R : α → β → Prop} {S : γ → δ → Prop} {p : Prog α} {q : Prog β}
    {f : α → Prog γ} {g : β → Prog δ} (h : Rel R p q)
    (hfg : ∀ a b, R a b → Rel S (f a) (g b)) : Rel S (p >>= f) (q >>= g) := by
  induction h with
  | ret h => exact hfg _ _ h
  | ub => exact .ub
  | exit n => exact .exit n
  | call c _ ih => exact .call c ih
  | fork _ ih => exact .fork ih
  | execvp argv _ ih => exact .execvp argv ih
  | waitpid pid _ ih => exact .waitpid pid ih
  | waitFor pid _ ih => exact .waitFor pid ih

theorem mono {R S : α → β → Prop} {p : Prog α} {q : Prog β} (h : Rel R p q)
    (hRS : ∀ a b, R a b → S a b) : Rel S p q := by
  induction h with
  | ret h => exact .ret (hRS _ _ h)
  | ub => exact .ub
  | exit n => exact .exit n
  | call c _ ih => exact .call c ih
  | fork _ ih => exact .fork ih
  | execvp argv _ ih => exact .execvp argv ih
  | waitpid pid _ ih => exact .waitpid pid ih
  | waitFor pid _ ih => exact .waitFor pid ih

theorem refl {R : α → α → Prop} (hR : ∀ a, R a a) (p : Prog α) : Rel R p p := by
  induction p with
  | ret a => exact .ret (hR a)
  | ub => exact .ub
  | exit n => exact .exit n
  | call c k ih => exact .call c fun r _ => ih r
  | fork k ih => exact .fork ih
  | execvp argv k ih => exact .execvp argv ih
  | waitpid pid k ih => exact .waitpid pid ih
  | waitFor pid k ih => exact .waitFor pid ih

theorem of_ret {R : α → β → Prop} {p : Prog α} {b : β} (h : Rel R p (.ret b)) :
    ∃ a, p = .ret a ∧ R a b := by
  cases h with
  | ret hab => exact ⟨_, rfl, hab⟩

theorem of_fork {R : α → β → Prop} {p : Prog α} {k' : ForkResult → Prog β}
    (h : Rel R p (.fork k')) : ∃ k, p = .fork k ∧ ∀ r, Rel R (k r) (k' r) := by
  cases h with
  | fork hk => exact ⟨_, rfl, hk⟩

theorem of_execvp {R : α → β → Prop} {p : Prog α} {argv : List Str} {q : Prog β}
    (h : Rel R p (.execvp argv q)) : ∃ p', p = .execvp argv p' := by
  cases h
  exact ⟨_, rfl⟩

theorem of_waitFor {R : α → β → Prop} {p : Prog α} {pid : Nat} {q : Prog β}
    (h : Rel R p (.waitFor pid q)) : ∃ p', p = .waitFor pid p' ∧ Rel R p' q := by
  cases h with
  | waitFor _ h => exact ⟨_, rfl, h⟩

end Prog.Rel

/-- The outcomes of related programs. -/
inductive Outcome.Rel (R : α → β → Prop) : Outcome α → Outcome β → Prop
  | ret {a : α} {b : β} : R a b → Rel R (.ret a) (.ret b)
  | exited (n : Nat) : Rel R (.exited n) (.exited n)
  | execed : Rel R .execed .execed
  | ub : Rel R .ub .ub

theorem Outcome.Rel.of_ret {R : α → β → Prop} {o : Outcome α} {b : β} (h : o.Rel R (.ret b)) :
    ∃ a, o = .ret a ∧ R a b := by
  cases h with
  | ret hab => exact ⟨_, rfl, hab⟩

theorem Outcome.Rel.of_exited {R : α → β → Prop} {a : Outcome α} {n : Nat}
    (h : a.Rel R (.exited n)) : a = .exited n := by
  cases h
  rfl

/-- Two runs with the same log that leave the same context. -/
structure Run.Rel (R : α → β → Prop) (r : Run W α) (r' : Run W β) : Prop where
  outcome : r.outcome.Rel R r'.outcome
  ctx : r.ctx = r'.ctx
  log : r.log = r'.log

theorem Run.Rel.prepend {R : α → β → Prop} {r : Run W α} {r' : Run W β} (h : r.Rel R r')
    (log : List Event) : (r.prepend log).Rel R (r'.prepend log) :=
  ⟨h.outcome, h.ctx, congrArg (log ++ ·) h.log⟩

/-- Related programs run alike. -/
theorem Prog.Rel.run {R : α → β → Prop} {p : Prog α} {q : Prog β} (h : p.Rel R q)
    (env : Env W) (x : Ctx W) : (p.run env x).Rel R (q.run env x) := by
  induction h generalizing x with
  | ret h => exact ⟨.ret h, rfl, rfl⟩
  | ub => exact ⟨.ub, rfl, rfl⟩
  | exit n => exact ⟨.exited n, rfl, rfl⟩
  | call c _ ih =>
      simp only [Prog.run]
      cases happ : c.apply env x with
      | none => exact ⟨.ub, rfl, rfl⟩
      | some ry =>
          obtain ⟨r, y⟩ := ry
          exact (ih r (Call.valid_of_apply happ) y).prepend _
  | fork _ ih =>
      have hchild := ih .child { x with procs := x.procs + 1 }
      simp only [Prog.run]
      rw [hchild.ctx, hchild.log]
      exact (ih _ _).prepend _
  | execvp argv _ ih =>
      simp only [Prog.run]
      cases env.exec x.world (x.fds.launch argv) with
      | none => exact (ih x).prepend _
      | some iw => exact ⟨.execed, rfl, rfl⟩
  | waitpid pid _ ih => exact ih x
  | waitFor pid _ ih => exact ih x

theorem Prog.Rel.launches_eq {R : α → β → Prop} {p : Prog α} {q : Prog β} (h : p.Rel R q)
    (env : Env W) (x : Ctx W) : (p.run env x).launches = (q.run env x).launches := by
  simp only [Run.launches, (h.run env x).log]

end UnixSys

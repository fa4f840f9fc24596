import UnixSys.Posix.Sequential

/-!
# Passes — what a program has done when it hands on

The sequential run of a program up to its result: the launches on the way, and
the context in which the program goes on. What it has put in the stdio buffer
plays no part in what it does next.
-/

namespace UnixSys

variable {W α β : Type} {env : Env W}

/-! ## Observations -/

/-- How a program was left, without its result. -/
def Outcome.void : Outcome α → Outcome Unit
  | .ret _ => .ret ()
  | .exited n => .exited n
  | .execed => .execed
  | .ub => .ub

/-- The launches of a run, in order, and how the run ended. -/
def Run.observed (r : Run W α) : List Launch × Outcome Unit := (r.launches, r.outcome.void)

theorem Run.observed_prepend (log : List Event) (r : Run W α) : (r.prepend log).observed =
    (log.filterMap Event.launch? ++ r.observed.1, r.observed.2) := by
  rw [Run.observed, Run.launches_prepend]
  rfl

theorem Prog.Rel.observed_eq {R : α → β → Prop} {p : Prog α} {q : Prog β} (h : p.Rel R q)
    (env : Env W) (x : Ctx W) : (p.run env x).observed = (q.run env x).observed := by
  have hvoid : ∀ {o : Outcome α} {o' : Outcome β}, o.Rel R o' → o.void = o'.void := by
    intro o o' ho
    cases ho <;> rfl
  simp only [Run.observed, h.launches_eq env x, hvoid (h.run env x).outcome]

/-- The run has a result. -/
def Run.Returns (r : Run W α) : Prop := ∃ a, r.outcome = .ret a

theorem Run.returns_iff (r : Run W α) : r.Returns ↔ r.observed.2 = .ret () := by
  rw [Run.observed, Run.Returns]
  cases r.outcome with
  | ret a => exact iff_of_true ⟨a, rfl⟩ rfl
  | _ => exact iff_of_false (by simp) (by simp [Outcome.void])

theorem Prog.not_returns_ub (x : Ctx W) : ¬ ((Prog.ub : Prog α).run env x).Returns := by
  rintro ⟨a, ha⟩
  cases ha

theorem Prog.Rel.returns_iff {R : α → β → Prop} {p : Prog α} {q : Prog β} (h : p.Rel R q)
    (env : Env W) (x : Ctx W) : (p.run env x).Returns ↔ (q.run env x).Returns := by
  rw [Run.returns_iff, Run.returns_iff, h.observed_eq]

/-! ## The stdio buffer -/

/-- Contexts that differ at most in the stdio buffer. -/
def Ctx.Like (x y : Ctx W) : Prop := ∃ buf, y = { x with buf := buf }

theorem Call.apply_like (env : Env W) (c : Call) {x y : Ctx W} (h : x.Like y) :
    (c.apply env x = none ∧ c.apply env y = none) ∨
    ∃ r x' y', c.apply env x = some (r, x') ∧ c.apply env y = some (r, y') ∧ x'.Like y' := by
  obtain ⟨buf, rfl⟩ := h
  cases c with
  | printf text => exact .inr ⟨_, _, _, rfl, rfl, ⟨_, rfl⟩⟩
  | perror text => exact .inr ⟨_, _, _, rfl, rfl, ⟨_, rfl⟩⟩
  | strcasecmp s t =>
      cases s with
      | none => exact .inl ⟨rfl, rfl⟩
      | some s => exact .inr ⟨_, _, _, rfl, rfl, ⟨_, rfl⟩⟩
  | glob pat => exact .inr ⟨_, _, _, rfl, rfl, ⟨_, rfl⟩⟩
  | openFile path how =>
      simp only [Call.apply]
      cases env.openFile x.world path how with
      | none => exact .inr ⟨_, _, _, rfl, rfl, ⟨_, rfl⟩⟩
      | some w => exact .inr ⟨_, _, _, rfl, rfl, ⟨_, rfl⟩⟩
  | dup fd =>
      simp only [Call.apply]
      cases x.fds.get fd with
      | none => exact .inr ⟨_, _, _, rfl, rfl, ⟨_, rfl⟩⟩
      | some o => exact .inr ⟨_, _, _, rfl, rfl, ⟨_, rfl⟩⟩
  | dup2 old new => exact .inr ⟨_, _, _, rfl, rfl, ⟨_, rfl⟩⟩
  | close fd => exact .inr ⟨_, _, _, rfl, rfl, ⟨_, rfl⟩⟩
  | pipe => exact .inr ⟨_, _, _, rfl, rfl, ⟨_, rfl⟩⟩

/-- The context once a child has executed `args`. -/
def Ctx.ran (env : Env W) (x : Ctx W) (args : List Str) : Ctx W :=
  { x with
    world := (env.exec x.world (x.fds.launch args)).elim x.world Prod.snd
    procs := x.procs + 1 }

/-- Two runs that end alike, with the same log. -/
structure Run.Like (r r' : Run W α) : Prop where
  outcome : r.outcome = r'.outcome
  log : r.log = r'.log
  ctx : r.ctx.Like r'.ctx

theorem Run.Like.prepend {r r' : Run W α} (h : r.Like r') (log : List Event) :
    (r.prepend log).Like (r'.prepend log) :=
  ⟨h.outcome, congrArg (log ++ ·) h.log, h.ctx⟩

theorem Run.Like.observed_eq {r r' : Run W α} (h : r.Like r') : r.observed = r'.observed := by
  simp only [Run.observed, Run.launches, h.outcome, h.log]

/-- No program looks at its stdio buffer. -/
theorem Prog.run_like (p : Prog α) {x y : Ctx W} (h : x.Like y) :
    (p.run env x).Like (p.run env y) := by
  induction p generalizing x y with
  | ret a => exact ⟨rfl, rfl, h⟩
  | ub => exact ⟨rfl, rfl, h⟩
  | exit n => exact ⟨rfl, rfl, h⟩
  | call c k ih =>
      simp only [Prog.run]
      rcases c.apply_like env h with ⟨hx, hy⟩ | ⟨r, x', y', hx, hy, hlike⟩
      · rw [hx, hy]
        exact ⟨rfl, rfl, h⟩
      · rw [hx, hy]
        exact (ih r hlike).prepend _
  | fork k ih =>
      obtain ⟨buf, rfl⟩ := h
      obtain ⟨hout, hlog, buf', hctx⟩ := ih .child (x := { x with procs := x.procs + 1 })
        (y := { x with procs := x.procs + 1, buf := buf }) ⟨buf, rfl⟩
      simp only [Prog.run]
      rw [hlog, hctx]
      exact (ih _ ⟨buf, rfl⟩).prepend _
  | execvp argv k ih =>
      obtain ⟨buf, rfl⟩ := h
      simp only [Prog.run]
      cases env.exec x.world (x.fds.launch argv) with
      | none => exact (ih ⟨buf, rfl⟩).prepend _
      | some iw => exact ⟨rfl, rfl, buf, rfl⟩
  | waitpid pid k ih => exact ih h
  | waitFor pid k ih => exact ih h

/-! ## Passing -/

/-- From `x` the program gets to its result `a` in `y`, after the launches `ls`,
whatever comes next. -/
def Prog.Passes (env : Env W) (p : Prog α) (x : Ctx W) (ls : List Launch) (a : α)
    (y : Ctx W) : Prop :=
  ∃ log : List Event, log.filterMap Event.launch? = ls ∧ ∀ {β : Type} (f : α → Prog β),
    (p >>= f).run env x = ((f a).run env y).prepend log

/-- From `x` the program runs into undefined behaviour, after the launches `ls`,
whatever were to come next. -/
def Prog.Crashes (env : Env W) (p : Prog α) (x : Ctx W) (ls : List Launch) : Prop :=
  ∃ (log : List Event) (y : Ctx W), log.filterMap Event.launch? = ls ∧
    ∀ {β : Type} (f : α → Prog β), (p >>= f).run env x = ⟨.ub, y, log⟩

namespace Prog

variable {x y z : Ctx W} {ls ls' : List Launch} {a : α} {b : β} {p : Prog α} {f : α → Prog β}

theorem Passes.ret (a : α) (x : Ctx W) : (Prog.ret a).Passes env x [] a x :=
  ⟨[], rfl, fun _ => rfl⟩

theorem Passes.bind (hp : p.Passes env x ls a y) (hf : (f a).Passes env y ls' b z) :
    (p >>= f).Passes env x (ls ++ ls') b z := by
  obtain ⟨log, rfl, hp⟩ := hp
  obtain ⟨log', rfl, hf⟩ := hf
  refine ⟨log ++ log', List.filterMap_append, fun g => ?_⟩
  rw [bind_bind, hp, hf, Run.prepend_prepend]

theorem Passes.call {c : Call} {r : c.Res} (h : c.apply env x = some (r, y)) :
    (Prog.call c .ret).Passes env x [] r y := by
  refine ⟨[.call c (some r)], rfl, fun f => ?_⟩
  simp only [call_bind, ret_bind, Prog.run, h]

theorem Passes.observed_bind (hp : p.Passes env x ls a y) (f : α → Prog β) :
    ((p >>= f).run env x).observed =
      (ls ++ ((f a).run env y).observed.1, ((f a).run env y).observed.2) := by
  obtain ⟨log, rfl, hp⟩ := hp
  rw [hp, Run.observed_prepend]

theorem Passes.observed (hp : p.Passes env x ls a y) : (p.run env x).observed = (ls, .ret ()) := by
  have h := hp.observed_bind pure
  rw [bind_pure] at h
  rw [h]
  simp [Prog.run, Run.observed, Run.launches, Outcome.void]

theorem Passes.launches (hp : p.Passes env x ls a y) : (p.run env x).launches = ls :=
  congrArg Prod.fst hp.observed

theorem Passes.outcome (hp : p.Passes env x ls a y) : (p.run env x).outcome = .ret a := by
  obtain ⟨log, -, hp⟩ := hp
  have h := hp pure
  rw [bind_pure] at h
  rw [h]
  rfl

theorem Passes.returns (hp : p.Passes env x ls a y) : (p.run env x).Returns := ⟨a, hp.outcome⟩

theorem Passes.returns_bind (hp : p.Passes env x ls a y) (f : α → Prog β) :
    ((p >>= f).run env x).Returns ↔ ((f a).run env y).Returns := by
  rw [Run.returns_iff, Run.returns_iff, hp.observed_bind]

/-- What is related to a program that passes has a result. -/
theorem Passes.of_rel {R : α → β → Prop} {q : Prog β} (h : p.Rel R q)
    (hq : q.Passes env x ls b y) : ∃ a, (p.run env x).outcome = .ret a ∧ R a b := by
  have hrun := (h.run env x).outcome
  rw [hq.outcome] at hrun
  exact hrun.of_ret

theorem Crashes.bind (hp : p.Crashes env x ls) (f : α → Prog β) :
    (p >>= f).Crashes env x ls := by
  obtain ⟨log, y, hls, hp⟩ := hp
  refine ⟨log, y, hls, fun g => ?_⟩
  rw [bind_bind, hp]

theorem Passes.crashes (hp : p.Passes env x ls a y) (hf : (f a).Crashes env y ls') :
    (p >>= f).Crashes env x (ls ++ ls') := by
  obtain ⟨log, rfl, hp⟩ := hp
  obtain ⟨log', z, rfl, hf⟩ := hf
  refine ⟨log ++ log', z, List.filterMap_append, fun g => ?_⟩
  rw [bind_bind, hp, hf]
  rfl

theorem Crashes.observed_bind (hp : p.Crashes env x ls) (f : α → Prog β) :
    ((p >>= f).run env x).observed = (ls, .ub) := by
  obtain ⟨log, y, rfl, hp⟩ := hp
  rw [hp]
  rfl

theorem Crashes.observed (hp : p.Crashes env x ls) : (p.run env x).observed = (ls, .ub) := by
  have h := hp.observed_bind pure
  rwa [bind_pure] at h

theorem Crashes.not_returns (hp : p.Crashes env x ls) : ¬ (p.run env x).Returns := by
  rw [Run.returns_iff, hp.observed]
  exact fun h => by cases h

theorem Crashes.launches (hp : p.Crashes env x ls) : (p.run env x).launches = ls :=
  congrArg Prod.fst hp.observed

end Prog

/-! ## What a program prints -/

/-- What a call adds to the stdio buffer. -/
def Call.text : Call → Str
  | .printf text => text
  | _ => []

theorem Call.buf_of_apply {c : Call} {x y : Ctx W} {r : c.Res} (h : c.apply env x = some (r, y)) :
    y.buf = x.buf ++ c.text := by
  cases c with
  | printf text =>
      cases h
      rfl
  | strcasecmp s t =>
      cases s with
      | none => cases h
      | some s =>
          cases h
          exact (List.append_nil _).symm
  | openFile path how =>
      simp only [Call.apply] at h
      split at h
      · cases h
        exact (List.append_nil _).symm
      · cases h
        exact (List.append_nil _).symm
  | dup fd =>
      simp only [Call.apply] at h
      split at h
      · cases h
        exact (List.append_nil _).symm
      · cases h
        exact (List.append_nil _).symm
  | _ =>
      cases h
      exact (List.append_nil _).symm

namespace Prog

/-- Wherever the program returns it has printed `t`, after what it had printed before,
`u`. What its children print is theirs. -/
def Emits : Prog α → Str → Str → Prop
  | .ret _, u, t => t = u
  | .ub, _, _ | .exit _, _, _ => True
  | .call c k, u, t => ∀ r, c.Valid r → (k r).Emits (u ++ c.text) t
  | .fork k, u, t => (k .failed).Emits u t ∧ ∀ pid, (k (.parent pid)).Emits u t
  | .execvp _ k, u, t | .waitpid _ k, u, t | .waitFor _ k, u, t => k.Emits u t

variable {u t v : Str} {p : Prog α}

theorem Emits.bind {f : α → Prog β} (hp : p.Emits u t) (hf : ∀ a, (f a).Emits t v) :
    (p >>= f).Emits u v := by
  induction p generalizing u with
  | ret a =>
      obtain rfl : t = u := hp
      exact hf a
  | ub => trivial
  | exit n => trivial
  | call c k ih => exact fun r hr => ih r (hp r hr)
  | fork k ih => exact ⟨ih _ hp.1, fun pid => ih _ (hp.2 pid)⟩
  | execvp argv k ih => exact ih hp
  | waitpid pid k ih => exact ih hp
  | waitFor pid k ih => exact ih hp

theorem Rel.emits {R : α → β → Prop} {q : Prog β} (h : p.Rel R q) (hq : q.Emits u t) :
    p.Emits u t := by
  induction h generalizing u with
  | ret _ => exact hq
  | ub => trivial
  | exit n => trivial
  | call c _ ih => exact fun r hr => ih r hr (hq r hr)
  | fork _ ih => exact ⟨ih _ hq.1, fun pid => ih _ (hq.2 pid)⟩
  | execvp argv _ ih => exact ih hq
  | waitpid pid _ ih => exact ih hq
  | waitFor pid _ ih => exact ih hq

theorem Emits.run {x : Ctx W} {b : Str} (hp : p.Emits u t) (hret : (p.run env x).Returns)
    (hx : x.buf = b ++ u) : (p.run env x).ctx.buf = b ++ t := by
  obtain ⟨a, hret⟩ := hret
  induction p generalizing x u with
  | ret a =>
      obtain rfl : t = u := hp
      exact hx
  | ub => cases hret
  | exit n => cases hret
  | call c k ih =>
      simp only [Prog.run] at hret ⊢
      cases happ : c.apply env x with
      | none =>
          rw [happ] at hret
          cases hret
      | some ry =>
          rw [happ] at hret
          refine ih ry.1 (hp _ (Call.valid_of_apply happ)) ?_ hret
          rw [Call.buf_of_apply happ, hx, List.append_assoc]
  | fork k ih => exact ih _ (hp.2 x.procs) hx hret
  | execvp argv k ih =>
      simp only [Prog.run] at hret ⊢
      cases hexec : env.exec x.world (x.fds.launch argv) with
      | none =>
          rw [hexec] at hret
          exact ih hp hx hret
      | some iw =>
          rw [hexec] at hret
          cases hret
  | waitpid pid k ih => exact ih hp hx hret
  | waitFor pid k ih => exact ih hp hx hret

end Prog

end UnixSys

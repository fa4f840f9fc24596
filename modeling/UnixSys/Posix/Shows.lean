import UnixSys.Posix.Passes

/-!
# Shows — the expansions of a run, and what it launches

Of the events of a run the calls of `glob` with their answers and the launches are
shown. A launch together with the answers that `glob` gave since the launch
before it is a command as it was executed.
-/

namespace UnixSys

variable {W α β : Type} {env : Env W}

/-! ## Commands as they were executed -/

/-- A launch, with the patterns expanded for it and what `glob` answered to each. -/
structure Executed where
  globs : List (Str × Option (List Str))
  launch : Launch
  deriving DecidableEq

/-- The commands of a log, with `gs` expanded before it. -/
def executed : List (Str × Option (List Str)) → List Event → List Executed
  | _, [] => []
  | gs, .launch l :: log => ⟨gs, l⟩ :: executed [] log
  | gs, .call (.glob pat) (some r) :: log => executed (gs ++ [(pat, r)]) log
  | gs, _ :: log => executed gs log

def Run.executed (r : Run W α) : List Executed := UnixSys.executed [] r.log

def Event.shown : Event → Bool
  | .launch _ | .call (.glob _) (some _) => true
  | .call _ _ => false

def Executed.events (e : Executed) : List Event :=
  e.globs.map (fun g => .call (.glob g.1) (some g.2)) ++ [.launch e.launch]

theorem executed_filter (gs : List (Str × Option (List Str))) (log : List Event) :
    executed gs (log.filter Event.shown) = executed gs log := by
  induction gs, log using executed.induct with
  | case1 gs => rfl
  | case2 gs l log ih => exact congrArg (⟨gs, l⟩ :: ·) ih
  | case3 gs pat r log ih => exact ih
  | case4 gs e log hlaunch hglob ih =>
      have hshown : e.shown = false := by
        cases e with
        | launch l => exact absurd rfl (hlaunch l)
        | call c r =>
            cases c with
            | glob pat =>
                cases r with
                | none => rfl
                | some r => exact absurd rfl (hglob pat r)
            | _ => rfl
      rw [List.filter_cons_of_neg (by simp [hshown]), ih, executed]
      · exact hlaunch
      · exact hglob

theorem executed_globs (gs gs' : List (Str × Option (List Str))) (log : List Event) :
    executed gs (gs'.map (fun g => .call (.glob g.1) (some g.2)) ++ log) =
      executed (gs ++ gs') log := by
  induction gs' generalizing gs with
  | nil => rw [List.append_nil]; rfl
  | cons g gs' ih =>
      rw [List.map_cons, List.cons_append, executed, ih, List.append_assoc, List.singleton_append]

theorem executed_events (es : List Executed) : executed [] (es.flatMap Executed.events) = es := by
  induction es with
  | nil => rfl
  | cons e es ih =>
      rw [List.flatMap_cons, Executed.events, List.append_assoc, executed_globs,
        List.nil_append, List.singleton_append, executed, ih]

theorem launches_events (e : Executed) : e.events.filterMap Event.launch? = [e.launch] := by
  have hglobs : (e.globs.map fun g =>
      Event.call (.glob g.1) (some g.2)).filterMap Event.launch? = [] := by
    rw [List.filterMap_eq_nil_iff]
    intro a ha
    obtain ⟨g, -, rfl⟩ := List.mem_map.mp ha
    rfl
  rw [Executed.events, List.filterMap_append, hglobs]
  rfl

theorem map_launch_executed (gs : List (Str × Option (List Str))) (log : List Event) :
    (executed gs log).map Executed.launch = log.filterMap Event.launch? := by
  induction gs, log using executed.induct with
  | case1 gs => rfl
  | case2 gs l log ih => exact congrArg (l :: ·) ih
  | case3 gs pat r log ih => exact ih
  | case4 gs e log hlaunch hglob ih =>
      rw [executed]
      · cases e with
        | launch l => exact absurd rfl (hlaunch l)
        | call c r => exact ih
      · exact hlaunch
      · exact hglob

/-- Every launch is that of a command. -/
theorem Run.launches_eq (r : Run W α) : r.launches = r.executed.map Executed.launch :=
  (map_launch_executed [] r.log).symm

theorem launch?_shown (log : List Event) :
    (log.filter Event.shown).filterMap Event.launch? = log.filterMap Event.launch? := by
  induction log with
  | nil => rfl
  | cons e log ih =>
      rw [List.filter_cons]
      cases e with
      | launch l => exact congrArg (l :: ·) ih
      | call c r =>
          split
          · exact ih
          · exact ih

/-! ## Programs that hand on -/

/-- From `x` the program gets to its result `a` in `y`, having shown the events
`ss`, whatever comes next. -/
def Prog.Shows (env : Env W) (p : Prog α) (x : Ctx W) (ss : List Event) (a : α) (y : Ctx W) :
    Prop :=
  ∃ log : List Event, log.filter Event.shown = ss ∧ ∀ {β : Type} (f : α → Prog β),
    (p >>= f).run env x = ((f a).run env y).prepend log

/-- From `x` a child shows the events `ss` and leaves the system as `y`; it never
gets to what comes next. -/
def Prog.EndsShowing (env : Env W) (p : Prog α) (x : Ctx W) (ss : List Event) (y : Ctx W) :
    Prop :=
  ∃ log : List Event, log.filter Event.shown = ss ∧ ∀ {β : Type} (f : α → Prog β),
    ((p >>= f).run env x).log = log ∧ ((p >>= f).run env x).ctx = y

namespace Prog

variable {x y z : Ctx W} {ss ss' : List Event} {a : α} {b : β} {p : Prog α} {f : α → Prog β}

theorem Shows.passes (h : p.Shows env x ss a y) :
    p.Passes env x (ss.filterMap Event.launch?) a y := by
  obtain ⟨log, rfl, hp⟩ := h
  exact ⟨log, (launch?_shown log).symm, hp⟩

theorem Shows.executed {es : List Executed} (h : p.Shows env x (es.flatMap Executed.events) a y) :
    (p.run env x).executed = es := by
  obtain ⟨log, hlog, hp⟩ := h
  have hrun := hp pure
  rw [bind_pure] at hrun
  rw [Run.executed, hrun, Run.log_prepend]
  show UnixSys.executed [] (log ++ []) = es
  rw [List.append_nil, ← executed_filter, hlog, executed_events]

theorem Rel.executed_eq {R : α → β → Prop} {q : Prog β} (h : p.Rel R q) (env : Env W)
    (x : Ctx W) : (p.run env x).executed = (q.run env x).executed := by
  rw [Run.executed, Run.executed, (h.run env x).log]

theorem Shows.ret (a : α) (x : Ctx W) : (Prog.ret a).Shows env x [] a x :=
  ⟨[], rfl, fun _ => rfl⟩

theorem Shows.bind (hp : p.Shows env x ss a y) (hf : (f a).Shows env y ss' b z) :
    (p >>= f).Shows env x (ss ++ ss') b z := by
  obtain ⟨log, rfl, hp⟩ := hp
  obtain ⟨log', rfl, hf⟩ := hf
  refine ⟨log ++ log', List.filter_append _ _, fun g => ?_⟩
  rw [bind_bind, hp, hf, Run.prepend_prepend]

theorem Shows.call {c : Call} {r : c.Res} (h : c.apply env x = some (r, y)) :
    (Prog.call c .ret).Shows env x ([.call c (some r)].filter Event.shown) r y := by
  refine ⟨[.call c (some r)], rfl, fun f => ?_⟩
  simp only [call_bind, ret_bind, Prog.run, h]

theorem Shows.ends (hp : p.Shows env x ss a y) (hf : (f a).EndsShowing env y ss' z) :
    (p >>= f).EndsShowing env x (ss ++ ss') z := by
  obtain ⟨log, rfl, hp⟩ := hp
  obtain ⟨log', rfl, hf⟩ := hf
  refine ⟨log ++ log', List.filter_append _ _, fun g => ?_⟩
  rw [bind_bind, hp]
  exact ⟨congrArg (log ++ ·) (hf g).1, (hf g).2⟩

theorem Shows.fork (ss ss' : List Event) {k : ForkResult → Prog α}
    (hchild : (k .child).EndsShowing env { x with procs := x.procs + 1 } ss y)
    (hparent : (k (.parent x.procs)).Shows env (x.after y) ss' a z) :
    (Prog.fork k).Shows env x (ss ++ ss') a z := by
  obtain ⟨log, rfl, hchild⟩ := hchild
  obtain ⟨log', rfl, hparent⟩ := hparent
  refine ⟨log ++ log', List.filter_append _ _, fun f => ?_⟩
  simp only [fork_bind, Prog.run, (hchild f).1, (hchild f).2, hparent, Run.prepend_prepend]

theorem EndsShowing.exit (n : Nat) (x : Ctx W) : (Prog.exit n : Prog α).EndsShowing env x [] x :=
  ⟨[], rfl, fun _ => ⟨rfl, rfl⟩⟩

/-- `execvp` that is followed by an `exit`, as in every child of the shell. -/
theorem EndsShowing.execvp {args : List Str} {k : Prog α}
    (hk : ∀ x : Ctx W, ∃ y, k.EndsShowing env x [] y ∧ y.world = x.world ∧ y.procs = x.procs ∧
      y.pipes = x.pipes) (x : Ctx W) :
    ∃ y, (Prog.execvp args k).EndsShowing env x [.launch (x.fds.launch args)] y ∧
      y.world = (env.exec x.world (x.fds.launch args)).elim x.world Prod.snd ∧
      y.procs = x.procs ∧ y.pipes = x.pipes := by
  cases hexec : env.exec x.world (x.fds.launch args) with
  | none =>
      obtain ⟨y, ⟨log, hlog, hk⟩, hy⟩ := hk x
      refine ⟨y, ⟨.launch (x.fds.launch args) :: log, ?_, fun f => ?_⟩, hy⟩
      · rw [List.filter_cons_of_pos rfl, hlog]
      · simp [Prog.run, hexec, (hk f).1, (hk f).2]
  | some iw =>
      refine ⟨{ x with world := iw.2 }, ⟨[.launch (x.fds.launch args)], rfl, fun f => ?_⟩,
        rfl, rfl, rfl⟩
      simp [Prog.run, hexec]

/-! ### Silent programs -/

/-- From everywhere the program hands on, having shown nothing, in the same file
system. -/
def Silent (env : Env W) (p : Prog α) : Prop :=
  ∀ x : Ctx W, ∃ a y, p.Shows env x [] a y ∧ y.world = x.world

theorem Silent.passes (hp : p.Silent env) (x : Ctx W) : ∃ a y, p.Passes env x [] a y := by
  obtain ⟨a, y, hp, -⟩ := hp x
  exact ⟨a, y, hp.passes⟩

theorem Silent.bind (hp : p.Silent env) (hf : ∀ a, (f a).Silent env) :
    (p >>= f).Silent env := by
  intro x
  obtain ⟨a, y, hp, hy⟩ := hp x
  obtain ⟨b, z, hf, hz⟩ := hf a y
  exact ⟨b, z, hp.bind hf, hz.trans hy⟩

theorem Silent.ret (a : α) : (Prog.ret a).Silent env := fun x => ⟨a, x, .ret a x, rfl⟩

theorem Silent.call {c : Call} (hc : ∀ x : Ctx W, ∃ r y, c.apply env x = some (r, y) ∧
    Event.shown (.call c (some r)) = false ∧ y.world = x.world) :
    (Prog.call c .ret).Silent env := by
  intro x
  obtain ⟨r, y, happ, hshown, hy⟩ := hc x
  have h := Shows.call happ
  rw [List.filter_cons_of_neg (by simp [hshown])] at h
  exact ⟨r, y, h, hy⟩

/-! ### Argument lists -/

/-- From everywhere the program passes, and launches these argument lists. -/
def Argvs (env : Env W) (p : Prog Unit) (argvs : List (List Str)) : Prop :=
  ∀ x : Ctx W, ∃ ls y, p.Passes env x ls () y ∧ ls.map Launch.argv = argvs

variable {q : Prog Unit} {as bs : List (List Str)}

theorem Argvs.bind {p : Prog Unit} (hp : p.Argvs env as) (hq : q.Argvs env bs) :
    (do p; q).Argvs env (as ++ bs) := by
  intro x
  obtain ⟨ls, y, hpass, rfl⟩ := hp x
  obtain ⟨ls', z, hpass', rfl⟩ := hq y
  exact ⟨ls ++ ls', z, hpass.bind hpass', List.map_append⟩

theorem Silent.argvs (hq : q.Silent env) : q.Argvs env [] := by
  intro x
  obtain ⟨_, y, hq⟩ := hq.passes x
  exact ⟨[], y, hq, rfl⟩

end Prog

end UnixSys

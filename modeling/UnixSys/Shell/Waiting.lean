import UnixSys.Posix.Wait
import UnixSys.Shell.Session
import UnixSys.Shell.Branches

/-!
# Waiting — `while (wait(&status) != pid)` in `execute`

Every branch of `main` has waited for the child it made before it makes another
or prints the prompt, whatever the memory holds and the line says
(`body_settles`). So the loop of `execute` waits for the only child there is, and
with the default disposition of `SIGCHLD` it ends. A shell that inherited
`SIGCHLD` ignored calls `wait` without a child as soon as a command has ended.
-/

namespace UnixSys.Shell

open Posix

variable {W α β : Type} {env : Env W}

/-- The program leaves no child behind. -/
def Settles (env : Env W) (p : Prog α) : Prop :=
  ∀ v : View, v.child = none →
    p.Solo env True (fun _ _ _ => True) (fun _ v => v.child = none) v

/-- A child on its way to `execvp` or `exit`. -/
def GoesOn (env : Env W) (p : Prog α) : Prop :=
  ∀ T, p.Child env True (fun _ _ => True) T

theorem Settles.bind {p : Prog α} {f : α → Prog β} (hp : Settles env p)
    (hf : ∀ a, Settles env (f a)) : Settles env (p >>= f) := by
  intro v hv
  exact (hp v hv).bind fun a v hv => hf a v hv

theorem Settles.ret (a : α) : Settles env (.ret a) := fun _ hv => hv

theorem lift_settles (a : Option α) : Settles env (Prog.lift a) := by
  intro v hv
  cases a with
  | none => trivial
  | some a => exact hv

/-- A call that is not `pipe` changes neither the children nor the pipes. -/
theorem call_settles (c : Call) : Settles env (.call c .ret) := by
  intro v hv x _ _
  cases happ : c.apply env x with
  | none => trivial
  | some _ => exact hv

/-! ## The functions that `main` calls -/

theorem execute_settles (m : Mem) (argv : PtrArr) : Settles env (execute m argv) := by
  intro v hv
  refine ⟨hv, ?_, rfl, rfl⟩
  show Prog.Child env True _ (Prog.lift (m.args argv) >>= _) v.fds
  cases m.args argv with
  | none => trivial
  | some args => exact ⟨trivial, .printf trivial⟩

theorem expandWildcards_settles (m : Mem) (argv ex : PtrArr) (j : Nat) :
    Settles env (expandWildcards m argv ex j) := by
  intro v hv
  have h := expandWildcards_rule (f := .ret)
    (P := fun p : Prog (Mem × PtrArr) =>
      p.Solo env True (fun _ _ _ => True) (fun _ v => v.child = none) v)
    trivial (fun _ _ hk => .glob fun w => hk _) (fun _ => hv) m argv ex j
  rwa [show expandWildcards m argv ex j >>= Prog.ret = expandWildcards m argv ex j from
    Prog.bind_ret _] at h

theorem fileRedir_settles (redirection file : Str) : Settles env (fileRedir redirection file) := by
  have hreplace : ∀ how fd, Settles env (do
      let fdin ← openFile file how
      if fdin < 0 then perror file
      else do
        dup2 fdin fd
        close fdin) := by
    intro how fd
    refine (call_settles _).bind ?_
    intro fdin
    split
    · exact call_settles _
    · exact (call_settles _).bind fun _ => call_settles _
  unfold fileRedir
  split
  · exact hreplace _ 0
  · split
    · exact hreplace _ 1
    · exact .ret _

theorem redirTo_settles (m : Mem) (redirection : Str) (file : Ptr) :
    Settles env (redirTo m redirection file) := by
  cases file with
  | null => exact .ret _
  | undef => exact (lift_settles _).bind fun _ => fileRedir_settles _ _
  | «at» b o => exact (lift_settles _).bind fun _ => fileRedir_settles _ _

/-! ## The branches -/

theorem redirCase_settles (m : Mem) (argv ex : PtrArr) : Settles env (redirCase m argv ex) := by
  refine (call_settles _).bind fun originalStdin => ?_
  refine (call_settles _).bind fun originalStdout => ?_
  refine (lift_settles _).bind fun files => ?_
  refine (redirTo_settles m _ files.1).bind fun _ => ?_
  refine (redirTo_settles m _ files.2.1).bind fun _ => ?_
  refine (expandWildcards_settles m files.2.2 ex 0).bind fun r => ?_
  refine (execute_settles r.1 r.2).bind fun _ => ?_
  -- the shell takes its descriptors back
  refine (call_settles _).bind fun _ => (call_settles _).bind fun _ => ?_
  refine (call_settles _).bind fun _ => (call_settles _).bind fun _ => ?_
  exact (call_settles _).bind fun _ => .ret _

/-- A child of the pipe loop: it goes on with its stage. -/
theorem stage_goesOn {χ : Type} {stage : χ → Prog α} (hstage : ∀ c, GoesOn env (stage c)) (c : χ)
    (i : Nat) (last : Bool) (pfd prevPfd : Int × Int) : GoesOn env (do
      redirectStdin i prevPfd
      redirectStdout last pfd
      stage c) := by
  have hout : GoesOn env (do redirectStdout last pfd; stage c) := by
    intro T
    unfold redirectStdout
    split
    · exact hstage c T
    · exact .close (.dup2 (.close (hstage c _)))
  intro T
  unfold redirectStdin
  split
  · exact .close (.dup2 (.close (hout _)))
  · exact hout T

theorem pipeLoop_settles {χ : Type} {stage : χ → Prog α} {done : Prog α}
    (hstage : ∀ c, GoesOn env (stage c)) (hdone : Settles env done) (cs : List χ) (i : Nat)
    (pfd prevPfd : Int × Int) : Settles env (pipeLoop stage done cs i pfd prevPfd) := by
  induction cs generalizing i pfd prevPfd with
  | nil => exact hdone
  | cons c rest ih =>
      have hpipe : Settles env (newPipe rest.isEmpty pfd) := by
        unfold newPipe
        split
        · exact .ret _
        · refine (call_settles _).bind ?_
          intro r
          cases r with
          | none => exact (call_settles _).bind fun _ _ _ => trivial
          | some pfd => exact .ret _
      have hclose : Settles env (closePrev i prevPfd) := by
        unfold closePrev
        split
        · exact (call_settles _).bind fun _ => call_settles _
        · exact .ret _
      refine hpipe.bind ?_
      intro pfd' v hv
      refine ⟨hv, stage_goesOn hstage c i rest.isEmpty pfd' prevPfd v.fds, ?_⟩
      have hparent : ∀ u : View, u.child = some v.procs →
          (closePrev i prevPfd).Solo env True (fun _ _ _ => True)
            (fun _ u => u.child = some v.procs) u := by
        intro u hu
        unfold closePrev
        split
        · exact .close (.close hu)
        · exact hu
      refine (hparent _ rfl).bind ?_
      intro _ u hu
      exact ⟨hu, ih _ _ _ _ rfl⟩

theorem pipeStage_goesOn (m : Mem) (argv ex : PtrArr) (p : Ptr) :
    GoesOn env (pipeStage m argv ex p : Prog α) := by
  intro T
  cases p with
  | null => trivial
  | undef => trivial
  | «at» b o =>
      unfold pipeStage
      show Prog.Child env True _ (Prog.lift (m.onBlock b (parse b · o argv)) >>= _) T
      cases m.onBlock b (parse b · o argv) with
      | none => trivial
      | some parsed =>
          refine expandWildcards_rule (P := fun p : Prog α => p.Child env True (fun _ _ => True) T)
            trivial (fun _ _ hk => .glob fun w => hk _) ?_ _ _ _ _
          rintro ⟨m, _⟩
          show Prog.Child env True _ (Prog.lift (m.args parsed.2) >>= _) T
          cases m.args parsed.2 with
          | none => trivial
          | some args => exact ⟨trivial, .printf trivial⟩

/-! ## The read loop -/

theorem settles_inherited : Inherited fun p => Settles env p where
  ret := .ret
  ub := fun _ _ => trivial
  exit := fun _ _ _ => trivial
  bind := Settles.bind
  printf := fun _ => call_settles _
  strcasecmp := fun _ _ => call_settles _
  glob := fun _ => call_settles _
  execute := execute_settles
  redirCase := redirCase_settles
  pipeLoop := fun m argv ex _ commands hdone =>
    pipeLoop_settles (pipeStage_goesOn m argv ex) hdone commands 0 _ _

/-- A round of the read loop leaves no child behind, whatever the bytes of the line
and the contents of the memory are. -/
theorem body_settles (l : Locals) (chunk : Str) : Settles env (body l chunk) :=
  settles_inherited.body l chunk

theorem mainNext_settles {a : Locals × Input} {q : Prog (Locals × Input)}
    (hq : mainNext a = some q) : Settles env q := by
  obtain ⟨l, input⟩ := a
  cases input with
  | nil => cases hq
  | cons chunk input =>
      cases chunk with
      | none =>
          cases hq
          exact fun _ _ => trivial
      | some chunk =>
          cases hq
          exact (body_settles l chunk).bind fun _ => .ret _

section
variable {capacity : Nat} {ignored : Bool} {l : Locals} {input : Input} {T : FdTable} {w : W}
  {pipes : Nat} {unread : Ofd → Str} {s : Sys W (Locals × Input)}

theorem main_solo (h : Reachable (Step (shellMachine capacity ignored env))
      (Sys.start (mainStart l input) T w pipes unread) s) :
    SoloInv (shellMachine capacity ignored env) True (fun _ _ _ => True)
      (fun _ v => v.child = none) s := by
  have hstart : Settles env (mainStart l input) := (call_settles _).bind fun _ => .ret _
  refine Prog.Solo.reachable (M := shellMachine capacity ignored env) (hstart _ rfl) ?_ h
  intro a v q hv hq
  exact mainNext_settles hq v hv

theorem main_unkept (h : Reachable (Step (shellMachine capacity ignored env))
      (Sys.start (mainStart l input) T w pipes unread) s) :
    Unkept (shellMachine capacity ignored env) s :=
  h.invariant (.start _ _ _ _ _) fun _ _ hu hs => hu.step hs

end

/-- In every run of the shell the loop of `execute` always has a child to wait for
and ends with the next result of `wait`, exactly when the shell did not inherit
`SIGCHLD` ignored, or no command that `execute` waits for ever ends. -/
theorem execute_never_spins_iff (capacity : Nat) (ignored : Bool) (env : Env W) (l : Locals)
    (input : Input) (T : FdTable) (w : W) (pipes : Nat) (unread : Ofd → Str) :
    (∀ s, Reachable (Step (shellMachine capacity ignored env))
        (Sys.start (mainStart l input) T w pipes unread) s →
      LoopsEnd (shellMachine capacity ignored env) s) ↔
    (ignored = false ∨ ∀ s, Reachable (Step (shellMachine capacity ignored env))
        (Sys.start (mainStart l input) T w pipes unread) s → ¬ AwaitsEnded s) := by
  constructor
  · intro h
    by_cases hi : ignored = false
    · exact .inl hi
    · right
      intro s hs
      have hends := ((main_solo hs).loopsEnd_iff (main_unkept hs)).mp (h s hs)
      exact hends.resolve_left hi
  · intro h s hs
    exact ((main_solo hs).loopsEnd_iff (main_unkept hs)).mpr (h.imp_right fun h => h s hs)

/-- The line `ls`, in a shell that inherited `SIGCHLD` ignored: once `ls` has ended
`wait` is called without a child. -/
theorem ls_spins : ¬ ∀ s, Reachable
    (Step (shellMachine 4096 true (.ofExec fun _ => some fun _ _ _ => .exit)))
    (Sys.start (mainStart .zero [some "ls\n".toList]) stdFds () 0 fun _ => []) s →
      LoopsEnd (shellMachine 4096 true (.ofExec fun _ => some fun _ _ _ => .exit)) s := by
  intro h
  obtain ⟨l, hl, hzero⟩ : ∃ l : Locals, l.Ok ∧ l = .zero := ⟨_, Locals.zero_ok, rfl⟩
  rw [← hzero] at h
  have hbody : (body l "ls\n".toList).Rel RoundOk (runLine "ls".toList) :=
    body_rel hl (by decide) (by decide) fun ht => absurd ht.1 (by decide)
  have hround : (do let l ← body l "ls\n".toList; pure (l, []) : Prog (Locals × Input)).Rel
      (fun _ _ => True) (do runLine "ls".toList; pure ()) :=
    hbody.bind fun _ _ _ => .ret trivial
  -- after its calls the round is at the `fork` of `execute`
  obtain ⟨k', hfork, ⟨q, hq⟩, ⟨q', hq'⟩⟩ : ∃ k',
      ((do runLine "ls".toList; pure () : Prog Unit).ahead endsAtOnce
          ⟨stdFds, prompt, (), 0, 1⟩) = (.fork k', ⟨stdFds, prompt, (), 0, 1⟩) ∧
      (∃ q, k' .child = .execvp ["ls".toList] q) ∧ ∃ q, k' (.parent 1) = .waitFor 1 q :=
    ⟨_, rfl, ⟨_, rfl⟩, ⟨_, rfl⟩⟩
  obtain ⟨hprog, hctx⟩ := hround.ahead endsAtOnce ⟨stdFds, prompt, (), 0, 1⟩
  rw [hfork] at hprog hctx
  obtain ⟨k, hk, hrel⟩ := hprog.of_fork
  obtain ⟨p, hp⟩ := (hq ▸ hrel .child).of_execvp
  obtain ⟨p', hp', -⟩ := (hq' ▸ hrel (.parent 1)).of_waitFor
  obtain ⟨s₁, hs₁, hprocs, -⟩ := reach_line 4096 true (fun _ => []) (Prod.ext hk hctx)
  obtain ⟨s₂, hs₂, hended⟩ := reach_awaitsEnded (M := shellMachine 4096 true endsAtOnce) hprocs
    rfl hp hp' rfl rfl
  have hs := hs₁.trans hs₂
  have hcond := ((main_solo hs).loopsEnd_iff (main_unkept hs)).mp (h s₂ hs)
  rcases hcond with hi | hnever
  · cases hi
  · exact hnever hended

end UnixSys.Shell

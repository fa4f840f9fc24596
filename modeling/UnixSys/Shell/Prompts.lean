import UnixSys.Posix.Stdio
import UnixSys.Shell.Branches
import UnixSys.Shell.Session

/-!
# Prompts — where the text of the prompts is written

The shell prints only while its descriptor 1 is the one it started with: the branch
for redirections prints its prompt after it has taken its descriptors back. Its
children print when `execvp` has failed, and leave through `exit`, which writes the
prompts in their copy of the buffer to the descriptor 1 of the command. So each prompt
is printed once exactly when no `execvp` fails with prompts in the buffer
(`prompts_once_iff`).
-/

namespace UnixSys.Shell

open Posix

variable {W α : Type} {env : Env W} {o : Ofd} {T : FdTable}

/-- With the table `T` the program prints to `o` only, and it has `T` in the end. -/
def Prints (env : Env W) (o : Ofd) (T : FdTable) (p : Prog α) : Prop :=
  ∀ x : Ctx W, x.fds = T → p.PrintsTo env o (fun _ y => y.fds = T) x

/-! ## Commands -/

theorem expandWildcards_prints (m : Mem) (argv ex : PtrArr) (j : Nat) :
    Prints env o T (expandWildcards m argv ex j) := by
  intro x hx
  have h := expandWildcards_rule (f := .ret)
    (P := fun p : Prog (Mem × PtrArr) => p.PrintsTo env o (fun _ y => y.fds = T) x)
    trivial (fun _ _ hk => .glob hk) (fun _ => hx) m argv ex j
  rwa [show expandWildcards m argv ex j >>= Prog.ret = expandWildcards m argv ex j from
    Prog.bind_ret _] at h

theorem lift_execvp_runsCommand (args : Option (List Str)) {x : Ctx W}
    (hone : x.fds.get 1 ≠ none) : (do
      let args ← Prog.lift args
      execvp args
      printf execFailed
      exit 1 : Prog α).RunsCommand env x := by
  cases args with
  | none => trivial
  | some args => exact ⟨hone, execFailed, 1, rfl⟩

theorem execute_prints (hone : T.get 1 ≠ none) (m : Mem) (argv : PtrArr) :
    Prints env o T (execute m argv) := by
  intro x hx
  refine ⟨?_, ?_⟩
  · exact lift_execvp_runsCommand (m.args argv) (by rwa [hx])
  · intro w procs
    exact hx

/-! ## Redirections -/

/-- Descriptors 0 and 1 may be redirected, and `o` is not printed to. -/
theorem fileRedir_prints {X : FdTable} {x : Ctx W} (hx : Redirected X x.fds)
    (redirection file : Str) :
    (fileRedir redirection file).PrintsTo env o (fun _ y => Redirected X y.fds) x := by
  have hreplace : ∀ fd, fd = 0 ∨ fd = 1 → ∀ how, (do
      let new ← openFile file how
      if new < 0 then perror file
      else do
        dup2 new fd
        close new).PrintsTo env o (fun _ y => Redirected X y.fds) x := by
    intro fd hfd how
    simp only [openFile, Prog.call_bind, Prog.ret_bind]
    refine .openFile (.perror hx) ?_
    intro w
    rw [if_neg (Int.not_lt.mpr x.fds.lowest_nonneg)]
    refine .dup2 (.close ?_)
    show Redirected X _
    rw [(redirect_eq hx.zero hx.one hfd _).1]
    exact hx.put hfd _
  unfold fileRedir
  split
  · exact hreplace 0 (.inl rfl) _
  · split
    · exact hreplace 1 (.inr rfl) _
    · exact hx

theorem redirTo_prints {X : FdTable} {x : Ctx W} (hx : Redirected X x.fds) (m : Mem)
    (redirection : Str) (file : Ptr) :
    (redirTo m redirection file).PrintsTo env o (fun _ y => Redirected X y.fds) x := by
  have hname : (do
      let file ← Prog.lift (m.str file)
      fileRedir redirection file).PrintsTo env o (fun _ y => Redirected X y.fds) x := by
    cases m.str file with
    | none => trivial
    | some file => exact fileRedir_prints hx redirection file
  cases file with
  | null => exact hx
  | undef => exact hname
  | «at» b off => exact hname

theorem redirCase_prints (h0 : T.get 0 ≠ none) (h1 : T.get 1 = some o) (m : Mem)
    (argv ex : PtrArr) : Prints env o T (redirCase m argv ex) := by
  obtain ⟨a, ha⟩ := Option.ne_none_iff_exists'.mp h0
  rintro x rfl
  have hi := x.fds.lowest_pos h0
  have hi1 : x.fds.lowest ≠ 1 := by
    intro h
    have hlow := x.fds.get_lowest
    rw [h, h1] at hlow
    cases hlow
  have hb : (x.fds.put x.fds.lowest a).get 1 = some o := by
    rw [FdTable.get_put, if_neg (by omega), h1]
  obtain ⟨X, hX⟩ : ∃ X, X = (x.fds.put x.fds.lowest a).put (x.fds.put x.fds.lowest a).lowest o :=
    ⟨_, rfl⟩
  have hX0 : ∀ fd, x.fds.get fd ≠ none → X.get fd ≠ none := by
    intro fd hfd
    rw [hX]
    simp only [FdTable.get_put]
    split_ifs
    · simp
    · simp
    · exact hfd
  have hstart : Redirected X X := ⟨hX0 0 h0, hX0 1 (by simp [h1]), fun _ _ _ => rfl⟩
  refine .dup ha (.dup hb ?_)
  simp only [← hX]
  show Prog.PrintsTo env o _ (Prog.lift (redirScan m argv .null .null []) >>= _) _
  cases redirScan m argv .null .null [] with
  | none => trivial
  | some files =>
      refine (redirTo_prints (by exact hstart) m _ files.1).bind ?_
      intro _ y₁ hy₁
      refine (redirTo_prints hy₁ m _ files.2.1).bind ?_
      intro _ y₂ hy₂
      refine (expandWildcards_prints m files.2.2 ex 0 y₂ rfl).bind ?_
      intro r y₃ hy₃
      refine (execute_prints hy₂.one r.1 r.2 y₃ hy₃).bind ?_
      intro _ y₄ hy₄
      -- the prompt is printed with the table of the shell
      have hrestored : (((y₄.fds.dup2 x.fds.lowest 0).dup2
          (x.fds.put x.fds.lowest a).lowest 1).close x.fds.lowest).close
            (x.fds.put x.fds.lowest a).lowest = x.fds :=
        restore_eq ha h1 rfl rfl hX (hy₄ ▸ hy₂)
      refine .dup2 (.dup2 (.close (.close ?_)))
      simp only [hrestored]
      exact .printf h1 rfl

/-! ## Pipelines -/

theorem Prog.RunsCommand.ops {l : List FdOp} {p : Prog α} {x : Ctx W}
    (h : p.RunsCommand env { x with fds := x.fds.ops l }) : (Prog.ops l p).RunsCommand env x := by
  induction l generalizing x with
  | nil => exact h
  | cons op l ih =>
      cases op with
      | close fd =>
          rintro r y ⟨⟩
          exact ⟨rfl, ih h⟩
      | dup2 old new =>
          rintro r y ⟨⟩
          exact ⟨rfl, ih h⟩

theorem Prog.PrintsTo.ops {l : List FdOp} {p : Prog α} {Q : α → Ctx W → Prop} {x : Ctx W}
    (h : p.PrintsTo env o Q { x with fds := x.fds.ops l }) : (Prog.ops l p).PrintsTo env o Q x := by
  induction l generalizing x with
  | nil => exact h
  | cons op l ih =>
      cases op with
      | close fd => exact .close (ih h)
      | dup2 old new => exact .dup2 (ih h)

theorem pipeStage_runsCommand (m : Mem) (argv ex : PtrArr) (p : Ptr) {x : Ctx W}
    (hone : x.fds.get 1 ≠ none) : (pipeStage m argv ex p : Prog α).RunsCommand env x := by
  cases p with
  | null => trivial
  | undef => trivial
  | «at» b off =>
      unfold pipeStage
      show Prog.RunsCommand env (Prog.lift (m.onBlock b (parse b · off argv)) >>= _) x
      cases m.onBlock b (parse b · off argv) with
      | none => trivial
      | some parsed =>
          refine expandWildcards_rule (P := fun p : Prog α => p.RunsCommand env x)
            trivial ?_ ?_ _ _ _ _
          · rintro pat k hk r y ⟨⟩
            exact ⟨rfl, hk _⟩
          · rintro ⟨m, _⟩
            exact lift_execvp_runsCommand (m.args parsed.2) hone

/-- The loop from a round on: in the table that round `i` finds, or in `T` when there
is no round left. -/
theorem pipeLoop_printsTo {χ : Type} {stage : χ → Prog α} {done : Prog α}
    {Q : α → Ctx W → Prop} (first : Nat) (h0 : T.get 0 ≠ none) (h1 : T.get 1 ≠ none)
    (hstage : ∀ c (x : Ctx W), x.fds.get 1 ≠ none → (stage c).RunsCommand env x)
    (hdone : ∀ x : Ctx W, x.fds = T → done.PrintsTo env o Q x) (cs : List χ) (i : Nat)
    (pfd prevPfd : Int × Int) (x : Ctx W)
    (hx : if cs.isEmpty then x.fds = T
      else x.pipes = first + i ∧ HeadTable T first i prevPfd x.fds) :
    (pipeLoop stage done cs i pfd prevPfd).PrintsTo env o Q x := by
  induction cs generalizing i pfd prevPfd x with
  | nil => exact hdone x (by simpa using hx)
  | cons c rest ih =>
      obtain ⟨hpipes, hhead⟩ : x.pipes = first + i ∧ HeadTable T first i prevPfd x.fds := by
        simpa using hx
      -- a round once its pipe is there
      have hround : ∀ (pfd : Int × Int) (y : Ctx W),
          ForkTable T first i rest.isEmpty prevPfd pfd y.fds →
          (rest.isEmpty = false → y.pipes = first + (i + 1)) →
          (forkRound stage done c rest i pfd prevPfd).PrintsTo env o Q y := by
        intro pfd y hfork hmade
        refine ⟨Prog.RunsCommand.ops ?_, ?_⟩
        · refine hstage c _ ?_
          simp only
          rw [hfork.child, FdTable.get_wire]
          cases rest.isEmpty with
          | true => simpa [stageSnk] using h1
          | false => simp [stageSnk]
        · intro w procs
          refine Prog.PrintsTo.ops ?_
          refine ih (i + 1) _ _ _ ?_
          have hparent := hfork.parent
          cases hrest : rest.isEmpty with
          | true =>
              rw [hrest, if_pos rfl] at hparent
              rw [if_pos rfl]
              exact hparent
          | false =>
              rw [hrest, if_neg (by simp)] at hparent
              rw [if_neg (by simp), if_neg (by simp)]
              exact ⟨hmade hrest, hparent⟩
      rw [pipeLoop_cons]
      unfold newPipe
      cases hrest : rest.isEmpty with
      | true =>
          rw [hrest] at hround
          refine hround pfd x ⟨x.fds, hhead, rfl⟩ ?_
          intro h
          cases h
      | false =>
          rw [hrest] at hround
          have h0' : x.fds.get 0 ≠ none := by rwa [hhead.get_zero]
          refine .pipe (hround _ _ ⟨x.fds, hhead, ?_⟩ ?_)
          · simpa [hpipes] using ⟨FdTable.room_pipeFds h0' (first + i), rfl⟩
          · intro _
            simp only [hpipes]
            rfl

/-! ## The session -/

theorem prints_inherited (env : Env W) (h0 : T.get 0 ≠ none) (h1 : T.get 1 = some o) :
    Inherited fun p => Prints env o T p where
  ret := fun _ _ hx => hx
  ub := fun _ _ => trivial
  exit := fun _ x hx => by
    show x.fds.get 1 = some o
    rw [hx, h1]
  bind := fun hp hf x hx => (hp x hx).bind fun a y hy => hf a y hy
  printf := fun _ x hx => .printf (by rw [hx, h1]) hx
  strcasecmp := fun _ _ _ hx => .strcasecmp fun _ => hx
  glob := fun _ _ hx => .glob fun _ => hx
  execute := execute_prints (by simp [h1])
  redirCase := redirCase_prints h0 h1
  pipeLoop := fun m argv ex done commands hdone x hx => by
    refine pipeLoop_printsTo x.pipes h0 (by simp [h1])
      (fun p _ hone => pipeStage_runsCommand m argv ex p hone) hdone commands 0 _ _ x ?_
    split
    · exact hx
    · exact ⟨rfl, by simpa [HeadTable] using hx⟩

/-- `main`, on the bytes that the calls of `fgets` store. -/
def session (input : List Str) (l : Locals) : Prog Unit := do
  printf prompt
  let _ ← readLoop input l
  exit 0

/-- In every session that comes to its end, whatever the lines are and whichever
`execvp`s fail, and whenever stdio writes before it has to: each byte of each prompt is
written once, to the descriptor 1 of the shell, exactly when no `execvp` fails with bytes
of a prompt in the buffer of the child. -/
theorem prompts_once_iff (env : Env W) (early : List Nat → Nat) (input : List Str) (l : Locals)
    {x : Ctx W} (h0 : x.fds.get 0 ≠ none) (h1 : x.fds.get 1 = some o) {n : Nat} {t : Tally W}
    (hrun : (session input l).tally env early true (.start x) = (.exited n, t)) :
    PrintedOnce o t ↔ (session input l).NoneSpills env early true (.start x) := by
  have hprints : Prints env o x.fds (session input l) := by
    have hparts := prints_inherited env h0 h1
    refine hparts.bind (hparts.printf _) fun _ => ?_
    exact hparts.bind (hparts.readLoop input l) fun _ => hparts.exit 0
  have htally := (hprints x rfl).tally early (t := .start x) (.start x)
  rw [hrun, true_and] at htally
  exact htally.1.printedOnce_iff (htally.2 n rfl)

/-- What a session with one line does. -/
theorem session_rel {l : Locals} (hl : l.Ok) (chunk : Str) {s : Str} (hlen : chunk.length < maxLine)
    (hcommand : command chunk = some s) (hnamed : TakesRedir s → ¬ Dangling (tokens s)) :
    (session [chunk] l).Rel (fun _ _ => True) (do
      printf prompt
      runLine s
      exit 0 : Prog Unit) := by
  have hline : (readLoop [chunk] l).Rel (fun _ _ => True) (runLine s) := by
    have hbody := (body_rel hl hlen hcommand hnamed).bind (f := .ret) (g := .ret)
      (S := fun _ _ => True) fun _ _ _ => .ret trivial
    rwa [show runLine s >>= Prog.ret = runLine s from Prog.bind_ret _] at hbody
  refine .call _ fun _ _ => ?_
  exact hline.bind fun _ _ _ => .exit 0

/-- `nosuch` with a prompt that is written at once, as at a terminal: the `execvp` fails
with nothing in the buffer of the child. -/
theorem nosuch_flushed : ∃ t : Tally Unit,
    (session ["nosuch\n".toList] .zero).tally (.ofExec fun _ => none) List.length
      true (.start .terminal) = (.exited 0, t) ∧ PrintedOnce (.init 1) t := by
  obtain ⟨l, hl, hzero⟩ : ∃ l : Locals, l.Ok ∧ l = .zero := ⟨_, Locals.zero_ok, rfl⟩
  rw [← hzero]
  let env : Env Unit := .ofExec fun _ => none
  have hrel := session_rel hl "nosuch\n".toList (s := "nosuch".toList) (by decide) (by decide)
    fun ht => absurd ht.1 (by decide)
  have hexit := (hrel.tally env List.length true (.start .terminal)).1.of_exited (n := 0)
  have hnone := (hrel.noneSpills env List.length true (.start .terminal)).mpr
    (And.intro (fun _ => And.intro rfl trivial) trivial)
  exact ⟨_, Prod.ext hexit rfl,
    (prompts_once_iff env _ _ l (by decide) rfl (Prod.ext hexit rfl)).mpr hnone⟩

/-- `nosuch` with a buffer that is written at the end: the child writes the prompt, and
the shell writes it again. -/
theorem nosuch_prompts : ¬ ∀ t : Tally Unit,
    (session ["nosuch\n".toList] .zero).tally (.ofExec fun _ => none) (fun _ => 0)
      true (.start .terminal) = (.exited 0, t) → PrintedOnce (.init 1) t := by
  obtain ⟨l, hl, hzero⟩ : ∃ l : Locals, l.Ok ∧ l = .zero := ⟨_, Locals.zero_ok, rfl⟩
  rw [← hzero]
  have hrel := session_rel hl "nosuch\n".toList (s := "nosuch".toList) (by decide)
    (by decide) fun ht => absurd ht.1 (by decide)
  obtain ⟨hexit, htally⟩ := hrel.tally (.ofExec fun _ => none) (fun _ => 0) true (.start .terminal)
  intro h
  have honce := h _ (Prod.ext (hexit.of_exited (n := 0)) htally) 0 (by decide)
  exact absurd honce (by decide)

end UnixSys.Shell

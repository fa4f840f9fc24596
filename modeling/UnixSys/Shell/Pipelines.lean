import UnixSys.Shell.Flow

/-!
# Pipelines — the pipe branch of `main`

`PipeBranch` is the shell about to enter the pipe loop with the commands that
the splitting left in memory, each of which executes as a stage that reads to
end of file. Its runs are those of a `Pipeline`.
-/

namespace UnixSys.Shell

open Posix

variable {W : Type}

/-! ## The child of the pipe loop -/

section
variable {env : Env W} {g : Stage} {T : FdTable}

/-- A program that makes the same calls as one that executes `g`. -/
theorem execs_of_rel {α β : Type} {V : α → β → Prop} {p : Prog α} {q : Prog β}
    (h : p.Rel V q) {n : Nat} {X : FdTable} (hq : q.Execs env g T n X) :
    p.Execs env g T n X := by
  induction hq generalizing p with
  | close _ ih =>
      cases h with
      | call _ hk => exact .close (ih (hk _ trivial))
  | dup2 _ ih =>
      cases h with
      | call _ hk => exact .dup2 (ih (hk _ trivial))
  | glob _ ih =>
      cases h with
      | call _ hk =>
          exact .glob fun w => ih w (hk _ fun ms hms => ⟨env.glob_ne_nil _ _ _ hms,
            env.glob_path _ _ _ hms, env.glob_plain _ _ _ hms⟩)
  | execvp hexec =>
      cases h with
      | execvp _ _ => exact .execvp hexec

theorem expandWords_execs {α : Type} {ws acc : List Str} {n : Nat} {f : List Str → Prog α}
    {X : FdTable} (hfits : Fits env ws acc.length) (hn : ws.length ≤ n)
    (hf : ∀ args m, (f args).Execs env g T m X) :
    (expandWords ws acc >>= f).Execs env g T n X := by
  induction ws generalizing acc n with
  | nil =>
      have hlt : acc.length < maxArg := hfits
      rw [expandWords, if_pos hlt]
      exact hf acc n
  | cons word ws ih =>
      obtain ⟨n, rfl⟩ : ∃ m, n = m + 1 := ⟨n - 1, by simp at hn; omega⟩
      rw [expandWords]
      simp only [glob, Prog.call_bind, Prog.ret_bind]
      refine .glob fun w => ?_
      have hfits' := hfits w
      have hlt := hfits'.le w
      rw [if_pos (by omega)]
      refine ih ?_ (by simpa using hn)
      rw [List.length_append]
      exact hfits'

end

/-- The command at `p` fits the arrays, and executes as `g`. -/
def RunsAs (env : Env W) (heap : Mem) (p : Ptr) (g : Stage) : Prop :=
  ∃ k text, p = .at (k + 2) 0 ∧ heap[k]? = some (text ++ [NUL]) ∧ NUL ∉ text ∧
    (tokens text).length < maxArg ∧ Fits env (tokens text) 0 ∧
    ∀ w l, l.argv = tokens text → ∃ w', env.exec w l = some (g.img, w')

theorem pipeStage_execs {α : Type} {env : Env W} {line backup : Str} {heap : Mem}
    {argv ex : PtrArr} (ha : argv.length = maxArg) (hex : ex.length = maxArg) {p : Ptr}
    {g : Stage} (h : RunsAs env heap p g) (T : FdTable) :
    (pipeStage (α := α) (line :: backup :: heap) argv ex p).Execs env g T maxArg T := by
  obtain ⟨k, text, hp, hk, hnul, hlen, hfits, hexec⟩ := h
  refine execs_of_rel (V := fun _ _ => True) (pipeStage_rel ha hex ⟨k, hp, hk, hnul⟩) ?_
  rw [runStage, if_pos hlen]
  exact expandWords_execs hfits (Nat.le_of_lt hlen) fun _ _ =>
    .execvp fun w => hexec w _ rfl

/-! ## The branch -/

/-- The shell at the pipe loop: the commands lie in memory, the arrays have the
sizes of `main`, descriptors 0 and 1 are open, and the shell has no pipe. -/
structure PipeBranch (M : Machine W Locals) where
  line : Str
  backup : Str
  heap : Mem
  argv : PtrArr
  expandedArgv : PtrArr
  result : Locals
  commands : List (Ptr × Stage)
  table : FdTable
  stdin : Nat
  stdout : Nat
  first : Nat
  world : W
  unread : Ofd → Str
  argv_length : argv.length = maxArg
  expandedArgv_length : expandedArgv.length = maxArg
  runsAs : ∀ c ∈ commands, RunsAs M.env heap c.1 c.2
  nonempty : commands ≠ []
  next_result : M.next result = none
  get_zero : table.get 0 = some (.init stdin)
  get_one : table.get 1 = some (.init stdout)
  inherited : ∀ fd o, table.get fd = some o → ∃ n, o = .init n
  empty : ∀ id, unread (.pipeR id) = []

namespace PipeBranch

variable {M : Machine W Locals} (B : PipeBranch M)

def toPipeline : Pipeline M Ptr where
  stage := pipeStage (B.line :: B.backup :: B.heap) B.argv B.expandedArgv
  calls := maxArg
  execs c hc T := pipeStage_execs B.argv_length B.expandedArgv_length (B.runsAs c hc) T
  __ := B

/-- The pipe loop of `main`, up to the next prompt. -/
def start : Sys W Locals :=
  Sys.start
    (pipeLoop (pipeStage (B.line :: B.backup :: B.heap) B.argv B.expandedArgv)
      (do printf prompt; pure B.result) (B.commands.map Prod.fst) 0 (-1, -1) (-1, -1))
    B.table B.world B.first B.unread

def stages : List Stage := B.commands.map Prod.snd

/-- The content of the shell's standard input. -/
def input : Str := B.unread (.init B.stdin)

/-- Every stage has ended and been waited for, and the shell is at the prompt. -/
def Final (s : Sys W Locals) : Prop :=
  (∃ sh, s.procs[0]? = some sh ∧ sh.code = .prog (.ret B.result)) ∧
    ∀ j p, j ≠ 0 → s.procs[j]? = some p → ∃ e, p.code = .reaped e

/-- No reachable state of the pipe loop is stuck but the last one, exactly when
every stage but the last writes no more than a pipe holds: the loop waits for
each stage before it forks the reader of its pipe. -/
theorem deadlock_free_iff :
    (∀ s, Reachable (Step M) B.start s → Stuck (Step M) s → B.Final s) ↔
      ∀ io ∈ (flow B.stages B.input).dropLast, io.2.length ≤ M.capacity :=
  B.toPipeline.progress_iff

/-- In every run back to the prompt each stage has read what the one before it
wrote, followed by end of file, has written its result and ended by itself; the
last result is what has been written to the shell's standard output. -/
theorem stages_compose {s : Sys W Locals} (hs : Reachable (Step M) B.start s) {sh : Proc Locals}
    (hsh : s.procs[0]? = some sh) (hret : sh.code = .prog (.ret B.result)) :
    s.procs.tail.map Proc.code =
        (flow B.stages B.input).map (fun io => .reaped (.done io.1 true io.2)) ∧
      s.written (.init B.stdout) = composed B.stages B.input := by
  obtain ⟨m, n, hstate⟩ := Pipeline.State.of_reachable (P := B.toPipeline) hs
  obtain ⟨sh', dn, hbase, -, hout⟩ := hstate.of_ret hsh hret
  refine ⟨?_, hout⟩
  rw [hbase.shape.procs, Option.toList_none, List.append_nil]
  exact hbase.codes

end PipeBranch

/-! ## `echo ok | cat` -/

def echoOk : Stage := .ofFun fun _ => "ok".toList

def cat : Stage := .ofFun id

/-- The commands `echo` and `cat`. -/
def toolEnv : Env Unit := .ofExec fun l =>
  if l.argv = ["echo".toList, "ok".toList] then some echoOk.img
  else if l.argv = ["cat".toList] then some cat.img
  else none

def toolMachine (capacity : Nat) : Machine Unit Locals := ⟨capacity, false, toolEnv, fun _ => none⟩

def echoCat (capacity : Nat) : PipeBranch (toolMachine capacity) where
  line := []
  backup := []
  heap := ["echo ok".toList ++ [NUL], "cat".toList ++ [NUL]]
  argv := List.replicate maxArg .undef
  expandedArgv := List.replicate maxArg .undef
  result := ⟨[], [], []⟩
  commands := [(.at 2 0, echoOk), (.at 3 0, cat)]
  table := stdFds
  stdin := 0
  stdout := 1
  first := 0
  world := ()
  unread _ := []
  argv_length := rfl
  expandedArgv_length := rfl
  runsAs := by
    have htokens : tokens "echo ok".toList = ["echo".toList, "ok".toList] := by decide
    have htokens' : tokens "cat".toList = ["cat".toList] := by decide
    intro c hc
    rcases List.mem_cons.mp hc with rfl | hc
    · refine ⟨0, "echo ok".toList, rfl, rfl, by decide, by decide, ?_, ?_⟩
      · rw [htokens]
        exact fun _ _ => (by decide : 2 < maxArg)
      · intro _ l hl
        refine ⟨(), ?_⟩
        have hargv : l.argv = ["echo".toList, "ok".toList] := hl.trans htokens
        simp only [toolMachine, toolEnv, Env.ofExec, hargv]
        rfl
    · rw [List.mem_singleton] at hc
      subst hc
      refine ⟨1, "cat".toList, rfl, rfl, by decide, by decide, ?_, ?_⟩
      · rw [htokens']
        exact fun _ => (by decide : 1 < maxArg)
      · intro _ l hl
        refine ⟨(), ?_⟩
        have hargv : l.argv = ["cat".toList] := hl.trans htokens'
        simp only [toolMachine, toolEnv, Env.ofExec, hargv]
        rfl
  nonempty := by simp
  next_result := rfl
  get_zero := rfl
  get_one := rfl
  inherited fd o h := by
    simp only [stdFds] at h
    split_ifs at h
    exact ⟨_, (Option.some.inj h).symm⟩
  empty _ := rfl

namespace PipeBranch

/-- With pipes of 4096 bytes, `echo ok | cat` writes `ok`. -/
theorem echoCat_output : ∃ s, Reachable (Step (toolMachine 4096)) (echoCat 4096).start s ∧
    s.procs.tail.map Proc.code =
      [.reaped (.done [] true "ok".toList), .reaped (.done "ok".toList true "ok".toList)] ∧
    s.written (.init 1) = "ok".toList := by
  obtain ⟨s, hs, hstuck, -⟩ := (echoCat 4096).toPipeline.exists_stuck_state
  have hfits : (echoCat 4096).toPipeline.Fits := by
    have hio : ∀ io ∈ (flow (echoCat 4096).stages []).dropLast, io.2.length ≤ 4096 := by decide
    exact hio
  obtain ⟨⟨sh, hsh, hret⟩, -⟩ := Pipeline.final_of_stuck hfits hs hstuck
  have h := (echoCat 4096).stages_compose hs hsh hret
  exact ⟨s, hs, h.1, h.2⟩

/-- With pipes of one byte, `echo ok | cat` hangs: `echo` cannot write its second
byte, and `cat` is not there yet. -/
theorem echoCat_hangs : ∃ s, Reachable (Step (toolMachine 1)) (echoCat 1).start s ∧
    Stuck (Step (toolMachine 1)) s ∧ ¬ (echoCat 1).Final s := by
  by_contra h
  have hprogress : ∀ s, Reachable (Step (toolMachine 1)) (echoCat 1).start s →
      Stuck (Step (toolMachine 1)) s → (echoCat 1).Final s := by
    intro s hs hstuck
    by_contra hf
    exact h ⟨s, hs, hstuck, hf⟩
  have hfits := (echoCat 1).toPipeline.progress_iff.mp hprogress
  exact absurd (hfits ([], "ok".toList) (by decide)) (by decide)

end PipeBranch

end UnixSys.Shell

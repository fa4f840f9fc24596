import UnixSys.Posix.Ahead
import UnixSys.Shell.Wiring

/-!
# ThreePipe — `week08Lab2/3pipe.c`

`execute_pipeline` is the pipe loop of the shell except for the order in which a
child redirects its descriptors: here the `dup2` comes before both `close`s. The
order matters when the read end of the new pipe is at descriptor 1: `dup2` has
replaced it by the write end when `close` is called for the read end, and standard
output is closed.
-/

namespace UnixSys.Shell

open Posix

/-! ## execute_pipeline -/

/-- In the child: all but the first command read from the previous pipe. -/
def redirectStdin3 (i : Nat) (prevPipefd : Int × Int) : Prog Unit :=
  if i > 0 then do
    dup2 prevPipefd.1 0
    close prevPipefd.1
    close prevPipefd.2
  else pure ()

/-- In the child: all but the last command write to the current pipe. -/
def redirectStdout3 (last : Bool) (pipefd : Int × Int) : Prog Unit :=
  if last then pure ()
  else do
    dup2 pipefd.2 1
    close pipefd.1
    close pipefd.2

/-- What the child does after its descriptors are set. -/
def execStage (command : List Str) : Prog Unit := do
  execvp command
  perror "execvp".toList
  exit 1

/-- `execute_pipeline(commands)`, from `commands[i]` on. The pipe, the closing of the
previous one and the wait are as in the shell. -/
def executePipeline : List (List Str) → Nat → Int × Int → Int × Int → Prog Unit
  | [], _, _, _ => pure ()
  | command :: rest, i, pipefd, prevPipefd => do
      let pipefd ← newPipe rest.isEmpty pipefd
      match ← fork with
      | .failed =>
          perror "fork".toList
          exit 1
      | .child =>
          redirectStdin3 i prevPipefd
          redirectStdout3 rest.isEmpty pipefd
          execStage command
      | .parent pid =>
          closePrev i prevPipefd
          waitpid pid
          executePipeline rest (i + 1) pipefd (if rest.isEmpty then prevPipefd else pipefd)

/-- The operations of the child of round `i`. -/
def childOps3 (i : Nat) (last : Bool) (prevPipefd pipefd : Int × Int) : List FdOp :=
  (if i = 0 then []
    else [.dup2 prevPipefd.1 0, .close prevPipefd.1, .close prevPipefd.2]) ++
    if last then [] else [.dup2 pipefd.2 1, .close pipefd.1, .close pipefd.2]

theorem redirect3_eq_ops {α : Type} (i : Nat) (last : Bool) (prevPipefd pipefd : Int × Int)
    (stage : Prog α) :
    (do redirectStdin3 i prevPipefd
        redirectStdout3 last pipefd
        stage) = Prog.ops (childOps3 i last prevPipefd pipefd) stage := by
  have hout : (do redirectStdout3 last pipefd
                  stage) =
      Prog.ops (if last then [] else [.dup2 pipefd.2 1, .close pipefd.1, .close pipefd.2])
        stage := by
    cases last <;> rfl
  rw [childOps3, Prog.ops_append, hout]
  cases i <;> rfl

theorem executePipeline_eq_wiredLoop (rest : List (List Str)) (i : Nat)
    (pipefd prevPipefd : Int × Int) :
    executePipeline rest i pipefd prevPipefd =
      wiredLoop childOps3 execStage (pure ()) rest i pipefd prevPipefd := by
  induction rest generalizing i pipefd prevPipefd with
  | nil => rfl
  | cons command rest ih =>
      rw [executePipeline, wiredLoop]
      refine congrArg (newPipe rest.isEmpty pipefd >>= ·) (funext fun pipefd => ?_)
      refine congrArg Prog.fork (funext fun r => ?_)
      cases r with
      | failed => rfl
      | child => exact redirect3_eq_ops i rest.isEmpty prevPipefd pipefd (execStage command)
      | parent pid =>
          show (closePrev i prevPipefd >>= fun _ => Prog.waitpid pid _) = _
          rw [closePrev_eq_ops]
          show Prog.ops _ (.waitpid pid (executePipeline rest _ _ _)) = _
          rw [ih]

/-! ## The tables of the children -/

section
variable {T X Y : FdTable} {first i : Nat} {last : Bool} {prevPfd pfd : Int × Int}

/-- Descriptor 0 is not an end of the pipe, so the write end may be closed first or
last. -/
theorem stdin_reorder (hpos : 1 ≤ prevPfd.1) (hlt : prevPfd.1 < prevPfd.2) :
    ((X.dup2 prevPfd.1 0).close prevPfd.1).close prevPfd.2 =
      ((X.close prevPfd.2).dup2 prevPfd.1 0).close prevPfd.1 := by
  have hget : (X.close prevPfd.2).get prevPfd.1 = X.get prevPfd.1 := by
    rw [FdTable.get_close, if_neg (by omega)]
  unfold FdTable.dup2
  rw [hget]
  ext1
  funext x
  cases X.get prevPfd.1 with
  | none =>
      simp only [FdTable.get_close]
      split_ifs <;> rfl
  | some o =>
      simp only [FdTable.get_close, FdTable.get_put]
      split_ifs <;> first | rfl | omega

/-- The read end may be closed first or last, unless it is descriptor 1. -/
theorem stdout_reorder (hlt : pfd.1 < pfd.2) (hone : pfd.1 ≠ 1) :
    ((X.dup2 pfd.2 1).close pfd.1).close pfd.2 =
      ((X.close pfd.1).dup2 pfd.2 1).close pfd.2 := by
  have hget : (X.close pfd.1).get pfd.2 = X.get pfd.2 := by
    rw [FdTable.get_close, if_neg (by omega)]
  unfold FdTable.dup2
  rw [hget]
  ext1
  funext x
  cases X.get pfd.2 with
  | none => rfl
  | some o =>
      simp only [FdTable.get_close, FdTable.get_put]
      split_ifs <;> first | rfl | omega

/-- With descriptor 1 open no read end of a pipe is there, and both orders give the
child the same table. -/
theorem ForkTable.reorder (h : ForkTable T first i last prevPfd pfd Y)
    (hone : last = true ∨ T.get 1 ≠ none) :
    Y.ops (childOps3 i last prevPfd pfd) = Y.ops (childOps i last prevPfd pfd) := by
  have hstdout : ∀ Z : FdTable,
      Z.ops (if last then [] else [.dup2 pfd.2 1, .close pfd.1, .close pfd.2]) =
        Z.ops (if last then [] else [.close pfd.1, .dup2 pfd.2 1, .close pfd.2]) := by
    intro Z
    cases last with
    | true => rfl
    | false =>
        obtain ⟨X, hX, hY⟩ := h
        obtain ⟨hroom, -⟩ : _ ∧ _ := by simpa using hY
        have hfree : T.get pfd.1 = none := by
          by_cases hi : i = 0
          · rw [HeadTable, if_pos hi] at hX
            rw [← hX]
            exact hroom.read
          · rw [HeadTable, if_neg hi] at hX
            obtain ⟨hprev, rfl⟩ := hX
            exact (FdTable.close_hold_hold hprev _ hroom (first + i)).2.read
        have hne : pfd.1 ≠ 1 := by
          intro he
          rw [he] at hfree
          exact hone.resolve_left Bool.false_ne_true hfree
        exact stdout_reorder hroom.lt hne
  rw [childOps3, childOps, FdTable.ops_append, FdTable.ops_append]
  by_cases hi : i = 0
  · rw [if_pos hi, if_pos hi]
    exact hstdout Y
  · obtain ⟨X, hX, -⟩ := h
    rw [HeadTable, if_neg hi] at hX
    rw [if_neg hi, if_neg hi]
    simp only [FdTable.ops]
    rw [stdin_reorder hX.1.pos hX.1.lt]
    exact hstdout _

/-- The first child of a longer pipeline, when descriptor 1 is closed: its standard
output is closed. -/
theorem childOps3_closed (h0 : T.get 0 ≠ none) (h1 : T.get 1 = none) (id : Nat)
    (prevPfd : Int × Int) :
    ((T.pipe id).ops (childOps3 0 false prevPfd (T.pipeFds id))).get 1 = none := by
  have hread : (T.pipeFds id).1 = 1 := by
    have hle := T.lowest_le (show (0 : Int) ≤ 1 by omega) h1
    have hpos := T.lowest_pos h0
    show T.lowest = 1
    omega
  have hlt := T.pipeFds_lt id
  show ((((T.pipe id).dup2 (T.pipeFds id).2 1).close (T.pipeFds id).1).close
    (T.pipeFds id).2).get 1 = none
  rw [FdTable.get_close, if_neg (by omega), FdTable.get_close, if_pos hread.symm]

end

/-! ## The two programs -/

variable {W W' : Type}

/-- In every run of the program from `s₀`, stage `i` has the table `tables i` at its
`execvp`, and the parent has `last` when it returns. -/
def GivesTables {α : Type} (M : Machine W α) (s₀ : Sys W α) (tables : Nat → FdTable)
    (last : FdTable) : Prop :=
  ∀ s, Reachable (Step M) s₀ s →
    (∀ i p args k, s.procs[i + 1]? = some p → p.code = .prog (.execvp args k) →
      p.fds = tables i) ∧
    (∀ p a, s.procs[0]? = some p → p.code = .prog (.ret a) → p.fds = last)

/-- In all runs of the two programs, stage `i` of the one and stage `i` of the other
have the same table at their `execvp`, and the parents have the same table when they
return. -/
def WiredAlike {α β : Type} (M : Machine W α) (s₀ : Sys W α) (M' : Machine W' β)
    (s₀' : Sys W' β) : Prop :=
  ∀ s s', Reachable (Step M) s₀ s → Reachable (Step M') s₀' s' →
    (∀ i p p' args args' k k', s.procs[i + 1]? = some p → p.code = .prog (.execvp args k) →
      s'.procs[i + 1]? = some p' → p'.code = .prog (.execvp args' k') → p.fds = p'.fds) ∧
    (∀ p p' a a', s.procs[0]? = some p → p.code = .prog (.ret a) →
      s'.procs[0]? = some p' → p'.code = .prog (.ret a') → p.fds = p'.fds)

theorem GivesTables.alike {α β : Type} {M : Machine W α} {s₀ : Sys W α} {M' : Machine W' β}
    {s₀' : Sys W' β} {tables : Nat → FdTable} {last : FdTable}
    (h : GivesTables M s₀ tables last) (h' : GivesTables M' s₀' tables last) :
    WiredAlike M s₀ M' s₀' := by
  intro s s' hs hs'
  constructor
  · intro i p p' args args' k k' hp hcode hp' hcode'
    rw [(h s hs).1 i p args k hp hcode, (h' s' hs').1 i p' args' k' hp' hcode']
  · intro p p' a a' hp hcode hp' hcode'
    rw [(h s hs).2 p a hp hcode, (h' s' hs').2 p' a' hp' hcode']

theorem GivesTables.of_solo {α : Type} {M : Machine W α} (hM : ∀ a, M.next a = none)
    {p : Prog α} {T : FdTable} {w : W} {n : Nat} {unread : Ofd → Str} {tables : Nat → FdTable}
    {last : FdTable}
    (h : p.Solo M.env True (fun pid _ X => ∃ i, pid = 1 + i ∧ X = tables i)
      (fun _ v => v.fds = last) ⟨none, 1, n, T⟩) :
    GivesTables M (Sys.start p T w n unread) tables last := by
  intro s hs
  have hinv := h.reachable (fun a _ _ _ hq => by rw [hM] at hq; cases hq) hs
  constructor
  · intro i p args k hp hcode
    obtain ⟨j, hj, hfds⟩ := hinv.execvp hp hcode
    obtain rfl : i = j := by omega
    exact hfds
  · intro p a hp hcode
    obtain ⟨-, v, hlast, hv, -⟩ := hinv.ret hp hcode
    rw [← hv]
    exact hlast

section
variable {T : FdTable} {w : W} {first : Nat} {unread : Ofd → Str}

theorem execStage_child {env : Env W} {U : Prop} {R : List Str → FdTable → Prop}
    {command : List Str} (hR : R command T) : (execStage command).Child env U R T := by
  refine ⟨hR, ?_⟩
  intro x hx
  exact ⟨rfl, trivial⟩

theorem executePipeline_tables {M : Machine W Unit} (hM : ∀ a, M.next a = none)
    (h0 : T.get 0 ≠ none) {ds : List (List Str)} (hone : ds.length ≤ 1 ∨ T.get 1 ≠ none) :
    GivesTables M (Sys.start (executePipeline ds 0 (-1, -1) (-1, -1)) T w first unread)
      (stageTable T first ds.length) T := by
  refine .of_solo hM ?_
  rw [executePipeline_eq_wiredLoop]
  refine wiredLoop_start_solo h0 ds _ _ 1 first ?_ ?_ rfl
  · intro j prevPfd pfd Y hj hY
    rw [hY.reorder, hY.child]
    · rfl
    · refine hone.imp_left ?_
      intro hlen
      rw [decide_eq_true_iff]
      omega
  · intro i command _
    exact execStage_child ⟨i, rfl, rfl⟩

variable {line backup : Str} {heap : Mem} {commands : List Ptr} {cs : List Str}
  {argv ex : PtrArr}

theorem pipeLoop_tables {M : Machine W Locals} (hM : ∀ a, M.next a = none) (h0 : T.get 0 ≠ none)
    (hcs : Commands heap commands cs) (ha : argv.length = maxArg) (hex : ex.length = maxArg)
    (l : Locals) :
    GivesTables M (Sys.start
      (pipeLoop (pipeStage (line :: backup :: heap) argv ex) (do printf prompt; pure l)
        commands 0 (-1, -1) (-1, -1)) T w first unread) (stageTable T first cs.length) T := by
  have hsolo : (pipeLoop runStage (printf prompt) cs 0 (-1, -1) (-1, -1)).Solo M.env True
      (fun pid _ X => ∃ i, pid = 1 + i ∧ X = stageTable T first cs.length i)
      (fun _ v => v.fds = T) ⟨none, 1, first, T⟩ :=
    pipeLoop_start_solo h0 cs _ _ 1 first
      (fun i c _ => runStage_child (.inr trivial) ⟨i, rfl, rfl⟩) (.printf rfl)
  have hrel : Prog.Rel (fun _ _ => True)
      (pipeLoop (pipeStage (line :: backup :: heap) argv ex) (do printf prompt; pure l)
        commands 0 (-1, -1) (-1, -1))
      (pipeLoop runStage (printf prompt) cs 0 (-1, -1) (-1, -1)) :=
    commands_rel hcs ha hex trivial
  exact .of_solo hM (hrel.solo (Q := fun _ v => v.fds = T) (fun _ _ _ _ h => h) hsolo)

/-! ## The first child of a longer pipeline -/

theorem ahead_ops {α : Type} (env : Env W) (l : List FdOp) (p : Prog α) (x : Ctx W) :
    (Prog.ops l p).ahead env x = p.ahead env { x with fds := x.fds.ops l } := by
  induction l generalizing x with
  | nil => rfl
  | cons op l ih =>
      cases op with
      | close fd => exact ih _
      | dup2 old new => exact ih _

theorem runStage_ahead {env : Env W} {c : Str} (hlen : (tokens c).length < maxArg)
    (hfits : Fits env (tokens c) 0) (x : Ctx W) :
    ∃ k, (runStage c).ahead env x = (.execvp (tokens c) k, x) := by
  rw [runStage, if_pos hlen]
  refine expandWords_rule (U := False)
    (P := fun p : Prog Unit => ∃ k, p.ahead env x = (.execvp (tokens c) k, x))
    ?_ False.elim (.inl hfits) ?_
  · intro pat k hk
    exact hk x.world
  · intro args
    exact ⟨_, rfl⟩

/-- Some run takes the first child of a longer pipeline to its `execvp`, with the
table that the operations of the child leave. -/
theorem reach_first_stage {α β χ : Type} {M : Machine W α} {p : Prog α} {V : α → β → Prop}
    {child : Nat → Bool → Int × Int → Int × Int → List FdOp} {stage : χ → Prog β} {done : Prog β}
    {c d : χ} {rest : List χ} {pfd prevPfd : Int × Int}
    (hrel : p.Rel V (wiredLoop child stage done (c :: d :: rest) 0 pfd prevPfd))
    (hstage : ∀ x : Ctx W, ∃ args k, (stage c).ahead M.env x = (.execvp args k, x))
    (T : FdTable) (w : W) (first : Nat) (unread : Ofd → Str) :
    ∃ s r args k, Reachable (Step M) (Sys.start p T w first unread) s ∧ s.procs[1]? = some r ∧
      r.code = .prog (.execvp args k) ∧
      r.fds = (T.pipe first).ops (child 0 false prevPfd (T.pipeFds first)) := by
  obtain ⟨k', hfork, hchild⟩ : ∃ k', (wiredLoop child stage done (c :: d :: rest) 0 pfd
      prevPfd).ahead M.env ⟨T, [], w, first, 1⟩ =
        (.fork k', ⟨T.pipe first, [], w, first + 1, 1⟩) ∧
      k' .child = Prog.ops (child 0 false prevPfd (T.pipeFds first)) (stage c) :=
    ⟨_, rfl, rfl⟩
  obtain ⟨hprog, hctx⟩ := hrel.ahead M.env ⟨T, [], w, first, 1⟩
  rw [hfork] at hprog hctx
  obtain ⟨k, hk, hkrel⟩ := hprog.of_fork
  -- the child makes the same calls, up to its `execvp`
  have hcrel := hkrel .child
  rw [hchild] at hcrel
  let x : Ctx W := ⟨T.pipe first, [], w, first + 1, 2⟩
  let y : Ctx W := { x with fds := x.fds.ops (child 0 false prevPfd (T.pipeFds first)) }
  obtain ⟨args, q', hexec⟩ := hstage y
  obtain ⟨hprog', hctx'⟩ := hcrel.ahead M.env x
  rw [ahead_ops, hexec] at hprog' hctx'
  obtain ⟨q, hq⟩ := hprog'.of_execvp
  obtain ⟨s, r, hs, hr, hcode, hfds⟩ : ∃ s r,
      Reachable (Step M) (Sys.start p T w first unread) s ∧ s.procs[1]? = some r ∧
        r.code = .prog (.execvp args q) ∧ r.fds = y.fds :=
    reach_execvp (Prod.ext hk hctx) (Prod.ext hq hctx')
  exact ⟨s, r, args, q, hs, hr, hcode, hfds⟩

/-- With descriptor 1 closed the first children of longer pipelines differ. -/
theorem not_wiredAlike {M : Machine W Locals} (hM : ∀ a, M.next a = none) {M' : Machine W' Unit}
    (h0 : T.get 0 ≠ none) (h1 : T.get 1 = none) {c d : Str} {rest : List Str}
    (hcs : Commands heap commands (c :: d :: rest)) (ha : argv.length = maxArg)
    (hex : ex.length = maxArg) (l : Locals) (hlen : (tokens c).length < maxArg)
    (hfits : Fits M.env (tokens c) 0) {e f : List Str} {ds : List (List Str)} (w' : W')
    (unread' : Ofd → Str) :
    ¬ WiredAlike M (Sys.start
        (pipeLoop (pipeStage (line :: backup :: heap) argv ex) (do printf prompt; pure l)
          commands 0 (-1, -1) (-1, -1)) T w first unread)
      M' (Sys.start (executePipeline (e :: f :: ds) 0 (-1, -1) (-1, -1)) T w' first unread') := by
  intro h
  have hrel : Prog.Rel (fun _ _ => True)
      (pipeLoop (pipeStage (line :: backup :: heap) argv ex) (do printf prompt; pure l)
        commands 0 (-1, -1) (-1, -1))
      (wiredLoop childOps runStage (printf prompt) (c :: d :: rest) 0 (-1, -1) (-1, -1)) := by
    rw [← pipeLoop_eq_wiredLoop]
    exact commands_rel hcs ha hex trivial
  have hrel' : Prog.Rel (fun _ _ => True) (executePipeline (e :: f :: ds) 0 (-1, -1) (-1, -1))
      (wiredLoop childOps3 execStage (pure ()) (e :: f :: ds) 0 (-1, -1) (-1, -1)) := by
    rw [executePipeline_eq_wiredLoop]
    exact .refl (fun _ => trivial) _
  obtain ⟨s, p, args, k, hs, hp, hcode, -⟩ := reach_first_stage hrel
    (fun x => ⟨tokens c, runStage_ahead hlen hfits x⟩) T w first unread
  obtain ⟨s', p', args', k', hs', hp', hcode', hfds'⟩ := reach_first_stage (M := M') hrel'
    (fun x => ⟨e, _, rfl⟩) T w' first unread'
  have halike := (h s s' hs hs').1 0 p p' args args' k k' hp hcode hp' hcode'
  -- the shell has put the pipe at descriptor 1, `execute_pipeline` has closed it
  have hopen : p.fds.get 1 = some (.pipeW first) := by
    rw [(pipeLoop_tables hM h0 hcs ha hex l s hs).1 0 p args k hp hcode]
    simp [stageTable, stageSnk]
  have hclosed : p'.fds.get 1 = none := by
    rw [hfds']
    exact childOps3_closed h0 h1 first _
  rw [halike, hclosed] at hopen
  cases hopen

/-- `execute_pipeline` and the pipe loop of the shell wire their stages alike, and
leave the parent alike, when there is one stage or descriptor 1 is open, and only
then: otherwise the first child of `execute_pipeline` loses its standard output (the
one of the shell comes to its `execvp` when its words fit in the arrays). -/
theorem wired_alike_iff {M : Machine W Locals} (hM : ∀ a, M.next a = none) {M' : Machine W' Unit}
    (hM' : ∀ a, M'.next a = none) (h0 : T.get 0 ≠ none) (hcs : Commands heap commands cs)
    (ha : argv.length = maxArg) (hex : ex.length = maxArg) (l : Locals) {ds : List (List Str)}
    (hds : ds.length = cs.length) (w' : W') (unread' : Ofd → Str) :
    (cs.length ≤ 1 ∨ T.get 1 ≠ none →
      WiredAlike M (Sys.start
          (pipeLoop (pipeStage (line :: backup :: heap) argv ex) (do printf prompt; pure l)
            commands 0 (-1, -1) (-1, -1)) T w first unread)
        M' (Sys.start (executePipeline ds 0 (-1, -1) (-1, -1)) T w' first unread')) ∧
    ((∀ c ∈ cs.head?, (tokens c).length < maxArg ∧ Fits M.env (tokens c) 0) →
      WiredAlike M (Sys.start
          (pipeLoop (pipeStage (line :: backup :: heap) argv ex) (do printf prompt; pure l)
            commands 0 (-1, -1) (-1, -1)) T w first unread)
        M' (Sys.start (executePipeline ds 0 (-1, -1) (-1, -1)) T w' first unread') →
      cs.length ≤ 1 ∨ T.get 1 ≠ none) := by
  constructor
  · intro hone
    rw [← hds] at hone
    have htables : GivesTables M' (Sys.start (executePipeline ds 0 (-1, -1) (-1, -1)) T w' first
        unread') (stageTable T first ds.length) T := executePipeline_tables hM' h0 hone
    rw [hds] at htables
    exact (pipeLoop_tables hM h0 hcs ha hex l).alike htables
  · intro hfits halike
    by_contra hcond
    obtain ⟨hlong, hclosed⟩ := not_or.mp hcond
    -- both pipelines have at least two stages
    have hlong' : ¬ ds.length ≤ 1 := by rwa [hds]
    rcases cs with _ | ⟨c, _ | ⟨d, rest⟩⟩
    · exact hlong (Nat.zero_le 1)
    · exact hlong (Nat.le_refl 1)
    rcases ds with _ | ⟨e, _ | ⟨f, ds⟩⟩
    · exact hlong' (Nat.zero_le 1)
    · exact hlong' (Nat.le_refl 1)
    obtain ⟨hlen, hfit⟩ := hfits c rfl
    exact not_wiredAlike hM h0 (not_not.mp hclosed) hcs ha hex l hlen hfit w' unread' halike

end

/-- Two commands from the descriptors of a terminal. -/
theorem ls_wc_alike : WiredAlike (⟨4096, false, .ofExec fun _ => none, fun _ => none⟩ :
      Machine Unit Locals)
    (Sys.start (pipeLoop (pipeStage ([] :: [] :: ["ls".toList ++ [NUL], "wc".toList ++ [NUL]])
        (List.replicate maxArg .undef) (List.replicate maxArg .undef))
      (do printf prompt; pure .zero) [.at 2 0, .at 3 0] 0 (-1, -1) (-1, -1)) stdFds () 0 fun _ => [])
    (⟨4096, false, .ofExec fun _ => none, fun _ => none⟩ : Machine Unit Unit)
    (Sys.start (executePipeline [["ls".toList], ["wc".toList]] 0 (-1, -1) (-1, -1)) stdFds () 0
      fun _ => []) := by
  have hcs : Commands ["ls".toList ++ [NUL], "wc".toList ++ [NUL]] [.at 2 0, .at 3 0]
      ["ls".toList, "wc".toList] :=
    .cons ⟨0, rfl, rfl, by decide⟩ (.cons ⟨1, rfl, rfl, by decide⟩ .nil)
  have ha : (List.replicate maxArg Ptr.undef).length = maxArg := List.length_replicate
  exact (wired_alike_iff (fun _ => rfl) (fun _ => rfl) (by decide) hcs ha ha .zero rfl () _).1
    (.inr (by decide))

/-- Two commands with only descriptor 0 open. -/
theorem ls_wc_differ : ¬ WiredAlike (⟨4096, false, .ofExec fun _ => none, fun _ => none⟩ :
      Machine Unit Locals)
    (Sys.start (pipeLoop (pipeStage ([] :: [] :: ["ls".toList ++ [NUL], "wc".toList ++ [NUL]])
        (List.replicate maxArg .undef) (List.replicate maxArg .undef))
      (do printf prompt; pure .zero) [.at 2 0, .at 3 0] 0 (-1, -1) (-1, -1))
      ((stdFds.close 1).close 2) () 0 fun _ => [])
    (⟨4096, false, .ofExec fun _ => none, fun _ => none⟩ : Machine Unit Unit)
    (Sys.start (executePipeline [["ls".toList], ["wc".toList]] 0 (-1, -1) (-1, -1))
      ((stdFds.close 1).close 2) () 0 fun _ => []) := by
  have hcs : Commands ["ls".toList ++ [NUL], "wc".toList ++ [NUL]] [.at 2 0, .at 3 0]
      ["ls".toList, "wc".toList] :=
    .cons ⟨0, rfl, rfl, by decide⟩ (.cons ⟨1, rfl, rfl, by decide⟩ .nil)
  have ha : (List.replicate maxArg Ptr.undef).length = maxArg := List.length_replicate
  have hlen : (tokens "ls".toList).length < maxArg := by decide
  have hfits : Fits (.ofExec fun _ => none) (tokens "ls".toList) 0 := by
    intro w
    show 1 < maxArg
    decide
  exact not_wiredAlike (fun _ => rfl) (by decide) (by decide) hcs ha ha .zero hlen hfits () _

end UnixSys.Shell

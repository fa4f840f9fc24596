import UnixSys.Posix.Ahead
import UnixSys.Shell.Wiring

/-!
# Session — the read loop from prompt to prompt

`shellMachine` runs `main`: at a prompt it takes the next bytes that `fgets`
delivers and makes one round of the read loop. Every branch of the cascade
gives back the descriptors it took and waits for the children it made
(`runLine_solo`), so every prompt finds the shell as it was at the start.
-/

namespace UnixSys.Shell

open Posix

variable {W : Type} {env : Env W} {U : Prop} {T : FdTable} {v : View}

/-- No child, and the table `T`. -/
structure Idle (T : FdTable) (v : View) : Prop where
  child : v.child = none
  fds : v.fds = T

/-- A program that takes the shell from idle to idle, with any children on the
way. -/
def KeepsIdle (env : Env W) (U : Prop) (T : FdTable) (p : Prog Unit) : Prop :=
  ∀ v, Idle T v → p.Solo env U (fun _ _ _ => True) (fun _ => Idle T) v

theorem KeepsIdle.bind {p q : Prog Unit} (hp : KeepsIdle env U T p) (hq : KeepsIdle env U T q) :
    KeepsIdle env U T (do p; q) :=
  fun v hv => (hp v hv).bind fun _ v hv => hq v hv

theorem printf_idle (t : Str) : KeepsIdle env U T (printf t) :=
  fun _ hv => .printf hv

/-! ## Commands -/

theorem runCommand_idle (args : List Str) : KeepsIdle env U T (runCommand args) :=
  fun _ hv => ⟨hv.child, ⟨trivial, .printf trivial⟩, rfl, rfl, hv.fds⟩

theorem runWords_idle {ws : List Str} (hfits : Fits env ws 0 ∨ U) :
    KeepsIdle env U T (runWords ws) :=
  fun v hv => expandWords_rule
    (P := fun p : Prog Unit => p.Solo env U (fun _ _ _ => True) (fun _ => Idle T) v)
    (fun _ _ h => .glob h) id hfits fun args => runCommand_idle args v hv

theorem runFields_idle {fs : List Str}
    (hfs : (∀ f ∈ fs, (tokens (trimmed f)).length < maxArg ∧ Fits env (tokens (trimmed f)) 0) ∨ U) :
    KeepsIdle env U T (runFields fs) := by
  induction fs with
  | nil => exact fun v hv => hv
  | cons f fs ih =>
      refine KeepsIdle.bind ?_ (ih (hfs.imp_left fun h g hg => h g (List.mem_cons_of_mem _ hg)))
      rw [runField]
      by_cases hlt : (tokens (trimmed f)).length < maxArg
      · rw [if_pos hlt]
        exact runWords_idle (hfs.imp_left fun h => (h f List.mem_cons_self).2)
      · rw [if_neg hlt]
        exact fun _ _ => hfs.resolve_left fun h => hlt (h f List.mem_cons_self).1

theorem runPipeline_idle (h0 : T.get 0 ≠ none) {cs : List Str}
    (hcs : (cs.length < maxArg ∧
      ∀ c ∈ cs, (tokens c).length < maxArg ∧ Fits env (tokens c) 0) ∨ U) :
    KeepsIdle env U T (runPipeline cs) := by
  rintro ⟨child, procs, pipes, fds⟩ ⟨hchild, hfds⟩
  simp only at hchild hfds
  subst hchild hfds
  rw [runPipeline]
  by_cases hlt : cs.length < maxArg
  · rw [if_pos hlt]
    refine pipeLoop_start_solo h0 cs _ _ procs pipes (fun i c hc => runStage_child ?_ trivial)
      (.printf ⟨rfl, rfl⟩)
    exact hcs.imp_left fun h => h.2 c (List.mem_of_getElem? hc)
  · rw [if_neg hlt]
    exact hcs.resolve_left fun h => hlt h.1

/-! ## Redirections -/

/-- Descriptors 0 and 1 are open, and every other descriptor is as in `X`. -/
structure Redirected (X Y : FdTable) : Prop where
  zero : Y.get 0 ≠ none
  one : Y.get 1 ≠ none
  rest : ∀ fd, fd ≠ 0 → fd ≠ 1 → Y.get fd = X.get fd

/-- `open`, `dup2` and `close` of `fileRedir` replace one descriptor. -/
theorem redirect_eq {Y : FdTable} (h0 : Y.get 0 ≠ none) (h1 : Y.get 1 ≠ none) {fd : Int}
    (hfd : fd = 0 ∨ fd = 1) (o : Ofd) :
    (((Y.put Y.lowest o).dup2 Y.lowest fd).close Y.lowest) = Y.put fd o ∧ 2 ≤ Y.lowest := by
  have hpos := Y.lowest_pos h0
  have hne : Y.lowest ≠ 1 := fun h => h1 (h ▸ Y.get_lowest)
  have hget : (Y.put Y.lowest o).get Y.lowest = some o := by
    rw [FdTable.get_put, if_pos ⟨rfl, by omega⟩]
  refine ⟨?_, by omega⟩
  rw [FdTable.dup2_of_get _ hget]
  ext1
  funext x
  have hlow := Y.get_lowest
  simp only [FdTable.get_close, FdTable.get_put]
  split_ifs with h2 h3 h4 h5 <;> first | rfl | omega | skip
  rw [h2, hlow]

theorem Redirected.put {X Y : FdTable} (h : Redirected X Y) {fd : Int} (hfd : fd = 0 ∨ fd = 1)
    (o : Ofd) : Redirected X (Y.put fd o) := by
  refine ⟨?_, ?_, fun x h0 h1 => ?_⟩
  · rw [FdTable.get_put]
    split_ifs
    · simp
    · exact h.zero
  · rw [FdTable.get_put]
    split_ifs
    · simp
    · exact h.one
  · rw [FdTable.get_put, if_neg (by omega), h.rest x h0 h1]

/-- What the view of the shell is between `redirectTo` and the restoring `dup2`s. -/
structure Redirecting (X : FdTable) (v : View) : Prop where
  child : v.child = none
  fds : Redirected X v.fds

theorem fileRedir_solo {X : FdTable} {redirection file : Str} (hv : Redirecting X v) :
    (fileRedir redirection file).Solo env U (fun _ _ _ => True) (fun _ => Redirecting X) v := by
  have hreplace : ∀ fd : Int, fd = 0 ∨ fd = 1 → ∀ how,
      (do dup2 v.fds.lowest fd
          close v.fds.lowest).Solo env U (fun _ _ _ => True) (fun _ => Redirecting X)
        { v with fds := v.fds.put v.fds.lowest (.file file how) } := by
    intro fd hfd how
    refine .dup2 (.close ?_)
    rw [(redirect_eq hv.fds.zero hv.fds.one hfd _).1]
    exact ⟨hv.child, hv.fds.put hfd _⟩
  have hlow : ¬ v.fds.lowest < 0 := Int.not_lt.mpr v.fds.lowest_nonneg
  simp only [fileRedir, openFile, Prog.call_bind, Prog.ret_bind]
  by_cases hin : redirection = "<".toList
  · rw [if_pos hin]
    refine .openFile (.perror hv) ?_
    rw [if_neg hlow]
    exact hreplace 0 (.inl rfl) _
  rw [if_neg hin]
  by_cases hout : redirection = ">".toList
  · rw [if_pos hout]
    refine .openFile (.perror hv) ?_
    rw [if_neg hlow]
    exact hreplace 1 (.inr rfl) _
  · rw [if_neg hout]
    exact hv

theorem redirectTo_solo {X : FdTable} {redirection : Str} {file : Option Str}
    (hv : Redirecting X v) :
    (redirectTo redirection file).Solo env U (fun _ _ _ => True) (fun _ => Redirecting X) v := by
  cases file with
  | none => exact hv
  | some file => exact fileRedir_solo hv

/-- The saved copies of descriptors 0 and 1 bring back the table they were made
in. -/
theorem restore_eq {a b : Ofd} (ha : T.get 0 = some a) (hb : T.get 1 = some b) {i j : Int}
    {X Y : FdTable} (hi : i = T.lowest) (hj : j = (T.put i a).lowest)
    (hX : X = (T.put i a).put j b) (hY : Redirected X Y) :
    (((Y.dup2 i 0).dup2 j 1).close i).close j = T := by
  have hi1 := T.lowest_pos (by simp [ha])
  have hi2 : T.lowest ≠ 1 := fun h => by
    have := T.get_lowest
    rw [h, hb] at this
    cases this
  have hilow := T.get_lowest
  rw [← hi] at hi1 hi2 hilow
  have hjlow := (T.put i a).get_lowest
  have hj0 := (T.put i a).lowest_nonneg
  rw [← hj, FdTable.get_put] at hjlow
  rw [← hj] at hj0
  have hji : j ≠ i := by
    rintro rfl
    rw [if_pos ⟨rfl, by omega⟩] at hjlow
    cases hjlow
  rw [if_neg (by omega)] at hjlow
  have hj2 : j ≠ 0 ∧ j ≠ 1 := by
    constructor
    · rintro rfl
      rw [ha] at hjlow
      cases hjlow
    · rintro rfl
      rw [hb] at hjlow
      cases hjlow
  -- the redirections touch neither of the copies
  have hYi : Y.get i = some a := by
    rw [hY.rest i (by omega) hi2, hX, FdTable.get_put, if_neg (by omega), FdTable.get_put,
      if_pos ⟨rfl, by omega⟩]
  have hYj : (Y.put 0 a).get j = some b := by
    rw [FdTable.get_put, if_neg (by omega), hY.rest j hj2.1 hj2.2, hX, FdTable.get_put,
      if_pos ⟨rfl, hj0⟩]
  rw [FdTable.dup2_of_get _ hYi, FdTable.dup2_of_get _ hYj]
  ext1
  funext x
  simp only [FdTable.get_close, FdTable.get_put]
  split_ifs with h1 h2 h3 h4
  · rw [h1, hjlow]
  · rw [h2, hilow]
  · rw [h3.1, hb]
  · rw [h4.1, ha]
  · rw [hY.rest x (by omega) (by omega), hX, FdTable.get_put, if_neg (by omega),
      FdTable.get_put, if_neg (by omega)]

theorem runRedirected_idle (h0 : T.get 0 ≠ none) (h1 : T.get 1 ≠ none) {input output : Option Str}
    {ws : List Str} (hfits : Fits env ws 0 ∨ U) :
    KeepsIdle env U T (runRedirected input output ws) := by
  obtain ⟨a, ha⟩ := Option.ne_none_iff_exists'.mp h0
  obtain ⟨b, hb⟩ := Option.ne_none_iff_exists'.mp h1
  rintro ⟨child, procs, pipes, fds⟩ ⟨hchild, hfds⟩
  simp only at hchild hfds
  subst hchild hfds
  have hi := fds.lowest_pos h0
  have hi1 : fds.lowest ≠ 1 := fun h => h1 (h ▸ fds.get_lowest)
  have hb' : (fds.put fds.lowest a).get 1 = some b := by
    rw [FdTable.get_put, if_neg (by omega), hb]
  obtain ⟨X, hX⟩ : ∃ X, X = (fds.put fds.lowest a).put (fds.put fds.lowest a).lowest b :=
    ⟨_, rfl⟩
  have hX0 : ∀ fd, fds.get fd ≠ none → X.get fd ≠ none := by
    intro fd hfd
    rw [hX]
    simp only [FdTable.get_put]
    split_ifs
    · simp
    · simp
    · exact hfd
  refine .dup ha (.dup hb' ?_)
  simp only [← hX]
  have hstart : Redirecting X ⟨none, procs, pipes, X⟩ :=
    ⟨rfl, hX0 0 h0, hX0 1 h1, fun _ _ _ => rfl⟩
  refine (redirectTo_solo hstart).bind fun _ v₁ hv₁ => ?_
  refine (redirectTo_solo hv₁).bind fun _ v₂ hv₂ => ?_
  refine (runWords_idle hfits v₂ ⟨hv₂.child, rfl⟩).bind fun _ v₃ hv₃ => ?_
  refine .dup2 (.dup2 (.close (.close (.printf ⟨hv₃.child, ?_⟩))))
  simp only [hv₃.fds]
  exact restore_eq ha hb rfl rfl hX hv₂.fds

/-! ## Lines -/

theorem runCompile_idle {ts : List Str} (hts : CompileFits env ts ∨ U) :
    KeepsIdle env U T (runCompile ts) := by
  match ts with
  | [] =>
      refine fun _ _ => hts.resolve_left ?_
      rintro ⟨_, _, _, h, -⟩
      cases h
  | [_] =>
      refine fun _ _ => hts.resolve_left ?_
      rintro ⟨_, _, _, h, -⟩
      cases h
  | _ :: name :: _ =>
      refine (runWords_idle (hts.imp_left ?_)).bind (printf_idle _)
      rintro ⟨_, _, _, h, hfits⟩
      cases h
      exact hfits

theorem runPlain_idle (h0 : T.get 0 ≠ none) (h1 : T.get 1 ≠ none) {s : Str}
    (hs : PlainFits env s ∨ U) : KeepsIdle env U T (runPlain s) := by
  rw [PlainFits] at hs
  rw [runPlain]
  by_cases hredir : (s.contains '<' || s.contains '>') = true
  · rw [if_pos hredir] at hs ⊢
    cases hsplit : splitRedir (tokens s) none none [] with
    | none =>
        refine fun _ _ => hs.resolve_left ?_
        rintro ⟨_, _, _, h, -⟩
        rw [hsplit] at h
        cases h
    | some r =>
        refine runRedirected_idle h0 h1 (hs.imp_left ?_)
        rintro ⟨_, _, _, h, hfits⟩
        rw [hsplit] at h
        cases h
        exact hfits
  rw [if_neg hredir] at hs ⊢
  by_cases hseq : s.contains ';' = true
  · rw [if_pos hseq] at hs ⊢
    exact (runFields_idle hs).bind (printf_idle _)
  rw [if_neg hseq] at hs ⊢
  by_cases hpipe : s.contains '|' = true
  · rw [if_pos hpipe] at hs ⊢
    refine runPipeline_idle h0 (hs.imp_left fun h => ⟨by simpa using h.1, fun c hc => ?_⟩)
    obtain ⟨f, hf, rfl⟩ := List.mem_map.mp hc
    exact h.2 f hf
  · rw [if_neg hpipe] at hs ⊢
    exact (runWords_idle hs).bind (printf_idle _)

theorem runLine_idle (h0 : T.get 0 ≠ none) (h1 : T.get 1 ≠ none) {s : Str}
    (hs : LineFits env s ∨ U) : KeepsIdle env U T (runLine s) := by
  intro v hv
  rw [runLine]
  by_cases hlen : (tokens s).length < maxArg
  swap
  · rw [if_neg hlen]
    exact hs.resolve_left fun h => hlen h.1
  rw [if_pos hlen]
  simp only [strcasecmp, Prog.call_bind, Prog.ret_bind]
  cases hcmd : (tokens s).head? with
  | none =>
      -- an empty line: `strcasecmp` is called on NULL
      refine .strcasecmp (fun _ => hs.resolve_left ?_) fun _ h => by cases h
      rintro ⟨-, word, hword, -⟩
      rw [hcmd] at hword
      cases hword
  | some word =>
      have hrest : (eqIgnoreCase word "exit".toList = true ∨
          eqIgnoreCase word "listall".toList = true ∨
          if eqIgnoreCase word "compile".toList then CompileFits env (tokens s)
          else PlainFits env s) ∨ U := by
        refine hs.imp_left ?_
        rintro ⟨-, word', hword', h⟩
        rw [hcmd] at hword'
        cases hword'
        exact h
      refine .strcasecmp (fun h => by cases h) ?_
      rintro _ ⟨⟩
      by_cases hexit : eqIgnoreCase word "exit".toList = true
      · simp only [if_pos hexit]
        trivial
      simp only [if_neg hexit]
      refine .strcasecmp (fun h => by cases h) ?_
      rintro _ ⟨⟩
      by_cases hlistall : eqIgnoreCase word "listall".toList = true
      · simp only [if_pos hlistall]
        exact (runCommand_idle _).bind (printf_idle _) v hv
      simp only [if_neg hlistall]
      refine .strcasecmp (fun h => by cases h) ?_
      rintro _ ⟨⟩
      have hrest' := hrest.imp_left fun h => (h.resolve_left hexit).resolve_left hlistall
      by_cases hcompile : eqIgnoreCase word "compile".toList = true
      · simp only [if_pos hcompile] at hrest' ⊢
        exact runCompile_idle hrest' v hv
      · simp only [if_neg hcompile] at hrest' ⊢
        exact runPlain_idle h0 h1 hrest' v hv

/-! ## The whole shell -/

/-- The input of the shell as `fgets` delivers it: the bytes of one call, or end
of file. -/
abbrev Input := List (Option Str)

/-- At a prompt: `while (fgets(line, sizeof(line), stdin) != NULL)`. -/
def mainNext : Locals × Input → Option (Prog (Locals × Input))
  | (_, []) => none
  | (_, none :: _) => some (exit 0)
  | (l, some chunk :: input) => some do
      let l ← body l chunk
      pure (l, input)

/-- `main` up to the first call of `fgets`. -/
def mainStart (l : Locals) (input : Input) : Prog (Locals × Input) := do
  printf prompt
  pure (l, input)

def shellMachine (capacity : Nat) (sigchldIgnored : Bool) (env : Env W) :
    Machine W (Locals × Input) := ⟨capacity, sigchldIgnored, env, mainNext⟩

/-- The bytes of one call of `fgets`, with the command string `s`. A redirection
operator that the scan meets has a file name after it. -/
structure Chunk (s chunk : Str) : Prop where
  command : command chunk = some s
  length : chunk.length < maxLine
  named : TakesRedir s → ¬ Dangling (tokens s)

/-- What holds of the shell and its input at each prompt. -/
structure AtPrompt (env : Env W) (U : Prop) (T : FdTable) (a : Locals × Input) (v : View) :
    Prop where
  locals : a.1.Ok
  input : ∀ chunk, some chunk ∈ a.2 → ∃ s, Chunk s chunk ∧ (LineFits env s ∨ U)
  idle : Idle T v

theorem mainNext_solo (h0 : T.get 0 ≠ none) (h1 : T.get 1 ≠ none) {a : Locals × Input}
    (ha : AtPrompt env U T a v) {q : Prog (Locals × Input)} (hq : mainNext a = some q) :
    q.Solo env U (fun _ _ _ => True) (AtPrompt env U T) v := by
  obtain ⟨l, input⟩ := a
  obtain ⟨hl, hinput, hidle⟩ := ha
  match input, hq with
  | none :: _, hq =>
      cases hq
      trivial
  | some chunk :: input, hq =>
      cases hq
      obtain ⟨s, hchunk, hfits⟩ := hinput chunk List.mem_cons_self
      have hrel := body_rel hl hchunk.length hchunk.command hchunk.named
      have hbody : (body l chunk).Solo env U (fun _ _ _ => True)
          (fun l v => l.Ok ∧ Idle T v) v :=
        hrel.solo (fun _ _ _ hok hv => ⟨hok, hv⟩) (runLine_idle h0 h1 hfits v hidle)
      exact hbody.bind fun l v hv =>
        ⟨hv.1, fun chunk hc => hinput chunk (List.mem_cons_of_mem _ hc), hv.2⟩

/-- Each time the shell is at a prompt it has the descriptor table it started
with, no other process is at a prompt, and every other process has ended and
been waited for. Within the capacity of the arrays no process ever runs into
undefined behaviour. -/
theorem prompt_clean (capacity : Nat) (sigchldIgnored : Bool) (env : Env W) {l : Locals}
    (hl : l.Ok) {input : Input} (hinput : ∀ chunk, some chunk ∈ input → ∃ s, Chunk s chunk)
    (h0 : T.get 0 ≠ none) (h1 : T.get 1 ≠ none) (w : W) (unread : Ofd → Str)
    {s : Sys W (Locals × Input)}
    (hs : Reachable (Step (shellMachine capacity sigchldIgnored env))
      (Sys.start (mainStart l input) T w 0 unread) s) :
    (∀ pid p a, s.procs[pid]? = some p → p.code = .prog (.ret a) →
      pid = 0 ∧ p.fds = T ∧
        ∀ j q, j ≠ 0 → s.procs[j]? = some q → ∃ e, q.code = .reaped e) ∧
    ((∀ t chunk, some chunk ∈ input → Chunk t chunk → LineFits env t) →
      ∀ (pid : Nat) (p : Proc (Locals × Input)), s.procs[pid]? = some p →
        p.code ≠ .prog .ub) := by
  -- the same invariant twice: with undefined behaviour let pass, and ruled out
  have hinv : ∀ U : Prop, (∀ chunk, some chunk ∈ input →
      ∃ t, Chunk t chunk ∧ (LineFits env t ∨ U)) →
      SoloInv (shellMachine capacity sigchldIgnored env) U (fun _ _ _ => True)
        (AtPrompt env U T) s := by
    intro U hU
    have hstart : (mainStart l input).Solo env U (fun _ _ _ => True) (AtPrompt env U T)
        ⟨none, 1, 0, T⟩ := .printf ⟨hl, hU, rfl, rfl⟩
    exact Prog.Solo.reachable (M := shellMachine capacity sigchldIgnored env) hstart
      (fun a v q ha hq => mainNext_solo h0 h1 ha hq) hs
  constructor
  · intro pid p a hp hcode
    have htrue := hinv True fun chunk hc => (hinput chunk hc).imp fun _ h => ⟨h, .inr trivial⟩
    obtain ⟨rfl, v, hv, hfds, hothers⟩ := htrue.ret hp hcode
    exact ⟨rfl, hfds ▸ hv.idle.fds, hothers hv.idle.child⟩
  · intro hfits pid p hp
    refine SoloInv.not_ub (M := shellMachine capacity sigchldIgnored env)
      (R := fun _ _ _ => True) (Q := AtPrompt env False T) ?_ hp
    refine hinv False fun chunk hc => ?_
    obtain ⟨t, ht⟩ := hinput chunk hc
    exact ⟨t, ht, .inl (hfits t chunk hc ht)⟩

/-- Some run reads the first line and makes its first calls. -/
theorem reach_line (capacity : Nat) (sigchldIgnored : Bool) (unread : Ofd → Str) {l : Locals}
    {chunk : Str} {input : Input} {w : W} {q : Prog (Locals × Input)} {x : Ctx W}
    (hnext : (do let l ← body l chunk; pure (l, input) : Prog (Locals × Input)).ahead env
      ⟨T, prompt, w, 0, 1⟩ = (q, x)) :
    ∃ s, Reachable (Step (shellMachine capacity sigchldIgnored env))
        (Sys.start (mainStart l (some chunk :: input)) T w 0 unread) s ∧
      s.procs = [⟨none, .prog q, x.fds, x.buf⟩] ∧ s.world = x.world ∧ s.pipes = x.pipes := by
  let M := shellMachine capacity sigchldIgnored env
  let sh : Proc (Locals × Input) :=
    ⟨none, .prog (do let l ← body l chunk; pure (l, input)), T, prompt⟩
  -- the prompt is printed and the line read
  obtain ⟨s, hs, hprocs, hctx⟩ : ∃ s, Reachable (Step M)
      (Sys.start (mainStart l (some chunk :: input)) T w 0 unread) s ∧ s.procs = [sh] ∧
        s.ctx sh = ⟨T, prompt, w, 0, 1⟩ :=
    ⟨_, .tail (.tail (.refl _) ⟨0, _, rfl, rfl⟩) ⟨0, _, rfl, _, rfl, rfl⟩, rfl, rfl⟩
  have hahead := reach_ahead (M := M) (show s.procs[0]? = some sh by rw [hprocs]; rfl)
    (rfl : sh.code = .prog _)
  rw [hctx, show M.env = env from rfl, hnext] at hahead
  refine ⟨_, hs.trans hahead, ?_, rfl, rfl⟩
  show s.procs.set 0 _ = _
  rw [hprocs]
  rfl

/-- Every command ends at once. -/
def endsAtOnce : Env Unit := .ofExec fun _ => some fun _ _ _ => .exit

theorem lsOut_hchunk {chunk : Str} (hc : some chunk ∈ [some "ls > out\n".toList]) :
    Chunk "ls > out".toList chunk := by
  obtain rfl : chunk = "ls > out\n".toList := by simpa using hc
  exact ⟨by decide, by decide, fun _ => by decide⟩

/-- After its calls the round is at the `fork` of `execute`, and after the calls that
follow the wait it is at its end. -/
theorem lsOut_ahead : ∃ k x, (do runLine "ls > out".toList; pure () : Prog Unit).ahead endsAtOnce
      ⟨stdFds, prompt, (), 0, 1⟩ = (.fork k, x) ∧ x.world = () ∧ x.pipes = 0 ∧ x.procs = 1 ∧
    (∃ q, k .child = .execvp ["ls".toList] q) ∧
    ∃ q, k (.parent 1) = .waitFor 1 q ∧
      ∃ y, q.ahead endsAtOnce ⟨x.fds, x.buf, (), 0, 2⟩ = (.ret (), y) := by
  let T₁ := stdFds.put 3 (.init 0)
  let T₂ := T₁.put 4 (.init 1)
  let T₃ := T₂.put 5 (.file "out".toList outputHow)
  have hstdin : (Call.dup 0).apply endsAtOnce ⟨stdFds, prompt, (), 0, 1⟩ =
      some (3, ⟨T₁, prompt, (), 0, 1⟩) := by
    show some (stdFds.lowest, (⟨stdFds.put stdFds.lowest _, _, _, _, _⟩ : Ctx Unit)) = _
    rw [show stdFds.lowest = 3 by decide +kernel]
    rfl
  have hstdout : (Call.dup 1).apply endsAtOnce ⟨T₁, prompt, (), 0, 1⟩ =
      some (4, ⟨T₂, prompt, (), 0, 1⟩) := by
    show some (T₁.lowest, (⟨T₁.put T₁.lowest _, _, _, _, _⟩ : Ctx Unit)) = _
    rw [show T₁.lowest = 4 by decide +kernel]
    rfl
  have hopen : (Call.openFile "out".toList outputHow).apply endsAtOnce ⟨T₂, prompt, (), 0, 1⟩ =
      some (5, ⟨T₃, prompt, (), 0, 1⟩) := by
    show some (T₂.lowest, (⟨T₂.put T₂.lowest _, _, _, _, _⟩ : Ctx Unit)) = _
    rw [show T₂.lowest = 5 by decide +kernel]
  have hline : (do runLine "ls > out".toList; pure () : Prog Unit).ahead endsAtOnce
      ⟨stdFds, prompt, (), 0, 1⟩ =
        (do runRedirected none (some "out".toList) ["ls".toList]; pure () : Prog Unit).ahead
          endsAtOnce ⟨stdFds, prompt, (), 0, 1⟩ := rfl
  have hcalls := hline.trans ((Prog.ahead_call hstdin).trans
    ((Prog.ahead_call hstdout).trans (Prog.ahead_call hopen)))
  refine ⟨_, _, hcalls.trans rfl, rfl, rfl, rfl, ⟨_, rfl⟩, _, rfl, _, rfl⟩

/-- The second prompt of a session with the one line `ls > out`: the shell has its
descriptors back, and its child has ended and been waited for. -/
theorem redirected_prompt : ∃ (s : Sys Unit (Locals × Input)) (p : Proc (Locals × Input))
    (a : Locals × Input), s.procs[0]? = some p ∧ p.code = .prog (.ret a) ∧ a.2 = [] ∧
      s.procs.length = 2 ∧ p.fds = stdFds ∧
      (∀ j q, j ≠ 0 → s.procs[j]? = some q → ∃ e, q.code = .reaped e) ∧
      ∀ (pid : Nat) (q : Proc (Locals × Input)), s.procs[pid]? = some q → q.code ≠ .prog .ub := by
  obtain ⟨l, hl, hzero⟩ : ∃ l : Locals, l.Ok ∧ l = .zero := ⟨_, Locals.zero_ok, rfl⟩
  have hround : (do let l ← body l "ls > out\n".toList; pure (l, []) : Prog (Locals × Input)).Rel
      (fun a _ => a.2 = []) (do runLine "ls > out".toList; pure ()) :=
    (body_rel hl (by decide) (by decide) fun _ => by decide).bind fun _ _ _ => .ret rfl
  obtain ⟨k', ⟨T, buf, w, pipes, procs⟩, hfork, rfl, rfl, rfl, ⟨c, hchild⟩, q', hparent, y,
    hrest⟩ := lsOut_ahead
  obtain ⟨hprog, hctx⟩ := hround.ahead endsAtOnce ⟨stdFds, prompt, (), 0, 1⟩
  rw [hfork] at hprog hctx
  obtain ⟨k, hk, hrel⟩ := hprog.of_fork
  obtain ⟨p, hp⟩ := (hchild ▸ hrel .child).of_execvp
  obtain ⟨q, hq, hqrel⟩ := (hparent ▸ hrel (.parent 1)).of_waitFor
  obtain ⟨hret, hctx'⟩ := hqrel.ahead endsAtOnce ⟨T, buf, (), 0, 2⟩
  rw [hrest] at hret hctx'
  obtain ⟨a, ha, hend⟩ := hret.of_ret
  obtain ⟨s₁, hs₁, hprocs, -, hpipes⟩ := reach_line 4096 false (fun _ => []) (Prod.ext hk hctx)
  have hnext : q.ahead endsAtOnce ⟨T, buf, (), s₁.pipes, 2⟩ = (.ret a, y) := by
    rw [hpipes]
    exact Prod.ext ha hctx'
  obtain ⟨s₂, hs₂, hprocs⟩ := reach_waited (M := shellMachine 4096 false endsAtOnce) hprocs rfl hp
    hq rfl rfl rfl hnext
  have hclean := prompt_clean 4096 false endsAtOnce hl
    (fun chunk hc => ⟨_, lsOut_hchunk hc⟩) (by decide) (by decide) () (fun _ => [])
    (hs₁.trans hs₂)
  obtain ⟨-, hfds, hothers⟩ := hclean.1 0 _ a (by rw [hprocs]; rfl) rfl
  refine ⟨s₂, _, a, by rw [hprocs]; rfl, rfl, hend, by rw [hprocs]; rfl, hfds, hothers, ?_⟩
  refine hclean.2 fun t chunk hc ht => ?_
  obtain rfl : "ls > out".toList = t :=
    Option.some.inj ((lsOut_hchunk hc).command.symm.trans ht.command)
  exact ⟨by decide, _, rfl, .inr (.inr ⟨none, some "out".toList, ["ls".toList], rfl,
    fun _ => (by decide : 1 < maxArg)⟩)⟩

end UnixSys.Shell

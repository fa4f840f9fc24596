import UnixSys.Shell.Meaning
import UnixSys.Posix.Shows

/-!
# Effects — the launches of one line

The sequential run of the programs of `UnixSys.Shell.Meaning`: which processes
each branch launches, with which arguments.
-/

namespace UnixSys.Shell

open Posix

variable {W : Type} {env : Env W} {x y : Ctx W}

/-! ## Expansion -/

/-- The matches of each word, in order, or the word itself when it has none. -/
def expand (env : Env W) (w : W) (ws : List Str) : List Str :=
  ws.flatMap fun word => (env.glob w word).getD [word]

theorem expand_cons (w : W) (word : Str) (ws : List Str) :
    expand env w (word :: ws) = (env.glob w word).getD [word] ++ expand env w ws := rfl

theorem Fits.expand_lt (w : W) {ws : List Str} {k : Nat} (h : Fits env ws k) :
    k + (expand env w ws).length < maxArg := by
  induction ws generalizing k with
  | nil => exact h
  | cons word ws ih =>
      have := ih (h w)
      rw [expand_cons, List.length_append]
      omega

/-- Where no pattern matches, words expand to themselves. -/
theorem expand_ofExec (exec : Launch → Option Image) (ws : List Str) :
    expand (.ofExec exec) () ws = ws := by
  induction ws with
  | nil => rfl
  | cons word ws ih =>
      rw [expand_cons, ih]
      rfl

theorem fits_ofExec (exec : Launch → Option Image) {ws : List Str} {k : Nat}
    (h : k + ws.length < maxArg) : Fits (.ofExec exec) ws k := by
  induction ws generalizing k with
  | nil => exact h
  | cons word ws ih =>
      intro w
      apply ih
      rw [List.length_cons] at h
      show k + 1 + ws.length < maxArg
      omega

/-- The words, and what `glob` answers to them. -/
def globbed (env : Env W) (w : W) (ws : List Str) : List (Str × Option (List Str)) :=
  ws.map fun word => (word, env.glob w word)

theorem globbed_words (w : W) (ws : List Str) : (globbed env w ws).map Prod.fst = ws := by
  rw [globbed, List.map_map]
  exact List.map_id ws

theorem glob_shows (word : Str) (x : Ctx W) : (glob word).Shows env x
    [.call (.glob word) (some (env.glob x.world word))] (env.glob x.world word) x := .call rfl

theorem expandWords_shows {ws acc : List Str}
    (h : acc.length + (expand env x.world ws).length < maxArg) :
    (expandWords ws acc).Shows env x
      ((globbed env x.world ws).map fun g => .call (.glob g.1) (some g.2))
      (acc ++ expand env x.world ws) x := by
  induction ws generalizing acc with
  | nil =>
      have hlt : acc.length < maxArg := h
      rw [expandWords, if_pos hlt, expand, List.flatMap_nil, List.append_nil]
      exact .ret acc x
  | cons word ws ih =>
      rw [expand_cons, List.length_append] at h
      rw [expandWords, expand_cons, ← List.append_assoc]
      refine (glob_shows word x).bind ?_
      rw [if_pos (by omega)]
      exact ih (by rw [List.length_append]; omega)

theorem expandWords_crashes {ws acc : List Str}
    (h : maxArg ≤ acc.length + (expand env x.world ws).length) :
    (expandWords ws acc).Crashes env x [] := by
  induction ws generalizing acc with
  | nil =>
      have hge : ¬ acc.length < maxArg := Nat.not_lt.mpr h
      rw [expandWords, if_neg hge]
      exact ⟨[], x, rfl, fun _ => rfl⟩
  | cons word ws ih =>
      rw [expand_cons, List.length_append] at h
      rw [expandWords]
      refine (glob_shows word x).passes.crashes ?_
      by_cases hle : acc.length + ((env.glob x.world word).getD [word]).length ≤ maxArg
      · rw [if_pos hle]
        exact ih (by rw [List.length_append]; omega)
      · rw [if_neg hle]
        exact ⟨[], x, rfl, fun _ => rfl⟩

/-! ## Commands -/

theorem printf_shows (text : Str) (x : Ctx W) :
    (printf text).Shows env x [] () { x with buf := x.buf ++ text } := .call rfl

theorem printf_passes (text : Str) (x : Ctx W) :
    (printf text).Passes env x [] () { x with buf := x.buf ++ text } := (printf_shows text x).passes

theorem printf_silent (text : Str) : (printf text).Silent env :=
  .call fun x => ⟨(), { x with buf := x.buf ++ text }, rfl, rfl, rfl⟩

theorem strcasecmp_shows (w t : Str) (x : Ctx W) :
    (strcasecmp (some w) t).Shows env x [] (eqIgnoreCase w t) x := .call rfl

theorem strcasecmp_passes (w t : Str) (x : Ctx W) :
    (strcasecmp (some w) t).Passes env x [] (eqIgnoreCase w t) x := (strcasecmp_shows w t x).passes

/-- What every child of the shell ends with. -/
theorem execvp_ends {α : Type} (env : Env W) (args : List Str) (x : Ctx W) :
    ∃ y, (do execvp args; printf execFailed; exit 1 : Prog α).EndsShowing env x
        [.launch (x.fds.launch args)] y ∧
      y.world = (env.exec x.world (x.fds.launch args)).elim x.world Prod.snd ∧
      y.procs = x.procs ∧ y.pipes = x.pipes :=
  Prog.EndsShowing.execvp (fun x => ⟨{ x with buf := x.buf ++ execFailed },
    (printf_shows execFailed x).ends (.exit 1 _), rfl, rfl, rfl⟩) x

theorem runCommand_shows (args : List Str) (x : Ctx W) :
    (runCommand args).Shows env x [.launch (x.fds.launch args)] () (x.ran env args) := by
  obtain ⟨y, hy, hworld, hprocs, hpipes⟩ := execvp_ends (α := Unit) env args
    { x with procs := x.procs + 1 }
  have hafter : x.after y = x.ran env args := by
    simp only [Ctx.after, Ctx.ran, hworld, hprocs, hpipes]
  rw [runCommand]
  refine Prog.Shows.fork [_] [] hy ?_
  rw [hafter]
  exact ⟨[], rfl, fun _ => rfl⟩

theorem runCommand_passes (args : List Str) (x : Ctx W) :
    (runCommand args).Passes env x [x.fds.launch args] () (x.ran env args) :=
  (runCommand_shows args x).passes

theorem runWords_shows {ws : List Str} (h : (expand env x.world ws).length < maxArg) :
    (runWords ws).Shows env x
      (Executed.mk (globbed env x.world ws) (x.fds.launch (expand env x.world ws))).events ()
      (x.ran env (expand env x.world ws)) :=
  (expandWords_shows (by simpa using h)).bind (runCommand_shows _ x)

theorem runWords_passes {ws : List Str} (h : (expand env x.world ws).length < maxArg) :
    (runWords ws).Passes env x [x.fds.launch (expand env x.world ws)] ()
      (x.ran env (expand env x.world ws)) := by
  have hpass := (runWords_shows h).passes
  rwa [launches_events] at hpass

theorem runWords_crashes {ws : List Str} (h : maxArg ≤ (expand env x.world ws).length) :
    (runWords ws).Crashes env x [] :=
  (expandWords_crashes (by simpa using h)).bind _

/-- A stage of a pipeline is launched with its own words. -/
theorem runStage_ends {c : Str} {x : Ctx W} (hlen : (tokens c).length < maxArg)
    (hfits : (expand env x.world (tokens c)).length < maxArg) :
    ∃ y, (runStage c).EndsShowing env x
        (Executed.mk (globbed env x.world (tokens c)) (x.fds.launch (tokens c))).events y ∧
      y.world = (env.exec x.world (x.fds.launch (tokens c))).elim x.world Prod.snd := by
  obtain ⟨y, hy, hworld, -⟩ := execvp_ends env (tokens c) x
  have hexpand : (expandWords (tokens c) []).Shows env x _ _ x :=
    expandWords_shows (by simpa using hfits)
  rw [runStage, if_pos hlen]
  exact ⟨y, hexpand.ends hy, hworld⟩

/-! ## Pipelines -/

theorem close_silent (fd : Int) : (close fd).Silent env :=
  .call fun _ => ⟨_, _, rfl, rfl, rfl⟩

theorem dup2_silent (old new : Int) : (dup2 old new).Silent env :=
  .call fun _ => ⟨_, _, rfl, rfl, rfl⟩

theorem newPipe_silent (env : Env W) (last : Bool) (pfd : Int × Int) :
    (newPipe last pfd).Silent env := by
  cases last with
  | true => exact .ret pfd
  | false => exact fun x => ⟨_, _, (Prog.Shows.call (c := .pipe) rfl).bind (.ret _ _), rfl⟩

theorem redirectStdin_silent (env : Env W) (i : Nat) (prevPfd : Int × Int) :
    (redirectStdin i prevPfd).Silent env := by
  rw [redirectStdin]
  split
  · exact (close_silent _).bind fun _ => (dup2_silent _ _).bind fun _ => close_silent _
  · exact .ret ()

theorem redirectStdout_silent (env : Env W) (last : Bool) (pfd : Int × Int) :
    (redirectStdout last pfd).Silent env := by
  cases last with
  | true => exact .ret ()
  | false => exact (close_silent _).bind fun _ => (dup2_silent _ _).bind fun _ => close_silent _

theorem closePrev_silent (env : Env W) (i : Nat) (prevPfd : Int × Int) :
    (closePrev i prevPfd).Silent env := by
  rw [closePrev]
  split
  · exact (close_silent _).bind fun _ => close_silent _
  · exact .ret ()

/-- Stage by stage a pipeline shows what its children show. `P` is what the stages
that are left need of the file system, `T` what they show from there on. -/
theorem pipeLoop_shows {χ : Type} {stage : χ → Prog Unit} {done : Prog Unit}
    {P : List χ → W → Prop} {T : List χ → W → List Event → Prop} (hnil : ∀ w, T [] w [])
    (hstage : ∀ {c rest} {x : Ctx W}, P (c :: rest) x.world →
      ∃ ss y, (stage c).EndsShowing env x ss y ∧ P rest y.world ∧
        ∀ ss', T rest y.world ss' → T (c :: rest) x.world (ss ++ ss'))
    (hdone : done.Silent env) {cs : List χ} (i : Nat) (pfd prevPfd : Int × Int)
    (hcs : P cs x.world) : ∃ ss y,
      (pipeLoop stage done cs i pfd prevPfd).Shows env x ss () y ∧ T cs x.world ss := by
  induction cs generalizing i pfd prevPfd x with
  | nil =>
      obtain ⟨_, y, hdone, -⟩ := hdone x
      exact ⟨[], y, hdone, hnil x.world⟩
  | cons c rest ih =>
      obtain ⟨pfd, x₁, hpipe, hx₁⟩ := newPipe_silent env rest.isEmpty pfd x
      obtain ⟨_, x₂, hstdin, hx₂⟩ := redirectStdin_silent env i prevPfd
        { x₁ with procs := x₁.procs + 1 }
      obtain ⟨_, x₃, hstdout, hx₃⟩ := redirectStdout_silent env rest.isEmpty pfd x₂
      have hworld : x₃.world = x.world := hx₃.trans (hx₂.trans hx₁)
      obtain ⟨ss, x₄, hchild, hrest, hT⟩ := hstage (hworld ▸ hcs)
      obtain ⟨_, x₅, hclose, hx₅⟩ := closePrev_silent env i prevPfd (x₁.after x₄)
      have hleft : x₅.world = x₄.world := hx₅
      obtain ⟨ss', y, hpass, hss'⟩ := ih (i + 1) pfd (if rest.isEmpty then prevPfd else pfd)
        (hleft ▸ hrest)
      refine ⟨ss ++ ss', y, ?_, hworld ▸ hT ss' (hleft ▸ hss')⟩
      rw [pipeLoop]
      exact hpipe.bind (Prog.Shows.fork _ _ (hstdin.ends (hstdout.ends hchild)) (hclose.bind hpass))

/-- Stage by stage a pipeline launches the words of its commands. -/
theorem runPipeline_argvs {cs : List Str} (hlt : cs.length < maxArg)
    (hcs : ∀ c ∈ cs, (tokens c).length < maxArg ∧ Fits env (tokens c) 0) :
    (runPipeline cs).Argvs env (cs.map tokens) := by
  have hstage : ∀ {c : Str} {rest : List Str} {x : Ctx W},
      (∀ d ∈ c :: rest, (tokens d).length < maxArg ∧ Fits env (tokens d) 0) →
      ∃ ss y, (runStage c).EndsShowing env x ss y ∧
        (∀ d ∈ rest, (tokens d).length < maxArg ∧ Fits env (tokens d) 0) ∧
        ∀ ss', (ss'.filterMap Event.launch?).map Launch.argv = rest.map tokens →
          ((ss ++ ss').filterMap Event.launch?).map Launch.argv = (c :: rest).map tokens := by
    intro c rest x h
    obtain ⟨⟨hlen, hfits⟩, hrest⟩ := List.forall_mem_cons.mp h
    obtain ⟨y, hy, -⟩ := runStage_ends (x := x) hlen (by simpa using hfits.expand_lt x.world)
    refine ⟨_, y, hy, hrest, fun ss' hss' => ?_⟩
    rw [List.filterMap_append, launches_events, List.map_append, hss']
    rfl
  intro x
  obtain ⟨ss, y, hshows, hss⟩ := pipeLoop_shows (x := x)
    (P := fun cs _ => ∀ c ∈ cs, (tokens c).length < maxArg ∧ Fits env (tokens c) 0)
    (T := fun cs _ ss => (ss.filterMap Event.launch?).map Launch.argv = cs.map tokens)
    (fun _ => rfl) hstage (printf_silent prompt) 0 (-1, -1) (-1, -1) hcs
  rw [runPipeline, if_pos hlt]
  exact ⟨_, y, hshows.passes, hss⟩

/-! ## A directory that does not change -/

section
variable {w : W} (hglob : ∀ w', env.glob w' = env.glob w)
include hglob

theorem expand_const (w' : W) : expand env w' = expand env w := by
  funext ws
  rw [expand, expand, hglob]

theorem runWords_argvs {ws : List Str} (hfits : Fits env ws 0) :
    (runWords ws).Argvs env [expand env w ws] := by
  intro x
  refine ⟨_, _, runWords_passes (by simpa using hfits.expand_lt x.world), ?_⟩
  rw [expand_const hglob]
  rfl

/-- A `;` line launches the expansion of each of its fields. -/
theorem runFields_argvs {fs : List Str}
    (hfs : ∀ f ∈ fs, (tokens (trimmed f)).length < maxArg ∧ Fits env (tokens (trimmed f)) 0) :
    (runFields fs).Argvs env (fs.map fun f => expand env w (tokens (trimmed f))) := by
  induction fs with
  | nil => exact (Prog.Silent.ret ()).argvs
  | cons f fs ih =>
      obtain ⟨hlen, hfits⟩ := hfs f List.mem_cons_self
      rw [runFields, runField, if_pos hlen]
      exact (runWords_argvs hglob hfits).bind (ih fun g hg => hfs g (List.mem_cons_of_mem f hg))

end

/-! ## Redirections -/

/-- `open` on the file of a redirection, if there is one. -/
def openIf (env : Env W) (how : OpenHow) : Option Str → W → Option W
  | none, w => some w
  | some file, w => env.openFile w file how

/-- The file system once the files of the redirections are opened, or have failed to
open. -/
def opened (env : Env W) (input output : Option Str) (w : W) : W :=
  let w := (openIf env inputHow input w).getD w
  (openIf env outputHow output w).getD w

theorem fileRedir_shows {file : Str} {how : OpenHow} (new : Int) (x : Ctx W) :
    ∃ y, (do let fd ← openFile file how
             if fd < 0 then perror file
             else do dup2 fd new; close fd : Prog Unit).Shows env x [] () y ∧
      y.world = (env.openFile x.world file how).getD x.world := by
  cases hopen : env.openFile x.world file how with
  | none =>
      have happ : (openFile file how).Shows env x [] (-1) x :=
        .call (by simp only [Call.apply, hopen])
      exact ⟨x, happ.bind (.call rfl), rfl⟩
  | some w =>
      have happ : (openFile file how).Shows env x [] x.fds.lowest
          { x with fds := x.fds.put x.fds.lowest (.file file how), world := w } :=
        .call (by simp only [Call.apply, hopen])
      obtain ⟨_, y, hset, hy⟩ := (dup2_silent x.fds.lowest new).bind (fun _ => close_silent _)
        { x with fds := x.fds.put x.fds.lowest (.file file how), world := w }
      refine ⟨y, happ.bind ?_, hy⟩
      rw [if_neg (Int.not_lt.mpr x.fds.lowest_nonneg)]
      exact hset

/-- The two redirections of a line, in the order in which the branch makes them. -/
theorem redirectTo_shows (env : Env W) (input output : Option Str) (x : Ctx W) :
    ∃ y z, (redirectTo "<".toList input).Shows env x [] () y ∧
      (redirectTo ">".toList output).Shows env y [] () z ∧
      z.world = opened env input output x.world := by
  have hone : ∀ (redirection : Str) (how : OpenHow) (file : Option Str) (x : Ctx W),
      (redirection = "<".toList ∧ how = inputHow) ∨
        (redirection = ">".toList ∧ how = outputHow) →
      ∃ y, (redirectTo redirection file).Shows env x [] () y ∧
        y.world = (openIf env how file x.world).getD x.world := by
    intro redirection how file x hhow
    cases file with
    | none => exact ⟨x, .ret () x, rfl⟩
    | some file =>
        rcases hhow with ⟨rfl, rfl⟩ | ⟨rfl, rfl⟩
        · exact fileRedir_shows 0 x
        · exact fileRedir_shows 1 x
  obtain ⟨y, hin, hy⟩ := hone "<".toList inputHow input x (.inl ⟨rfl, rfl⟩)
  obtain ⟨z, hout, hz⟩ := hone ">".toList outputHow output y (.inr ⟨rfl, rfl⟩)
  refine ⟨y, z, hin, hout, ?_⟩
  rw [hz, hy]
  rfl

theorem dup_silent (env : Env W) (fd : Int) : (dup fd).Silent env := by
  refine .call fun x => ?_
  simp only [Call.apply]
  cases x.fds.get fd with
  | none => exact ⟨_, _, rfl, rfl, rfl⟩
  | some o => exact ⟨_, _, rfl, rfl, rfl⟩

/-- A redirected command is launched with the expansion of its words, once the files
are opened. -/
theorem runRedirected_shows (input output : Option Str) {ws : List Str} (x : Ctx W)
    (h : (expand env (opened env input output x.world) ws).length < maxArg) :
    ∃ l y, (runRedirected input output ws).Shows env x
        (Executed.mk (globbed env (opened env input output x.world) ws) l).events () y ∧
      l.argv = expand env (opened env input output x.world) ws := by
  obtain ⟨originalStdin, x₁, h₁, hx₁⟩ := dup_silent env 0 x
  obtain ⟨originalStdout, x₂, h₂, hx₂⟩ := dup_silent env 1 x₁
  obtain ⟨x₃, x₄, h₃, h₄, hx₄⟩ := redirectTo_shows env input output x₂
  rw [hx₂, hx₁] at hx₄
  rw [← hx₄] at h ⊢
  obtain ⟨_, y, hrest, -⟩ : ∃ a y, (do
      dup2 originalStdin 0
      dup2 originalStdout 1
      close originalStdin
      close originalStdout
      printf prompt : Prog Unit).Shows env (x₄.ran env (expand env x₄.world ws)) [] a y ∧ _ :=
    ((dup2_silent _ _).bind fun _ => (dup2_silent _ _).bind fun _ => (close_silent _).bind fun _ =>
      (close_silent _).bind fun _ => printf_silent _) _
  refine ⟨x₄.fds.launch (expand env x₄.world ws), y, ?_, rfl⟩
  have hall : (runRedirected input output ws).Shows env x _ _ y :=
    h₁.bind (h₂.bind (h₃.bind (h₄.bind ((runWords_shows h).bind hrest))))
  rwa [List.append_nil] at hall

theorem runRedirected_argvs {w : W} (hglob : ∀ w', env.glob w' = env.glob w) {ws : List Str}
    (hfits : Fits env ws 0) (input output : Option Str) :
    (runRedirected input output ws).Argvs env [expand env w ws] := by
  intro x
  have hexpand := expand_const hglob (opened env input output x.world)
  obtain ⟨l, y, hshows, hl⟩ := runRedirected_shows input output x
    (by simpa using hfits.expand_lt _)
  refine ⟨_, y, hshows.passes, ?_⟩
  rw [launches_events, List.map_singleton, hl, hexpand]

/-! ## The cascade -/

section
variable {s : Str} {ls : List Launch}

/-- The tests for the builtins fail, and show nothing. -/
theorem External.cascade (hs : External s) (env : Env W) (x : Ctx W) :
    ∃ word, (tokens s).head? = some word ∧
      ∀ b ∈ builtins, (strcasecmp (some word) b).Shows env x [] false x := by
  obtain ⟨word, hword, hb⟩ := hs
  refine ⟨word, hword, fun b hmem => ?_⟩
  rw [← hb b hmem]
  exact strcasecmp_shows word b x

theorem External.cascade_passes (hs : External s) {q : Prog Unit} (hq : q.Passes env x ls () y) :
    (do
      let _ ← strcasecmp (tokens s).head? "exit".toList
      let _ ← strcasecmp (tokens s).head? "listall".toList
      let _ ← strcasecmp (tokens s).head? "compile".toList
      q).Passes env x ls () y := by
  obtain ⟨word, hword, hcmp⟩ := hs.cascade env x
  rw [hword]
  refine (hcmp _ (by simp [builtins])).passes.bind ?_
  refine (hcmp _ (by simp [builtins])).passes.bind ?_
  exact (hcmp _ (by simp [builtins])).passes.bind hq

/-- Below the builtins a line does what its branch does. -/
theorem runLine_shows {ss : List Event} (hlen : (tokens s).length < maxArg) (hs : External s)
    (h : (runPlain s).Shows env x ss () y) : (runLine s).Shows env x ss () y := by
  obtain ⟨word, hword, hcmp⟩ := hs.cascade env x
  rw [runLine, if_pos hlen, hword]
  refine (hcmp _ (by simp [builtins])).bind ?_
  refine (hcmp _ (by simp [builtins])).bind ?_
  exact (hcmp _ (by simp [builtins])).bind h

theorem runLine_passes (hlen : (tokens s).length < maxArg) (hs : External s)
    (h : (runPlain s).Passes env x ls () y) : (runLine s).Passes env x ls () y := by
  obtain ⟨word, hword, hcmp⟩ := hs.cascade env x
  rw [runLine, if_pos hlen, hword]
  refine (hcmp _ (by simp [builtins])).passes.bind ?_
  refine (hcmp _ (by simp [builtins])).passes.bind ?_
  exact (hcmp _ (by simp [builtins])).passes.bind h

theorem runLine_argvs {argvs : List (List Str)} (hlen : (tokens s).length < maxArg)
    (hs : External s) (h : (runPlain s).Argvs env argvs) : (runLine s).Argvs env argvs := by
  intro x
  obtain ⟨ls, y, hpass, hls⟩ := h x
  exact ⟨ls, y, runLine_passes hlen hs hpass, hls⟩

/-- What a line below the builtins is observed to do is what its branch does. -/
theorem runLine_observed (hlen : (tokens s).length < maxArg) (hs : External s) (env : Env W)
    (x : Ctx W) : ((runLine s).run env x).observed = ((runPlain s).run env x).observed := by
  obtain ⟨word, hword, hcmp⟩ := hs.cascade env x
  have hfalse := fun b hb => (hcmp b hb).passes.observed_bind (β := Unit)
  rw [runLine, if_pos hlen, hword, hfalse _ (by simp [builtins]), if_neg Bool.false_ne_true,
    hfalse _ (by simp [builtins]), if_neg Bool.false_ne_true, hfalse _ (by simp [builtins]),
    if_neg Bool.false_ne_true]
  rfl

theorem runLine_crashes (hlen : (tokens s).length < maxArg) (hs : External s)
    (h : (runPlain s).Crashes env x ls) : (runLine s).Crashes env x ls := by
  obtain ⟨word, hword, hcmp⟩ := hs.cascade env x
  rw [runLine, if_pos hlen, hword]
  refine (hcmp _ (by simp [builtins])).passes.crashes ?_
  refine (hcmp _ (by simp [builtins])).passes.crashes ?_
  exact (hcmp _ (by simp [builtins])).passes.crashes h

end

theorem Plain.runPlain_eq {s : Str} (hs : Plain s) :
    runPlain s = (do runWords (tokens s); printf prompt) := by
  have hno := hs.contains_eq
  rw [runPlain, hno '<' (by simp [operators]), hno '>' (by simp [operators]),
    hno ';' (by simp [operators]), hno '|' (by simp [operators])]
  rfl

/-! ## Single commands -/

/-- The tests of the cascade on a line whose first word is `compile`. -/
theorem compile_cascade {word : Str} (hcompile : eqIgnoreCase word "compile".toList = true)
    (env : Env W) (x : Ctx W) :
    (strcasecmp (some word) "exit".toList).Passes env x [] false x ∧
      (strcasecmp (some word) "listall".toList).Passes env x [] false x ∧
      (strcasecmp (some word) "compile".toList).Passes env x [] true x := by
  have hother : ∀ b : Str, "compile".toList.map lower ≠ b.map lower →
      (strcasecmp (some word) b).Passes env x [] false x := by
    intro b hb
    exact eqIgnoreCase_other hcompile hb ▸ strcasecmp_passes word b x
  exact ⟨hother _ (by decide), hother _ (by decide), hcompile ▸ strcasecmp_passes word _ x⟩

section
variable {s : Str} (hlen : (tokens s).length < maxArg)
include hlen

theorem Plain.passes (hs : Plain s) (hfits : (expand env x.world (tokens s)).length < maxArg) :
    ∃ y, (runLine s).Passes env x [x.fds.launch (expand env x.world (tokens s))] () y ∧
      (x.ran env (expand env x.world (tokens s))).Like y := by
  obtain ⟨y, hrun, hlike⟩ : ∃ y, (do runWords (tokens s); printf prompt : Prog Unit).Passes env x
      [x.fds.launch (expand env x.world (tokens s))] () y ∧
      (x.ran env (expand env x.world (tokens s))).Like y :=
    ⟨_, (runWords_passes hfits).bind (printf_passes prompt _), _, rfl⟩
  rw [← hs.runPlain_eq] at hrun
  exact ⟨y, runLine_passes hlen hs.external hrun, hlike⟩

theorem Plain.crashes (hs : Plain s) (hfits : maxArg ≤ (expand env x.world (tokens s)).length) :
    (runLine s).Crashes env x [] := by
  apply runLine_crashes hlen hs.external
  rw [hs.runPlain_eq]
  exact (runWords_crashes hfits).bind _

/-- A line whose first word is `listall`. -/
theorem listall_passes {word : Str} (hword : (tokens s).head? = some word)
    (hlistall : eqIgnoreCase word "listall".toList = true) (env : Env W) (x : Ctx W) :
    ∃ y, (runLine s).Passes env x [x.fds.launch ["ls".toList, "-la".toList]] () y := by
  have hcmp₁ : (strcasecmp (some word) "exit".toList).Passes env x [] false x :=
    eqIgnoreCase_other hlistall (by decide : _ ≠ "exit".toList.map lower) ▸
      strcasecmp_passes word _ x
  have hcmp₂ : (strcasecmp (some word) "listall".toList).Passes env x [] true x :=
    hlistall ▸ strcasecmp_passes word _ x
  rw [runLine, if_pos hlen, hword]
  exact ⟨_, hcmp₁.bind (hcmp₂.bind ((runCommand_passes _ x).bind (printf_passes prompt _)))⟩

/-- A line whose first word is `compile`. -/
theorem compile_argvs {word : Str} (hword : (tokens s).head? = some word)
    (hcompile : eqIgnoreCase word "compile".toList = true) {argvs : List (List Str)}
    (h : (runCompile (tokens s)).Argvs env argvs) : (runLine s).Argvs env argvs := by
  intro x
  obtain ⟨ls, y, hpass, hls⟩ := h x
  obtain ⟨hcmp₁, hcmp₂, hcmp₃⟩ := compile_cascade hcompile env x
  rw [runLine, if_pos hlen, hword]
  exact ⟨ls, y, hcmp₁.bind (hcmp₂.bind (hcmp₃.bind hpass)), hls⟩

end

end UnixSys.Shell

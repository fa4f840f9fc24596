import UnixSys.Shell.Capacity
import UnixSys.Shell.ReadLoop
import UnixSys.Shell.Session

/-!
# Contexts — one command in the branches of `main`

A simple command can stand alone on a line, with redirections, between `;` and
between `|`. In each the shell asks `glob` for the words directly before it
executes the command. All but the last execute what `glob` answered; the pipe
branch expands the words too, and then executes them as they were.
-/

namespace UnixSys.Shell

open Posix

variable {W : Type} {env : Env W}

/-- The fields or stages `cs` are executed one after the other from the file system
`w`, with the arguments `args`: `glob` is asked for the words of each in the file
system that those before it have left. -/
def FieldsExecuted (env : Env W) (args : W → Str → List Str) :
    List Str → W → List Executed → Prop
  | [], _, es => es = []
  | c :: cs, w, es => ∃ l w' rest, es = ⟨globbed env w (tokens c), l⟩ :: rest ∧
      l.argv = args w c ∧ FieldWithin env w c ∧ FieldsExecuted env args cs w' rest

theorem FieldsExecuted.get {args : W → Str → List Str} {cs : List Str} {w : W}
    {es : List Executed} (h : FieldsExecuted env args cs w es) {i : Nat} {c : Str}
    (hi : cs[i]? = some c) : ∃ l w', es[i]? = some ⟨globbed env w' (tokens c), l⟩ ∧
      l.argv = args w' c ∧ FieldWithin env w' c := by
  induction cs generalizing w es i with
  | nil => cases hi
  | cons d cs ih =>
      obtain ⟨l, w', rest, rfl, hl, hwithin, hrest⟩ := h
      cases i with
      | zero =>
          obtain rfl : d = c := Option.some.inj hi
          exact ⟨l, w, rfl, hl, hwithin⟩
      | succ i => exact ih hrest hi

theorem runFields_shows {fs : List Str} {x : Ctx W}
    (h : FieldsWithin env (expandedWords env) (fs.map trimmed) x.world) :
    ∃ es y, (runFields fs).Shows env x (es.flatMap Executed.events) () y ∧
      FieldsExecuted env (expandedWords env) (fs.map trimmed) x.world es := by
  induction fs generalizing x with
  | nil => exact ⟨[], x, .ret () x, rfl⟩
  | cons f fs ih =>
      obtain ⟨hf, hrest⟩ := h
      obtain ⟨es, y, hshows, hes⟩ := ih (hrest _ (ran_world x _))
      refine ⟨⟨globbed env x.world (tokens (trimmed f)),
          x.fds.launch (expand env x.world (tokens (trimmed f)))⟩ :: es, y, ?_,
        _, _, es, rfl, rfl, hf, hes⟩
      rw [runFields, runField, if_pos hf.1]
      exact (runWords_shows hf.2).bind hshows

theorem runStage_shows {c : Str} {rest : List Str} {x : Ctx W}
    (h : FieldsWithin env plainWords (c :: rest) x.world) :
    ∃ ss y, (runStage c).EndsShowing env x ss y ∧ FieldsWithin env plainWords rest y.world ∧
      ∀ ss', (∃ es, ss' = es.flatMap Executed.events ∧
          FieldsExecuted env plainWords rest y.world es) →
        ∃ es, ss ++ ss' = es.flatMap Executed.events ∧
          FieldsExecuted env plainWords (c :: rest) x.world es := by
  obtain ⟨hc, hrest⟩ := h
  obtain ⟨y, hends, hy⟩ := runStage_ends hc.1 hc.2
  refine ⟨_, y, hends, hrest _ ⟨x.fds.launch (tokens c), rfl, hy⟩, ?_⟩
  rintro ss' ⟨es, rfl, hes⟩
  exact ⟨_ :: es, rfl, _, _, es, rfl, rfl, hc, hes⟩

theorem runPipeline_shows {cs : List Str} {x : Ctx W} (hlt : cs.length < maxArg)
    (h : FieldsWithin env plainWords cs x.world) :
    ∃ es y, (runPipeline cs).Shows env x (es.flatMap Executed.events) () y ∧
      FieldsExecuted env plainWords cs x.world es := by
  obtain ⟨ss, y, hshows, es, rfl, hes⟩ := pipeLoop_shows (x := x)
    (P := FieldsWithin env plainWords)
    (T := fun cs w ss => ∃ es, ss = es.flatMap Executed.events ∧
      FieldsExecuted env plainWords cs w es)
    (fun _ => ⟨[], rfl, rfl⟩) runStage_shows (printf_silent prompt) 0 (-1, -1) (-1, -1) h
  rw [runPipeline, if_pos hlt]
  exact ⟨es, y, hshows, hes⟩

/-- The commands of a round are those of its line. -/
theorem body_executed {s chunk : Str} {l : Locals} (hl : l.Ok) (hchunk : Chunk s chunk)
    {x y : Ctx W} {es : List Executed}
    (h : (runLine s).Shows env x (es.flatMap Executed.events) () y) :
    ((body l chunk).run env x).executed = es := by
  rw [(body_rel hl hchunk.length hchunk.command hchunk.named).executed_eq env x]
  exact h.executed

theorem Within.plainWithin {s : Str} {w : W} (h : Within env w s) (hext : External s) :
    PlainWithin env w s := by
  obtain ⟨word, hword, hb⟩ := hext
  have hplain := h.2 word hword (hb _ (by simp [builtins])) (hb _ (by simp [builtins]))
  rwa [hb _ (by simp [builtins]), if_neg Bool.false_ne_true] at hplain

section
variable {s chunk : Str} {l : Locals} {x : Ctx W} (hl : l.Ok) (hext : External s)
  (hcommand : command chunk = some s) (hlen : chunk.length < maxLine)
  (hwithin : Within env x.world s)
include hext hcommand hlen hwithin

theorem chunk_of_within : Chunk s chunk := by
  refine ⟨hcommand, hlen, fun hredir hdangling => ?_⟩
  have hplain := hwithin.plainWithin hext
  rw [PlainWithin, if_pos hredir.1] at hplain
  obtain ⟨input, output, ws, hsplit, -⟩ := hplain
  rw [Dangling, hsplit] at hdangling
  cases hdangling

include hl

theorem redirected_executed (hredir : (s.contains '<' || s.contains '>') = true)
    {input output : Option Str} {ws : List Str}
    (hsplit : splitRedir (tokens s) none none [] = some (input, output, ws)) :
    ∃ l' : Launch, ((body l chunk).run env x).executed =
        [⟨globbed env (opened env input output x.world) ws, l'⟩] ∧
      l'.argv = expand env (opened env input output x.world) ws := by
  have hplain := hwithin.plainWithin hext
  rw [PlainWithin, hredir, hsplit] at hplain
  obtain ⟨_, _, _, heq, hfits⟩ := hplain
  cases heq
  obtain ⟨l', y, hshows, hargv⟩ := runRedirected_shows input output x hfits
  have hbranch : runPlain s = runRedirected input output ws := by
    rw [runPlain, if_pos hredir, hsplit]
  rw [← hbranch] at hshows
  have hone : (runPlain s).Shows env x ([Executed.mk (globbed env
      (opened env input output x.world) ws) l'].flatMap Executed.events) () y := by
    rwa [List.flatMap_singleton]
  exact ⟨l', body_executed hl (chunk_of_within hext hcommand hlen hwithin)
    (runLine_shows hwithin.1 hext hone), hargv⟩

theorem sequenced_executed (hredir : (s.contains '<' || s.contains '>') = false)
    (hseq : s.contains ';' = true) :
    FieldsExecuted env (expandedWords env) ((fields ';' s).map trimmed) x.world
      ((body l chunk).run env x).executed := by
  have hplain := hwithin.plainWithin hext
  rw [PlainWithin, hredir, hseq] at hplain
  obtain ⟨es, y, hshows, hes⟩ := runFields_shows hplain
  have hall : ∃ z, (runPlain s).Shows env x (es.flatMap Executed.events ++ []) () z := by
    rw [runPlain, hredir, hseq]
    exact ⟨_, hshows.bind (printf_shows prompt y)⟩
  obtain ⟨z, hall⟩ := hall
  rw [List.append_nil] at hall
  rwa [body_executed hl (chunk_of_within hext hcommand hlen hwithin)
    (runLine_shows hwithin.1 hext hall)]

theorem piped_executed (hredir : (s.contains '<' || s.contains '>') = false)
    (hseq : s.contains ';' = false) (hpipe : s.contains '|' = true) :
    FieldsExecuted env plainWords ((fields '|' s).map trimmed) x.world
      ((body l chunk).run env x).executed := by
  have hplain := hwithin.plainWithin hext
  rw [PlainWithin, hredir, hseq, hpipe] at hplain
  obtain ⟨es, y, hshows, hes⟩ := runPipeline_shows (by simpa using hplain.1) hplain.2
  have hbranch : runPlain s = runPipeline ((fields '|' s).map trimmed) := by
    rw [runPlain, hredir, hseq, hpipe]
    rfl
  rw [← hbranch] at hshows
  rwa [body_executed hl (chunk_of_within hext hcommand hlen hwithin)
    (runLine_shows hwithin.1 hext hshows)]

end

/-! ## A command behind a `|` -/

section
variable {c : Str} (hc : Plain c)
include hc

theorem Plain.ne_nil : c ≠ [] := by
  intro h
  obtain ⟨word, hword, -⟩ := hc.external
  rw [h, tokens_nil] at hword
  cases hword

variable (htight : Tight c)
include htight

end

end UnixSys.Shell

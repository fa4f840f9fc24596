import UnixSys.Posix.Files
import UnixSys.Shell.Effects
import UnixSys.Shell.Stale

/-!
# Cancel — redirections that cannot be set up

`fileRedir` reports a file that it cannot open and returns, and the branch for
redirections goes on: it makes the other redirection and executes the command
with the descriptor that it has. The flags for input hold `O_CREAT`, so that a
missing input file is made instead of refused.
-/

namespace UnixSys.Shell

open Posix

/-! ## The statement -/

/-- The file named for input is not there or cannot be read, or the file named for
output cannot be opened for writing. -/
def CannotSetUp (fs : Files) (input output : Option Str) : Prop :=
  (∃ file, input = some file ∧ ¬ fs.CanRead file) ∨
    ∃ file, output = some file ∧ fs.openFile file outputHow = none

/-- A redirection that cannot be set up cancels the command: nothing is executed, the
file system is as before, and so are descriptors 0 and 1 at the next prompt. In any
case the redirection of the input makes no file. -/
structure Cancels (env : Env Files) (l : Locals) (chunk : Str) (input output : Option Str)
    (x : Ctx Files) : Prop where
  cancelled : CannotSetUp x.world input output →
    ((body l chunk).run env x).launches = [] ∧ ((body l chunk).run env x).ctx.world = x.world ∧
    ∀ l', ((body l chunk).run env x).outcome = .ret l' →
      ((body l chunk).run env x).ctx.fds.get 0 = x.fds.get 0 ∧
      ((body l chunk).run env x).ctx.fds.get 1 = x.fds.get 1
  keeps : ∀ file, input = some file → ∀ y : Ctx Files, y.world = x.world → ∀ path,
    ((fileRedir "<".toList file).run env y).ctx.world.file path ≠ none →
      x.world.file path ≠ none

/-! ## The branch -/

section
variable {W : Type} {env : Env W}

/-- Whatever becomes of the redirections, the branch executes the command. -/
theorem runRedirected_launches {ws : List Str} (hfits : Fits env ws 0) (input output : Option Str)
    (x : Ctx W) : ((runRedirected input output ws).run env x).launches ≠ [] := by
  obtain ⟨l, y, hshows, -⟩ := runRedirected_shows input output x
    (by simpa using hfits.expand_lt (opened env input output x.world))
  rw [hshows.passes.launches, launches_events]
  exact List.cons_ne_nil _ _

end

/-- The input of a redirection that can be set up is opened as it is. -/
theorem fileRedir_keeps {env : Env Files} {y : Ctx Files} {file : Str}
    (hread : y.world.CanRead file) :
    ((fileRedir "<".toList file).run env.onFiles y).ctx.world = y.world := by
  obtain ⟨f, hf, hr⟩ := hread
  have hopen : env.onFiles.openFile y.world file inputHow = some y.world := by
    show y.world.openFile file inputHow = _
    unfold Files.openFile
    rw [hf]
    show (if f.readable then _ else _) = _
    rw [if_pos hr]
    rfl
  have hlow : ¬ y.fds.lowest < 0 := Int.not_lt.mpr y.fds.lowest_nonneg
  unfold fileRedir
  rw [if_pos rfl]
  simp only [openFile, Prog.call_bind, Prog.ret_bind, Prog.run, Call.apply, hopen, if_neg hlow]
  rfl

section
variable {l : Locals} {chunk s : Str} (hl : l.Ok) (hlen : chunk.length < maxLine)
  (hs : command chunk = some s) (ht : TakesRedir s) {input output : Option Str} {ws : List Str}
  (hscan : ScanFinds l chunk input output ws) (env : Env Files) (x : Ctx Files)
include hl hlen hs ht hscan

/-- The command is executed although a redirection could not be set up. -/
theorem not_cancels (hfits : Fits env ws 0) (hcannot : CannotSetUp x.world input output) :
    ¬ Cancels env l chunk input output x := by
  intro hcancels
  have hrel := body_scan_rel hl hlen hs ht hscan
  have hnone := (hcancels.cancelled hcannot).1
  -- the line has a first word, so the tests for the builtins pass
  obtain ⟨word, hword⟩ := ht.head
  rw [hrel.launches_eq, hword] at hnone
  simp only [strcasecmp, Prog.call_bind, Prog.ret_bind, Prog.run, Call.apply,
    Run.launches_prepend] at hnone
  exact runRedirected_launches hfits input output x hnone

/-- A redirection that cannot be set up cancels the command only on the lines that
have no such redirection: the others execute the command all the same, when its
words fit in the arrays. -/
theorem redirection_cancels_iff :
    (¬ CannotSetUp x.world input output → Cancels env.onFiles l chunk input output x) ∧
    (Fits env.onFiles ws 0 → Cancels env.onFiles l chunk input output x →
      ¬ CannotSetUp x.world input output) := by
  constructor
  · intro hcan
    refine ⟨fun hcannot => absurd hcannot hcan, ?_⟩
    intro file hfile y hy path hpath
    have hread : x.world.CanRead file := by
      by_contra hno
      exact hcan (.inl ⟨file, hfile, hno⟩)
    rw [← hy] at hread ⊢
    rwa [fileRedir_keeps hread] at hpath
  · intro hfits hcancels hcannot
    exact not_cancels hl hlen hs ht hscan env.onFiles x hfits hcannot hcancels

end

/-- No pattern matches, and there are no programs. -/
def noPrograms : Env Files where
  glob _ _ := none
  openFile _ _ _ := none
  exec _ _ := none
  glob_ne_nil _ _ _ h := by cases h
  glob_path _ _ _ h := by cases h
  glob_plain _ _ _ h := by cases h

/-- A terminal session in this file system. -/
def terminalOn (fs : Files) : Ctx Files := ⟨stdFds, prompt, fs, 0, 1⟩

theorem catF_scan {l : Locals} (hl : l.Ok) :
    ScanFinds l "cat < f\n".toList (some "f".toList) none ["cat".toList] :=
  scanFinds_of_split hl (by decide) (by decide : command _ = some "cat < f".toList) (by decide)
    (by decide)

theorem catF_takes : TakesRedir "cat < f".toList := by
  refine ⟨by decide, ?_⟩
  intro word hword
  obtain rfl : "cat".toList = word := Option.some.inj hword
  decide

/-- A session with one file `f`, which can be read. -/
theorem catF_cancels : ScanFinds .zero "cat < f\n".toList (some "f".toList) none ["cat".toList] ∧
    Cancels noPrograms.onFiles .zero "cat < f\n".toList (some "f".toList) none
      (terminalOn ⟨fun p => if p = "f".toList then some ⟨true, false, []⟩ else none,
        fun _ => true, fun _ => (true, true)⟩) := by
  have hscan := catF_scan Locals.zero_ok
  refine ⟨hscan, (redirection_cancels_iff Locals.zero_ok (by decide) (by decide) catF_takes hscan
    noPrograms _).1 ?_⟩
  rintro (⟨file, hfile, hread⟩ | ⟨file, hfile, -⟩)
  · obtain rfl : "f".toList = file := Option.some.inj hfile
    exact hread ⟨_, rfl, rfl⟩
  · cases hfile

/-- In an empty directory `cat < f` executes `cat`. -/
theorem catF_executes : ¬ Cancels noPrograms.onFiles .zero "cat < f\n".toList (some "f".toList) none
    (terminalOn ⟨fun _ => none, fun _ => true, fun _ => (true, true)⟩) := by
  have hfits : Fits noPrograms.onFiles ["cat".toList] 0 := by
    intro w
    show 1 < maxArg
    decide
  refine not_cancels Locals.zero_ok (by decide) (by decide) catF_takes (catF_scan Locals.zero_ok) _ _
    hfits (.inl ⟨_, rfl, ?_⟩)
  rintro ⟨f, hf, -⟩
  cases hf

end UnixSys.Shell

import UnixSys.Shell.Fields

/-!
# Meaning — what one line makes the shell do

The calls one round of the read loop makes, as a program over strings: no
memory, no pointers, no arrays that survive from line to line. It is what the
branches of `main` amount to when every scan of `argv` stops at the NULL that
`parse` stored; `UnixSys.Shell.Refine` proves that the model of the code makes
the same calls.
-/

namespace UnixSys.Shell

open Posix

/-- The command string in the bytes of one `fgets`: they are cut at their first
NUL byte, and the last byte is lost. `none` when there is none to lose. -/
def command (chunk : Str) : Option Str :=
  match chunk.takeWhile (· ≠ NUL) with
  | [] => none
  | c :: t => some (c :: t).dropLast

/-- `expand_wildcards`, with `acc` already expanded. The NULL needs room too. -/
def expandWords : List Str → List Str → Prog (List Str)
  | [], acc => if acc.length < maxArg then pure acc else .ub
  | w :: ws, acc => do
      let paths := (← glob w).getD [w]
      if acc.length + paths.length ≤ maxArg then expandWords ws (acc ++ paths) else .ub

/-- `execute` on an argument list. -/
def runCommand (args : List Str) : Prog Unit := do
  match ← fork with
  | .failed =>
      printf "**ERROR: Forking child process failed \n".toList
      exit 1
  | .child =>
      execvp args
      printf execFailed
      exit 1
  | .parent pid => waitFor pid

/-- Words expanded and run as one command. -/
def runWords (ws : List Str) : Prog Unit := do
  let args ← expandWords ws []
  runCommand args

def isOperator (w : Str) : Bool := w = "<".toList || w = ">".toList

theorem isOperator_iff {w : Str} :
    isOperator w = true ↔ w = "<".toList ∨ w = ">".toList := by
  rw [isOperator, Bool.or_eq_true, decide_eq_true_eq, decide_eq_true_eq]

theorem not_isOperator_iff {w : Str} :
    ¬ isOperator w = true ↔ w ≠ "<".toList ∧ w ≠ ">".toList := by
  rw [isOperator_iff, not_or]

/-- The redirections of a token list: the last input file, the last output file
and the other words. `none` when the scan takes the last token for an operator,
so that there is no file name. -/
def splitRedir : List Str → Option Str → Option Str → List Str →
    Option (Option Str × Option Str × List Str)
  | [], input, output, ws => some (input, output, ws)
  | [w], input, output, ws => if isOperator w then none else some (input, output, ws ++ [w])
  | w :: next :: rest, input, output, ws =>
      if w = "<".toList then splitRedir rest (some next) output ws
      else if w = ">".toList then splitRedir rest input (some next) ws
      else splitRedir (next :: rest) input output (ws ++ [w])

/-- The words that the scan keeps for the command. -/
def commandWords : List Str → List Str
  | [] => []
  | [w] => if isOperator w then [] else [w]
  | w :: next :: rest =>
      if isOperator w then commandWords rest else w :: commandWords (next :: rest)

theorem commandWords_sublist (ts : List Str) : (commandWords ts).Sublist ts := by
  induction ts using commandWords.induct with
  | case1 => exact .slnil
  | case2 w hop =>
      rw [commandWords, if_pos hop]
      exact List.nil_sublist [w]
  | case3 w hop =>
      rw [commandWords, if_neg hop]
  | case4 w next rest hop ih =>
      rw [commandWords, if_pos hop]
      exact (ih.cons next).cons w
  | case5 w next rest hop ih =>
      rw [commandWords, if_neg hop]
      exact ih.cons_cons w

/-- A scan that comes to its end has kept these words. -/
theorem splitRedir_words {ts ws ws' : List Str} {input output input' output' : Option Str}
    (h : splitRedir ts input output ws = some (input', output', ws')) :
    ws' = ws ++ commandWords ts := by
  induction ts, input, output, ws using splitRedir.induct with
  | case1 input output ws =>
      cases h
      exact (List.append_nil _).symm
  | case2 w input output ws hop =>
      rw [splitRedir, if_pos hop] at h
      cases h
  | case3 w input output ws hop =>
      rw [splitRedir, if_neg hop] at h
      cases h
      rw [commandWords, if_neg hop]
  | case4 next rest input output ws ih =>
      rw [splitRedir, if_pos rfl] at h
      rw [ih h, commandWords, if_pos (by rfl)]
  | case5 next rest input output ws hne ih =>
      rw [splitRedir, if_neg hne, if_pos rfl] at h
      rw [ih h, commandWords, if_pos (by rfl)]
  | case6 w next rest input output ws hlt hgt ih =>
      rw [splitRedir, if_neg hlt, if_neg hgt] at h
      rw [ih h, commandWords, if_neg (not_isOperator_iff.mpr ⟨hlt, hgt⟩),
        List.append_assoc, List.singleton_append]

/-- The scan runs past the end of the token list. -/
def Dangling (ts : List Str) : Prop := splitRedir ts none none [] = none

instance (ts : List Str) : Decidable (Dangling ts) := by
  unfold Dangling
  infer_instance

def redirectTo (redirection : Str) : Option Str → Prog Unit
  | none => pure ()
  | some file => fileRedir redirection file

def runRedirected (input output : Option Str) (ws : List Str) : Prog Unit := do
  let originalStdin ← dup 0
  let originalStdout ← dup 1
  redirectTo "<".toList input
  redirectTo ">".toList output
  runWords ws
  dup2 originalStdin 0
  dup2 originalStdout 1
  close originalStdin
  close originalStdout
  printf prompt

/-- One field of a `;` line. -/
def runField (f : Str) : Prog Unit :=
  if (tokens (trimmed f)).length < maxArg then runWords (tokens (trimmed f)) else .ub

def runFields : List Str → Prog Unit
  | [] => pure ()
  | f :: fs => do
      runField f
      runFields fs

/-- One stage of a `|` line: the argument list is the one before expansion. -/
def runStage (command : Str) : Prog Unit :=
  if (tokens command).length < maxArg then do
    let _ ← expandWords (tokens command) []
    execvp (tokens command)
    printf execFailed
    exit 1
  else .ub

def runPipeline (commands : List Str) : Prog Unit :=
  if commands.length < maxArg then
    pipeLoop runStage (printf prompt) commands 0 (-1, -1) (-1, -1)
  else .ub

def runCompile : List Str → Prog Unit
  | _ :: name :: _ => do
      runWords ["gcc".toList, name, "-o".toList, name.take (nameLength name)]
      printf prompt
  | _ => .ub

/-- The branches of `main` below the builtins. -/
def runPlain (s : Str) : Prog Unit :=
  if s.contains '<' || s.contains '>' then
    match splitRedir (tokens s) none none [] with
    | some (input, output, ws) => runRedirected input output ws
    | none => .ub
  else if s.contains ';' then do
    runFields (fields ';' s)
    printf prompt
  else if s.contains '|' then runPipeline ((fields '|' s).map trimmed)
  else do
    runWords (tokens s)
    printf prompt

/-- One round of the read loop on the command string `s`. -/
def runLine (s : Str) : Prog Unit :=
  if (tokens s).length < maxArg then do
    let cmd := (tokens s).head?
    if ← strcasecmp cmd "exit".toList then exit 0
    else if ← strcasecmp cmd "listall".toList then do
      runCommand ["ls".toList, "-la".toList]
      printf prompt
    else if ← strcasecmp cmd "compile".toList then runCompile (tokens s)
    else runPlain s
  else .ub

/-! ## Kinds of lines -/

def builtins : List Str := ["exit".toList, "listall".toList, "compile".toList]

theorem forall_builtins {P : Str → Prop} :
    (∀ b ∈ builtins, P b) ↔ P "exit".toList ∧ P "listall".toList ∧ P "compile".toList := by
  simp [builtins]

/-- A word is at most one of the builtins. -/
theorem eqIgnoreCase_other {word b b' : Str} (h : eqIgnoreCase word b = true)
    (hne : b.map lower ≠ b'.map lower) : eqIgnoreCase word b' = false := by
  simp only [eqIgnoreCase, decide_eq_true_eq, decide_eq_false_iff_not] at h ⊢
  rw [h]
  exact hne

/-- The line has a first word, and it is no builtin. -/
def External (s : Str) : Prop :=
  ∃ word, (tokens s).head? = some word ∧ ∀ b ∈ builtins, eqIgnoreCase word b = false

/-- The bytes that the cascade looks for in a line. -/
def operators : List Byte := ['<', '>', ';', '|']

/-- A line below the builtins that is one command. -/
structure Plain (s : Str) : Prop where
  external : External s
  command : ∀ b ∈ operators, b ∉ s

theorem Plain.contains_eq {s : Str} (hs : Plain s) : ∀ b ∈ operators, s.contains b = false := by
  intro b hb
  simpa using hs.command b hb

/-- The text has no blank at either end. -/
structure Tight (s : Str) : Prop where
  first : ∀ b ∈ s.head?, isBlank b = false
  last : endsBlank s = false

theorem Tight.tokens_eq {s : Str} (hs : Tight s) : tokens s = words s := by
  rw [tokens, hs.last, if_neg Bool.false_ne_true, List.append_nil]

theorem Tight.trimmed_eq {s : Str} (hs : Tight s) : trimmed s = s := by
  have hblank : ∀ b, isBlank b = false → b ≠ ' ' := by
    rintro b hb rfl
    cases hb
  have hfirst : s.dropWhile (· = ' ') = s := by
    cases s with
    | nil => rfl
    | cons b t => rw [List.dropWhile_cons_of_neg (by simpa using hblank b (hs.first b rfl))]
  rw [trimmed, hfirst, List.rdropWhile_eq_self_iff]
  intro hne
  have hlast := hs.last
  rw [endsBlank, List.getLast?_eq_getLast_of_ne_nil hne, Option.any_some] at hlast
  simpa using hblank _ hlast

/-! ## Capacity -/

section
variable {W : Type} {env : Env W}

/-- Whatever the file system is, the words expand to at most 63 arguments, `k` of
which are there already. -/
def Fits (env : Env W) : List Str → Nat → Prop
  | [], k => k < maxArg
  | word :: ws, k => ∀ w, Fits env ws (k + ((env.glob w word).getD [word]).length)

theorem Fits.le (w : W) {ws : List Str} {k : Nat} (h : Fits env ws k) : k < maxArg := by
  induction ws generalizing k with
  | nil => exact h
  | cons word ws ih =>
      have := ih (h w)
      omega

/-- `compile` has a word after it, and its argument list fits. -/
def CompileFits (env : Env W) (ts : List Str) : Prop :=
  ∃ word name ts', ts = word :: name :: ts' ∧
    Fits env ["gcc".toList, name, "-o".toList, name.take (nameLength name)] 0

/-- What a line below the builtins needs for its branch to stay within the
arrays, whatever the file system is. -/
def PlainFits (env : Env W) (s : Str) : Prop :=
  if s.contains '<' || s.contains '>' then
    ∃ input output ws, splitRedir (tokens s) none none [] = some (input, output, ws) ∧
      Fits env ws 0
  else if s.contains ';' then
    ∀ f ∈ fields ';' s, (tokens (trimmed f)).length < maxArg ∧ Fits env (tokens (trimmed f)) 0
  else if s.contains '|' then
    (fields '|' s).length < maxArg ∧
      ∀ f ∈ fields '|' s, (tokens (trimmed f)).length < maxArg ∧ Fits env (tokens (trimmed f)) 0
  else Fits env (tokens s) 0

/-- What a line needs to stay within the arrays and away from missing words. -/
def LineFits (env : Env W) (s : Str) : Prop :=
  (tokens s).length < maxArg ∧ ∃ word ∈ (tokens s).head?,
    (eqIgnoreCase word "exit".toList = true ∨ eqIgnoreCase word "listall".toList = true ∨
      if eqIgnoreCase word "compile".toList then CompileFits env (tokens s)
      else PlainFits env s)

end

end UnixSys.Shell

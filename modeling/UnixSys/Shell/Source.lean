import Mathlib.Algebra.Group.Nat.Defs
import UnixSys.Posix.Prog
import UnixSys.Lib.Blocks

/-!
# Source — `week08Lab2/myShell2.c`

The functions of the shell and the body of its read loop, on C memory: `line`
is block 0, `line_backup` block 1, every `strdup`, `strndup` and string literal
a further block. `argv` and `expanded_argv` keep their entries from one line to
the next, as the arrays of `main` do. Loops that move a pointer through a block
carry the size of the block as fuel.
-/

namespace UnixSys.Shell

open Posix

def maxLine : Nat := 4096
def maxArg : Nat := 64

def prompt : Str := "{myShell2}$ ".toList

/-- The variables of `main` that live as long as the shell. -/
structure Locals where
  mem : Mem
  argv : PtrArr
  expandedArgv : PtrArr

/-- The variables at the start of `main`, with the bytes that `line` and
`line_backup` happen to hold. -/
def Locals.start (line backup : Str) : Locals :=
  ⟨[line, backup], List.replicate maxArg .undef, List.replicate maxArg .undef⟩

/-- A start with zeroed buffers. -/
def Locals.zero : Locals := .start (List.replicate maxLine NUL) (List.replicate maxLine NUL)

def lineBlk : Nat := 0
def backupBlk : Nat := 1

/-! ## fileRedir -/

def inputHow : OpenHow := { write := false, creat := true, trunc := false, perm := none }

def outputHow : OpenHow := { write := true, creat := true, trunc := true, perm := some 0o644 }

def fileRedir (redirection file : Str) : Prog Unit := do
  if redirection = "<".toList then
    let fdin ← openFile file inputHow
    if fdin < 0 then
      perror file
    else
      dup2 fdin 0
      close fdin
  else if redirection = ">".toList then
    let fdout ← openFile file outputHow
    if fdout < 0 then
      perror file
    else
      dup2 fdout 1
      close fdout

/-! ## parse -/

def isBlank (c : Byte) : Bool := c = ' ' || c = '\t' || c = '\n'

/-- `while (*line == ' ' || ...) *line++ = '\0';` -/
def blankOut : Nat → Str → Nat → Option (Str × Nat)
  | 0, _, _ => none
  | fuel + 1, s, o => do
      let c ← s[o]?
      if isBlank c then blankOut fuel (s.set o NUL) (o + 1) else some (s, o)

/-- `while (*line != '\0' && *line != ' ' && ...) line++;` -/
def skipWord : Nat → Str → Nat → Option Nat
  | 0, _, _ => none
  | fuel + 1, s, o => do
      let c ← s[o]?
      if c ≠ NUL ∧ isBlank c = false then skipWord fuel s (o + 1) else some o

/-- The outer loop of `parse`, with `argv` advanced by `k`. -/
def parseLoop (b : Nat) : Nat → Str → Nat → PtrArr → Nat → Option (Str × PtrArr)
  | 0, _, _, _, _ => none
  | fuel + 1, s, o, argv, k => do
      let c ← s[o]?
      if c = NUL then
        let argv ← PtrArr.store argv k .null
        some (s, argv)
      else
        let (s, o) ← blankOut (s.length + 1) s o
        let argv ← PtrArr.store argv k (.at b o)
        let o ← skipWord (s.length + 1) s o
        parseLoop b fuel s o argv (k + 1)

/-- `parse(line, argv)` for a `line` at offset `o` of block `b`, whose contents
are `s`: it writes no other block. -/
def parse (b : Nat) (s : Str) (o : Nat) (argv : PtrArr) : Option (Str × PtrArr) :=
  parseLoop b (s.length + 1) s o argv 0

/-! ## execute -/

def execFailed : Str := "**ERROR: exec failed\n".toList

def execute (m : Mem) (argv : PtrArr) : Prog Unit := do
  match ← fork with
  | .failed =>
      printf "**ERROR: Forking child process failed \n".toList
      exit 1
  | .child =>
      let args ← Prog.lift (m.args argv)
      execvp args
      printf execFailed
      exit 1
  | .parent pid => waitFor pid

/-! ## expand_wildcards -/

/-- `expanded_argv[j++] = strdup(path);` for each path. -/
def storePaths : Mem → PtrArr → Nat → List Str → Option (Mem × PtrArr × Nat)
  | m, ex, j, [] => some (m, ex, j)
  | m, ex, j, path :: paths => do
      let (m, p) := m.strdup path
      let ex ← PtrArr.store ex j p
      storePaths m ex (j + 1) paths

/-- The loop of `expand_wildcards`, on `argv` advanced by `i`. -/
def expandWildcards : Mem → PtrArr → PtrArr → Nat → Prog (Mem × PtrArr)
  | _, [], _, _ => .ub
  | _, .undef :: _, _, _ => .ub
  | m, .null :: _, ex, j => do
      let ex ← Prog.lift (PtrArr.store ex j .null)
      pure (m, ex)
  | m, .at b o :: argv, ex, j => do
      let pat ← Prog.lift (m.cstr b o)
      let paths := (← glob pat).getD [pat]
      let (m, ex, j) ← Prog.lift (storePaths m ex j paths)
      expandWildcards m argv ex j

/-! ## The branches of main -/

/-- `line[strlen(line) - 1] = '\0';` on the contents of `line`. -/
def chop (s : Str) : Option Str := do
  let t ← cstrOf s
  if t.length = 0 then none else some (s.set (t.length - 1) NUL)

def listallCase (m : Mem) (argv ex : PtrArr) : Prog Locals := do
  let (m, ls) := m.strdup "ls".toList
  let (m, la) := m.strdup "-la".toList
  let argv ← Prog.lift (PtrArr.store argv 0 ls)
  let argv ← Prog.lift (PtrArr.store argv 1 la)
  let argv ← Prog.lift (PtrArr.store argv 2 .null)
  execute m argv
  printf prompt
  pure ⟨m, argv, ex⟩

/-- `strlen(s) - 2` as a `size_t`. -/
def nameLength (s : Str) : Nat := (s.length + 2 ^ 64 - 2) % 2 ^ 64

def compileCase (m : Mem) (argv ex : PtrArr) : Prog Locals := do
  let (m, gcc) := m.strdup "gcc".toList
  let argv ← Prog.lift (PtrArr.store argv 0 gcc)
  let (m, o) := m.strdup "-o".toList
  let argv ← Prog.lift (PtrArr.store argv 2 o)
  let name ← Prog.lift (argv[1]?.bind m.str)
  let (m, output) := m.strdup (name.take (nameLength name))
  let argv ← Prog.lift (PtrArr.store argv 3 output)
  let argv ← Prog.lift (PtrArr.store argv 4 .null)
  let (m, ex) ← expandWildcards m argv ex 0
  execute m ex
  printf prompt
  pure ⟨m, argv, ex⟩

/-- `argv2[j++] = p;` -/
def push (a : List Ptr) (p : Ptr) : Option (List Ptr) :=
  if a.length < maxArg then some (a ++ [p]) else none

/-- The scan for redirections, on `argv` advanced by `i`: the input file, the
output file and `argv2`. The entry after an operator is skipped unseen, even
when it is the NULL. -/
def redirScan (m : Mem) : PtrArr → Ptr → Ptr → List Ptr → Option (Ptr × Ptr × List Ptr)
  | [], _, _, _ => none
  | .undef :: _, _, _, _ => none
  | .null :: _, input, output, argv2 => do
      let argv2 ← push argv2 .null
      some (input, output, argv2)
  | [.at _ _], _, _, _ => none
  | .at b o :: next :: argv, input, output, argv2 => do
      let s ← m.cstr b o
      if s = "<".toList then redirScan m argv next output argv2
      else if s = ">".toList then redirScan m argv input next argv2
      else
        let argv2 ← push argv2 (.at b o)
        redirScan m (next :: argv) input output argv2

/-- `if (file != NULL) fileRedir(redirection, file);` -/
def redirTo (m : Mem) (redirection : Str) : Ptr → Prog Unit
  | .null => pure ()
  | file => do
      let file ← Prog.lift (m.str file)
      fileRedir redirection file

def redirCase (m : Mem) (argv ex : PtrArr) : Prog Locals := do
  let originalStdin ← dup 0
  let originalStdout ← dup 1
  let (inputFile, outputFile, argv2) ← Prog.lift (redirScan m argv .null .null [])
  redirTo m "<".toList inputFile
  redirTo m ">".toList outputFile
  let (m, ex) ← expandWildcards m argv2 ex 0
  execute m ex
  dup2 originalStdin 0
  dup2 originalStdout 1
  close originalStdin
  close originalStdout
  printf prompt
  pure ⟨m, argv, ex⟩

/-! ### Splitting at `;` and `|` -/

/-- `strtok(NULL, d)` with the saved position `o` in a block with contents `s`:
the token, if any, and the next saved position. -/
def strtok (d : Byte) (s : Str) (o : Nat) : Option (Str × Option (Nat × Nat)) := do
  let t ← cstrOf (s.drop o)
  let start := o + (t.takeWhile (· = d)).length
  let tok := (t.dropWhile (· = d)).takeWhile (· ≠ d)
  if tok = [] then some (s, none)
  else if start + tok.length = o + t.length then some (s, some (start, start + tok.length))
  else some (s.set (start + tok.length) NUL, some (start, start + tok.length + 1))

/-- `while (*command == ' ') command++;` -/
def skipSpaces : Nat → Str → Nat → Option Nat
  | 0, _, _ => none
  | fuel + 1, s, command => do
      let c ← s[command]?
      if c = ' ' then skipSpaces fuel s (command + 1) else some command

/-- `while (end > command && *end == ' ') *end-- = '\0';` -/
def trimEnd : Nat → Str → Nat → Int → Option Str
  | 0, _, _, _ => none
  | fuel + 1, s, command, fin =>
      if (command : Int) < fin then do
        let c ← s[fin.toNat]?
        if c = ' ' then trimEnd fuel (s.set fin.toNat NUL) command (fin - 1) else some s
      else some s

/-- The trimming of one field: the new contents and `command`. -/
def trim (s : Str) (command : Nat) : Option (Str × Nat) := do
  let command ← skipSpaces (s.length + 1) s command
  let t ← cstrOf (s.drop command)
  let s ← trimEnd (s.length + 1) s command (command + t.length - 1)
  some (s, command)

/-- The loop of the `;` branch, from the saved position of `strtok`. -/
def seqLoop : Nat → Locals → Nat → Prog Locals
  | 0, _, _ => .ub
  | fuel + 1, l, saved => do
      let (m, tok) ← Prog.lift (l.mem.onBlock backupBlk (strtok ';' · saved))
      match tok with
      | none => pure { l with mem := m }
      | some (command, saved) =>
          let (m, command) ← Prog.lift (m.onBlock backupBlk (trim · command))
          let (m, argv) ← Prog.lift (m.onBlock backupBlk (parse backupBlk · command l.argv))
          let (m, ex) ← expandWildcards m argv l.expandedArgv 0
          execute m ex
          seqLoop fuel ⟨m, argv, ex⟩ saved

def seqCase (m : Mem) (argv ex : PtrArr) : Prog Locals := do
  let l ← seqLoop maxLine ⟨m, argv, ex⟩ 0
  printf prompt
  pure l

/-- The loop that fills `command_array`. The array is the list of its entries:
it is filled from index 0 and read up to its NULL. -/
def splitLoop : Nat → Mem → Nat → List Ptr → Option (Mem × List Ptr)
  | 0, _, _, _ => none
  | fuel + 1, m, saved, commands => do
      let (m, tok) ← m.onBlock backupBlk (strtok '|' · saved)
      match tok with
      | none => if commands.length < maxArg then some (m, commands) else none
      | some (command, saved) =>
          let (m, command) ← m.onBlock backupBlk (trim · command)
          let t ← m.cstr backupBlk command
          let (m, p) := m.strdup t
          let commands ← push commands p
          splitLoop fuel m saved commands

/-- A pipe for all but the last command. -/
def newPipe (last : Bool) (pfd : Int × Int) : Prog (Int × Int) :=
  if last then pure pfd
  else do
    match ← pipe with
    | none =>
        perror "pipe".toList
        exit 1
    | some pfd => pure pfd

/-- In the child: all but the first command read from the previous pipe. -/
def redirectStdin (i : Nat) (prevPfd : Int × Int) : Prog Unit :=
  if i > 0 then do
    close prevPfd.2
    dup2 prevPfd.1 0
    close prevPfd.1
  else pure ()

/-- In the child: all but the last command write to the current pipe. -/
def redirectStdout (last : Bool) (pfd : Int × Int) : Prog Unit :=
  if last then pure ()
  else do
    close pfd.1
    dup2 pfd.2 1
    close pfd.2

/-- In the parent: the previous pipe is closed. -/
def closePrev (i : Nat) (prevPfd : Int × Int) : Prog Unit :=
  if i > 0 then do
    close prevPfd.1
    close prevPfd.2
  else pure ()

/-- The loop that runs `command_array[i]`, `command_array[i + 1]`, ...; the
child of each round goes on with `stage`, the shell at last with `done`. -/
def pipeLoop {χ α : Type} (stage : χ → Prog α) (done : Prog α) :
    List χ → Nat → Int × Int → Int × Int → Prog α
  | [], _, _, _ => done
  | command :: rest, i, pfd, prevPfd => do
      let pfd ← newPipe rest.isEmpty pfd
      match ← fork with
      | .failed =>
          perror "fork".toList
          exit 1
      | .child =>
          redirectStdin i prevPfd
          redirectStdout rest.isEmpty pfd
          stage command
      | .parent pid =>
          closePrev i prevPfd
          waitpid pid
          pipeLoop stage done rest (i + 1) pfd (if rest.isEmpty then prevPfd else pfd)

/-- What the child of the pipe loop does after its descriptors are set: it
expands the arguments, and executes the list it expanded from. -/
def pipeStage {α : Type} (m : Mem) (argv ex : PtrArr) : Ptr → Prog α
  | .at b o => do
      let (m, argv) ← Prog.lift (m.onBlock b (parse b · o argv))
      let (m, _) ← expandWildcards m argv ex 0
      let args ← Prog.lift (m.args argv)
      execvp args
      printf execFailed
      exit 1
  | _ => .ub

def free (m : Mem) : Ptr → Mem
  | .at b _ => m.set b []
  | _ => m

def pipeCase (m : Mem) (argv ex : PtrArr) : Prog Locals := do
  let (m, commands) ← Prog.lift (splitLoop maxLine m 0 [])
  pipeLoop (pipeStage m argv ex)
    (do printf prompt
        pure ⟨commands.foldl free m, argv, ex⟩)
    commands 0 (-1, -1) (-1, -1)

def otherCase (m : Mem) (argv ex : PtrArr) : Prog Locals := do
  let (m, ex) ← expandWildcards m argv ex 0
  execute m ex
  printf prompt
  pure ⟨m, argv, ex⟩

/-! ## The read loop -/

/-- `fgets(line, size, stdin)`: the bytes it stores, and what is left of the
stream. -/
def fgets (size : Nat) (stream : Str) : Str × Str :=
  let n := min ((stream.takeWhile (· ≠ '\n')).length + 1) (size - 1)
  (stream.take n, stream.drop n)

/-- The argument of `strcasecmp(argv[0], _)`; `NULL` is `none`. -/
def arg0 (m : Mem) (argv : PtrArr) : Option (Option Str) :=
  match (argv[0]? : Option Ptr) with
  | some .null => some none
  | some p => (m.str p).map some
  | none => none

/-- The cascade of tests on the parsed line. `exit` leaves the loop, and `main`
returns 0. -/
def dispatch (m : Mem) (argv ex : PtrArr) : Prog Locals := do
  let cmd ← Prog.lift (arg0 m argv)
  let backup ← Prog.lift (m.cstr backupBlk 0)
  if ← strcasecmp cmd "exit".toList then exit 0
  else if ← strcasecmp cmd "listall".toList then listallCase m argv ex
  else if ← strcasecmp cmd "compile".toList then compileCase m argv ex
  else if backup.contains '<' || backup.contains '>' then redirCase m argv ex
  else if backup.contains ';' then seqCase m argv ex
  else if backup.contains '|' then pipeCase m argv ex
  else otherCase m argv ex

/-- `fgets` stores `chunk` in `line`, and the byte before its NUL is overwritten:
the memory after it, and the string that is left for `parse`. -/
def readCommand (m : Mem) (chunk : Str) : Option (Mem × Str) := do
  let m ← m.writeStr lineBlk chunk
  let (m, _) ← m.onBlock lineBlk fun s => (chop s).map (·, ())
  let t ← m.cstr lineBlk 0
  some (m, t)

/-- One round of the read loop, on the bytes `chunk` that `fgets` stored. -/
def body (l : Locals) (chunk : Str) : Prog Locals := do
  let (m, t) ← Prog.lift (readCommand l.mem chunk)
  let m ← Prog.lift (m.writeStr backupBlk t)
  let (m, argv) ← Prog.lift (m.onBlock lineBlk (parse lineBlk · 0 l.argv))
  dispatch m argv l.expandedArgv

/-- The bytes of the calls of `fgets` until end of file. Each call takes at least
one byte, so that the length of the stream is fuel enough. The stream is what the
shell's own `read`s deliver: commands take nothing from it, and no child that shares the
offset of a regular file sets it back when it ends after a failed `execvp`. -/
def chunksFrom : Nat → Str → List Str
  | 0, _ => []
  | fuel + 1, stream =>
      if stream = [] then []
      else (fgets maxLine stream).1 :: chunksFrom fuel (fgets maxLine stream).2

def chunks (stream : Str) : List Str := chunksFrom stream.length stream

/-- `while (fgets(line, sizeof(line), stdin) != NULL)`, on the bytes that the calls
of `fgets` store. -/
def readLoop : List Str → Locals → Prog Locals
  | [], l => pure l
  | chunk :: rest, l => do
      let l ← body l chunk
      readLoop rest l

end UnixSys.Shell

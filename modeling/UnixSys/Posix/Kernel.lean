import UnixSys.Posix.Prog
import UnixSys.Lib.Runs

/-!
# Kernel — processes, pipes and every interleaving

A system is a list of processes (a process id is a position in it) over shared
pipes and files. A step is one call, one byte read or written, or the end of one
process; any process that can move may move next. `fork` and `pipe` succeed:
processes and descriptors do not run out.
-/

namespace UnixSys

/-- How a process ended. A command that ends by itself leaves what it read,
whether it saw end of file, and what it wrote. -/
inductive Ending where
  | exited (status : Nat)
  | done (input : Str) (eof : Bool) (output : Str)
  | sigpipe
  | badFd
  deriving DecidableEq

/-- What a process is doing. `exiting` is in `exit`, which writes out the stdio
buffer; a process that has ended is a zombie until its parent waits for it. -/
inductive Code (α : Type) where
  | prog (p : Prog α)
  | image (img : Image) (input : Str) (eof : Bool) (output : Str)
  | exiting (status : Nat)
  | zombie (e : Ending)
  | reaped (e : Ending)

/-- A process that has not ended holds its descriptors. -/
def Code.live {α : Type} : Code α → Bool
  | .prog _ | .image _ _ _ _ | .exiting _ => true
  | .zombie _ | .reaped _ => false

structure Proc (α : Type) where
  parent : Option Nat
  code : Code α
  fds : FdTable
  buf : Str

def Proc.goto {α : Type} (p : Proc α) (c : Code α) : Proc α := { p with code := c }

/-- `unread o` is what a reader of `o` still finds there (for a pipe, its
contents), `written o` what has been written to `o`, `trace` the calls of
`execvp` so far. -/
structure Sys (W α : Type) where
  procs : List (Proc α)
  world : W
  pipes : Nat
  unread : Ofd → Str
  written : Ofd → Str
  trace : List Launch

/-- What a system runs on: the capacity of a pipe, the disposition of `SIGCHLD`
that the shell inherited, the world, and what a program that has returned `a`
does once its next input is there. -/
structure Machine (W α : Type) where
  capacity : Nat
  sigchldIgnored : Bool
  env : Env W
  next : α → Option (Prog α)

namespace Sys

variable {W α : Type} (s : Sys W α)

def update (pid : Nat) (p : Proc α) : Sys W α := { s with procs := s.procs.set pid p }

/-- `pid` has become `p`, and has a child. -/
def spawn (pid : Nat) (p child : Proc α) : Sys W α :=
  { s with procs := s.procs.set pid p ++ [child] }

/-- Some process that has not ended has `o` open. -/
def Holds (o : Ofd) : Prop := ∃ p ∈ s.procs, p.code.live = true ∧ ∃ fd, p.fds.get fd = some o

/-- Whether an empty `o` may still get data. -/
def MayGrow : Ofd → Prop
  | .pipeR id => s.Holds (.pipeW id)
  | _ => False

def ctx (p : Proc α) : Ctx W := ⟨p.fds, p.buf, s.world, s.pipes, s.procs.length⟩

/-- A call of `execvp` was made, and left the file system as `w`. -/
def note (l : Launch) (w : W) : Sys W α := { s with world := w, trace := s.trace ++ [l] }

/-- The effect of a call of `p`, which goes on with `q`. -/
def commit (pid : Nat) (p : Proc α) (x : Ctx W) (q : Prog α) : Sys W α :=
  { s with
    procs := s.procs.set pid { p with code := .prog q, fds := x.fds, buf := x.buf }
    world := x.world
    pipes := x.pipes }

end Sys

section
variable {W α : Type} (M : Machine W α)

/-- What a process becomes when it ends. -/
def Machine.ended (e : Ending) : Code α := if M.sigchldIgnored then .reaped e else .zombie e

/-- Process `pid` writes the byte `b` to descriptor 1 and goes on as `p'`; it
goes on as `bad` when descriptor 1 is not open for writing. -/
def WriteStep (s : Sys W α) (pid : Nat) (p : Proc α) (b : Byte) (p' bad : Proc α)
    (s' : Sys W α) : Prop :=
  match p.fds.get 1 with
  | none | some (.pipeR _) => s' = s.update pid bad
  | some (.pipeW id) =>
      (¬ s.Holds (.pipeR id) ∧ s' = s.update pid (p.goto (M.ended .sigpipe))) ∨
      (s.Holds (.pipeR id) ∧ (s.unread (.pipeR id)).length < M.capacity ∧
        s' = { s.update pid p' with
          unread := Function.update s.unread (.pipeR id) (s.unread (.pipeR id) ++ [b]) })
  | some o => s' = { s.update pid p' with
      written := Function.update s.written o (s.written o ++ [b]) }

/-- A command reads a byte from `o`, or sees end of file there. -/
def ReadFrom (s : Sys W α) (pid : Nat) (p : Proc α) (img : Image) (input : Str) (eof : Bool)
    (output : Str) (o : Ofd) (s' : Sys W α) : Prop :=
  match s.unread o with
  | b :: rest => s' = { s.update pid (p.goto (.image img (input ++ [b]) eof output)) with
      unread := Function.update s.unread o rest }
  | [] => ¬ s.MayGrow o ∧ s' = s.update pid (p.goto (.image img input true output))

/-- A command reads from descriptor 0. -/
def ReadStep (s : Sys W α) (pid : Nat) (p : Proc α) (img : Image) (input : Str) (eof : Bool)
    (output : Str) (s' : Sys W α) : Prop :=
  match p.fds.get 0 with
  | none | some (.pipeW _) => s' = s.update pid (p.goto (M.ended .badFd))
  | some o => ReadFrom s pid p img input eof output o s'

/-- `waitpid(child, NULL, 0)`: it returns at once when `pid` has no such child. -/
def WaitpidStep (s : Sys W α) (pid : Nat) (p : Proc α) (child : Nat) (k : Prog α)
    (s' : Sys W α) : Prop :=
  match s.procs[child]? with
  | some q =>
      if q.parent = some pid then
        match q.code with
        | .zombie e =>
            s' = (s.update child (q.goto (.reaped e))).update pid (p.goto (.prog k))
        | .reaped _ => s' = s.update pid (p.goto (.prog k))
        | _ => False
      else s' = s.update pid (p.goto (.prog k))
  | none => s' = s.update pid (p.goto (.prog k))

/-- One call of `wait` in `while (wait(&status) != child);`. With no child left
it fails at once, and the loop goes on. -/
def WaitForStep (s : Sys W α) (pid : Nat) (p : Proc α) (child : Nat) (k : Prog α)
    (s' : Sys W α) : Prop :=
  (∃ (c : Nat) (q : Proc α) (e : Ending), s.procs[c]? = some q ∧ q.parent = some pid ∧
    q.code = .zombie e ∧
    s' = (s.update c (q.goto (.reaped e))).update pid
      (p.goto (.prog (if c = child then k else .waitFor child k)))) ∨
  ((∀ q ∈ s.procs, q.parent = some pid → ∃ e, q.code = .reaped e) ∧ s' = s)

/-- The steps of process `pid` at program `q`. -/
def ProgStep (s : Sys W α) (pid : Nat) (p : Proc α) : Prog α → Sys W α → Prop
  | .ret a, s' => ∃ q, M.next a = some q ∧ s' = s.update pid (p.goto (.prog q))
  | .ub, _ => False
  | .exit n, s' => s' = s.update pid (p.goto (.exiting n))
  | .call c k, s' =>
      match c.apply M.env (s.ctx p) with
      | none => s' = s.update pid (p.goto (.prog .ub))
      | some (r, x) => s' = s.commit pid p x (k r)
  | .fork k, s' =>
      s' = s.spawn pid (p.goto (.prog (k (.parent s.procs.length))))
        { p with parent := some pid, code := .prog (k .child) }
  | .execvp argv k, s' =>
      match M.env.exec s.world (p.fds.launch argv) with
      | none => s' = (s.update pid (p.goto (.prog k))).note (p.fds.launch argv) s.world
      | some (img, w) =>
          s' = (s.update pid { p with code := .image img [] false [], buf := [] }).note
            (p.fds.launch argv) w
  | .waitpid child k, s' => WaitpidStep s pid p child k s'
  | .waitFor child k, s' => WaitForStep s pid p child k s'

/-- The steps of process `pid`. -/
def ProcStep (s : Sys W α) (pid : Nat) (p : Proc α) (s' : Sys W α) : Prop :=
  match p.code with
  | .prog q => ProgStep M s pid p q s'
  | .image img input eof output =>
      match img input eof output with
      | .read => ReadStep M s pid p img input eof output s'
      | .write b => WriteStep M s pid p b (p.goto (.image img input eof (output ++ [b])))
          (p.goto (M.ended .badFd)) s'
      | .exit => s' = s.update pid (p.goto (M.ended (.done input eof output)))
  | .exiting n =>
      match p.buf with
      | [] => s' = s.update pid (p.goto (M.ended (.exited n)))
      | b :: buf => WriteStep M s pid p b { p with buf := buf } { p with buf := [] } s'
  | .zombie _ | .reaped _ => False

/-- One step of the system. -/
def Step (s s' : Sys W α) : Prop :=
  ∃ pid p, s.procs[pid]? = some p ∧ ProcStep M s pid p s'

end

/-- The system at the start of the program `p`: its descriptor table is `T`,
`pipes` pipes have been made before, and `unread` is what can be read. -/
def Sys.start {W α : Type} (p : Prog α) (T : FdTable) (w : W) (pipes : Nat)
    (unread : Ofd → Str) : Sys W α where
  procs := [⟨none, .prog p, T, []⟩]
  world := w
  pipes := pipes
  unread := unread
  written := fun _ => []
  trace := []

end UnixSys

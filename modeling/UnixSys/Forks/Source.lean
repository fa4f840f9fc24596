import UnixSys.Lib.Decimal
import UnixSys.Lib.Runs
import UnixSys.Posix.Descriptors

/-!
# Source — programs of `fork` and `wait`

`week08Lab1/tryFork.c`, `1fork.c`, `3fork.c` and `forkloop.c`, from one call to the next, and
the processes that come of them. The processes run in any order; what they print goes to one
standard output.
-/

namespace UnixSys.Forks

/-- What `getppid` returns: the process that has started the program, a process of the
program, or the process that takes over the children of one that has ended. -/
inductive Parent where
  | starter
  | proc (i : Nat)
  | reaper
  deriving DecidableEq

/-- What a process prints. A process of the program is named by its place in the order in
which they were made. -/
inductive Line where
  | caseNumber (n : Int)
  | pid (self : Nat) (parent : Parent)
  | endOf (n : Int) (self : Nat)
  | initial (self : Nat)
  deriving DecidableEq

/-- A program from here to its end. `printf` prints a line with the numbers of the process and
of its parent. After `fork` come the child, the parent, and what the caller does when it has
failed. -/
inductive Prog where
  | printf (line : Nat → Parent → Line) (next : Prog)
  | eprintf (text : Str) (next : Prog)
  | fork (child parent failed : Prog)
  /-- `while (wait(NULL) > 0);` -/
  | waitAll (next : Prog)
  /-- `if (getppid() == ppid)`, with the `ppid` of the first process. -/
  | ifFirst (yes no : Prog)
  | exit

/-! ## Statements -/

/-- A statement, from what comes after it. -/
abbrev Stmt := Prog → Prog

/-- `fork();` -/
def fork : Stmt := fun next => .fork next next next

/-- `if (fork() && fork()) { body }`. The child has a 0, and a failed `fork` has a -1. -/
def ifForkAnd (body : Stmt) : Stmt := fun next =>
  let second := Prog.fork next (body next) (body next)
  .fork next second second

/-- `if (fork() || fork()) { body }` -/
def ifForkOr (body : Stmt) : Stmt := fun next =>
  let second := Prog.fork next (body next) (body next)
  .fork second (body next) (body next)

/-- A `for` loop of so many rounds. -/
def forLoop : Nat → Stmt → Stmt
  | 0, _ => id
  | n + 1, body => body ∘ forLoop n body

/-- The line with `getpid()` and `getppid()`. -/
def printPid : Stmt := .printf .pid

/-! ## tryFork.c -/

/-- What comes before the line in the cases of the `switch`. -/
def forks (caseNum : Int) : Option Stmt :=
  if caseNum = 1 then some fork
  else if caseNum = 2 then some (fork ∘ fork)
  else if caseNum = 3 then some (fork ∘ fork ∘ fork)
  else if caseNum = 4 then some (ifForkAnd fork ∘ ifForkAnd fork ∘ ifForkAnd fork)
  else if caseNum = 5 then some (forLoop 4 fork)
  else none

/-- From the loop of `wait` on. -/
def terminate (caseNum : Int) : Prog :=
  .waitAll (.ifFirst (.printf (fun self _ => .endOf caseNum self) .exit) .exit)

/-- From the argument on. -/
def tryFork (caseNum : Int) : Prog :=
  .printf (fun _ _ => .caseNumber caseNum)
    (match forks caseNum with
      | some stmt => stmt (printPid (terminate caseNum))
      | none => .eprintf "Invalid argument (1 - 5)\n".toList .exit)

def main : List Str → Prog
  | [_, arg] => tryFork (atoi arg)
  | argv => .eprintf ("Usage: ".toList ++ argv.headD [] ++ " <number of child>\n".toList) .exit

/-! ## 1fork.c, 3fork.c, forkloop.c -/

def oneFork : Prog := (ifForkOr fork ∘ ifForkOr fork) (printPid .exit)

def threeFork : Prog := (ifForkAnd fork ∘ ifForkAnd fork ∘ ifForkAnd fork) (printPid .exit)

def forkLoop : Prog :=
  .printf (fun self _ => .initial self) (forLoop 2 fork (printPid .exit))

/-! ## Processes -/

inductive Status where
  | running (prog : Prog)
  | zombie
  | reaped

/-- A process: its parent, what it has still to do, and what it has printed that is not yet
written. -/
structure Proc where
  parent : Parent
  status : Status
  buffer : List Line

/-- The processes in the order in which they were made, and what has been written. -/
structure System where
  procs : List Proc
  out : List Line
  err : List Str

namespace System

/-- The program has just started. -/
def start (prog : Prog) : System := ⟨[⟨.starter, .running prog, []⟩], [], []⟩

/-- The process `i` is now `p`. -/
def set (S : System) (i : Nat) (p : Proc) : System := { S with procs := S.procs.set i p }

/-- Whether process `i` has not ended. -/
def Running (S : System) (i : Nat) : Prop :=
  ∃ p prog, S.procs[i]? = some p ∧ p.status = .running prog

/-- `getppid` of `p`. -/
def getppid (S : System) (p : Proc) : Parent :=
  match p.parent with
  | .proc i =>
      match S.procs[i]? with
      | some ⟨_, .running _, _⟩ => .proc i
      | _ => .reaper
  | parent => parent

/-- One process does its next call. On a terminal a line is written at once; else it stays in
the buffer of the process, which is copied by `fork` and written at the end. -/
inductive Step (tty mayFail : Bool) : System → System → Prop where
  | printf {S : System} {i : Nat} {p : Proc} {line : Nat → Parent → Line} {next : Prog}
      (hi : S.procs[i]? = some p) (hp : p.status = .running (.printf line next)) :
      Step tty mayFail S
        (if tty then
          { S.set i { p with status := .running next } with out := S.out ++ [line i (S.getppid p)] }
        else S.set i { p with
          status := .running next, buffer := p.buffer ++ [line i (S.getppid p)] })
  | eprintf {S : System} {i : Nat} {p : Proc} {text : Str} {next : Prog}
      (hi : S.procs[i]? = some p) (hp : p.status = .running (.eprintf text next)) :
      Step tty mayFail S
        { S.set i { p with status := .running next } with err := S.err ++ [text] }
  | fork {S : System} {i : Nat} {p : Proc} {child parent failed : Prog}
      (hi : S.procs[i]? = some p) (hp : p.status = .running (.fork child parent failed)) :
      Step tty mayFail S { S with
        procs := S.procs.set i { p with status := .running parent } ++
          [⟨.proc i, .running child, p.buffer⟩] }
  | forkFailed {S : System} {i : Nat} {p : Proc} {child parent failed : Prog}
      (hi : S.procs[i]? = some p) (hp : p.status = .running (.fork child parent failed))
      (hfail : mayFail = true) :
      Step tty mayFail S (S.set i { p with status := .running failed })
  | reap {S : System} {i j : Nat} {p q : Proc} {next : Prog}
      (hi : S.procs[i]? = some p) (hp : p.status = .running (.waitAll next))
      (hj : S.procs[j]? = some q) (hparent : q.parent = .proc i) (hq : q.status = .zombie) :
      Step tty mayFail S (S.set j { q with status := .reaped })
  | waited {S : System} {i : Nat} {p : Proc} {next : Prog}
      (hi : S.procs[i]? = some p) (hp : p.status = .running (.waitAll next))
      (hnone : ∀ q ∈ S.procs, q.parent = .proc i → q.status = .reaped) :
      Step tty mayFail S (S.set i { p with status := .running next })
  | ifFirst {S : System} {i : Nat} {p : Proc} {yes no : Prog}
      (hi : S.procs[i]? = some p) (hp : p.status = .running (.ifFirst yes no)) :
      Step tty mayFail S (S.set i { p with
        status := .running (if S.getppid p = .starter then yes else no) })
  | exit {S : System} {i : Nat} {p : Proc}
      (hi : S.procs[i]? = some p) (hp : p.status = .running .exit) :
      Step tty mayFail S
        { S.set i { p with status := .zombie, buffer := [] } with out := S.out ++ p.buffer }

end System

end UnixSys.Forks

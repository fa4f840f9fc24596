import UnixSys.Posix.Descriptors

/-!
# Prog — programs as trees of system calls

A program is the tree of the calls it makes: each node is one call and has one
subtree for each result the call can have. The code of the repository is
translated into such trees with `do` notation, and every semantics of the
development (the kernel with all interleavings, the sequential run) reads the
same tree.
-/

namespace UnixSys

/-! ## Process images -/

/-- The next action of a process image. -/
inductive Act where
  | read
  | write (b : Byte)
  | exit
  deriving DecidableEq

/-- A deterministic process image: its next action, given the bytes it has read
from descriptor 0, whether it has seen end of file there, and the bytes it has
written to descriptor 1. -/
abbrev Image := Str → Bool → Str → Act

/-! ## Calls -/

/-- The calls that never block and only concern the calling process. -/
inductive Call where
  | printf (text : Str)
  | perror (text : Str)
  | strcasecmp (s : Option Str) (t : Str)
  | glob (pattern : Str)
  | openFile (path : Str) (how : OpenHow)
  | dup (fd : Int)
  | dup2 (old new : Int)
  | close (fd : Int)
  | pipe

/-- The type of what a call returns. `strcasecmp` is asked for `== 0`. -/
abbrev Call.Res : Call → Type
  | .printf _ | .perror _ | .dup2 _ _ | .close _ => Unit
  | .strcasecmp _ _ => Bool
  | .glob _ => Option (List Str)
  | .openFile _ _ | .dup _ => Int
  | .pipe => Option (Int × Int)

/-- A call of `execvp` as an observer sees it: the argument list, and what
descriptors 0 and 1 refer to. -/
structure Launch where
  argv : List Str
  stdin : Option Ofd
  stdout : Option Ofd
  deriving DecidableEq

/-- The launch of `argv` by a process with table `T`. -/
def FdTable.launch (T : FdTable) (argv : List Str) : Launch := ⟨argv, T.get 0, T.get 1⟩

def isWildcard (c : Byte) : Bool := c = '*' || c = '?' || c = '[' || c = '\\'

/-- The pattern is a name without wildcards, in the working directory. -/
def isName (pat : Str) : Bool := pat.all fun c => !isWildcard c && c != '/'

/-- The world a program runs in, with the state `W` of the file system. `glob`
is `none` when no path matches, `openFile` when the file cannot be opened,
`exec` when there is no such program; otherwise a command runs as some image
and leaves the file system in some new state. The last fields are what POSIX
promises of `glob`. -/
structure Env (W : Type) where
  glob : W → Str → Option (List Str)
  openFile : W → Str → OpenHow → Option W
  exec : W → Launch → Option (Image × W)
  glob_ne_nil : ∀ w pat ms, glob w pat = some ms → ms ≠ []
  glob_path : ∀ w pat ms, glob w pat = some ms → ∀ m ∈ ms, m ≠ [] ∧ NUL ∉ m
  glob_plain : ∀ w pat ms, glob w pat = some ms → isName pat = true → ms = [pat]

/-- A file system that no command changes: no pattern matches, and every file can
be opened. -/
def Env.ofExec (exec : Launch → Option Image) : Env Unit where
  glob _ _ := none
  openFile _ _ _ := some ()
  exec _ l := (exec l).map (·, ())
  glob_ne_nil _ _ _ h := nomatch h
  glob_path _ _ _ h := nomatch h
  glob_plain _ _ _ h := nomatch h

/-- What a call of one process can read and change: its own descriptor table and
stdio output buffer, and of the system the state of the file system and the
numbers of pipes and of processes made so far. -/
structure Ctx (W : Type) where
  fds : FdTable
  buf : Str
  world : W
  pipes : Nat
  procs : Nat

/-- ASCII lower case, as `tolower` in the C locale. -/
def lower (c : Byte) : Byte := if 'A' ≤ c ∧ c ≤ 'Z' then Char.ofNat (c.toNat + 32) else c

/-- `strcasecmp(s, t) == 0`. -/
def eqIgnoreCase (s t : Str) : Bool := s.map lower = t.map lower

/-- The effect of a call; `none` is undefined behaviour (`strcasecmp(NULL, _)`). -/
def Call.apply {W : Type} (env : Env W) : (c : Call) → Ctx W → Option (c.Res × Ctx W)
  | .printf text, x => some ((), { x with buf := x.buf ++ text })
  | .perror _, x => some ((), x)
  | .strcasecmp none _, _ => none
  | .strcasecmp (some s) t, x => some (eqIgnoreCase s t, x)
  | .glob pat, x => some (env.glob x.world pat, x)
  | .openFile path how, x =>
      match env.openFile x.world path how with
      | none => some (-1, x)
      | some w => some (x.fds.lowest,
          { x with fds := x.fds.put x.fds.lowest (.file path how), world := w })
  | .dup fd, x =>
      match x.fds.get fd with
      | none => some (-1, x)
      | some o => some (x.fds.lowest, { x with fds := x.fds.put x.fds.lowest o })
  | .dup2 old new, x => some ((), { x with fds := x.fds.dup2 old new })
  | .close fd, x => some ((), { x with fds := x.fds.close fd })
  | .pipe, x =>
      some (some (x.fds.pipeFds x.pipes),
        { x with fds := x.fds.pipe x.pipes, pipes := x.pipes + 1 })

/-- What POSIX promises of the result of a call. -/
def Call.Valid : (c : Call) → c.Res → Prop
  | .glob pat, r => ∀ ms, r = some ms → ms ≠ [] ∧ (∀ m ∈ ms, m ≠ [] ∧ NUL ∉ m) ∧
      (isName pat = true → ms = [pat])
  | .strcasecmp s t, r => s.map (eqIgnoreCase · t) = some r
  | .printf _, _ | .perror _, _ | .openFile _ _, _ | .dup _, _ | .dup2 _ _, _ | .close _, _
  | .pipe, _ => True

theorem Call.valid_of_apply {W : Type} {env : Env W} {c : Call} {x y : Ctx W} {r : c.Res}
    (h : c.apply env x = some (r, y)) : c.Valid r := by
  cases c with
  | glob pat =>
      simp only [Call.apply, Option.some.injEq, Prod.mk.injEq] at h
      intro ms hms
      rw [← h.1] at hms
      exact ⟨env.glob_ne_nil _ _ _ hms, env.glob_path _ _ _ hms, env.glob_plain _ _ _ hms⟩
  | strcasecmp s t =>
      cases s with
      | none => cases h
      | some s =>
          simp only [Call.apply, Option.some.injEq, Prod.mk.injEq] at h
          exact congrArg some h.1
  | _ => trivial

/-! ## Programs -/

/-- What `fork` returns. -/
inductive ForkResult where
  | failed
  | child
  | parent (pid : Nat)

/-- A program with results in `α`. `waitFor pid` is the loop
`while (wait(&status) != pid);`; `ub` is undefined behaviour. -/
inductive Prog (α : Type) : Type where
  | ret (a : α)
  | ub
  | exit (status : Nat)
  | call (c : Call) (k : c.Res → Prog α)
  | fork (k : ForkResult → Prog α)
  | execvp (argv : List Str) (k : Prog α)
  | waitpid (pid : Nat) (k : Prog α)
  | waitFor (pid : Nat) (k : Prog α)

namespace Prog

variable {α β : Type}

def bind : Prog α → (α → Prog β) → Prog β
  | .ret a, f => f a
  | .ub, _ => .ub
  | .exit n, _ => .exit n
  | .call c k, f => .call c fun r => (k r).bind f
  | .fork k, f => .fork fun r => (k r).bind f
  | .execvp argv k, f => .execvp argv (k.bind f)
  | .waitpid pid k, f => .waitpid pid (k.bind f)
  | .waitFor pid k, f => .waitFor pid (k.bind f)

instance : Monad Prog where
  pure := .ret
  bind := .bind

@[simp] theorem pure_eq (a : α) : (pure a : Prog α) = .ret a := rfl

@[simp] theorem ret_bind (a : α) (f : α → Prog β) : (Prog.ret a >>= f) = f a := rfl

@[simp] theorem ub_bind (f : α → Prog β) : ((Prog.ub : Prog α) >>= f) = .ub := rfl

@[simp] theorem exit_bind (n : Nat) (f : α → Prog β) :
    ((Prog.exit n : Prog α) >>= f) = .exit n := rfl

@[simp] theorem call_bind (c : Call) (k : c.Res → Prog α) (f : α → Prog β) :
    (Prog.call c k >>= f) = .call c fun r => k r >>= f := rfl

@[simp] theorem fork_bind (k : ForkResult → Prog α) (f : α → Prog β) :
    (Prog.fork k >>= f) = .fork fun r => k r >>= f := rfl

@[simp] theorem execvp_bind (argv : List Str) (k : Prog α) (f : α → Prog β) :
    (Prog.execvp argv k >>= f) = .execvp argv (k >>= f) := rfl

@[simp] theorem waitpid_bind (pid : Nat) (k : Prog α) (f : α → Prog β) :
    (Prog.waitpid pid k >>= f) = .waitpid pid (k >>= f) := rfl

@[simp] theorem waitFor_bind (pid : Nat) (k : Prog α) (f : α → Prog β) :
    (Prog.waitFor pid k >>= f) = .waitFor pid (k >>= f) := rfl

theorem bind_ret (p : Prog α) : p.bind .ret = p := by
  induction p with
  | ret a => rfl
  | ub => rfl
  | exit n => rfl
  | call c k ih => exact congrArg (Prog.call c) (funext ih)
  | fork k ih => exact congrArg Prog.fork (funext ih)
  | execvp argv k ih => exact congrArg (Prog.execvp argv) ih
  | waitpid pid k ih => exact congrArg (Prog.waitpid pid) ih
  | waitFor pid k ih => exact congrArg (Prog.waitFor pid) ih

theorem bind_assoc {γ : Type} (p : Prog α) (f : α → Prog β) (g : β → Prog γ) :
    (p.bind f).bind g = p.bind fun a => (f a).bind g := by
  induction p with
  | ret a => rfl
  | ub => rfl
  | exit n => rfl
  | call c k ih => exact congrArg (Prog.call c) (funext ih)
  | fork k ih => exact congrArg Prog.fork (funext ih)
  | execvp argv k ih => exact congrArg (Prog.execvp argv) ih
  | waitpid pid k ih => exact congrArg (Prog.waitpid pid) ih
  | waitFor pid k ih => exact congrArg (Prog.waitFor pid) ih

instance : LawfulMonad Prog :=
  LawfulMonad.mk' Prog bind_ret (fun _ _ => rfl) bind_assoc

theorem bind_bind {γ : Type} (p : Prog α) (f : α → Prog β) (g : β → Prog γ) :
    (p >>= f >>= g) = (p >>= fun a => f a >>= g) := bind_assoc p f g

/-- A step of C code that may be undefined behaviour. -/
def lift : Option α → Prog α
  | none => .ub
  | some a => .ret a

@[simp] theorem lift_none : (lift none : Prog α) = .ub := rfl

@[simp] theorem lift_some (a : α) : lift (some a) = .ret a := rfl

end Prog

/-! ## The calls as C writes them -/

namespace Posix

def printf (text : Str) : Prog Unit := .call (.printf text) .ret
def perror (text : Str) : Prog Unit := .call (.perror text) .ret
def strcasecmp (s : Option Str) (t : Str) : Prog Bool := .call (.strcasecmp s t) .ret
def glob (pattern : Str) : Prog (Option (List Str)) := .call (.glob pattern) .ret
def openFile (path : Str) (how : OpenHow) : Prog Int := .call (.openFile path how) .ret
def dup (fd : Int) : Prog Int := .call (.dup fd) .ret
def dup2 (old new : Int) : Prog Unit := .call (.dup2 old new) .ret
def close (fd : Int) : Prog Unit := .call (.close fd) .ret
def pipe : Prog (Option (Int × Int)) := .call .pipe .ret
def fork : Prog ForkResult := .fork .ret
def waitpid (pid : Nat) : Prog Unit := .waitpid pid (.ret ())
def waitFor (pid : Nat) : Prog Unit := .waitFor pid (.ret ())
def exit {α : Type} (status : Nat) : Prog α := .exit status

/-- `execvp` returns only when it fails. On an empty list (`execvp(NULL, argv)`) glibc ends
the process by a signal; an environment has that as a program that ends at once. -/
def execvp (argv : List Str) : Prog Unit := .execvp argv (.ret ())

attribute [simp] printf perror strcasecmp glob openFile dup dup2 close pipe fork waitpid
  waitFor exit execvp

end Posix

end UnixSys

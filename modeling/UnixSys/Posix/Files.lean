import UnixSys.Posix.Prog

/-!
# Files — `open` on a file system with permissions

What `open` needs to know of the file system: which paths name a file, whether
the process may read and write it, and at which paths it may create one.
-/

namespace UnixSys

/-- A file, as the process that opens it may use it. -/
structure File where
  readable : Bool
  writable : Bool
  content : Str
  deriving DecidableEq

def File.allows (f : File) (how : OpenHow) : Bool := if how.write then f.writable else f.readable

/-- `fresh` are the permissions of a file that is created with the given mode; the
mode is `none` when `open` is called without its third argument. -/
structure Files where
  file : Str → Option File
  mayCreate : Str → Bool
  fresh : Option Nat → Bool × Bool

namespace Files

variable (fs : Files)

def put (path : Str) (f : File) : Files :=
  { fs with file := fun p => if p = path then some f else fs.file p }

/-- `open(path, how)`; `none` is failure. -/
def openFile (path : Str) (how : OpenHow) : Option Files :=
  match fs.file path with
  | some f =>
      if f.allows how then
        some (if how.trunc then fs.put path { f with content := [] } else fs)
      else none
  | none =>
      if how.creat && fs.mayCreate path then
        some (fs.put path ⟨(fs.fresh how.perm).1, (fs.fresh how.perm).2, []⟩)
      else none

/-- The file is there and can be opened for reading. -/
def CanRead (path : Str) : Prop := ∃ f, fs.file path = some f ∧ f.readable = true

end Files

/-- The environment with this `open`. -/
def Env.onFiles (env : Env Files) : Env Files := { env with openFile := Files.openFile }

end UnixSys

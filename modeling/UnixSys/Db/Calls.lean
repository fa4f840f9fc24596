import UnixSys.Posix.Descriptors
import UnixSys.Lib.CallTree
import UnixSys.Lib.Overlay

/-!
# Calls — what the database library asks of the system

A function of the library is the tree of the calls it makes on the index file and the data
file: each node is one call, with one subtree for each result. `Io.exec` is the run of one
process by itself. Locks are granted there, and the disk does not fill up.
-/

namespace UnixSys.Db

inductive File where
  | idx
  | dat
  deriving DecidableEq, Repr

inductive Whence where
  | set
  | cur
  | fin
  deriving DecidableEq, Repr

inductive LockKind where
  | read
  | write
  deriving DecidableEq, Repr

/-- A lock on the bytes of a file from `start` on; the length 0 reaches to its end. -/
structure Lock where
  file : File
  kind : LockKind
  start : Int
  len : Nat
  deriving DecidableEq, Repr

inductive Errno where
  | einval
  | enoent
  deriving DecidableEq, Repr

inductive Call where
  | openFile (f : File) (creat trunc : Bool)
  | fstat (f : File)
  | lseek (f : File) (off : Int) (whence : Whence)
  | read (f : File) (n : Nat)
  | write (f : File) (bytes : Str)
  | lock (l : Lock)
  | unlock (f : File) (start : Int) (len : Nat)
  | close (f : File)
  | setErrno (e : Errno)

/-- The type of what a call returns: `open`, and the calls on locks, whether they succeed;
`fstat` the size of the file. -/
abbrev Call.Res : Call → Type
  | .openFile _ _ _ | .lock _ | .unlock _ _ _ => Bool
  | .fstat _ => Option Nat
  | .lseek _ _ _ => Int
  | .read _ _ => Str
  | .write _ _ => Nat
  | .close _ | .setErrno _ => Unit

/-- How the error routines end the process: `err_dump` aborts, `err_sys` and `err_quit`
exit. -/
inductive Stop where
  | dump (message : String)
  | sys (message : String)
  | quit (message : String)
  deriving DecidableEq, Repr

/-- A program with results in `α`. -/
abbrev Io (α : Type) : Type := CallTree Call.Res Stop α

/-! ## The calls as C writes them -/

def openFile (f : File) (creat trunc : Bool) : Io Bool := .call (.openFile f creat trunc) .ret
def fstat (f : File) : Io (Option Nat) := .call (.fstat f) .ret
def lseek (f : File) (off : Int) (whence : Whence) : Io Int := .call (.lseek f off whence) .ret
def read (f : File) (n : Nat) : Io Str := .call (.read f n) .ret
def write (f : File) (bytes : Str) : Io Nat := .call (.write f bytes) .ret
def close (f : File) : Io Unit := .call (.close f) .ret
def setErrno (e : Errno) : Io Unit := .call (.setErrno e) .ret

def readwLock (f : File) (start : Int) (len : Nat) : Io Bool :=
  .call (.lock ⟨f, .read, start, len⟩) .ret

def writewLock (f : File) (start : Int) (len : Nat) : Io Bool :=
  .call (.lock ⟨f, .write, start, len⟩) .ret

def unLock (f : File) (start : Int) (len : Nat) : Io Bool := .call (.unlock f start len) .ret

/-- `if (p) err_dump(message);` -/
def errDumpIf (p : Prop) [Decidable p] (message : String) : Io Unit :=
  if p then .stop (.dump message) else .ret ()

/-- `if (p) err_quit(message);` -/
def errQuitIf (p : Prop) [Decidable p] (message : String) : Io Unit :=
  if p then .stop (.quit message) else .ret ()

/-- `if (p) { ... }`. -/
def onlyIf (p : Prop) [Decidable p] (body : Io Unit) : Io Unit :=
  if p then body else .ret ()

/-! ## The run of one process -/

/-- A file: whether it is there, its bytes, and the position of the process in it. -/
structure FileState where
  present : Bool
  bytes : Str
  pos : Nat

structure World where
  idx : FileState
  dat : FileState
  locks : List Lock
  errno : Option Errno

namespace World

def get (w : World) : File → FileState
  | .idx => w.idx
  | .dat => w.dat

def put (w : World) : File → FileState → World
  | .idx, s => { w with idx := s }
  | .dat, s => { w with dat := s }

end World

/-- Where `lseek` counts from. -/
def FileState.base (s : FileState) : Whence → Nat
  | .set => 0
  | .cur => s.pos
  | .fin => s.bytes.length

/-- The effect of a call. A file that is opened without `O_CREAT` must be there; the process
that closes a file loses its locks on it. -/
def Call.apply : (c : Call) → World → c.Res × World
  | .openFile f creat trunc, w =>
      if (w.get f).present || creat then
        (true, w.put f ⟨true, if trunc then [] else (w.get f).bytes, 0⟩)
      else (false, w)
  | .fstat f, w => (some (w.get f).bytes.length, w)
  | .lseek f off whence, w =>
      let new := ((w.get f).base whence : Int) + off
      if new < 0 then (-1, w) else (new, w.put f { w.get f with pos := new.toNat })
  | .read f n, w =>
      let bytes := readAt (w.get f).bytes (w.get f).pos n
      (bytes, w.put f { w.get f with pos := (w.get f).pos + bytes.length })
  | .write f bytes, w =>
      (bytes.length, w.put f { w.get f with
        bytes := writeAt NUL (w.get f).bytes (w.get f).pos bytes
        pos := (w.get f).pos + bytes.length })
  | .lock l, w => (true, { w with locks := l :: w.locks })
  | .unlock f start len, w => (true, { w with
      locks := w.locks.filter fun l => ¬ (l.file = f ∧ l.start = start ∧ l.len = len) })
  | .close f, w => ((), { w with locks := w.locks.filter fun l => l.file ≠ f })
  | .setErrno e, w => ((), { w with errno := some e })

/-- The run of a program by one process. -/
abbrev Io.exec {α : Type} (p : Io α) (w : World) : CallTree.Outcome Stop α × World :=
  p.run Call.apply w

/-! ## Rules for the calls -/

namespace World

variable (w : World) (f : File)

/-- The position of the process in a file. -/
def seek (pos : Nat) : World := w.put f { w.get f with pos := pos }

def overwrite (bytes : Str) : World :=
  w.put f { w.get f with
    bytes := writeAt NUL (w.get f).bytes (w.get f).pos bytes
    pos := (w.get f).pos + bytes.length }

/-- Once the process has closed a file. -/
def closed : World := { w with locks := w.locks.filter fun l => l.file ≠ f }

def lock (l : Lock) : World := { w with locks := l :: w.locks }

def unlock (start : Int) (len : Nat) : World :=
  { w with locks := w.locks.filter fun l => ¬ (l.file = f ∧ l.start = start ∧ l.len = len) }

@[simp] theorem get_put (s : FileState) : (w.put f s).get f = s := by
  cases f <;> rfl

@[simp] theorem bytes_seek (pos : Nat) : ((w.seek f pos).get f).bytes = (w.get f).bytes := by
  rw [seek, get_put]

@[simp] theorem pos_seek (pos : Nat) : ((w.seek f pos).get f).pos = pos := by
  rw [seek, get_put]

end World

section
variable {α : Type} {E : Stop → World → Prop} {Q : α → World → Prop} {w : World} {f : File}

theorem wp_lseek_set {off : Int} (h : 0 ≤ off) {k : Int → Io α} :
    (lseek f off .set >>= k).wp Call.apply E Q w ↔
      (k off).wp Call.apply E Q (w.seek f off.toNat) := by
  have happ : Call.apply (.lseek f off .set) w = (off, w.seek f off.toNat) := by
    simp only [Call.apply, FileState.base, Int.natCast_zero, Int.zero_add]
    rw [if_neg (by omega)]
    rfl
  exact CallTree.wp_call happ

theorem wp_lseek_cur {k : Int → Io α} : (lseek f 0 .cur >>= k).wp Call.apply E Q w ↔
    (k (w.get f).pos).wp Call.apply E Q (w.seek f (w.get f).pos) := by
  have happ : Call.apply (.lseek f 0 .cur) w =
      (((w.get f).pos : Int), w.seek f (w.get f).pos) := by
    simp only [Call.apply, FileState.base, Int.add_zero]
    rw [if_neg (by omega)]
    rfl
  exact CallTree.wp_call happ

theorem wp_lseek_fin {k : Int → Io α} : (lseek f 0 .fin >>= k).wp Call.apply E Q w ↔
    (k (w.get f).bytes.length).wp Call.apply E Q (w.seek f (w.get f).bytes.length) := by
  have happ : Call.apply (.lseek f 0 .fin) w =
      (((w.get f).bytes.length : Int), w.seek f (w.get f).bytes.length) := by
    simp only [Call.apply, FileState.base, Int.add_zero]
    rw [if_neg (by omega)]
    rfl
  exact CallTree.wp_call happ

theorem wp_read {n : Nat} {k : Str → Io α} : (read f n >>= k).wp Call.apply E Q w ↔
    (k (readAt (w.get f).bytes (w.get f).pos n)).wp Call.apply E Q
      (w.seek f ((w.get f).pos + (readAt (w.get f).bytes (w.get f).pos n).length)) :=
  Iff.rfl

theorem wp_write {bytes : Str} {k : Nat → Io α} : (write f bytes >>= k).wp Call.apply E Q w ↔
    (k bytes.length).wp Call.apply E Q (w.overwrite f bytes) :=
  Iff.rfl

theorem wp_openFile {creat trunc : Bool} (h : ((w.get f).present || creat) = true)
    {k : Bool → Io α} : (openFile f creat trunc >>= k).wp Call.apply E Q w ↔
      (k true).wp Call.apply E Q
        (w.put f ⟨true, if trunc then [] else (w.get f).bytes, 0⟩) := by
  have happ : Call.apply (.openFile f creat trunc) w =
      (true, w.put f ⟨true, if trunc then [] else (w.get f).bytes, 0⟩) := by
    rw [Call.apply, if_pos h]
  exact CallTree.wp_call happ

theorem wp_fstat {k : Option Nat → Io α} : (fstat f >>= k).wp Call.apply E Q w ↔
    (k (some (w.get f).bytes.length)).wp Call.apply E Q w :=
  Iff.rfl

theorem wp_writewLock {start : Int} {len : Nat} {k : Bool → Io α} :
    (writewLock f start len >>= k).wp Call.apply E Q w ↔
      (k true).wp Call.apply E Q (w.lock ⟨f, .write, start, len⟩) :=
  Iff.rfl

theorem wp_readwLock {start : Int} {len : Nat} {k : Bool → Io α} :
    (readwLock f start len >>= k).wp Call.apply E Q w ↔
      (k true).wp Call.apply E Q (w.lock ⟨f, .read, start, len⟩) :=
  Iff.rfl

theorem wp_unLock {start : Int} {len : Nat} {k : Bool → Io α} :
    (unLock f start len >>= k).wp Call.apply E Q w ↔
      (k true).wp Call.apply E Q (w.unlock f start len) :=
  Iff.rfl

theorem wp_errDumpIf {p : Prop} [Decidable p] (h : ¬ p) {message : String} {k : Unit → Io α} :
    (errDumpIf p message >>= k).wp Call.apply E Q w ↔ (k ()).wp Call.apply E Q w := by
  rw [errDumpIf, if_neg h]
  rfl

theorem wp_onlyIf_of {p : Prop} [Decidable p] (h : p) {body : Io Unit} {k : Unit → Io α} :
    (onlyIf p body >>= k).wp Call.apply E Q w ↔ (body >>= k).wp Call.apply E Q w := by
  rw [onlyIf, if_pos h]

theorem wp_onlyIf_of_not {p : Prop} [Decidable p] (h : ¬ p) {body : Io Unit} {k : Unit → Io α} :
    (onlyIf p body >>= k).wp Call.apply E Q w ↔ (k ()).wp Call.apply E Q w := by
  rw [onlyIf, if_neg h]
  rfl

theorem wp_errQuitIf {p : Prop} [Decidable p] (h : ¬ p) {message : String} {k : Unit → Io α} :
    (errQuitIf p message >>= k).wp Call.apply E Q w ↔ (k ()).wp Call.apply E Q w := by
  rw [errQuitIf, if_neg h]
  rfl

end

end UnixSys.Db

import UnixSys.Posix.Descriptors

/-!
# Source — `ls2`

`week07Lab2/ls2.c` goes through the entries of a directory, counts them by the type of the
file that `lstat` reports, and prints the counts.
-/

namespace UnixSys.Listing

/-! ## What the system answers -/

/-- `mode_t`. -/
abbrev Mode := BitVec 32

abbrev Errno := Nat

/-- One answer of `readdir`, with what `stat` and `lstat` answer for its name. -/
structure Entry where
  dName : Str
  stat : Except Errno Mode
  lstat : Except Errno Mode

/-- The calls of the program. `opendir` gives what `readdir` returns up to its NULL. -/
structure System where
  opendir : Str → Except Errno (List Entry)
  chdir : Str → Except Errno Unit
  strerror : Errno → Str

/-! ## File types -/

/-- `S_IFMT`, the bits of the file type in a mode. -/
def ifmt : Mode := 0o170000

/-- A macro `S_ISxxx`: the type bits of `mode` are those of `type`. -/
def isType (type mode : Mode) : Bool := mode &&& ifmt = type

/-- `S_ISREG`. -/
def isReg : Mode → Bool := isType 0o100000

/-- `S_ISDIR`. -/
def isDir : Mode → Bool := isType 0o040000

/-- `S_ISCHR`. -/
def isChr : Mode → Bool := isType 0o020000

/-- `S_ISBLK`. -/
def isBlk : Mode → Bool := isType 0o060000

/-- `S_ISFIFO`. -/
def isFifo : Mode → Bool := isType 0o010000

/-- `S_ISLNK`. -/
def isLnk : Mode → Bool := isType 0o120000

/-- `S_ISSOCK`. -/
def isSock : Mode → Bool := isType 0o140000

/-! ## The counters -/

/-- `INT_MAX`. -/
def intMax : Nat := 2147483647

/-- A C `int` that is counted up from 0. -/
structure Counter where
  val : Nat
  le : val ≤ intMax

def Counter.zero : Counter := ⟨0, by decide⟩

/-- `n++`. Past `INT_MAX` it is undefined. -/
def Counter.incr (n : Counter) : Option Counter :=
  if h : n.val + 1 ≤ intMax then some ⟨n.val + 1, h⟩ else none

structure Counts where
  regCount : Counter
  dirCount : Counter
  charCount : Counter
  blockCount : Counter
  fifoCount : Counter
  symlCount : Counter
  socCount : Counter
  otherCount : Counter
  totalCount : Counter

def Counts.zero : Counts :=
  ⟨.zero, .zero, .zero, .zero, .zero, .zero, .zero, .zero, .zero⟩

/-- The chain of tests on the mode. -/
def classify (mode : Mode) (c : Counts) : Option Counts :=
  if isReg mode then do return { c with regCount := ← c.regCount.incr }
  else if isDir mode then do return { c with dirCount := ← c.dirCount.incr }
  else if isChr mode then do return { c with charCount := ← c.charCount.incr }
  else if isBlk mode then do return { c with blockCount := ← c.blockCount.incr }
  else if isFifo mode then do return { c with fifoCount := ← c.fifoCount.incr }
  else if isLnk mode then do return { c with symlCount := ← c.symlCount.incr }
  else if isSock mode then do return { c with socCount := ← c.socCount.incr }
  else do return { c with otherCount := ← c.otherCount.incr }

/-! ## The loop -/

structure State where
  counts : Counts
  stderr : Str

def State.start : State := ⟨.zero, []⟩

/-- The message after a failed `stat`, and after a failed `lstat`. -/
def notForStat (sys : System) (e : Entry) : Except Errno Mode → Str
  | .error errno =>
      "not for stat ".toList ++ e.dName ++ ": ".toList ++ sys.strerror errno ++ "\n".toList
  | .ok _ => []

/-- One round of the `while`. The mode that `stat` stores is not used: `lstat` stores
another one, or the entry is left at the `continue`. -/
def body (sys : System) (s : State) (e : Entry) : Option State := do
  let counts : Counts := { s.counts with totalCount := ← s.counts.totalCount.incr }
  let stderr := s.stderr ++ notForStat sys e e.stat ++ notForStat sys e e.lstat
  match e.lstat with
  | .error _ => return ⟨counts, stderr⟩
  | .ok mode => return ⟨← classify mode counts, stderr⟩

def loop (sys : System) : List Entry → State → Option State
  | [], s => some s
  | e :: es, s => do loop sys es (← body sys s e)

/-! ## The report -/

/-- What is printed: the counts with their labels, and the total. -/
structure Report where
  directory : Str
  categories : List (Str × Counter)
  processed : Counter

def report (directory : Str) (c : Counts) : Report where
  directory := directory
  categories :=
    [("Regular File".toList, c.regCount),
      ("Directory".toList, c.dirCount),
      ("Character Special".toList, c.charCount),
      ("Block Special".toList, c.blockCount),
      ("Symbolick Link".toList, c.symlCount),
      ("Socket".toList, c.socCount),
      ("Other Files".toList, c.otherCount)]
  processed := c.totalCount

/-- `" Total Count of ...: %d\n"`. -/
def countLine (label : Str) (n : Counter) : Str :=
  " Total Count of ".toList ++ label ++ ": ".toList ++ n.val.repr.toList ++ "\n".toList

example : countLine "Directory".toList ⟨183, by decide⟩ =
    " Total Count of Directory: 183\n".toList := by decide

/-- The text on `stdout`. -/
def Report.text (r : Report) : Str :=
  " Reading the directory: ".toList ++ r.directory ++ "\n".toList ++
    r.categories.flatMap (fun line => countLine line.1 line.2) ++
    countLine "Directory Entries Processed".toList r.processed

/-! ## The program -/

/-- How the program ends; `report` is what it has printed, if anything. -/
structure Finished where
  status : Nat
  report : Option Report
  stderr : Str

/-- `main`; `none` where it is undefined. -/
def main (sys : System) : List Str → Option Finished
  | [] => none
  | [_, dir] =>
      match sys.opendir dir with
      | .error errno => some ⟨1, none, "can't open '".toList ++ dir ++ "': ".toList ++
          sys.strerror errno ++ "\n".toList⟩
      | .ok entries =>
          match sys.chdir dir with
          | .error errno => some ⟨1, none, "can't chdir to '".toList ++ dir ++ "': ".toList ++
              sys.strerror errno ++ "\n".toList⟩
          | .ok _ => do
              let s ← loop sys entries .start
              return ⟨0, some (report dir s.counts), s.stderr⟩
  | program :: _ => some ⟨1, none, "usage: ".toList ++ program ++ " dir_name\n".toList⟩

end UnixSys.Listing

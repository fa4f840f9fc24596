import UnixSys.Db.Calls
import UnixSys.Lib.Decimal

/-!
# Source — `apue.3e/db/db.c`

The functions of the database library. A `DB` holds what the library keeps between its
calls; of a buffer it holds the string in it, which ends before the first null byte. An
index record is a chain pointer, a length, and the record itself, which is the key, the
offset and the length of the data record, with separators between them and a newline at the
end.
-/

namespace UnixSys.Db

/-! ## Constants -/

def idxlenSz : Nat := 4
def sep : Byte := ':'
def space : Byte := ' '
def newline : Byte := '\n'
def ptrSz : Nat := 7
def ptrMax : Int := 9999999
def nhashDef : Nat := 137
def freeOff : Int := 0
def hashOff : Int := ptrSz

def idxlenMin : Nat := 6
def idxlenMax : Nat := 1024
def datlenMin : Nat := 2
def datlenMax : Nat := 1024

/-! The flags of `db_store`. -/

def Flag.dbInsert : Int := 1
def Flag.dbReplace : Int := 2
def Flag.dbStore : Int := 3

/-! ## Numbers and strings of C -/

/-- `int`. -/
def intMax : Int := 2147483647

/-- The bytes up to the first null byte. -/
def cstr (s : Str) : Str := s.takeWhile (· ≠ NUL)

/-- A `long` as a `size_t`. -/
def sizeT (n : Int) : Nat := (n % 18446744073709551616).toNat

/-- A `char`, which has a sign. -/
def schar (c : Byte) : Int := (c.toNat : Int).bmod 256

/-- `strchr(s, c)`: the parts before and behind the first `c`. -/
def strchr (s : Str) (c : Byte) : Option (Str × Str) :=
  if c ∈ s then some (s.takeWhile (· ≠ c), (s.dropWhile (· ≠ c)).tail) else none

/-! ## The private representation -/

abbrev DBHASH := BitVec 64

abbrev COUNT := BitVec 64

structure DB where
  idxbuf : Str
  datbuf : Str
  idxoff : Int
  idxlen : Nat
  datoff : Int
  datlen : Nat
  ptrval : Int
  ptroff : Int
  chainoff : Int
  hashoff : Int
  nhash : Nat
  cntDelok : COUNT
  cntDelerr : COUNT
  cntFetchok : COUNT
  cntFetcherr : COUNT
  cntNextrec : COUNT
  cntStor1 : COUNT
  cntStor2 : COUNT
  cntStor3 : COUNT
  cntStor4 : COUNT
  cntStorerr : COUNT

/-- `_db_alloc`, and the size and the offset of the hash table that `db_open` sets. -/
def dbAlloc : DB where
  idxbuf := []
  datbuf := []
  idxoff := 0
  idxlen := 0
  datoff := 0
  datlen := 0
  ptrval := 0
  ptroff := 0
  chainoff := 0
  hashoff := hashOff
  nhash := nhashDef
  cntDelok := 0
  cntDelerr := 0
  cntFetchok := 0
  cntFetcherr := 0
  cntNextrec := 0
  cntStor1 := 0
  cntStor2 := 0
  cntStor3 := 0
  cntStor4 := 0
  cntStorerr := 0

/-! ## _db_hash -/

/-- The loop of `_db_hash`; `none` where `c * i` or `i++` leaves an `int`. -/
def hashLoop : Str → Int → DBHASH → Option DBHASH
  | [], _, hval => some hval
  | c :: key, i, hval =>
      if -intMax - 1 ≤ schar c * i ∧ schar c * i ≤ intMax ∧ i < intMax then
        hashLoop key (i + 1) (hval + BitVec.ofInt 64 (schar c * i))
      else none

def dbHash (db : DB) (key : Str) : Io Nat :=
  match hashLoop key 1 0 with
  | none => .ub
  | some hval => .ret (hval.toNat % db.nhash)

/-! ## Reading -/

def dbReadptr (offset : Int) : Io Int := do
  errDumpIf ((← lseek .idx offset .set) = -1) "_db_readptr: lseek error to ptr field"
  let asciiptr ← read .idx ptrSz
  errDumpIf (asciiptr.length ≠ ptrSz) "_db_readptr: read error of ptr field"
  pure (atol asciiptr)

/-- The separators of an index record that has been read without its newline: the key, and
the offset and the length of the data record. -/
def splitRecord (idxbuf : Str) : Io (Str × Int × Nat) :=
  match strchr (cstr idxbuf) sep with
  | none => .stop (.dump "_db_readidx: missing first separator")
  | some (key, ptr1) =>
      match strchr ptr1 sep with
      | none => .stop (.dump "_db_readidx: missing second separator")
      | some (ptr1, ptr2) => do
          errDumpIf (sep ∈ ptr2) "_db_readidx: too many separators"
          let datoff := atol ptr1
          errDumpIf (datoff < 0) "_db_readidx: starting offset < 0"
          let datlen := sizeT (atol ptr2)
          errDumpIf (datlen = 0 ∨ datlen > datlenMax) "_db_readidx: invalid length"
          pure (key, datoff, datlen)

/-- What `_db_readidx` does once it has read the chain pointer and the length. -/
def readRecord (db : DB) (asciiptr asciilen : Str) : Io (Int × DB) := do
  let ptrval := atol asciiptr
  let idxlen := sizeT (atol asciilen)
  errDumpIf (idxlen < idxlenMin ∨ idxlen > idxlenMax) "_db_readidx: invalid length"
  let idxbuf ← read .idx idxlen
  errDumpIf (idxbuf.length ≠ idxlen) "_db_readidx: read error of index record"
  errDumpIf (idxbuf[idxlen - 1]? ≠ some newline) "_db_readidx: missing newline"
  let (key, datoff, datlen) ← splitRecord (idxbuf.take (idxlen - 1))
  pure (ptrval, { db with
    ptrval := ptrval, idxlen := idxlen, idxbuf := key, datoff := datoff, datlen := datlen })

/-- What `_db_readidx` does once it has the position. -/
def readHere (db : DB) (offset : Int) : Io (Int × DB) := do
  let head ← read .idx (ptrSz + idxlenSz)
  if head.length ≠ ptrSz + idxlenSz then
    if head.length = 0 ∧ offset = 0 then pure (-1, db)
    else .stop (.dump "_db_readidx: readv error of index record")
  else readRecord db (head.take ptrSz) (head.drop ptrSz)

/-- `_db_readidx(db, offset)`; with `offset` 0 it reads on from where the index file is, and
returns -1 at its end. -/
def dbReadidx (db : DB) (offset : Int) : Io (Int × DB) := do
  let idxoff ← lseek .idx offset (if offset = 0 then .cur else .set)
  errDumpIf (idxoff = -1) "_db_readidx: lseek error"
  readHere { db with idxoff := idxoff } offset

/-- `_db_readdat`; the data is in the buffer of the new `DB`. -/
def dbReaddat (db : DB) : Io DB := do
  errDumpIf ((← lseek .dat db.datoff .set) = -1) "_db_readdat: lseek error"
  let datbuf ← read .dat db.datlen
  errDumpIf (datbuf.length ≠ db.datlen) "_db_readdat: read error"
  errDumpIf (datbuf[db.datlen - 1]? ≠ some newline) "_db_readdat: missing newline"
  pure { db with datbuf := cstr (datbuf.take (db.datlen - 1)) }

/-! ## Writing -/

/-- Where the lock of an append to the index file starts: behind the hash table. -/
def DB.recordsOff (db : DB) : Int := (db.nhash + 1) * ptrSz + 1

def dbWritedat (db : DB) (data : Str) (offset : Int) (whence : Whence) : Io DB := do
  onlyIf (whence = .fin) do
    errDumpIf ((← writewLock .dat 0 0) = false) "_db_writedat: writew_lock error"
  let datoff ← lseek .dat offset whence
  errDumpIf (datoff = -1) "_db_writedat: lseek error"
  let datlen := data.length + 1
  errDumpIf ((← write .dat (data ++ [newline])) ≠ datlen)
    "_db_writedat: writev error of data record"
  onlyIf (whence = .fin) do
    errDumpIf ((← unLock .dat 0 0) = false) "_db_writedat: un_lock error"
  pure { db with datoff := datoff, datlen := datlen }

/-- What `sprintf` puts into the index buffer. -/
def recordText (key : Str) (datoff : Int) (datlen : Nat) : Str :=
  key ++ sep :: signed datoff ++ sep :: decimal datlen ++ [newline]

/-- `_db_writeidx`. When `key` is the index buffer itself, `sprintf` copies it onto
itself. -/
def dbWriteidx (db : DB) (key : Str) (offset : Int) (whence : Whence) (ptrval : Int) :
    Io DB := do
  errQuitIf (ptrval < 0 ∨ ptrval > ptrMax)
    ("_db_writeidx: invalid ptr: " ++ String.ofList (signed ptrval))
  let idxbuf := recordText key db.datoff db.datlen
  let len := idxbuf.length
  if len + 1 > idxlenMax + 2 then .ub  -- `sprintf` writes past the index buffer
  else
    errDumpIf (len < idxlenMin ∨ len > idxlenMax) "_db_writeidx: invalid length"
    let asciiptrlen := padded ptrSz ptrval.toNat ++ padded idxlenSz len
    onlyIf (whence = .fin) do
      errDumpIf ((← writewLock .idx db.recordsOff 0) = false) "_db_writeidx: writew_lock error"
    let idxoff ← lseek .idx offset whence
    errDumpIf (idxoff = -1) "_db_writeidx: lseek error"
    errDumpIf ((← write .idx (asciiptrlen ++ idxbuf)) ≠ ptrSz + idxlenSz + len)
      "_db_writeidx: writev error of index record"
    onlyIf (whence = .fin) do
      errDumpIf ((← unLock .idx db.recordsOff 0) = false) "_db_writeidx: un_lock error"
    pure { db with ptrval := ptrval, idxbuf := idxbuf, idxoff := idxoff }

def dbWriteptr (offset ptrval : Int) : Io Unit := do
  errQuitIf (ptrval < 0 ∨ ptrval > ptrMax)
    ("_db_writeptr: invalid ptr: " ++ String.ofList (signed ptrval))
  let asciiptr := padded ptrSz ptrval.toNat
  errDumpIf ((← lseek .idx offset .set) = -1) "_db_writeptr: lseek error to ptr field"
  errDumpIf ((← write .idx asciiptr) ≠ ptrSz) "_db_writeptr: write error of ptr field"

/-! ## Finding a record -/

/-- How many rounds a loop along a chain can have. Offsets have seven digits: a loop that
goes on for longer meets an offset again. -/
def rounds : Nat := 10000000

/-- `while (offset != 0)` in `_db_find_and_lock`; the offset it ends with. -/
def findLoop (key : Str) : Nat → DB → Int → Io (Int × DB)
  | 0, _, _ => .spin
  | fuel + 1, db, offset =>
      if offset ≠ 0 then do
        let (nextoffset, db) ← dbReadidx db offset
        if db.idxbuf = key then pure (offset, db)
        else findLoop key fuel { db with ptroff := offset } nextoffset
      else pure (offset, db)

/-- `_db_find_and_lock(db, key, writelock) == 0`. -/
def dbFindAndLock (db : DB) (key : Str) (writelock : Bool) : Io (Bool × DB) := do
  let chainoff : Int := (← dbHash db key) * ptrSz + db.hashoff
  let db := { db with chainoff := chainoff, ptroff := chainoff }
  onlyIf writelock do
    errDumpIf ((← writewLock .idx chainoff 1) = false) "_db_find_and_lock: writew_lock error"
  onlyIf (¬ writelock) do
    errDumpIf ((← readwLock .idx chainoff 1) = false) "_db_find_and_lock: readw_lock error"
  let offset ← dbReadptr db.ptroff
  let (offset, db) ← findLoop key rounds db offset
  pure (decide (offset ≠ 0), db)

/-! ## db_fetch -/

def dbFetch (db : DB) (key : Str) : Io (Option Str × DB) := do
  let (found, db) ← dbFindAndLock db key false
  let (ptr, db) ←
    if found then do
      let db ← dbReaddat db
      pure (some db.datbuf, { db with cntFetchok := db.cntFetchok + 1 })
    else pure (none, { db with cntFetcherr := db.cntFetcherr + 1 })
  errDumpIf ((← unLock .idx db.chainoff 1) = false) "db_fetch: un_lock error"
  pure (ptr, db)

/-! ## db_delete -/

def dbDodelete (db : DB) : Io DB := do
  let db := { db with
    datbuf := List.replicate (db.datlen - 1) space
    idxbuf := List.replicate db.idxbuf.length space }
  errDumpIf ((← writewLock .idx freeOff 1) = false) "_db_dodelete: writew_lock error"
  let db ← dbWritedat db db.datbuf db.datoff .set
  let freeptr ← dbReadptr freeOff
  let saveptr := db.ptrval
  let db ← dbWriteidx db db.idxbuf db.idxoff .set freeptr
  dbWriteptr freeOff db.idxoff
  dbWriteptr db.ptroff saveptr
  errDumpIf ((← unLock .idx freeOff 1) = false) "_db_dodelete: un_lock error"
  pure db

def dbDelete (db : DB) (key : Str) : Io (Int × DB) := do
  let (found, db) ← dbFindAndLock db key true
  let (rc, db) ←
    if found then do
      let db ← dbDodelete db
      pure ((0 : Int), { db with cntDelok := db.cntDelok + 1 })
    else pure (-1, { db with cntDelerr := db.cntDelerr + 1 })
  errDumpIf ((← unLock .idx db.chainoff 1) = false) "db_delete: un_lock error"
  pure (rc, db)

/-! ## db_store -/

/-- `while (offset != 0)` in `_db_findfree`; the offset it ends with, and that of the link
to it. -/
def freeLoop (keylen datlen : Nat) : Nat → DB → Int → Int → Io (Int × Int × DB)
  | 0, _, _, _ => .spin
  | fuel + 1, db, saveoffset, offset =>
      if offset ≠ 0 then do
        let (nextoffset, db) ← dbReadidx db offset
        if db.idxbuf.length = keylen ∧ db.datlen = datlen then pure (offset, saveoffset, db)
        else freeLoop keylen datlen fuel db offset nextoffset
      else pure (offset, saveoffset, db)

/-- `_db_findfree(db, keylen, datlen) == 0`. -/
def dbFindfree (db : DB) (keylen datlen : Nat) : Io (Bool × DB) := do
  errDumpIf ((← writewLock .idx freeOff 1) = false) "_db_findfree: writew_lock error"
  let offset ← dbReadptr freeOff
  let (offset, saveoffset, db) ← freeLoop keylen datlen rounds db freeOff offset
  onlyIf (offset ≠ 0) do dbWriteptr saveoffset db.ptrval
  errDumpIf ((← unLock .idx freeOff 1) = false) "_db_findfree: un_lock error"
  pure (decide (offset ≠ 0), db)

/-- A record at the end of the files, and in front of its hash chain. -/
def appendRecord (db : DB) (key data : Str) (ptrval : Int) : Io DB := do
  let db ← dbWritedat db data 0 .fin
  let db ← dbWriteidx db key 0 .fin ptrval
  dbWriteptr db.chainoff db.idxoff
  pure db

/-- A record in a slot of the free list, and in front of its hash chain. -/
def reuseRecord (db : DB) (key data : Str) (ptrval : Int) : Io DB := do
  let db ← dbWritedat db data db.datoff .set
  let db ← dbWriteidx db key db.idxoff .set ptrval
  dbWriteptr db.chainoff db.idxoff
  pure db

/-- `db_store` when there is no record of the key. -/
def storeNew (db : DB) (key data : Str) (flag : Int) : Io (Int × DB) := do
  if flag = Flag.dbReplace then
    setErrno .enoent
    pure (-1, { db with cntStorerr := db.cntStorerr + 1 })
  else
    let ptrval ← dbReadptr db.chainoff
    let (found, db) ← dbFindfree db key.length (data.length + 1)
    if found = false then
      let db ← appendRecord db key data ptrval
      pure (0, { db with cntStor1 := db.cntStor1 + 1 })
    else
      let db ← reuseRecord db key data ptrval
      pure (0, { db with cntStor2 := db.cntStor2 + 1 })

/-- `db_store` when there is a record of the key. -/
def storeOld (db : DB) (key data : Str) (flag : Int) : Io (Int × DB) := do
  if flag = Flag.dbInsert then
    pure (1, { db with cntStorerr := db.cntStorerr + 1 })
  else if data.length + 1 ≠ db.datlen then
    let db ← dbDodelete db
    let ptrval ← dbReadptr db.chainoff
    let db ← appendRecord db key data ptrval
    pure (0, { db with cntStor3 := db.cntStor3 + 1 })
  else
    let db ← dbWritedat db data db.datoff .set
    pure (0, { db with cntStor4 := db.cntStor4 + 1 })

def dbStore (db : DB) (key data : Str) (flag : Int) : Io (Int × DB) := do
  if flag ≠ Flag.dbInsert ∧ flag ≠ Flag.dbReplace ∧ flag ≠ Flag.dbStore then
    setErrno .einval
    pure (-1, db)
  else
    errDumpIf (data.length + 1 < datlenMin ∨ data.length + 1 > datlenMax)
      "db_store: invalid data length"
    let (found, db) ← dbFindAndLock db key true
    let (rc, db) ← (if found then storeOld db key data flag else storeNew db key data flag)
    errDumpIf ((← unLock .idx db.chainoff 1) = false) "db_store: un_lock error"
    pure (rc, db)

/-! ## db_rewind, db_nextrec -/

def dbRewind (db : DB) : Io DB := do
  let offset : Int := (db.nhash + 1) * ptrSz
  let idxoff ← lseek .idx (offset + 1) .set
  errDumpIf (idxoff = -1) "db_rewind: lseek error"
  pure { db with idxoff := idxoff }

/-- The loop of `db_nextrec`; whether it has come to a record. -/
def nextLoop : Nat → DB → Io (Bool × DB)
  | 0, _ => .spin
  | fuel + 1, db => do
      let (next, db) ← dbReadidx db 0
      if next < 0 then pure (false, db)
      else if db.idxbuf.all (· = space) then nextLoop fuel db
      else pure (true, db)

/-- `db_nextrec`: the key and the data of the next record. -/
def dbNextrec (db : DB) : Io (Option (Str × Str) × DB) := do
  errDumpIf ((← readwLock .idx freeOff 1) = false) "db_nextrec: readw_lock error"
  let (found, db) ← nextLoop rounds db
  let (ptr, db) ←
    if found then do
      let key := db.idxbuf
      let db ← dbReaddat db
      pure (some (key, db.datbuf), { db with cntNextrec := db.cntNextrec + 1 })
    else pure (none, db)
  errDumpIf ((← unLock .idx freeOff 1) = false) "db_nextrec: un_lock error"
  pure (ptr, db)

/-! ## db_open, db_close -/

/-- The free list pointer and the hash table of a new index file. -/
def emptyIdx : Str := (List.replicate (nhashDef + 1) (padded ptrSz 0)).flatten ++ [newline]

def dbClose : Io Unit := do
  close .idx
  close .dat

/-- The initialization of an index file that has been created. -/
def initIdx : Io Unit := do
  errDumpIf ((← writewLock .idx 0 0) = false) "db_open: writew_lock error"
  match ← fstat .idx with
  | none => .stop (.sys "db_open: fstat error")
  | some size =>
      onlyIf (size = 0) do
        errDumpIf ((← write .idx emptyIdx) ≠ emptyIdx.length)
          "db_open: index file init write error"
      errDumpIf ((← unLock .idx 0 0) = false) "db_open: un_lock error"

/-- `db_open(pathname, oflag, mode)`, with two of the flags; `none` is NULL. -/
def dbOpen (creat trunc : Bool) : Io (Option DB) := do
  let idx ← openFile .idx creat trunc
  let dat ← openFile .dat creat trunc
  if idx = false ∨ dat = false then
    onlyIf idx do close .idx
    onlyIf dat do close .dat
    pure none
  else
    onlyIf (creat ∧ trunc) do initIdx
    let db ← dbRewind dbAlloc
    pure (some db)

end UnixSys.Db

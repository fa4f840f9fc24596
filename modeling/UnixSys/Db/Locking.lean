import UnixSys.Db.Session
import UnixSys.Lib.LockOrder

/-!
# Locking — the order in which the library takes its locks

An operation takes the lock of a hash chain first and then, for a while, that of the free list
or of the end of a file; at the end it has given them all back. This holds whatever the files
contain, and so also while other processes write them.
-/

namespace UnixSys.Db

/-! ## The locks of the library -/

/-- Whether two processes cannot have both locks. -/
def Lock.conflicts (l l' : Lock) : Prop :=
  l.file = l'.file ∧ (l.kind = .write ∨ l'.kind = .write) ∧
    (l'.len = 0 ∨ l.start < l'.start + l'.len) ∧ (l.len = 0 ∨ l'.start < l.start + l.len)

instance (l l' : Lock) : Decidable (l.conflicts l') :=
  inferInstanceAs (Decidable (_ ∧ _))

/-- The locks that the library asks for. -/
inductive Lock.Known : Lock → Prop where
  | chain (kind : LockKind) (h : Nat) (hlt : h < nhashDef) : Known (chainLock kind h)
  | free (kind : LockKind) : Known (freeLock kind)
  | idxEnd : Known ⟨.idx, .write, headerSize, 0⟩
  | datEnd : Known ⟨.dat, .write, 0, 0⟩
  | all : Known ⟨.idx, .write, 0, 0⟩

/-- The ranks of a lock: 0 for a hash chain, 1 for the free list and the ends of the files. That
of the whole index file is taken first, and no lock is taken after it. -/
def Lock.low (l : Lock) : Nat :=
  if l.file = .idx ∧ (l.start = 0 ∧ l.len = 0 ∨ 0 < l.start ∧ l.len = 1) then 0 else 1

def Lock.high (l : Lock) : Nat :=
  if l.file = .idx ∧ l.start = 0 ∧ l.len = 0 then 2 else l.low

theorem low_le_one (l : Lock) : l.low ≤ 1 := by
  rw [Lock.low]
  split <;> decide

theorem low_chainLock (kind : LockKind) (h : Nat) : (chainLock kind h).low = 0 := by
  rw [Lock.low, if_pos]
  refine ⟨rfl, .inr ⟨?_, rfl⟩⟩
  simp only [chainLock, ptrSz]
  omega

/-- A lock that is in the way of another has a high rank that is not below its low rank. -/
theorem low_le_high {l h : Lock} (hl : l.Known) (hh : h.Known) (hc : l.conflicts h) :
    l.low ≤ h.high := by
  cases hh with
  | free kind => exact Nat.le_trans (low_le_one l) (by cases kind <;> decide)
  | idxEnd => exact Nat.le_trans (low_le_one l) (by decide)
  | datEnd => exact Nat.le_trans (low_le_one l) (by decide)
  | all => exact Nat.le_trans (low_le_one l) (by decide)
  | chain kind h hlt =>
      obtain ⟨hfile, -, hbefore, hbehind⟩ := hc
      cases hl with
      | chain kind' h' hlt' => rw [low_chainLock]; exact Nat.zero_le _
      | all => exact Nat.zero_le _
      | free kind' =>
          simp only [chainLock, freeLock, freeOff, ptrSz] at hbehind
          omega
      | idxEnd =>
          simp only [chainLock, headerSize, nhashDef, ptrSz] at hbefore hlt
          omega
      | datEnd => cases hfile

/-! ## Programs that keep the order -/

/-- The locks of a process after a call. -/
def Call.locksAfter : (c : Call) → c.Res → List Lock → List Lock
  | .lock l, true, held => l :: held
  | .unlock f start len, true, held =>
      held.filter fun l => ¬ (l.file = f ∧ l.start = start ∧ l.len = len)
  | .close f, _, held => held.filter fun l => l.file ≠ f
  | _, _, held => held

/-- One of the locks is for writing. -/
def Writes (held : List Lock) : Prop := ∃ l ∈ held, l.kind = .write

theorem Writes.ne_nil {held : List Lock} (h : Writes held) : held ≠ [] := by
  obtain ⟨l, hl, -⟩ := h
  exact List.ne_nil_of_mem hl

theorem Writes.cons {held : List Lock} (h : Writes held) (l : Lock) : Writes (l :: held) := by
  obtain ⟨l', hl', hkind⟩ := h
  exact ⟨l', List.mem_cons_of_mem l hl', hkind⟩

theorem writes_cons {l : Lock} (h : l.kind = .write) (held : List Lock) : Writes (l :: held) :=
  ⟨l, List.mem_cons_self, h⟩

/-- A lock is asked for after those of lower ranks. A process reads with a lock, and writes with
a lock for writing. -/
def Call.InOrder : Call → List Lock → Prop
  | .lock l, held => l.Known ∧ ∀ h ∈ held, h.high < l.low
  | .read _ _, held => held ≠ []
  | .write _ _, held => Writes held
  | _, _ => True

/-- Whatever the files contain, a program takes and uses its locks in this way, and a result is
as `Q` says. -/
abbrev Io.Ordered {α : Type} (p : Io α) (Q : α → List Lock → Prop) (held : List Lock) : Prop :=
  p.always Call.InOrder Call.locksAfter Q held

section
variable {α : Type} {Q : α → List Lock → Prop} {held : List Lock} {f : File}

@[simp] theorem ordered_ret {a : α} : Io.Ordered (.ret a) Q held ↔ Q a held := Iff.rfl

@[simp] theorem ordered_stop {s : Stop} : Io.Ordered (.stop s : Io α) Q held ↔ True := Iff.rfl

@[simp] theorem ordered_ub : Io.Ordered (.ub : Io α) Q held ↔ True := Iff.rfl

@[simp] theorem ordered_spin : Io.Ordered (.spin : Io α) Q held ↔ True := Iff.rfl

@[simp] theorem ordered_bind {β : Type} {p : Io β} {k : β → Io α} :
    Io.Ordered (p >>= k) Q held ↔ p.Ordered (fun a held' => (k a).Ordered Q held') held :=
  CallTree.always_bind

@[simp] theorem ordered_lseek {off : Int} {whence : Whence} {Q : Int → List Lock → Prop} :
    (lseek f off whence).Ordered Q held ↔ ∀ r, Q r held := iff_of_eq (true_and _)

@[simp] theorem ordered_read {n : Nat} {Q : Str → List Lock → Prop} :
    (read f n).Ordered Q held ↔ held ≠ [] ∧ ∀ r, Q r held := Iff.rfl

@[simp] theorem ordered_write {bytes : Str} {Q : Nat → List Lock → Prop} :
    (write f bytes).Ordered Q held ↔ Writes held ∧ ∀ r, Q r held := Iff.rfl

@[simp] theorem ordered_fstat {Q : Option Nat → List Lock → Prop} :
    (fstat f).Ordered Q held ↔ ∀ r, Q r held := iff_of_eq (true_and _)

@[simp] theorem ordered_openFile {creat trunc : Bool} {Q : Bool → List Lock → Prop} :
    (openFile f creat trunc).Ordered Q held ↔ ∀ r, Q r held := iff_of_eq (true_and _)

@[simp] theorem ordered_setErrno {e : Errno} {Q : Unit → List Lock → Prop} :
    (setErrno e).Ordered Q held ↔ ∀ r, Q r held := iff_of_eq (true_and _)

@[simp] theorem ordered_errDumpIf {p : Prop} [Decidable p] {message : String}
    {Q : Unit → List Lock → Prop} :
    (errDumpIf p message).Ordered Q held ↔ (¬ p → Q () held) := by
  rw [errDumpIf]
  split <;> simp_all

@[simp] theorem ordered_errQuitIf {p : Prop} [Decidable p] {message : String}
    {Q : Unit → List Lock → Prop} :
    (errQuitIf p message).Ordered Q held ↔ (¬ p → Q () held) := by
  rw [errQuitIf]
  split <;> simp_all

theorem ordered_onlyIf_of {p : Prop} [Decidable p] (h : p) {body : Io Unit}
    {Q : Unit → List Lock → Prop} :
    (onlyIf p body).Ordered Q held ↔ body.Ordered Q held := by
  rw [onlyIf, if_pos h]

theorem ordered_onlyIf_of_not {p : Prop} [Decidable p] (h : ¬ p) {body : Io Unit}
    {Q : Unit → List Lock → Prop} : (onlyIf p body).Ordered Q held ↔ Q () held := by
  rw [onlyIf, if_neg h, ordered_ret]

/-- A lock is taken: the program does not go on without it. -/
theorem ordered_lock {l : Lock} {R : List Lock → Prop} (hl : l.Known)
    (hheld : ∀ h ∈ held, h.high < l.low) (hR : R (l :: held)) :
    Io.Ordered (.call (.lock l) .ret) (fun ok held' => ¬ ok = false → R held') held := by
  refine ⟨⟨hl, hheld⟩, fun ok => ?_⟩
  cases ok with
  | false => exact fun hok => absurd rfl hok
  | true => exact fun _ => hR

/-- A lock is given back. -/
theorem ordered_unlock {start : Int} {len : Nat} {R : List Lock → Prop}
    (hR : R (held.filter fun h => ¬ (h.file = f ∧ h.start = start ∧ h.len = len))) :
    (unLock f start len).Ordered (fun ok held' => ¬ ok = false → R held') held := by
  refine ⟨trivial, fun ok => ?_⟩
  cases ok with
  | false => exact fun hok => absurd rfl hok
  | true => exact fun _ => hR

/-- The lock of the free list or of an end of a file is taken, besides those of hash
chains. -/
theorem ordered_lock_leaf {l : Lock} {R : List Lock → Prop} (hl : l.Known) (hlow : l.low = 1)
    (hheld : OnChains held) (hR : R (l :: held)) :
    Io.Ordered (.call (.lock l) .ret) (fun ok held' => ¬ ok = false → R held') held := by
  refine ordered_lock hl (fun h hh => ?_) hR
  obtain ⟨hfile, hstart, hlen⟩ := hheld h hh
  rw [hlow, Lock.high, if_neg, Lock.low, if_pos ⟨hfile, .inr ⟨hstart, hlen⟩⟩]
  · decide
  · rintro ⟨-, hzero, -⟩
    omega

/-- And given back. -/
theorem ordered_unlock_leaf {l : Lock} {R : List Lock → Prop} (hl : l.start = 0 ∨ l.len = 0)
    (hheld : OnChains held) (hR : R held) :
    (unLock l.file l.start l.len).Ordered (fun ok held' => ¬ ok = false → R held')
      (l :: held) := by
  refine ordered_unlock ?_
  rwa [filter_unlock hheld hl]

/-! ## The functions without locks of their own -/

theorem dbReadptr_ordered {offset : Int} {Q : Int → List Lock → Prop} (hread : held ≠ [])
    (h : ∀ r, Q r held) :
    (dbReadptr offset).Ordered Q held := by
  simp only [dbReadptr, ordered_bind, ordered_lseek, ordered_errDumpIf, ordered_read,
    CallTree.pure_eq, ordered_ret]
  exact fun _ _ => ⟨hread, fun _ _ => h _⟩

theorem dbWriteptr_ordered {offset ptrval : Int} {Q : Unit → List Lock → Prop}
    (hwrite : Writes held) (h : Q () held) :
    (dbWriteptr offset ptrval).Ordered Q held := by
  simp only [dbWriteptr, ordered_bind, ordered_lseek, ordered_errDumpIf, ordered_errQuitIf,
    ordered_write]
  exact fun _ _ _ => ⟨hwrite, fun _ _ => h⟩

theorem splitRecord_ordered {idxbuf : Str} {Q : Str × Int × Nat → List Lock → Prop}
    (h : ∀ r, Q r held) : (splitRecord idxbuf).Ordered Q held := by
  rw [splitRecord]
  split
  · trivial
  · split
    · trivial
    · simp only [ordered_bind, ordered_errDumpIf, CallTree.pure_eq, ordered_ret]
      exact fun _ _ _ => h _

theorem readRecord_ordered {db : DB} {asciiptr asciilen : Str} {Q : Int × DB → List Lock → Prop}
    (hread : held ≠ []) (h : ∀ r, db.Keeps r.2 → Q r held) :
    (readRecord db asciiptr asciilen).Ordered Q held := by
  simp only [readRecord, ordered_bind, ordered_errDumpIf, ordered_read]
  intro _
  refine ⟨hread, fun _ _ _ => splitRecord_ordered fun r => ?_⟩
  exact h _ ⟨rfl, rfl, rfl⟩

theorem dbReadidx_ordered {db : DB} {offset : Int} {Q : Int × DB → List Lock → Prop}
    (hread : held ≠ []) (h : ∀ r, db.Keeps r.2 → Q r held) : (dbReadidx db offset).Ordered Q held := by
  simp only [dbReadidx, readHere, ordered_bind, ordered_errDumpIf, ordered_lseek, ordered_read]
  intro r _
  refine ⟨hread, fun head => ?_⟩
  split
  · split
    · exact h _ ⟨rfl, rfl, rfl⟩
    · trivial
  · exact readRecord_ordered hread fun r hr => h r ⟨hr.chainoff, hr.hashoff, hr.nhash⟩

theorem dbReaddat_ordered {db : DB} {Q : DB → List Lock → Prop} (hread : held ≠ [])
    (h : ∀ db', db.Keeps db' → Q db' held) : (dbReaddat db).Ordered Q held := by
  simp only [dbReaddat, ordered_bind, ordered_errDumpIf, ordered_lseek, ordered_read,
    CallTree.pure_eq, ordered_ret]
  exact fun _ _ => ⟨hread, fun _ _ _ => h _ ⟨rfl, rfl, rfl⟩⟩

theorem dbRewind_ordered {db : DB} {Q : DB → List Lock → Prop}
    (h : ∀ db', db.Keeps db' → Q db' held) : (dbRewind db).Ordered Q held := by
  simp only [dbRewind, ordered_bind, ordered_errDumpIf, ordered_lseek, CallTree.pure_eq,
    ordered_ret]
  exact fun _ _ => h _ ⟨rfl, rfl, rfl⟩

theorem findLoop_ordered {key : Str} {fuel : Nat} {db : DB} {offset : Int}
    {Q : Int × DB → List Lock → Prop} (hread : held ≠ [])
    (h : ∀ r, db.Keeps r.2 → Q r held) : (findLoop key fuel db offset).Ordered Q held := by
  induction fuel generalizing db offset with
  | zero => trivial
  | succ fuel ih =>
      rw [findLoop]
      split
      · refine ordered_bind.mpr (dbReadidx_ordered hread ?_)
        rintro ⟨nextoffset, db₁⟩ hr
        dsimp only at hr ⊢
        split
        · exact h _ hr
        · exact ih fun r' hr' => h r' (hr.trans ⟨hr'.chainoff, hr'.hashoff, hr'.nhash⟩)
      · exact h _ (.refl db)

theorem freeLoop_ordered {keylen datlen fuel : Nat} {db : DB} {saveoffset offset : Int}
    {Q : Int × Int × DB → List Lock → Prop} (hread : held ≠ [])
    (h : ∀ r, db.Keeps r.2.2 → Q r held) :
    (freeLoop keylen datlen fuel db saveoffset offset).Ordered Q held := by
  induction fuel generalizing db saveoffset offset with
  | zero => trivial
  | succ fuel ih =>
      rw [freeLoop]
      split
      · refine ordered_bind.mpr (dbReadidx_ordered hread ?_)
        rintro ⟨nextoffset, db₁⟩ hr
        dsimp only at hr ⊢
        split
        · exact h _ hr
        · exact ih fun r' hr' => h r' (hr.trans hr')
      · exact h _ (.refl db)

theorem nextLoop_ordered {fuel : Nat} {db : DB} {Q : Bool × DB → List Lock → Prop}
    (hread : held ≠ []) (h : ∀ r, db.Keeps r.2 → Q r held) : (nextLoop fuel db).Ordered Q held := by
  induction fuel generalizing db with
  | zero => trivial
  | succ fuel ih =>
      rw [nextLoop]
      refine ordered_bind.mpr (dbReadidx_ordered hread ?_)
      rintro ⟨next, db₁⟩ hr
      dsimp only at hr ⊢
      split
      · exact h _ hr
      · split
        · exact ih fun r' hr' => h r' (hr.trans hr')
        · exact h _ hr

/-! ## The functions that take locks for a while -/

theorem dbWritedat_ordered {db : DB} {data : Str} {offset : Int} {whence : Whence}
    {Q : DB → List Lock → Prop} (hwrite : Writes held) (hheld : whence = .fin → OnChains held)
    (h : ∀ db', db.Keeps db' → Q db' held) :
    (dbWritedat db data offset whence).Ordered Q held := by
  by_cases hfin : whence = .fin
  · simp only [dbWritedat, onlyIf, if_pos hfin, ordered_bind, ordered_errDumpIf, ordered_lseek,
      ordered_write, CallTree.pure_eq, ordered_ret]
    refine ordered_lock_leaf .datEnd (by decide) (hheld hfin) ?_
    intro _ _
    refine ⟨hwrite.cons _, fun _ _ => ?_⟩
    exact ordered_unlock_leaf (l := ⟨.dat, .write, 0, 0⟩) (.inl rfl) (hheld hfin)
      (h _ ⟨rfl, rfl, rfl⟩)
  · simp only [dbWritedat, onlyIf, if_neg hfin, ordered_bind, ordered_errDumpIf, ordered_lseek,
      ordered_write, CallTree.pure_eq, ordered_ret]
    exact fun _ _ => ⟨hwrite, fun _ _ => h _ ⟨rfl, rfl, rfl⟩⟩

theorem dbWriteidx_ordered {db : DB} {key : Str} {offset : Int} {whence : Whence} {ptrval : Int}
    {Q : DB → List Lock → Prop} (hdb : db.Opened) (hwrite : Writes held)
    (hheld : whence = .fin → OnChains held) (h : ∀ db', db.Keeps db' → Q db' held) :
    (dbWriteidx db key offset whence ptrval).Ordered Q held := by
  have hoff : db.recordsOff = headerSize := by
    rw [DB.recordsOff, hdb.nhash]
    rfl
  simp only [dbWriteidx, ordered_bind, ordered_errQuitIf]
  intro _
  split
  · trivial
  · simp only [ordered_bind, ordered_errDumpIf]
    intro _
    by_cases hfin : whence = .fin
    · simp only [onlyIf, if_pos hfin, ordered_bind, ordered_errDumpIf, ordered_lseek,
        ordered_write, CallTree.pure_eq, ordered_ret, hoff]
      refine ordered_lock_leaf .idxEnd (by decide) (hheld hfin) ?_
      intro _ _
      refine ⟨hwrite.cons _, fun _ _ => ?_⟩
      exact ordered_unlock_leaf (l := ⟨.idx, .write, headerSize, 0⟩) (.inr rfl) (hheld hfin)
        (h _ ⟨rfl, rfl, rfl⟩)
    · simp only [onlyIf, if_neg hfin, ordered_lseek, ordered_write, CallTree.pure_eq, ordered_ret]
      exact fun _ _ => ⟨hwrite, fun _ _ => h _ ⟨rfl, rfl, rfl⟩⟩

theorem low_freeLock (kind : LockKind) : (freeLock kind).low = 1 := by
  cases kind <;> rfl

theorem dbDodelete_ordered {db : DB} {Q : DB → List Lock → Prop} (hdb : db.Opened)
    (hheld : OnChains held) (h : ∀ db', db.Keeps db' → Q db' held) :
    (dbDodelete db).Ordered Q held := by
  have hset : Whence.set = .fin → OnChains (freeLock .write :: held) := fun h => by cases h
  simp only [dbDodelete, ordered_bind, ordered_errDumpIf, CallTree.pure_eq, ordered_ret]
  refine ordered_lock_leaf (.free .write) (low_freeLock _) hheld ?_
  have hwrite : Writes (freeLock .write :: held) := writes_cons rfl held
  refine dbWritedat_ordered hwrite hset fun db₁ hk₁ => dbReadptr_ordered hwrite.ne_nil fun _ => ?_
  have hkeeps : db.Keeps db₁ := ⟨hk₁.chainoff, hk₁.hashoff, hk₁.nhash⟩
  refine dbWriteidx_ordered (hkeeps.opened hdb) hwrite hset fun db₂ hk₂ => ?_
  refine dbWriteptr_ordered hwrite (dbWriteptr_ordered hwrite ?_)
  exact ordered_unlock_leaf (l := freeLock .write) (.inl rfl) hheld (h db₂ (hkeeps.trans hk₂))

/-- `_db_find_and_lock` takes the lock of the chain of the key. -/
theorem dbFindAndLock_ordered {db : DB} {key : Str} {writelock : Bool}
    {Q : Bool × DB → List Lock → Prop} (hdb : db.Opened)
    (h : ∀ r k l, k < nhashDef → r.2.Opened → l = chainLock (lockKind writelock) k →
      r.2.chainoff = l.start → Q r [l]) :
    (dbFindAndLock db key writelock).Ordered Q [] := by
  rw [dbFindAndLock, ordered_bind, dbHash]
  split
  · trivial
  · next hval _ =>
      have hlt : hval.toNat % db.nhash < nhashDef := by
        rw [hdb.nhash]
        exact Nat.mod_lt _ (by decide)
      obtain ⟨k, hk⟩ : ∃ k, k = hval.toNat % db.nhash := ⟨_, rfl⟩
      rw [← hk] at hlt ⊢
      have hoff : ((k : Nat) : Int) * ptrSz + db.hashoff = ((k + 1) * ptrSz : Nat) := by
        rw [hdb.hashoff, hashOff]
        push_cast
        rw [Int.add_mul, Int.one_mul]
      simp only [ordered_bind, ordered_ret, CallTree.pure_eq, hoff]
      -- once the lock is taken, the search leaves it as it is
      have hsearch : (dbReadptr ((k + 1) * ptrSz : Nat)).Ordered (fun offset held =>
          (findLoop key rounds { db with
            chainoff := ((k + 1) * ptrSz : Nat), ptroff := ((k + 1) * ptrSz : Nat) } offset).Ordered
            (fun r held => Q (decide (r.1 ≠ 0), r.2) held) held)
          [chainLock (lockKind writelock) k] := by
        have hread := List.cons_ne_nil (chainLock (lockKind writelock) k) []
        refine dbReadptr_ordered hread fun _ => findLoop_ordered hread fun r hr => ?_
        exact h (decide (r.1 ≠ 0), r.2) k _ hlt (hr.opened ⟨hdb.hashoff, hdb.nhash⟩) rfl hr.chainoff
      cases writelock with
      | true =>
          rw [ordered_onlyIf_of rfl, ordered_bind]
          simp only [ordered_errDumpIf]
          refine ordered_lock (.chain .write k hlt) (fun _ hh => absurd hh List.not_mem_nil) ?_
          rw [ordered_onlyIf_of_not (not_not.mpr trivial)]
          exact hsearch
      | false =>
          rw [ordered_onlyIf_of_not Bool.false_ne_true, ordered_onlyIf_of Bool.false_ne_true,
            ordered_bind]
          simp only [ordered_errDumpIf]
          exact ordered_lock (.chain .read k hlt) (fun _ hh => absurd hh List.not_mem_nil) hsearch

theorem dbFindfree_ordered {db : DB} {keylen datlen : Nat} {Q : Bool × DB → List Lock → Prop}
    (hheld : OnChains held) (h : ∀ r, db.Keeps r.2 → Q r held) :
    (dbFindfree db keylen datlen).Ordered Q held := by
  simp only [dbFindfree, ordered_bind, ordered_errDumpIf, CallTree.pure_eq, ordered_ret]
  refine ordered_lock_leaf (.free .write) (low_freeLock _) hheld ?_
  have hwrite : Writes (freeLock .write :: held) := writes_cons rfl held
  refine dbReadptr_ordered hwrite.ne_nil fun _ => freeLoop_ordered hwrite.ne_nil fun r hr => ?_
  have hunlock := ordered_unlock_leaf (l := freeLock .write) (.inl rfl) hheld
    (h (decide (r.1 ≠ 0), r.2.2) hr)
  rw [onlyIf]
  split
  · exact dbWriteptr_ordered hwrite hunlock
  · exact hunlock

theorem appendRecord_ordered {db : DB} {key data : Str} {ptrval : Int}
    {Q : DB → List Lock → Prop} (hdb : db.Opened) (hwrite : Writes held)
    (hheld : OnChains held) (h : ∀ db', db.Keeps db' → Q db' held) :
    (appendRecord db key data ptrval).Ordered Q held := by
  simp only [appendRecord, ordered_bind, CallTree.pure_eq, ordered_ret]
  refine dbWritedat_ordered hwrite (fun _ => hheld) fun db₁ hk₁ => ?_
  refine dbWriteidx_ordered (hk₁.opened hdb) hwrite (fun _ => hheld) fun db₂ hk₂ => ?_
  exact dbWriteptr_ordered hwrite (h db₂ (hk₁.trans hk₂))

theorem reuseRecord_ordered {db : DB} {key data : Str} {ptrval : Int}
    {Q : DB → List Lock → Prop} (hdb : db.Opened) (hwrite : Writes held)
    (hheld : OnChains held) (h : ∀ db', db.Keeps db' → Q db' held) :
    (reuseRecord db key data ptrval).Ordered Q held := by
  simp only [reuseRecord, ordered_bind, CallTree.pure_eq, ordered_ret]
  refine dbWritedat_ordered hwrite (fun _ => hheld) fun db₁ hk₁ => ?_
  refine dbWriteidx_ordered (hk₁.opened hdb) hwrite (fun _ => hheld) fun db₂ hk₂ => ?_
  exact dbWriteptr_ordered hwrite (h db₂ (hk₁.trans hk₂))

theorem storeNew_ordered {db : DB} {key data : Str} {flag : Int} {Q : Int × DB → List Lock → Prop}
    (hdb : db.Opened) (hwrite : Writes held) (hheld : OnChains held)
    (h : ∀ r, db.Keeps r.2 → Q r held) : (storeNew db key data flag).Ordered Q held := by
  rw [storeNew]
  split
  · simp only [ordered_bind, ordered_setErrno, CallTree.pure_eq, ordered_ret]
    exact fun _ => h _ ⟨rfl, rfl, rfl⟩
  · simp only [ordered_bind]
    refine dbReadptr_ordered hwrite.ne_nil fun _ => dbFindfree_ordered hheld ?_
    rintro ⟨found, db₁⟩ hk₁
    dsimp only at hk₁ ⊢
    split
    · refine ordered_bind.mpr (appendRecord_ordered (hk₁.opened hdb) hwrite hheld fun db₂ hk₂ => ?_)
      have hkeeps := hk₁.trans hk₂
      exact h _ ⟨hkeeps.chainoff, hkeeps.hashoff, hkeeps.nhash⟩
    · refine ordered_bind.mpr (reuseRecord_ordered (hk₁.opened hdb) hwrite hheld fun db₂ hk₂ => ?_)
      have hkeeps := hk₁.trans hk₂
      exact h _ ⟨hkeeps.chainoff, hkeeps.hashoff, hkeeps.nhash⟩

theorem storeOld_ordered {db : DB} {key data : Str} {flag : Int} {Q : Int × DB → List Lock → Prop}
    (hdb : db.Opened) (hwrite : Writes held) (hheld : OnChains held)
    (h : ∀ r, db.Keeps r.2 → Q r held) : (storeOld db key data flag).Ordered Q held := by
  rw [storeOld]
  split
  · exact h _ ⟨rfl, rfl, rfl⟩
  · split
    · simp only [ordered_bind]
      refine dbDodelete_ordered hdb hheld fun db₁ hk₁ => dbReadptr_ordered hwrite.ne_nil fun _ => ?_
      refine appendRecord_ordered (hk₁.opened hdb) hwrite hheld fun db₂ hk₂ => ?_
      have hkeeps := hk₁.trans hk₂
      exact h _ ⟨hkeeps.chainoff, hkeeps.hashoff, hkeeps.nhash⟩
    · refine ordered_bind.mpr (dbWritedat_ordered hwrite (fun hset => by cases hset) fun db₁ hk₁ => ?_)
      exact h _ ⟨hk₁.chainoff, hk₁.hashoff, hk₁.nhash⟩

/-! ## The operations -/

/-- The lock of the chain is given back. -/
theorem ordered_unlock_chain {db : DB} {kind : LockKind} {k : Nat} {R : List Lock → Prop}
    (hoff : db.chainoff = (chainLock kind k).start) (hR : R []) :
    (unLock .idx db.chainoff 1).Ordered (fun ok held' => ¬ ok = false → R held')
      [chainLock kind k] := by
  refine ordered_unlock ?_
  have hnone : [chainLock kind k].filter (fun h =>
      ¬ (h.file = .idx ∧ h.start = db.chainoff ∧ h.len = 1)) = [] := by
    rw [hoff]
    simp [chainLock]
  rwa [hnone]

theorem dbFetch_ordered {db : DB} {key : Str} {Q : Option Str × DB → List Lock → Prop}
    (hdb : db.Opened) (h : ∀ r, r.2.Opened → Q r []) : (dbFetch db key).Ordered Q [] := by
  rw [dbFetch, ordered_bind]
  refine dbFindAndLock_ordered hdb ?_
  rintro ⟨found, db₁⟩ k l - hopened rfl hoff
  dsimp only at hopened hoff ⊢
  split
  · refine ordered_bind.mpr (dbReaddat_ordered (List.cons_ne_nil _ _) fun db₂ hk₂ => ?_)
    have hopened₂ := hk₂.opened hopened
    simp only [ordered_bind, ordered_errDumpIf, CallTree.pure_eq, ordered_ret]
    exact ordered_unlock_chain (hk₂.chainoff.trans hoff) (h _ ⟨hopened₂.hashoff, hopened₂.nhash⟩)
  · simp only [ordered_bind, ordered_errDumpIf, CallTree.pure_eq, ordered_ret]
    exact ordered_unlock_chain hoff (h _ ⟨hopened.hashoff, hopened.nhash⟩)

theorem dbDelete_ordered {db : DB} {key : Str} {Q : Int × DB → List Lock → Prop}
    (hdb : db.Opened) (h : ∀ r, r.2.Opened → Q r []) : (dbDelete db key).Ordered Q [] := by
  rw [dbDelete, ordered_bind]
  refine dbFindAndLock_ordered hdb ?_
  rintro ⟨found, db₁⟩ k l - hopened rfl hoff
  dsimp only at hopened hoff ⊢
  split
  · refine ordered_bind.mpr (dbDodelete_ordered hopened (onChains_chainLock _ _) fun db₂ hk₂ => ?_)
    have hopened₂ := hk₂.opened hopened
    simp only [ordered_bind, ordered_errDumpIf, CallTree.pure_eq, ordered_ret]
    exact ordered_unlock_chain (hk₂.chainoff.trans hoff) (h _ ⟨hopened₂.hashoff, hopened₂.nhash⟩)
  · simp only [ordered_bind, ordered_errDumpIf, CallTree.pure_eq, ordered_ret]
    exact ordered_unlock_chain hoff (h _ ⟨hopened.hashoff, hopened.nhash⟩)

theorem dbStore_ordered {db : DB} {key data : Str} {flag : Int} {Q : Int × DB → List Lock → Prop}
    (hdb : db.Opened) (h : ∀ r, r.2.Opened → Q r []) :
    (dbStore db key data flag).Ordered Q [] := by
  rw [dbStore]
  split
  · simp only [ordered_bind, ordered_setErrno, CallTree.pure_eq, ordered_ret]
    exact fun _ => h _ hdb
  · simp only [ordered_bind, ordered_errDumpIf, CallTree.pure_eq, ordered_ret]
    intro _
    refine dbFindAndLock_ordered hdb ?_
    rintro ⟨found, db₁⟩ k l - hopened rfl hoff
    have hunlock : ∀ r : Int × DB, db₁.Keeps r.2 →
        (unLock .idx r.2.chainoff 1).Ordered (fun ok held' => ¬ ok = false → Q (r.1, r.2) held')
          [chainLock (lockKind true) k] :=
      fun r hr => ordered_unlock_chain (hr.chainoff.trans hoff) (h _ (hr.opened hopened))
    dsimp only
    split
    · exact storeOld_ordered hopened (writes_cons rfl []) (onChains_chainLock _ _) hunlock
    · exact storeNew_ordered hopened (writes_cons rfl []) (onChains_chainLock _ _) hunlock

theorem dbNextrec_ordered {db : DB} {Q : Option (Str × Str) × DB → List Lock → Prop}
    (hdb : db.Opened) (h : ∀ r, r.2.Opened → Q r []) : (dbNextrec db).Ordered Q [] := by
  rw [dbNextrec]
  simp only [ordered_bind, ordered_errDumpIf, CallTree.pure_eq]
  refine ordered_lock_leaf (.free .read) (low_freeLock _) onChains_nil ?_
  have hread := List.cons_ne_nil (freeLock .read) []
  refine nextLoop_ordered hread ?_
  rintro ⟨found, db₁⟩ hk₁
  have hunlock : ∀ r : Option (Str × Str) × DB, r.2.Opened →
      (unLock .idx freeOff 1).Ordered (fun ok held' => ¬ ok = false → Q (r.1, r.2) held')
        [freeLock .read] :=
    fun r hr => ordered_unlock_leaf (l := freeLock .read) (.inl rfl) onChains_nil (h _ hr)
  have hopened := hk₁.opened hdb
  dsimp only at hopened ⊢
  split
  · simp only [ordered_bind, ordered_errDumpIf, ordered_ret]
    refine dbReaddat_ordered hread fun db₂ hk₂ => hunlock (_, _) ?_
    have hopened₂ := hk₂.opened hopened
    exact ⟨hopened₂.hashoff, hopened₂.nhash⟩
  · simp only [ordered_bind, ordered_errDumpIf, ordered_ret]
    exact hunlock (none, db₁) hopened

theorem scanLoop_ordered {fuel : Nat} {db : DB} {Q : List (Str × Str) × DB → List Lock → Prop}
    (hdb : db.Opened) (h : ∀ r, r.2.Opened → Q r []) : (scanLoop fuel db).Ordered Q [] := by
  induction fuel generalizing db Q with
  | zero => trivial
  | succ fuel ih =>
      rw [scanLoop, ordered_bind]
      refine dbNextrec_ordered hdb ?_
      rintro ⟨ptr, db₁⟩ hopened
      cases ptr with
      | none => exact h _ hopened
      | some entry =>
          refine ordered_bind.mpr (ih hopened fun r hr => ?_)
          exact h _ hr

theorem scan_ordered {db : DB} {Q : List (Str × Str) × DB → List Lock → Prop}
    (hdb : db.Opened) (h : ∀ r, r.2.Opened → Q r []) : (scan db).Ordered Q [] := by
  rw [scan, ordered_bind]
  exact dbRewind_ordered fun db₁ hk₁ => scanLoop_ordered (hk₁.opened hdb) h

theorem dbClose_ordered {Q : Unit → List Lock → Prop} (h : Q () []) : dbClose.Ordered Q [] :=
  ⟨trivial, fun _ => ⟨trivial, fun _ => h⟩⟩

theorem initIdx_ordered {Q : Unit → List Lock → Prop} (h : Q () []) : initIdx.Ordered Q [] := by
  have hunlock : (unLock .idx 0 0).Ordered (fun ok held' => ¬ ok = false → Q () held')
      [⟨.idx, .write, 0, 0⟩] :=
    ordered_unlock_leaf (l := ⟨.idx, .write, 0, 0⟩) (.inl rfl) onChains_nil h
  simp only [initIdx, ordered_bind, ordered_errDumpIf, ordered_fstat]
  refine ordered_lock .all (fun _ hh => absurd hh List.not_mem_nil) ?_
  intro size
  cases size with
  | none => trivial
  | some size =>
      simp only [ordered_bind, ordered_errDumpIf]
      by_cases hsize : size = 0
      · rw [ordered_onlyIf_of hsize, ordered_bind, ordered_write]
        exact ⟨writes_cons rfl [], fun _ => ordered_errDumpIf.mpr fun _ => hunlock⟩
      · rw [ordered_onlyIf_of_not hsize]
        exact hunlock

theorem dbOpen_ordered {creat trunc : Bool} {Q : Option DB → List Lock → Prop}
    (hnone : Q none []) (hsome : ∀ db, db.Opened → Q (some db) []) :
    (dbOpen creat trunc).Ordered Q [] := by
  simp only [dbOpen, ordered_bind, ordered_openFile]
  intro idx dat
  have hclose : ∀ (p : Prop) [Decidable p] (f : File) {R : Unit → List Lock → Prop}, R () [] →
      (onlyIf p (close f)).Ordered R [] := by
    intro p _ f R hR
    rw [onlyIf]
    split
    · exact ⟨trivial, fun _ => hR⟩
    · exact hR
  split
  · simp only [ordered_bind]
    exact hclose _ _ (hclose _ _ hnone)
  · have hrewind : (dbRewind dbAlloc).Ordered
        (fun db held => Io.Ordered (pure (some db)) Q held) [] :=
      dbRewind_ordered fun db hk => hsome db (hk.opened opened_dbAlloc)
    simp only [ordered_bind]
    by_cases hinit : creat = true ∧ trunc = true
    · rw [ordered_onlyIf_of hinit]
      exact initIdx_ordered hrewind
    · rw [ordered_onlyIf_of_not hinit]
      exact hrewind

theorem perform_ordered {op : Op} {db : DB} {Q : Answer × DB → List Lock → Prop}
    (hdb : db.Opened) (h : ∀ r, r.2.Opened → Q r []) : (op.perform db).Ordered Q [] := by
  cases op with
  | store key data flag => exact ordered_bind.mpr (dbStore_ordered hdb fun r hr => h _ hr)
  | fetch key => exact ordered_bind.mpr (dbFetch_ordered hdb fun r hr => h _ hr)
  | delete key => exact ordered_bind.mpr (dbDelete_ordered hdb fun r hr => h _ hr)
  | scan => exact ordered_bind.mpr (scan_ordered hdb fun r hr => h _ hr)
  | reopen =>
      refine ordered_bind.mpr (dbClose_ordered (ordered_bind.mpr (dbOpen_ordered trivial ?_)))
      exact fun db hdb => h _ hdb

theorem session_ordered {ops : List Op} {db : DB} {Q : List Answer × DB → List Lock → Prop}
    (hdb : db.Opened) (h : ∀ r, r.2.Opened → Q r []) : (session ops db).Ordered Q [] := by
  induction ops generalizing db Q with
  | nil => exact h _ hdb
  | cons op ops ih =>
      refine ordered_bind.mpr (perform_ordered hdb fun r hr => ?_)
      exact ordered_bind.mpr (ih hr fun r' hr' => h _ hr')

end

end UnixSys.Db

import UnixSys.Db.Changes

/-!
# Operations — fetch, delete and store on a layout

Each operation locks the chain of its key, searches it, and changes the layout by one of the
changes. Its contents are then those of a map after the operation, and no lock is left.
-/

namespace UnixSys.Db

/-- The lock of a free list. -/
def freeLock (kind : LockKind) : Lock := ⟨.idx, kind, freeOff, 1⟩

/-- The lock of a hash chain. -/
def chainLock (kind : LockKind) (h : Nat) : Lock := ⟨.idx, kind, ((h + 1) * ptrSz : Nat), 1⟩

theorem onChains_chainLock (kind : LockKind) (h : Nat) : OnChains [chainLock kind h] := by
  intro l hl
  rw [List.mem_singleton.mp hl]
  refine ⟨rfl, ?_, rfl⟩
  simp only [chainLock, ptrSz]
  omega

theorem onChains_nil : OnChains [] := fun _ hl => absurd hl List.not_mem_nil

namespace Layout

variable {L : Layout} {locks : List Lock} {e : Option Errno} {w : World}

theorem has_free : L.Has .free := trivial

/-! ## Locks -/

theorem On.lock (h : L.On locks e w) (l : Lock) : L.On (l :: locks) e (w.lock l) :=
  ⟨h.idx, h.dat, h.present, congrArg (l :: ·) h.locks, h.errno⟩

theorem On.unlock {l : Lock} (h : L.On (l :: locks) e w) (hlocks : OnChains locks)
    (hl : l.start = 0 ∨ l.len = 0) : L.On locks e (w.unlock l.file l.start l.len) :=
  ⟨h.idx, h.dat, h.present, locks_unlock hlocks hl h.locks, h.errno⟩

/-- The only lock is given back. -/
theorem On.unlock_last {l : Lock} (h : L.On [l] e w) :
    L.On [] e (w.unlock l.file l.start l.len) :=
  ⟨h.idx, h.dat, h.present, by rw [World.unlock, h.locks]; simp, h.errno⟩

theorem offset_link (loc : Loc) (p : Option Nat) (loc' : Loc) :
    (L.link loc p).offset loc' = L.offset loc' := by
  cases loc' with
  | free => rfl
  | head k => rfl
  | slot j => exact idxOff_congr (sizes_link loc p) j

theorem offset_write {i : Nat} {s s' : Slot} (hs : L.slots[i]? = some s) (hsize : s'.size = s.size)
    (loc : Loc) : (L.write i s').offset loc = L.offset loc := by
  cases loc with
  | free => rfl
  | head k => rfl
  | slot j => exact idxOff_congr (sizes_write hs hsize) j

theorem write_write (i : Nat) (s s' : Slot) : (L.write i s).write i s' = L.write i s' := by
  simp [Layout.write]

end Layout

open Layout

section
variable {E : Stop → World → Prop} {L : Layout} {locks : List Lock} {e : Option Errno} {w : World}
  {db : DB} {i : Nat} {s : Slot} {prev : Loc}

/-! ## _db_dodelete -/

theorem dbDodelete_wp (hL : L.Ok) (hlocks : OnChains locks) (hs : L.slots[i]? = some s)
    (hw : L.On locks e w) (hdb : db.Reads L i s) (hprev : L.Has prev)
    (hptroff : db.ptroff = L.offset prev) :
    (dbDodelete db).wp Call.apply E
      (fun db' w' => db.Keeps db' ∧ (L.release i s prev).On locks e w') w := by
  have hi : i < L.slots.length := (List.getElem?_eq_some_iff.mp hs).1
  have hok := hL.slot hs
  have hsnext : L.next (.slot i) = s.next := next_slot hs
  obtain ⟨t, ht⟩ : ∃ t : Slot, t = { s with data := (s.blanked none).data } := ⟨_, rfl⟩
  have htsize : t.size = s.size := by
    rw [ht]
    simp [Slot.blanked, Slot.size]
  have htok : t.Ok := by
    have hblank := hok.blanked none
    rw [ht]
    exact ⟨hok.key_ne, hok.key_le, hok.key_sep, hok.key_nul, hblank.data_ne, hblank.data_le,
      hblank.data_nul⟩
  have htnext : t.next = s.next := by rw [ht]
  -- the layout once the data is blank, and once the key is blank too
  have hL₁ : (L.write i t).Ok := hL.write hs htsize htok fun j hj =>
    hL.links (.slot i) j (hsnext.trans (htnext ▸ hj))
  have hL₂ : (L.write i (s.blanked L.free)).Ok :=
    hL.write hs (s.size_blanked _) (hok.blanked _) fun j hj => hL.links .free j hj
  have haddr₁ : (L.write i t).addr = L.addr := addr_write hs htsize
  have haddr₂ : (L.write i (s.blanked L.free)).addr = L.addr := addr_write hs (s.size_blanked _)
  have hdata : List.replicate (db.datlen - 1) space = (s.blanked none).data := by
    rw [hdb.datlen]
    rfl
  rw [dbDodelete]
  simp only [hdata, hdb.idxbuf]
  rw [wp_writewLock, wp_errDumpIf Bool.noConfusion]
  refine (dbWritedat_set_wp hL.fits hs (hw.lock _) ?_ hdb.datoff).bind ?_
  · exact List.length_replicate
  rintro _ w₁ ⟨rfl, hw₁⟩
  rw [← ht] at hw₁
  refine (dbReadptr_wp hL₁.fits has_free hw₁).bind ?_
  rintro _ w₂ ⟨rfl, hw₂⟩
  have hidxoff : ((L.write i t).addr (some i) : Int) = db.idxoff := by rw [haddr₁, hdb.idxoff]
  have hfree : (L.write i t).next .free = L.free := rfl
  rw [hfree, ← hidxoff]
  refine (dbWriteidx_set_wp hL₁ (getElem?_write hi t) hw₂ ?_ (hL₁.fits.le .free) ?_ ?_).bind ?_
  · rw [ht]
    exact List.length_replicate
  · rw [datOff_congr (sizes_write hs htsize)]
    exact hdb.datoff
  · rw [ht]
    exact congrArg (· + 1) List.length_replicate.symm
  rintro db₃ w₃ ⟨hoff₃, hkeeps₃, hptroff₃, hw₃⟩
  have hw₃ : ((L.write i t).write i (s.blanked L.free)).On (freeLock .write :: locks) e w₃ := by
    rw [show s.blanked L.free = { t with
      key := List.replicate s.key.length space, next := L.free } by rw [ht]; rfl]
    exact hw₃
  rw [write_write] at hw₃
  have hi₂ : i < (L.write i (s.blanked L.free)).slots.length := by rwa [length_write]
  have hL₃ := hL₂.link has_free (p := some i) fun j hj =>
    Option.some.inj hj ▸ hi₂
  rw [hoff₃, haddr₁, ← haddr₂]
  refine (dbWriteptr_wp hL₂.fits has_free hw₃ (p := some i)
    (hL₂.offsets i hi₂)).bind fun _ w₄ hw₄ => ?_
  have hprev₃ : ((L.write i (s.blanked L.free)).link .free (some i)).Has prev :=
    (hprev.write i _).link .free _
  have hptr : db₃.ptroff =
      ((L.write i (s.blanked L.free)).link .free (some i)).offset prev := by
    rw [offset_link, offset_write hs (s.size_blanked _), ← hptroff]
    exact hptroff₃
  have haddr₃ : ((L.write i (s.blanked L.free)).link .free (some i)).addr = L.addr := by
    rw [addr_link, haddr₂]
  have hle : (L.addr s.next : Int) ≤ ptrMax := hsnext ▸ hL.fits.le (.slot i)
  rw [hptr, hdb.ptrval, ← haddr₃]
  refine (dbWriteptr_wp hL₃.fits hprev₃ hw₄ (haddr₃ ▸ hle)).bind fun _ w₅ hw₅ => ?_
  rw [wp_unLock, wp_errDumpIf Bool.noConfusion]
  exact ⟨⟨hkeeps₃.chainoff, hkeeps₃.hashoff, hkeeps₃.nhash⟩, hw₅.unlock hlocks (.inl rfl)⟩

/-! ## _db_find_and_lock, _db_findfree -/

/-- A database that has been opened. -/
structure DB.Opened (db : DB) : Prop where
  hashoff : db.hashoff = hashOff
  nhash : db.nhash = nhashDef

theorem DB.Keeps.opened {db db' : DB} (h : db.Keeps db') (hdb : db.Opened) : db'.Opened :=
  ⟨h.hashoff.trans hdb.hashoff, h.nhash.trans hdb.nhash⟩

variable {nodes : Root → List Nat} {tbl : Str → Option Nat} {key : Str}

/-- What `_db_find_and_lock` finds: the record of the key in its chain, or that there is
none. -/
def Layout.Finds (L : Layout) (nodes : Root → List Nat) (tbl : Str → Option Nat) (key : Str)
    (found : Bool) (db : DB) : Prop :=
  (found = true ∧ ∃ i s prev, L.At (Root.chain (hashOf key)).loc (nodes (.chain (hashOf key)))
    i s prev ∧ s.key = key ∧ db.ptroff = L.offset prev ∧ db.Reads L i s) ∨
  (found = false ∧ tbl key = none)

/-- The kind of the lock that `_db_find_and_lock` takes. -/
def lockKind (writelock : Bool) : LockKind := if writelock then .write else .read

variable (L) in
/-- `_db_find_and_lock` takes the lock, and then it searches the chain. -/
theorem dbFindAndLock_locked {Q : Bool × DB → World → Prop} (hdb : db.Opened)
    (hlen : key.length < 8000000) (writelock : Bool)
    (h : (dbReadptr (L.offset (.head (hashOf key))) >>= fun offset =>
      findLoop key rounds { db with
        chainoff := L.offset (.head (hashOf key)), ptroff := L.offset (.head (hashOf key)) }
        offset >>= fun r => pure (decide (r.1 ≠ 0), r.2)).wp Call.apply E Q
      (w.lock (chainLock (lockKind writelock) (hashOf key)))) :
    (dbFindAndLock db key writelock).wp Call.apply E Q w := by
  have hchainoff : ((hashOf key : Nat) : Int) * ptrSz + db.hashoff =
      L.offset (.head (hashOf key)) := by
    rw [hdb.hashoff, Layout.offset, hashOff]
    push_cast
    rw [Int.add_mul, Int.one_mul]
  rw [dbFindAndLock, dbHash_eq hlen hdb.nhash, CallTree.ret_bind]
  simp only [hchainoff]
  cases writelock with
  | true =>
      rw [wp_onlyIf_of rfl, CallTree.bind_assoc, wp_writewLock, wp_errDumpIf Bool.noConfusion,
        wp_onlyIf_of_not (not_not.mpr rfl)]
      exact h
  | false =>
      rw [wp_onlyIf_of_not Bool.noConfusion, wp_onlyIf_of Bool.noConfusion,
        CallTree.bind_assoc, wp_readwLock, wp_errDumpIf Bool.noConfusion]
      exact h

theorem dbFindAndLock_wp (h : L.Wf nodes tbl) (hw : L.On [] e w) (hdb : db.Opened)
    (hlen : key.length < 8000000) (writelock : Bool) :
    (dbFindAndLock db key writelock).wp Call.apply E
      (fun r w' => L.Finds nodes tbl key r.1 r.2 ∧ r.2.Opened ∧
        r.2.chainoff = L.offset (.head (hashOf key)) ∧
        L.On [chainLock (lockKind writelock) (hashOf key)] e w') w := by
  have hlock : L.On [chainLock (lockKind writelock) (hashOf key)] e
      (w.lock (chainLock (lockKind writelock) (hashOf key))) := hw.lock _
  have hchain := h.chains.chain (.chain (hashOf key))
  have hhas : L.Has (.head (hashOf key)) := hashOf_lt key
  refine dbFindAndLock_locked L hdb hlen writelock ?_
  refine (dbReadptr_wp h.toOk.fits hhas hlock).bind ?_
  rintro _ w₁ ⟨rfl, hw₁⟩
  refine (findLoop_wp h.toOk hw₁ hchain (h.length_lt _) rfl).bind ?_
  rintro ⟨offset, db₁⟩ w₂ ⟨hsearch, hkeeps, hw₂⟩
  refine ⟨?_, ⟨hkeeps.hashoff.trans hdb.hashoff, hkeeps.nhash.trans hdb.nhash⟩,
    hkeeps.chainoff, hw₂⟩
  rcases hsearch with ⟨i, s, prev, hat, hkey, rfl, hptroff, hreads⟩ | ⟨rfl, hnone⟩
  · exact .inl ⟨decide_eq_true (addr_ne_zero i), i, s, prev, hat, hkey, hptroff, hreads⟩
  · exact .inr ⟨rfl, h.contents_eq_none hnone⟩

/-- What `_db_findfree` finds: a slot of the free list with the lengths, which has been taken
out of the list, or that there is none. -/
def Layout.FindsFree (L : Layout) (nodes : Root → List Nat) (keylen datlen : Nat) (found : Bool)
    (db : DB) (L' : Layout) : Prop :=
  (found = true ∧ ∃ i s prev, L.At Root.free.loc (nodes .free) i s prev ∧
    s.key.length = keylen ∧ s.data.length + 1 = datlen ∧ db.Reads L i s ∧
    L' = L.link prev s.next) ∨
  (found = false ∧ (∀ i ∈ nodes .free, ∀ s, L.slots[i]? = some s →
    ¬ (s.key.length = keylen ∧ s.data.length + 1 = datlen)) ∧ L' = L)

theorem dbFindfree_wp (h : L.Wf nodes tbl) (hlocks : OnChains locks) (hw : L.On locks e w)
    (keylen datlen : Nat) :
    (dbFindfree db keylen datlen).wp Call.apply E
      (fun r w' => db.Keeps r.2 ∧ ∃ L', L.FindsFree nodes keylen datlen r.1 r.2 L' ∧
        L'.On locks e w') w := by
  have hchain := h.chains.chain .free
  rw [dbFindfree, wp_writewLock, wp_errDumpIf Bool.noConfusion]
  refine (dbReadptr_wp h.toOk.fits has_free (hw.lock (freeLock .write))).bind ?_
  rintro _ w₁ ⟨rfl, hw₁⟩
  refine (freeLoop_wp h.toOk hw₁ hchain (h.length_lt .free)).bind ?_
  rintro ⟨offset, saveoffset, db₁⟩ w₂ ⟨hsearch, hkeeps, hw₂⟩
  dsimp only at hsearch hkeeps ⊢
  rcases hsearch with ⟨i, s, prev, hat, ⟨hkey, hdata⟩, rfl, rfl, hreads⟩ | ⟨rfl, hnone⟩
  · have hsnext : L.next (.slot i) = s.next := next_slot hat.slot
    have hhas : L.Has prev := has_of_next (h.next_prev hat)
    rw [wp_onlyIf_of (addr_ne_zero i), hreads.ptrval]
    refine (dbWriteptr_wp h.toOk.fits hhas hw₂ ?_).bind fun _ w₃ hw₃ => ?_
    · exact hsnext ▸ h.toOk.fits.le (.slot i)
    rw [wp_unLock, wp_errDumpIf Bool.noConfusion]
    refine ⟨hkeeps, _, .inl ⟨decide_eq_true (addr_ne_zero i), i, s, prev, hat, hkey, hdata, hreads,
      rfl⟩, hw₃.unlock hlocks (.inl rfl)⟩
  · rw [wp_onlyIf_of_not (not_not.mpr rfl), wp_unLock, wp_errDumpIf Bool.noConfusion]
    exact ⟨hkeeps, L, .inr ⟨rfl, hnone, rfl⟩, hw₂.unlock hlocks (.inl rfl)⟩

end

end UnixSys.Db

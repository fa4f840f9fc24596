import UnixSys.Db.Contents

/-!
# Scan — `db_rewind` and `db_nextrec`

`db_nextrec` reads on in the index file from where the position is and skips the records
that are not in use. From `db_rewind` on, until it returns NULL, it comes to every record of
the database once.
-/

namespace UnixSys.Db

open Layout

/-- Whether `db_nextrec` skips a record: its key is all spaces. -/
def Slot.isBlank (s : Slot) : Bool := s.key.all (· = space)

theorem Slot.isBlank_iff {s : Slot} : s.isBlank = true ↔ s.blank := by
  simp [Slot.isBlank, Slot.blank]

/-- The records that `db_nextrec` does not skip. -/
def entries (slots : List Slot) : List (Str × Str) :=
  (slots.filter fun s => !s.isBlank).map Slot.fields

section
variable {E : Stop → World → Prop} {L : Layout} {locks : List Lock} {e : Option Errno} {w : World}
  {db : DB} {i : Nat} {s : Slot} {fuel : Nat}

theorem entries_drop (hs : L.slots[i]? = some s) : entries (L.slots.drop i) =
    if s.isBlank then entries (L.slots.drop (i + 1))
    else s.fields :: entries (L.slots.drop (i + 1)) := by
  obtain ⟨hi, rfl⟩ := List.getElem?_eq_some_iff.mp hs
  rw [List.drop_eq_getElem_cons hi, entries, List.filter_cons]
  cases L.slots[i].isBlank <;> rfl

theorem entries_drop_length : entries (L.slots.drop L.slots.length) = [] := by
  rw [List.drop_length]
  rfl

/-- `_db_readidx` at the end of the index file. -/
theorem dbReadidx_end_wp (hL : L.Ok) (hw : L.On locks e w)
    (hpos : (w.get .idx).pos = idxOff L.slots L.slots.length) :
    (dbReadidx db 0).wp Call.apply E
      (fun r w' => r.1 = -1 ∧ db.Keeps r.2 ∧ L.On locks e w' ∧
        (w'.get .idx).pos = idxOff L.slots L.slots.length) w := by
  have hread : readAt (w.get .idx).bytes (w.get .idx).pos (ptrSz + idxlenSz) = [] := by
    refine readAt_of_ge ?_ _
    rw [hw.idx, length_idx hL.fits, hpos]
  rw [dbReadidx, if_pos rfl, wp_lseek_cur, wp_errDumpIf (by omega), readHere, wp_read,
    World.bytes_seek, World.pos_seek, hread, if_pos (by decide), if_pos ⟨rfl, rfl⟩]
  refine ⟨rfl, ⟨rfl, rfl, rfl⟩, (hw.seek _ _).seek _ _, ?_⟩
  rw [World.pos_seek, hpos]
  rfl

/-- The loop of `db_nextrec` comes to the next record that is not skipped. -/
theorem nextLoop_wp (hL : L.Ok) (hw : L.On locks e w) (hpos : (w.get .idx).pos = idxOff L.slots i)
    (hi : i ≤ L.slots.length) (hfuel : L.slots.length - i < fuel) :
    (nextLoop fuel db).wp Call.apply E
      (fun r w' => db.Keeps r.2 ∧ L.On locks e w' ∧
        ((r.1 = true ∧ ∃ j s, i ≤ j ∧ L.slots[j]? = some s ∧ r.2.Reads L j s ∧
            entries (L.slots.drop i) = s.fields :: entries (L.slots.drop (j + 1)) ∧
            (w'.get .idx).pos = idxOff L.slots (j + 1)) ∨
          (r.1 = false ∧ entries (L.slots.drop i) = [] ∧
            (w'.get .idx).pos = idxOff L.slots L.slots.length))) w := by
  induction fuel generalizing i db w with
  | zero => omega
  | succ fuel ih =>
      rw [nextLoop]
      -- at the end of the file, at a blank record, or at a record
      by_cases hend : i = L.slots.length
      · subst hend
        refine (dbReadidx_end_wp hL hw hpos).bind ?_
        rintro ⟨next, db₁⟩ w₁ ⟨rfl, hkeeps, hw₁, hpos₁⟩
        exact ⟨hkeeps, hw₁, .inr ⟨rfl, entries_drop_length, hpos₁⟩⟩
      · have hlt : i < L.slots.length := by omega
        have hs := List.getElem?_eq_getElem hlt
        refine (dbReadidx_wp hL hs hw db (.inr ⟨rfl, hpos⟩)).bind ?_
        rintro ⟨next, db₁⟩ w₁ ⟨rfl, hreads, hkeeps, -, hw₁, hpos₁⟩
        have hentries := entries_drop hs
        dsimp only
        rw [if_neg (by omega), hreads.idxbuf]
        cases hblank : L.slots[i].isBlank with
        | true =>
            rw [hblank, if_pos rfl] at hentries
            have hall : (L.slots[i].key.all fun c => decide (c = space)) = true := hblank
            rw [if_pos hall, hentries]
            refine (ih hw₁ hpos₁ hlt (by omega)).mono (fun _ _ h => h) ?_
            rintro r w' ⟨hkeeps', hw', hrest⟩
            refine ⟨hkeeps.trans hkeeps', hw', hrest.imp_left ?_⟩
            rintro ⟨hfound, j, s, hj, hrest⟩
            exact ⟨hfound, j, s, by omega, hrest⟩
        | false =>
            rw [hblank, if_neg Bool.noConfusion] at hentries
            have hall : (L.slots[i].key.all fun c => decide (c = space)) = false := hblank
            rw [if_neg (ne_true_of_eq_false hall), hentries]
            exact ⟨hkeeps, hw₁, .inl ⟨rfl, i, _, Nat.le_refl i, hs, hreads, rfl, hpos₁⟩⟩

/-- `db_nextrec` returns the next record that is not skipped. -/
theorem dbNextrec_wp (hL : L.Ok) (hw : L.On [] e w) (hdb : db.Opened)
    (hpos : (w.get .idx).pos = idxOff L.slots i) (hi : i ≤ L.slots.length) :
    (dbNextrec db).wp Call.apply E
      (fun r w' => r.2.Opened ∧ L.On [] e w' ∧
        ((∃ j, i ≤ j ∧ j < L.slots.length ∧ ∃ entry, r.1 = some entry ∧
            entries (L.slots.drop i) = entry :: entries (L.slots.drop (j + 1)) ∧
            (w'.get .idx).pos = idxOff L.slots (j + 1)) ∨
          (r.1 = none ∧ entries (L.slots.drop i) = []))) w := by
  rw [dbNextrec, wp_readwLock, wp_errDumpIf Bool.noConfusion]
  refine (nextLoop_wp hL (hw.lock (freeLock .read)) hpos hi
    (Nat.lt_of_le_of_lt (Nat.sub_le _ _) hL.length_lt)).bind ?_
  rintro ⟨found, db₁⟩ w₁ ⟨hkeeps, hw₁, hfound⟩
  have hopened := hkeeps.opened hdb
  dsimp only at hfound hopened ⊢
  rcases hfound with ⟨rfl, j, s, hij, hs, hreads, hentries, hpos₁⟩ | ⟨rfl, hentries, -⟩
  · rw [if_pos rfl]
    refine (dbReaddat_wp (hL.slot hs) hs hw₁ hreads).bind ?_
    rintro _ w₂ ⟨rfl, hw₂, hpos₂⟩
    rw [CallTree.pure_eq, CallTree.ret_bind, wp_unLock, wp_errDumpIf Bool.noConfusion]
    refine ⟨⟨hopened.hashoff, hopened.nhash⟩, hw₂.unlock_last, .inl ⟨j, hij, ?_, s.fields, ?_,
      hentries, hpos₂.trans hpos₁⟩⟩
    · exact (List.getElem?_eq_some_iff.mp hs).1
    · rw [hreads.idxbuf, Slot.fields]
  · rw [if_neg Bool.noConfusion, CallTree.pure_eq, CallTree.ret_bind, wp_unLock,
      wp_errDumpIf Bool.noConfusion]
    exact ⟨hopened, hw₁.unlock_last, .inr ⟨rfl, hentries⟩⟩

/-! ## The scan of a database -/

/-- `while ((ptr = db_nextrec(db, key)) != NULL)`, as a user of the library writes it. -/
def scanLoop : Nat → DB → Io (List (Str × Str) × DB)
  | 0, _ => .spin
  | fuel + 1, db => do
      match ← dbNextrec db with
      | (none, db) => pure ([], db)
      | (some entry, db) => do
          let (rest, db) ← scanLoop fuel db
          pure (entry :: rest, db)

/-- `db_rewind`, and then the loop. -/
def scan (db : DB) : Io (List (Str × Str) × DB) := do
  let db ← dbRewind db
  scanLoop rounds db

theorem scanLoop_wp (hL : L.Ok) (hw : L.On [] e w) (hdb : db.Opened)
    (hpos : (w.get .idx).pos = idxOff L.slots i) (hi : i ≤ L.slots.length)
    (hfuel : L.slots.length - i < fuel) :
    (scanLoop fuel db).wp Call.apply E
      (fun r w' => r.1 = entries (L.slots.drop i) ∧ r.2.Opened ∧ L.On [] e w') w := by
  induction fuel generalizing i db w with
  | zero => omega
  | succ fuel ih =>
      rw [scanLoop]
      refine (dbNextrec_wp hL hw hdb hpos hi).bind ?_
      rintro ⟨ptr, db₁⟩ w₁ ⟨hopened, hw₁, hnext⟩
      dsimp only at hopened hnext ⊢
      rcases hnext with ⟨j, hij, hj, entry, rfl, hentries, hpos₁⟩ | ⟨rfl, hentries⟩
      · refine (ih hw₁ hopened hpos₁ hj (by omega)).bind ?_
        rintro ⟨rest, db₂⟩ w₂ ⟨rfl, hopened₂, hw₂⟩
        exact ⟨hentries.symm, hopened₂, hw₂⟩
      · exact ⟨hentries.symm, hopened, hw₁⟩

theorem dbRewind_wp (hw : L.On locks e w) (hdb : db.Opened) :
    (dbRewind db).wp Call.apply E
      (fun db' w' => db'.Opened ∧ L.On locks e w' ∧ (w'.get .idx).pos = idxOff L.slots 0) w := by
  have hoff : ((db.nhash : Int) + 1) * ptrSz + 1 = headerSize := by
    rw [hdb.nhash]
    rfl
  rw [dbRewind]
  simp only [hoff]
  rw [wp_lseek_set (Int.natCast_nonneg _), wp_errDumpIf (by omega)]
  exact ⟨⟨hdb.hashoff, hdb.nhash⟩, hw.seek _ _, World.pos_seek _ _ _⟩

/-- A scan comes to all the records that are not skipped. -/
theorem scan_wp (hL : L.Ok) (hw : L.On [] e w) (hdb : db.Opened) :
    (scan db).wp Call.apply E
      (fun r w' => r.1 = entries L.slots ∧ r.2.Opened ∧ L.On [] e w') w := by
  rw [scan]
  refine (dbRewind_wp hw hdb).bind ?_
  rintro db₁ w₁ ⟨hopened, hw₁, hpos⟩
  exact scanLoop_wp hL hw₁ hopened hpos (Nat.zero_le _) hL.length_lt

/-! ## What a scan comes to -/

section
variable {nodes : Root → List Nat} {tbl : Str → Option Nat} (h : L.Wf nodes tbl)
include h

/-- A slot that is not skipped is in a chain. -/
theorem Layout.Wf.found_of_entry (hs : L.slots[i]? = some s) (hblank : ¬ s.blank) :
    tbl s.key = some i := by
  obtain ⟨r, hr⟩ := h.all i (List.getElem?_eq_some_iff.mp hs).1
  cases r with
  | free => exact absurd (h.blank i s hr hs) hblank
  | chain k => exact h.found k i s hr hs

/-- A scan comes to every record whose key is not all spaces, with its data. -/
theorem Layout.Wf.mem_entries {key data : Str} : (key, data) ∈ entries L.slots ↔
    L.contents tbl key = some data ∧ ¬ ∀ c ∈ key, c = space := by
  rw [entries, List.mem_map]
  constructor
  · rintro ⟨s, hs, heq⟩
    obtain ⟨hmem, hnot⟩ := List.mem_filter.mp hs
    obtain ⟨i, hi⟩ := List.mem_iff_getElem?.mp hmem
    have hblank : ¬ s.blank := fun hb => by simp [Slot.isBlank_iff.mpr hb] at hnot
    obtain ⟨rfl, rfl⟩ := Prod.ext_iff.mp heq
    refine ⟨?_, hblank⟩
    show L.contents tbl s.key = some s.data
    rw [contents, h.found_of_entry hi hblank, Option.bind_some, hi]
    rfl
  · rintro ⟨hsome, hblank⟩
    obtain ⟨i, htbl, hdata⟩ := Option.bind_eq_some_iff.mp hsome
    obtain ⟨-, s, hs, rfl⟩ := h.stored key i htbl
    rw [hs] at hdata
    refine ⟨s, List.mem_filter.mpr ⟨List.mem_of_getElem? hs, ?_⟩, ?_⟩
    · have hnot : s.isBlank = false := Bool.eq_false_iff.mpr fun hb => hblank (Slot.isBlank_iff.mp hb)
      rw [hnot]
      rfl
    · rw [Slot.fields, Option.some.inj hdata]

/-- No key comes twice. -/
theorem Layout.Wf.nodup_entries : ((entries L.slots).map Prod.fst).Nodup := by
  rw [entries, List.map_map]
  refine List.pairwise_map.mpr (List.pairwise_filter.mpr ?_)
  refine List.pairwise_iff_getElem.mpr fun i j hi hj hij hbi hbj heq => ?_
  have hnot : ∀ {t : Slot}, (!t.isBlank) = true → ¬ t.blank := by
    intro t ht hb
    simp [Slot.isBlank_iff.mpr hb] at ht
  have hfi := h.found_of_entry (List.getElem?_eq_getElem hi) (hnot hbi)
  have hfj := h.found_of_entry (List.getElem?_eq_getElem hj) (hnot hbj)
  have hkey : L.slots[i].key = L.slots[j].key := heq
  rw [hkey] at hfi
  have := Option.some.inj (hfi.symm.trans hfj)
  omega

end

end

end UnixSys.Db

import UnixSys.Db.Records

/-!
# Access — one record or link, read and written in the files

`Layout.On` says that the files of a world are those of a layout. Each function that reads
or writes one field is here what it does to the layout.
-/

namespace UnixSys.Db

/-! ## Layouts that the library makes -/

/-- A key and data that can be stored and found. A key of 1008 bytes fits an index record
wherever its data lies. -/
structure Storable (key data : Str) : Prop where
  key_ne : key ≠ []
  key_le : key.length ≤ 1008
  key_sep : sep ∉ key
  key_nul : NUL ∉ key
  data_ne : data ≠ []
  data_le : data.length + 1 ≤ datlenMax
  data_nul : NUL ∉ data

instance {key data : Str} : Decidable (Storable key data) :=
  decidable_of_iff (key ≠ [] ∧ key.length ≤ 1008 ∧ sep ∉ key ∧ NUL ∉ key ∧ data ≠ [] ∧
      data.length + 1 ≤ datlenMax ∧ NUL ∉ data)
    ⟨fun ⟨h₁, h₂, h₃, h₄, h₅, h₆, h₇⟩ => ⟨h₁, h₂, h₃, h₄, h₅, h₆, h₇⟩,
      fun h => ⟨h.key_ne, h.key_le, h.key_sep, h.key_nul, h.data_ne, h.data_le, h.data_nul⟩⟩

abbrev Slot.Ok (s : Slot) : Prop := Storable s.key s.data

/-- The lengths of a key and of data that fit the records. -/
structure Sized (key data : Str) : Prop where
  key_ne : key ≠ []
  key_le : key.length ≤ 1008
  data_ne : data ≠ []
  data_le : data.length + 1 ≤ datlenMax

theorem Storable.sized {key data : Str} (h : Storable key data) : Sized key data :=
  ⟨h.key_ne, h.key_le, h.data_ne, h.data_le⟩

namespace Layout

/-- Links lead to slots, at offsets of seven digits, and every slot is well formed. -/
structure Ok (L : Layout) : Prop where
  links : ∀ loc i, L.next loc = some i → i < L.slots.length
  offsets : ∀ i < L.slots.length, (idxOff L.slots i : Int) ≤ ptrMax
  slots : ∀ s ∈ L.slots, s.Ok

/-- The files hold the layout; the process has these locks, and this `errno`. -/
structure On (L : Layout) (locks : List Lock) (e : Option Errno) (w : World) : Prop where
  idx : (w.get .idx).bytes = L.idx
  dat : (w.get .dat).bytes = L.dat
  present : ∀ f, (w.get f).present = true
  locks : w.locks = locks
  errno : w.errno = e

variable {L : Layout}

theorem length_datBytes_le {slots : List Slot} (h : ∀ s ∈ slots, s.Ok) :
    (datBytes slots).length ≤ slots.length * datlenMax := by
  induction slots with
  | nil => exact Nat.zero_le _
  | cons s slots ih =>
      have hs := (h s List.mem_cons_self).data_le
      have := ih fun s' hs' => h s' (List.mem_cons_of_mem s hs')
      rw [datBytes_cons, List.length_append, length_dat, List.length_cons, Nat.succ_mul]
      omega

theorem length_le_span {off : Nat} {slots : List Slot} : slots.length * 11 ≤ span off slots := by
  induction slots generalizing off with
  | nil => exact Nat.zero_le _
  | cons s slots ih =>
      have hrest : slots.length * 11 ≤ span (off + s.dat.length) slots := ih
      rw [List.length_cons, span, Nat.succ_mul]
      simp only [ptrSz, idxlenSz]
      omega

theorem Ok.slot (h : L.Ok) {i : Nat} {s : Slot} (hs : L.slots[i]? = some s) : s.Ok :=
  h.slots s (List.mem_of_getElem? hs)

/-- The data file is far from the length that would not fit a record. -/
theorem Ok.datOff_lt (h : L.Ok) {i : Nat} (hi : i ≤ L.slots.length) :
    datOff L.slots i < 1000000000 := by
  have hdat : datOff L.slots i ≤ i * datlenMax := by
    have htake : ∀ s ∈ L.slots.take i, s.Ok := fun s hs => h.slots s (List.mem_of_mem_take hs)
    have hle := length_datBytes_le htake
    rwa [List.length_take_of_le hi] at hle
  cases i with
  | zero => exact lt_of_le_of_lt hdat (by decide)
  | succ i =>
      have hoff := h.offsets i hi
      have hspan : (L.slots.take i).length * 11 ≤ span 0 (L.slots.take i) := length_le_span
      rw [List.length_take_of_le (Nat.le_of_lt hi)] at hspan
      simp only [idxOff, headerSize, nhashDef, ptrSz, ptrMax, datlenMax] at hoff hdat
      omega

theorem length_decimal_lt {n k : Nat} (hk : 0 < k) (h : n < 10 ^ k) : (decimal n).length ≤ k :=
  (length_decimal_le_iff hk).mpr h

/-- The length of a record whose data lies in such a file. -/
theorem length_text_le {s : Slot} (hs : Sized s.key s.data) {off : Nat} (hoff : off < 1000000000) :
    idxlenMin ≤ (s.text off).length ∧ (s.text off).length ≤ idxlenMax := by
  have hkey := hs.key_le
  have hdata := hs.data_le
  simp only [datlenMax] at hdata
  have hpos := List.length_pos_iff.mpr hs.key_ne
  have hd1 := length_decimal_lt (by decide : 0 < 9) (show off < 10 ^ 9 by omega)
  have hd2 := length_decimal_lt (by decide : 0 < 4) (show s.data.length + 1 < 10 ^ 4 by omega)
  have hp1 := List.length_pos_iff.mpr (decimal_ne_nil off)
  have hp2 := List.length_pos_iff.mpr (decimal_ne_nil (s.data.length + 1))
  simp only [length_text, idxlenMin, idxlenMax]
  omega

theorem Ok.fits (h : L.Ok) : L.Fits where
  links loc i hn := ⟨h.links loc i hn, h.offsets i (h.links loc i hn)⟩
  texts i s hs := by
    obtain ⟨hi, -⟩ := List.getElem?_eq_some_iff.mp hs
    exact (length_text_le (h.slot hs).sized (h.datOff_lt hi.le)).2

variable {locks : List Lock} {e : Option Errno} {w : World}

theorem On.seek (h : L.On locks e w) (f : File) (pos : Nat) : L.On locks e (w.seek f pos) := by
  have hpresent : ∀ g, ((w.seek f pos).get g).present = true := by
    intro g
    cases f <;> cases g <;> first | exact h.present .idx | exact h.present .dat
  cases f with
  | idx => exact ⟨h.idx, h.dat, hpresent, h.locks, h.errno⟩
  | dat => exact ⟨h.idx, h.dat, hpresent, h.locks, h.errno⟩

theorem dat_link (loc : Loc) (p : Option Nat) : (L.link loc p).dat = L.dat := by
  cases loc with
  | free => rfl
  | head k => rfl
  | slot i =>
      cases h : L.slots[i]? with
      | none =>
          have hi := List.getElem?_eq_none_iff.mp h
          rw [link, List.modify_eq_self hi]
      | some s =>
          obtain ⟨a, c, -, hdat, hwrite⟩ := dat_record h
          rw [link_slot h, hwrite, hdat]
          rfl

end Layout

open Layout

section
variable {α : Type} {E : Stop → World → Prop} {L : Layout} {locks : List Lock}
  {e : Option Errno} {w : World}

/-! ## Links -/

/-- `_db_readptr` returns the chain pointer at a place. -/
theorem dbReadptr_wp (hfit : L.Fits) {loc : Loc} (hloc : L.Has loc) (hw : L.On locks e w) :
    (dbReadptr (L.offset loc)).wp Call.apply E
      (fun p w' => p = L.addr (L.next loc) ∧ L.On locks e w') w := by
  obtain ⟨a, c, ha, hidx, -⟩ := idx_ptr hfit hloc
  have hlen := length_ptr (hfit.le loc)
  have hread : readAt (w.get .idx).bytes (L.offset loc) ptrSz =
      padded ptrSz (L.addr (L.next loc)) := by
    have hcut := readAt_append a (padded ptrSz (L.addr (L.next loc))) c
    rwa [hlen, ha, ← hidx, ← hw.idx] at hcut
  have hlong : (L.addr (L.next loc) : Int) ≤ longMax :=
    Int.le_trans (hfit.le loc) (by decide)
  rw [dbReadptr, wp_lseek_set (Int.natCast_nonneg _), wp_errDumpIf (by omega), wp_read]
  simp only [World.bytes_seek, World.pos_seek, Int.toNat_natCast, hread]
  rw [wp_errDumpIf (not_not.mpr hlen), atol_padded hlong]
  exact ⟨rfl, (hw.seek _ _).seek _ _⟩

/-- `_db_writeptr` makes a link, if it leads to an offset of seven digits. -/
theorem dbWriteptr_wp (hfit : L.Fits) {loc : Loc} (hloc : L.Has loc) (hw : L.On locks e w)
    {p : Option Nat} (hp : (L.addr p : Int) ≤ ptrMax) :
    (dbWriteptr (L.offset loc) (L.addr p)).wp Call.apply E
      (fun _ w' => (L.link loc p).On locks e w') w := by
  obtain ⟨a, c, ha, hidx, hlink⟩ := idx_ptr hfit hloc
  have hlen := length_ptr hp
  have hwrite : writeAt NUL (w.get .idx).bytes (L.offset loc) (padded ptrSz (L.addr p)) =
      (L.link loc p).idx := by
    have hsame : (padded ptrSz (L.addr p)).length =
        (padded ptrSz (L.addr (L.next loc))).length := by
      rw [hlen, length_ptr (hfit.le loc)]
    rw [hlink, hw.idx, hidx, ← ha]
    exact writeAt_append NUL hsame c
  rw [dbWriteptr, wp_errQuitIf (by omega), wp_lseek_set (Int.natCast_nonneg _),
    wp_errDumpIf (by omega), wp_write, Int.toNat_natCast, errDumpIf,
    if_neg (not_not.mpr hlen)]
  refine ⟨?_, ?_, ?_, hw.locks, hw.errno⟩
  · rw [World.overwrite, World.get_put, World.bytes_seek, World.pos_seek]
    exact hwrite
  · rw [dat_link, ← hw.dat]
    rfl
  · intro f
    cases f <;> first | exact hw.present .idx | exact hw.present .dat

/-! ## Reading a record -/

/-- The record of slot `i` has been read. -/
structure DB.Reads (db : DB) (L : Layout) (i : Nat) (s : Slot) : Prop where
  idxoff : db.idxoff = L.addr (some i)
  ptrval : db.ptrval = L.addr s.next
  idxbuf : db.idxbuf = s.key
  datoff : db.datoff = datOff L.slots i
  datlen : db.datlen = s.data.length + 1

/-- The fields that reading and writing leave alone. -/
structure DB.Keeps (db db' : DB) : Prop where
  chainoff : db'.chainoff = db.chainoff
  hashoff : db'.hashoff = db.hashoff
  nhash : db'.nhash = db.nhash

theorem DB.Keeps.refl (db : DB) : db.Keeps db := ⟨rfl, rfl, rfl⟩

theorem DB.Keeps.trans {db db' db'' : DB} (h : db.Keeps db') (h' : db'.Keeps db'') :
    db.Keeps db'' :=
  ⟨h'.chainoff.trans h.chainoff, h'.hashoff.trans h.hashoff, h'.nhash.trans h.nhash⟩

section
variable {i : Nat} {s : Slot}

/-- The rest of an index record, from where the position is: what comes of it is what comes of
its text. -/
theorem readRecord_split_wp {Q : Int × DB → World → Prop} (hfit : L.Fits)
    (hs : L.slots[i]? = some s) (hkey : s.key ≠ []) (hw : L.On locks e w) {c : Str}
    (hdrop : (w.get .idx).bytes.drop (w.get .idx).pos = s.text (datOff L.slots i) ++ c) (db : DB)
    (hQ : ∀ w', L.On locks e w' →
      (w'.get .idx).pos = (w.get .idx).pos + (s.text (datOff L.slots i)).length →
      (splitRecord (s.key ++ sep :: (decimal (datOff L.slots i) ++ sep ::
        decimal (s.data.length + 1)))).wp Call.apply E
        (fun r w'' => Q (L.addr s.next, { db with
          ptrval := L.addr s.next, idxlen := (s.text (datOff L.slots i)).length, idxbuf := r.1,
          datoff := r.2.1, datlen := r.2.2 }) w'') w') :
    (readRecord db (padded ptrSz (L.addr s.next))
      (padded idxlenSz (s.text (datOff L.slots i)).length)).wp Call.apply E Q w := by
  have hmax := hfit.texts i s hs
  have hmin : idxlenMin ≤ (s.text (datOff L.slots i)).length := by
    have hpos := List.length_pos_iff.mpr hkey
    have hp1 := List.length_pos_iff.mpr (decimal_ne_nil (datOff L.slots i))
    have hp2 := List.length_pos_iff.mpr (decimal_ne_nil (s.data.length + 1))
    simp only [length_text, idxlenMin]
    omega
  have hptr : (L.addr s.next : Int) ≤ longMax :=
    next_slot hs ▸ Int.le_trans (hfit.le (.slot i)) (by decide)
  have hlen : sizeT (atol (padded idxlenSz (s.text (datOff L.slots i)).length)) =
      (s.text (datOff L.slots i)).length := by
    rw [atol_padded, sizeT_natCast hmax]
    simp only [longMax, idxlenMax] at hmax ⊢
    omega
  have hlast : (s.text (datOff L.slots i))[(s.text (datOff L.slots i)).length - 1]? =
      some newline := by
    rw [← List.getLast?_eq_getElem?, Slot.text, recordText, List.getLast?_concat]
  have hread := readAt_of_drop hdrop
  rw [readRecord]
  simp only [hlen, atol_padded hptr]
  rw [wp_errDumpIf (by omega), wp_read, hread, wp_errDumpIf (not_not.mpr rfl),
    wp_errDumpIf (not_not.mpr hlast), Slot.text, recordText_take, CallTree.wp_bind]
  exact hQ _ (hw.seek _ _) (World.pos_seek _ _ _)

/-- `_db_readidx` at the offset of a slot, or with the offset 0 when the position is there: it
reads the record, and the position is that of the next one. -/
theorem dbReadidx_split_wp {Q : Int × DB → World → Prop} (hfit : L.Fits)
    (hs : L.slots[i]? = some s) (hkey : s.key ≠ []) (hw : L.On locks e w) (db : DB) {offset : Int}
    (hoff : offset = L.addr (some i) ∨ offset = 0 ∧ (w.get .idx).pos = L.addr (some i))
    (hQ : ∀ w', L.On locks e w' → (w'.get .idx).pos = idxOff L.slots (i + 1) →
      (splitRecord (s.key ++ sep :: (decimal (datOff L.slots i) ++ sep ::
        decimal (s.data.length + 1)))).wp Call.apply E
        (fun r w'' => Q (L.addr s.next, { db with
          idxoff := L.addr (some i), ptrval := L.addr s.next,
          idxlen := (s.text (datOff L.slots i)).length, idxbuf := r.1,
          datoff := r.2.1, datlen := r.2.2 }) w'') w') :
    (dbReadidx db offset).wp Call.apply E Q w := by
  obtain ⟨a, c, ha, hidx, -⟩ := idx_record hfit hs
  have hplen : (padded ptrSz (L.addr s.next)).length = ptrSz :=
    length_ptr (next_slot hs ▸ hfit.le (.slot i))
  have hllen := length_len (hfit.texts i s hs)
  have hhead : (padded ptrSz (L.addr s.next) ++
      padded idxlenSz (s.text (datOff L.slots i)).length).length = ptrSz + idxlenSz := by
    rw [List.length_append, hplen, hllen]
  have hdrop : (w.get .idx).bytes.drop (L.addr (some i)) = (padded ptrSz (L.addr s.next) ++
      padded idxlenSz (s.text (datOff L.slots i)).length) ++ (s.text (datOff L.slots i) ++ c) := by
    have hlen : a.length = L.addr (some i) := ha
    rw [hw.idx, hidx, List.append_assoc, ← hlen, List.drop_left, Slot.record]
    simp only [List.append_assoc]
  have hpos : 0 < L.addr (some i) := Nat.lt_of_lt_of_le (by decide) (headerSize_le_addr i)
  have hnext : (L.addr (some i) + (ptrSz + idxlenSz)) + (s.text (datOff L.slots i)).length =
      idxOff L.slots (i + 1) := by
    rw [idxOff_succ hs]
    exact Nat.add_assoc _ _ _
  -- once the position is that of the slot
  have hrest : (readHere { db with idxoff := L.addr (some i) } offset).wp Call.apply E Q
      (w.seek .idx (L.addr (some i))) := by
    have hread := readAt_of_drop hdrop
    have hbehind := drop_add_of_drop hdrop
    rw [hhead] at hread hbehind
    have htake : (padded ptrSz (L.addr s.next) ++
        padded idxlenSz (s.text (datOff L.slots i)).length).take ptrSz =
        padded ptrSz (L.addr s.next) := List.take_left' hplen
    have hdropLen : (padded ptrSz (L.addr s.next) ++
        padded idxlenSz (s.text (datOff L.slots i)).length).drop ptrSz =
        padded idxlenSz (s.text (datOff L.slots i)).length := List.drop_left' hplen
    rw [readHere, wp_read, World.bytes_seek, World.pos_seek, hread, if_neg (not_not.mpr hhead), htake,
      hdropLen, hhead]
    refine readRecord_split_wp (c := c) hfit hs hkey ((hw.seek _ _).seek _ _) ?_ _ ?_
    · rw [World.bytes_seek, World.bytes_seek, World.pos_seek]
      exact hbehind
    · intro w' hw' hpos'
      rw [World.pos_seek, hnext] at hpos'
      exact hQ w' hw' hpos'
  rw [dbReadidx]
  rcases hoff with rfl | ⟨rfl, hcur⟩
  · rw [if_neg (by omega), wp_lseek_set (Int.natCast_nonneg _), wp_errDumpIf (by omega),
      Int.toNat_natCast]
    exact hrest
  · rw [if_pos rfl, wp_lseek_cur, wp_errDumpIf (by omega), hcur]
    exact hrest

/-- The record of a slot is read as it was written. -/
theorem dbReadidx_wp (hL : L.Ok) (hs : L.slots[i]? = some s) (hw : L.On locks e w)
    (db : DB) {offset : Int} (hoff : offset = L.addr (some i) ∨
      offset = 0 ∧ (w.get .idx).pos = L.addr (some i)) :
    (dbReadidx db offset).wp Call.apply E
      (fun r w' => r.1 = L.addr s.next ∧ r.2.Reads L i s ∧ db.Keeps r.2 ∧
        r.2.ptroff = db.ptroff ∧ L.On locks e w' ∧
        (w'.get .idx).pos = idxOff L.slots (i + 1)) w := by
  have hok := hL.slot hs
  obtain ⟨hi, -⟩ := List.getElem?_eq_some_iff.mp hs
  have hdat := hL.datOff_lt (Nat.le_of_lt hi)
  refine dbReadidx_split_wp hL.fits hs hok.key_ne hw db hoff fun w' hw' hpos => ?_
  rw [splitRecord_eq hok.key_sep hok.key_nul
    (show (datOff L.slots i : Int) ≤ longMax by simp only [longMax]; omega)
    (Nat.succ_pos s.data.length) hok.data_le]
  exact ⟨rfl, ⟨rfl, rfl, rfl, rfl, rfl⟩, ⟨rfl, rfl, rfl⟩, rfl, hw', hpos⟩

end

end

end UnixSys.Db

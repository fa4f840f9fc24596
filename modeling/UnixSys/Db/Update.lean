import UnixSys.Db.Access

/-!
# Update — one record, written in place or at the end

What the functions that write records make of a layout. A record is written in place over
one of the same lengths; at the end of the files it becomes one more slot.
-/

namespace UnixSys.Db

/-! ## Layouts that stay well formed -/

namespace Layout

variable {L : Layout} {i : Nat} {s s' : Slot} {loc : Loc} {p : Option Nat}

@[simp] theorem length_link (loc : Loc) (p : Option Nat) :
    (L.link loc p).slots.length = L.slots.length := by
  cases loc <;> simp [link]

@[simp] theorem length_write (i : Nat) (s : Slot) :
    (L.write i s).slots.length = L.slots.length :=
  List.length_set

theorem Has.link (h : L.Has loc) (loc' : Loc) (p : Option Nat) : (L.link loc' p).Has loc := by
  cases loc with
  | free => trivial
  | head k => exact h
  | slot i =>
      show i < (L.link loc' p).slots.length
      rw [length_link]
      exact h

theorem Has.write (h : L.Has loc) (j : Nat) (t : Slot) : (L.write j t).Has loc := by
  cases loc with
  | free => trivial
  | head k => exact h
  | slot i =>
      show i < (L.write j t).slots.length
      rw [length_write]
      exact h

/-- A slot written anew has its own link. -/
theorem next_write (h : i < L.slots.length) (s : Slot) :
    (L.write i s).next = Function.update L.next (.slot i) s.next := by
  funext loc
  by_cases heq : loc = .slot i
  · subst heq
    rw [Function.update_self]
    simp [Layout.write, next, h]
  · rw [Function.update_of_ne heq]
    cases loc with
    | free => rfl
    | head k => rfl
    | slot j =>
        have hne : i ≠ j := fun he => heq (he ▸ rfl)
        simp [Layout.write, next, hne]

theorem getElem?_link_of_ne {loc : Loc} (hne : loc ≠ .slot i) (p : Option Nat) :
    (L.link loc p).slots[i]? = L.slots[i]? := by
  cases loc with
  | free => rfl
  | head k => rfl
  | slot j =>
      have hne : j ≠ i := fun he => hne (he ▸ rfl)
      simp [Layout.link, hne]

/-- A link changes no key and no data. -/
theorem getElem?_link (loc : Loc) (p : Option Nat) : ∃ f : Slot → Slot,
    (L.link loc p).slots[i]? = L.slots[i]?.map f ∧ ∀ s, (f s).key = s.key ∧ (f s).data = s.data := by
  by_cases heq : loc = .slot i
  · subst heq
    refine ⟨fun s => { s with next := p }, ?_, fun s => ⟨rfl, rfl⟩⟩
    simp [Layout.link]
  · refine ⟨id, ?_, fun s => ⟨rfl, rfl⟩⟩
    rw [getElem?_link_of_ne heq, Option.map_id]
    rfl

theorem Ok.link (h : L.Ok) (hloc : L.Has loc) (hp : ∀ j ∈ p, j < L.slots.length) :
    (L.link loc p).Ok where
  links loc' j hj := by
    rw [length_link]
    rw [next_link hloc, Function.update_apply] at hj
    split at hj
    · exact hp j hj
    · exact h.links loc' j hj
  offsets j hj := by
    rw [length_link] at hj
    rw [idxOff_congr (sizes_link loc p)]
    exact h.offsets j hj
  slots s hs := by
    obtain ⟨j, hj⟩ := List.mem_iff_getElem?.mp hs
    obtain ⟨f, hf, hsame⟩ := getElem?_link (L := L) (i := j) loc p
    rw [hf] at hj
    obtain ⟨t, ht, rfl⟩ := Option.map_eq_some_iff.mp hj
    have hok := h.slot ht
    obtain ⟨hkey, hdata⟩ := hsame t
    exact ⟨hkey ▸ hok.key_ne, hkey ▸ hok.key_le, hkey ▸ hok.key_sep, hkey ▸ hok.key_nul,
      hdata ▸ hok.data_ne, hdata ▸ hok.data_le, hdata ▸ hok.data_nul⟩

theorem Ok.write (h : L.Ok) (hs : L.slots[i]? = some s) (hsize : s'.size = s.size)
    (hs' : s'.Ok) (hnext : ∀ j ∈ s'.next, j < L.slots.length) : (L.write i s').Ok where
  links loc j hj := by
    obtain ⟨hi, -⟩ := List.getElem?_eq_some_iff.mp hs
    rw [length_write]
    rw [next_write hi, Function.update_apply] at hj
    split at hj
    · exact hnext j hj
    · exact h.links loc j hj
  offsets j hj := by
    rw [length_write] at hj
    rw [idxOff_congr (sizes_write hs hsize)]
    exact h.offsets j hj
  slots t ht := by
    rcases List.mem_or_eq_of_mem_set ht with ht | rfl
    · exact h.slots t ht
    · exact hs'

theorem addr_write (hs : L.slots[i]? = some s) (hsize : s'.size = s.size) :
    (L.write i s').addr = L.addr :=
  addr_congr (sizes_write hs hsize)

section
variable (h : L.Ok) (hnext : ∀ j ∈ s.next, j < L.slots.length)
include h

include hnext in
theorem Ok.append_links (loc : Loc) (j : Nat) (hj : (L.append s).next loc = some j) :
    j < (L.append s).slots.length := by
  show j < (L.slots ++ [s]).length
  rw [List.length_append, List.length_singleton]
  cases loc with
  | free => exact Nat.lt_succ_of_lt (h.links .free j hj)
  | head k => exact Nat.lt_succ_of_lt (h.links (.head k) j hj)
  | slot i =>
      obtain ⟨t, ht, hj⟩ := Option.bind_eq_some_iff.mp hj
      have ht : (L.slots ++ [s])[i]? = some t := ht
      rw [List.getElem?_append] at ht
      split at ht
      · exact Nat.lt_succ_of_lt (h.links (.slot i) j (by rw [next_slot ht, hj]))
      · rw [List.getElem?_singleton] at ht
        split at ht
        · cases ht
          exact Nat.lt_succ_of_lt (hnext j hj)
        · cases ht

variable (hoff : (idxOff L.slots L.slots.length : Int) ≤ ptrMax)
include hoff

theorem Ok.append_offsets (j : Nat) (hj : j < (L.append s).slots.length) :
    (idxOff (L.append s).slots j : Int) ≤ ptrMax := by
  have hj : j < (L.slots ++ [s]).length := hj
  rw [List.length_append, List.length_singleton] at hj
  show (idxOff (L.slots ++ [s]) j : Int) ≤ ptrMax
  rw [idxOff_append s (Nat.le_of_lt_succ hj)]
  by_cases hlast : j = L.slots.length
  · rw [hlast]
    exact hoff
  · exact h.offsets j (by omega)

include hnext

/-- With one more slot, whose record starts at an offset of seven digits. -/
theorem Ok.append (hs : s.Ok) : (L.append s).Ok where
  links := h.append_links hnext
  offsets := h.append_offsets hoff
  slots t ht := by
    rcases List.mem_append.mp ht with ht | ht
    · exact h.slots t ht
    · rw [List.mem_singleton.mp ht]
      exact hs

/-- The slot need not be one that can be read. -/
theorem Ok.append_fits (hs : Sized s.key s.data) : (L.append s).Fits where
  links loc j hj := ⟨h.append_links hnext loc j hj,
    h.append_offsets hoff j (h.append_links hnext loc j hj)⟩
  texts j t hj := by
    have ht : (L.slots ++ [s])[j]? = some t := hj
    show (t.text (datBytes ((L.slots ++ [s]).take j)).length).length ≤ idxlenMax
    rw [List.getElem?_append] at ht
    split at ht
    · next hlt =>
        rw [List.take_append_of_le_length (Nat.le_of_lt hlt)]
        exact h.fits.texts j t ht
    · rw [List.getElem?_singleton] at ht
      split at ht
      · obtain rfl : s = t := Option.some.inj ht
        obtain rfl : j = L.slots.length := by omega
        rw [List.take_left]
        have hlt := h.datOff_lt (Nat.le_refl _)
        rw [datOff, List.take_length] at hlt
        exact (length_text_le hs hlt).2
      · cases ht

end

/-- A slot written anew, with a record of the same lengths. -/
theorem Fits.write (h : L.Fits) (hs : L.slots[i]? = some s) (hsize : s'.size = s.size)
    (hnext : ∀ j ∈ s'.next, j < L.slots.length ∧ (L.addr (some j) : Int) ≤ ptrMax) :
    (L.write i s').Fits where
  links loc j hj := by
    rw [length_write, addr_write hs hsize]
    rw [next_write (List.getElem?_eq_some_iff.mp hs).1, Function.update_apply] at hj
    split at hj
    · exact hnext j hj
    · exact h.links loc j hj
  texts j t ht := by
    have hsizes := sizes_write hs hsize
    have hsame := congrArg (·[j]?) hsizes
    simp only [List.getElem?_map, ht, Option.map_some] at hsame
    obtain ⟨t', ht', hsize'⟩ := Option.map_eq_some_iff.mp hsame.symm
    obtain ⟨hkey, hdata⟩ := Prod.ext_iff.mp hsize'
    have hkey : t'.key.length = t.key.length := hkey
    have hdata : t'.data.length = t.data.length := hdata
    have htext := h.texts j t' ht'
    rw [length_text] at htext ⊢
    rwa [← hkey, ← hdata, datOff_congr hsizes]

theorem Fits.link (h : L.Fits) (hloc : L.Has loc)
    (hp : ∀ j ∈ p, j < L.slots.length ∧ (L.addr (some j) : Int) ≤ ptrMax) :
    (L.link loc p).Fits where
  links loc' j hj := by
    rw [length_link, addr_link]
    rw [next_link hloc, Function.update_apply] at hj
    split at hj
    · exact hp j hj
    · exact h.links loc' j hj
  texts j s hs := by
    obtain ⟨f, hf, hsame⟩ := getElem?_link (L := L) (i := j) loc p
    rw [hf] at hs
    obtain ⟨t, ht, rfl⟩ := Option.map_eq_some_iff.mp hs
    obtain ⟨hkey, hdata⟩ := hsame t
    have htext := h.texts j t ht
    rw [length_text] at htext ⊢
    rwa [hkey, hdata, datOff_congr (sizes_link loc p)]

end Layout

open Layout

/-! ## In place -/

section
variable {E : Stop → World → Prop} {L : Layout} {locks : List Lock} {e : Option Errno} {w : World}
  {db : DB} {i : Nat} {s : Slot}

/-- `_db_readdat` leaves the data of the record in the buffer, and the position in the index
file as it is. -/
theorem dbReaddat_wp (hok : s.Ok) (hs : L.slots[i]? = some s) (hw : L.On locks e w)
    (hdb : db.Reads L i s) :
    (dbReaddat db).wp Call.apply E
      (fun db' w' => db' = { db with datbuf := s.data } ∧ L.On locks e w' ∧
        (w'.get .idx).pos = (w.get .idx).pos) w := by
  obtain ⟨a, c, ha, hdat, -⟩ := dat_record hs
  have hlen : s.dat.length = db.datlen := by rw [length_dat, hdb.datlen]
  have hread : readAt (w.get .dat).bytes (datOff L.slots i) db.datlen = s.dat := by
    have hcut := readAt_append a s.dat c
    rwa [hlen, ha, ← hdat, ← hw.dat] at hcut
  have hlast : s.dat[db.datlen - 1]? = some newline := by
    rw [← hlen, ← List.getLast?_eq_getElem?, Slot.dat, List.getLast?_concat]
  have htake : s.dat.take (db.datlen - 1) = s.data := by
    rw [hdb.datlen, Nat.add_sub_cancel]
    exact List.take_left
  rw [dbReaddat, hdb.datoff, wp_lseek_set (Int.natCast_nonneg _), wp_errDumpIf (by omega),
    wp_read]
  simp only [World.bytes_seek, World.pos_seek, Int.toNat_natCast, hread]
  rw [wp_errDumpIf (not_not.mpr hlen), wp_errDumpIf (not_not.mpr hlast), htake,
    cstr_eq hok.data_nul]
  exact ⟨rfl, (hw.seek _ _).seek _ _, rfl⟩

/-- `_db_writedat` over data of the same length. -/
theorem dbWritedat_set_wp (hfit : L.Fits) (hs : L.slots[i]? = some s) (hw : L.On locks e w)
    {data : Str} (hdata : data.length = s.data.length) {offset : Int}
    (hoff : offset = datOff L.slots i) :
    (dbWritedat db data offset .set).wp Call.apply E
      (fun db' w' => db' = { db with datoff := offset, datlen := s.data.length + 1 } ∧
        (L.write i { s with data := data }).On locks e w') w := by
  obtain ⟨a, c, ha, hdat, hwrite⟩ := dat_record hs
  obtain ⟨a', c', -, hidx, hsame⟩ := idx_record hfit hs
  have hbytes : writeAt NUL (w.get .dat).bytes (datOff L.slots i) (data ++ [newline]) =
      (L.write i { s with data := data }).dat := by
    have hlen : (data ++ [newline]).length = s.dat.length := by
      rw [length_dat, List.length_append, hdata]
      rfl
    rw [hw.dat, hdat, ← ha, hwrite]
    exact writeAt_append NUL hlen c
  have hsize : Slot.size { s with data := data } = s.size := by
    rw [Slot.size, hdata]
    rfl
  rw [dbWritedat, hoff, wp_onlyIf_of_not (by decide), wp_lseek_set (Int.natCast_nonneg _),
    wp_errDumpIf (by omega), wp_write, wp_errDumpIf (by simp), wp_onlyIf_of_not (by decide)]
  refine ⟨by rw [hdata], ?_, ?_, ?_, hw.locks, hw.errno⟩
  · rw [hsame _ hsize, show ((World.overwrite _ _ _).get .idx).bytes = (w.get .idx).bytes from rfl,
      hw.idx, hidx, Slot.record, Slot.record, Slot.text, Slot.text]
    simp only [hdata]
  · rw [World.overwrite, World.get_put, World.bytes_seek, World.pos_seek, Int.toNat_natCast]
    exact hbytes
  · intro f
    cases f <;> first | exact hw.present .idx | exact hw.present .dat

/-- `_db_writeidx` over a record with the same lengths. -/
theorem dbWriteidx_set_wp (hL : L.Ok) (hs : L.slots[i]? = some s) (hw : L.On locks e w)
    {key : Str} (hkey : key.length = s.key.length) {p : Option Nat}
    (hp : (L.addr p : Int) ≤ ptrMax) (hoff : db.datoff = datOff L.slots i)
    (hlen : db.datlen = s.data.length + 1) :
    (dbWriteidx db key (L.addr (some i)) .set (L.addr p)).wp Call.apply E
      (fun db' w' => db'.idxoff = L.addr (some i) ∧ db.Keeps db' ∧ db'.ptroff = db.ptroff ∧
        (L.write i { s with key := key, next := p }).On locks e w') w := by
  obtain ⟨a, c, ha, hidx, hwrite⟩ := idx_record hL.fits hs
  obtain ⟨hi, -⟩ := List.getElem?_eq_some_iff.mp hs
  obtain ⟨hmin, hmax⟩ := length_text_le (hL.slot hs).sized (hL.datOff_lt (Nat.le_of_lt hi))
  obtain ⟨t, ht⟩ : ∃ t : Slot, t = { s with key := key, next := p } := ⟨_, rfl⟩
  have hsize : t.size = s.size := by
    rw [ht, Slot.size, hkey]
    rfl
  have htext : recordText key db.datoff db.datlen = t.text (datOff L.slots i) := by
    rw [ht, hoff, hlen]
    rfl
  have htlen : (t.text (datOff L.slots i)).length = (s.text (datOff L.slots i)).length := by
    rw [length_text, length_text, ht, hkey]
  have hrecord : padded ptrSz (L.addr p) ++ padded idxlenSz (t.text (datOff L.slots i)).length ++
      t.text (datOff L.slots i) = t.record (L.addr t.next) (datOff L.slots i) := by
    rw [ht, Slot.record, List.append_assoc]
  have hrlen : (t.record (L.addr t.next) (datOff L.slots i)).length =
      ptrSz + idxlenSz + (t.text (datOff L.slots i)).length := by
    rw [← hrecord, List.length_append, List.length_append, length_ptr hp,
      length_len (by omega)]
  have hsrec : (s.record (L.addr s.next) (datOff L.slots i)).length =
      ptrSz + idxlenSz + (s.text (datOff L.slots i)).length := by
    rw [Slot.record, ← List.append_assoc, List.length_append, List.length_append,
      length_ptr (next_slot hs ▸ hL.fits.le (.slot i)), length_len hmax]
  have hbytes : writeAt NUL (w.get .idx).bytes (L.addr (some i))
      (t.record (L.addr t.next) (datOff L.slots i)) = (L.write i t).idx := by
    have haddr : L.addr (some i) = a.length := ha.symm
    rw [hw.idx, hidx, haddr, hwrite t hsize]
    exact writeAt_append NUL (by rw [hrlen, hsrec, htlen]) c
  -- the new text has the length of the old, so nothing behind it moves
  rw [dbWriteidx, wp_errQuitIf (by omega)]
  simp only [htext, Int.toNat_natCast]
  rw [if_neg (by omega), wp_errDumpIf (by omega), wp_onlyIf_of_not (by decide),
    wp_lseek_set (Int.natCast_nonneg _), wp_errDumpIf (by omega), Int.toNat_natCast, hrecord,
    wp_write, wp_errDumpIf (not_not.mpr hrlen), wp_onlyIf_of_not (by decide), ← ht]
  refine ⟨rfl, ⟨rfl, rfl, rfl⟩, rfl, ?_, ?_, ?_, hw.locks, hw.errno⟩
  · rw [World.overwrite, World.get_put, World.bytes_seek, World.pos_seek]
    exact hbytes
  · obtain ⟨a', c', -, hdat, hsame⟩ := dat_record hs
    rw [hsame, show ((World.overwrite _ _ _).get .dat).bytes = (w.get .dat).bytes from rfl,
      hw.dat, hdat, ht]
    rfl
  · intro f
    cases f <;> first | exact hw.present .idx | exact hw.present .dat

/-! ## At the end -/

/-- The process has no lock but those of hash chains. -/
def OnChains (locks : List Lock) : Prop := ∀ l ∈ locks, l.file = .idx ∧ 0 < l.start ∧ l.len = 1

/-- A lock that is given back leaves those of the hash chains. -/
theorem filter_unlock {l : Lock} (hlocks : OnChains locks) (hl : l.start = 0 ∨ l.len = 0) :
    ((l :: locks).filter fun l' =>
      ¬ (l'.file = l.file ∧ l'.start = l.start ∧ l'.len = l.len)) = locks := by
  rw [List.filter_cons_of_neg (by simp)]
  refine List.filter_eq_self.mpr fun l' hl' => ?_
  obtain ⟨-, hstart, hlen⟩ := hlocks l' hl'
  rw [decide_eq_true_eq]
  rintro ⟨-, hs, hn⟩
  omega

theorem locks_unlock {l : Lock} (hlocks : OnChains locks) (hl : l.start = 0 ∨ l.len = 0)
    (hw : w.locks = l :: locks) : (w.unlock l.file l.start l.len).locks = locks := by
  rw [World.unlock, hw]
  exact filter_unlock hlocks hl

/-- `_db_writedat` at the end of the data file. -/
theorem dbWritedat_fin_wp (hlocks : OnChains locks) (hw : L.On locks e w) (data : Str) :
    (dbWritedat db data 0 .fin).wp Call.apply E
      (fun db' w' => db' = { db with datoff := L.dat.length, datlen := data.length + 1 } ∧
        (w'.get .idx).bytes = L.idx ∧ (w'.get .dat).bytes = L.dat ++ (data ++ [newline]) ∧
        (∀ f, (w'.get f).present = true) ∧ w'.locks = locks ∧ w'.errno = e) w := by
  have hbytes : (w.get .dat).bytes = L.dat := hw.dat
  rw [dbWritedat, wp_onlyIf_of rfl, CallTree.bind_assoc, wp_writewLock,
    wp_errDumpIf Bool.noConfusion, wp_lseek_fin,
    show ((w.lock ⟨.dat, .write, 0, 0⟩).get .dat).bytes = L.dat from hbytes,
    wp_errDumpIf (by omega), wp_write, wp_errDumpIf (by simp), wp_onlyIf_of rfl,
    CallTree.bind_assoc, wp_unLock, wp_errDumpIf Bool.noConfusion]
  refine ⟨rfl, hw.idx, ?_, ?_, ?_, hw.errno⟩
  · show writeAt NUL (w.get .dat).bytes L.dat.length (data ++ [newline]) = _
    rw [hbytes]
    exact writeAt_length NUL _ _
  · intro f
    cases f <;> first | exact hw.present .idx | exact hw.present .dat
  · exact locks_unlock (l := ⟨.dat, .write, 0, 0⟩) hlocks (.inl rfl) (congrArg _ hw.locks)

/-- `_db_writeidx` at the end of the index file, once the data is there: the files have one
more slot. -/
theorem dbWriteidx_fin_wp (hL : L.Ok) (hlocks : OnChains locks) (hs : Sized s.key s.data)
    (hidx : (w.get .idx).bytes = L.idx) (hdat : (w.get .dat).bytes = L.dat ++ s.dat)
    (hpresent : ∀ f, (w.get f).present = true) (hwl : w.locks = locks) (he : w.errno = e)
    (hnext : ∀ j ∈ s.next, j < L.slots.length)
    (hbound : datOff L.slots L.slots.length < 1000000000)
    (hoff : db.datoff = L.dat.length) (hlen : db.datlen = s.data.length + 1) :
    (dbWriteidx db s.key 0 .fin (L.addr s.next)).wp Call.apply E
      (fun db' w' => db'.idxoff = idxOff L.slots L.slots.length ∧ db.Keeps db' ∧
        (L.append s).On locks e w') w := by
  have hdatlen : L.dat.length = datOff L.slots L.slots.length := by
    rw [datOff, List.take_length, Layout.dat]
  obtain ⟨hmin, hmax⟩ := length_text_le hs hbound
  have hp : (L.addr s.next : Int) ≤ ptrMax := by
    cases hn : s.next with
    | none => exact (by decide : (0 : Int) ≤ ptrMax)
    | some j => exact hL.offsets j (hnext j hn)
  have htext : recordText s.key db.datoff db.datlen = s.text L.dat.length := by
    rw [hoff, hlen]
    rfl
  rw [← hdatlen] at hmin hmax
  have hrecord : padded ptrSz (L.addr s.next) ++ padded idxlenSz (s.text L.dat.length).length ++
      s.text L.dat.length = s.record (L.addr s.next) L.dat.length := by
    rw [Slot.record, List.append_assoc]
  have hrlen : (s.record (L.addr s.next) L.dat.length).length =
      ptrSz + idxlenSz + (s.text L.dat.length).length := by
    rw [← hrecord, List.length_append, List.length_append, length_ptr hp, length_len hmax]
  rw [dbWriteidx, wp_errQuitIf (by omega)]
  simp only [htext, Int.toNat_natCast]
  rw [if_neg (by omega), wp_errDumpIf (by omega), wp_onlyIf_of trivial, CallTree.bind_assoc,
    wp_writewLock, wp_errDumpIf Bool.noConfusion, wp_lseek_fin,
    show ((w.lock ⟨.idx, .write, db.recordsOff, 0⟩).get .idx).bytes = L.idx from hidx,
    wp_errDumpIf (by omega), hrecord, wp_write, wp_errDumpIf (not_not.mpr hrlen),
    wp_onlyIf_of trivial, CallTree.bind_assoc, wp_unLock, wp_errDumpIf Bool.noConfusion]
  refine ⟨congrArg Int.ofNat (length_idx hL.fits), ⟨rfl, rfl, rfl⟩, ?_, ?_, ?_, ?_, he⟩
  · show writeAt NUL (w.get .idx).bytes L.idx.length _ = _
    rw [hidx, idx_append s hL.fits hnext]
    exact writeAt_length NUL _ _
  · rw [dat_append]
    exact hdat
  · intro f
    cases f <;> first | exact hpresent .idx | exact hpresent .dat
  · exact locks_unlock (l := ⟨.idx, .write, db.recordsOff, 0⟩) hlocks (.inr rfl)
      (congrArg _ hwl)

/-- The message of `_db_writeptr` at an offset that is too large. -/
def invalidPtr (offset : Nat) : Stop :=
  .quit ("_db_writeptr: invalid ptr: " ++ String.ofList (signed offset))

/-- A record at the end of the files, linked in front of its chain. Where its offset would not
have seven digits the process quits, with the record at the end and no link to it. -/
theorem appendRecord_wp (hL : L.Ok) (hlocks : OnChains locks) (hw : L.On locks e w)
    (hs : Sized s.key s.data) {loc : Loc} (hloc : L.Has loc) (hnext : s.next = L.next loc)
    (hbound : datOff L.slots L.slots.length < 1000000000)
    (hchain : db.chainoff = L.offset loc) (hslot : ∀ i, loc ≠ .slot i)
    (hE : ptrMax < idxOff L.slots L.slots.length → ∀ w', (L.append s).On locks e w' →
      E (invalidPtr (idxOff L.slots L.slots.length)) w') :
    (appendRecord db s.key s.data (L.addr s.next)).wp Call.apply E
      (fun db' w' => db.Keeps db' ∧ (idxOff L.slots L.slots.length : Int) ≤ ptrMax ∧
        ((L.append s).link loc (some L.slots.length)).On locks e w') w := by
  have hlinks : ∀ j ∈ s.next, j < L.slots.length := by
    intro j hj
    rw [hnext] at hj
    exact hL.links loc j hj
  rw [appendRecord]
  refine (dbWritedat_fin_wp hlocks hw s.data).bind ?_
  rintro _ w₁ ⟨rfl, hidx, hdat, hpresent, hwl, he⟩
  refine (dbWriteidx_fin_wp hL hlocks hs hidx hdat hpresent hwl he hlinks hbound rfl rfl).bind ?_
  rintro db₂ w₂ ⟨hoff, hkeeps, hon⟩
  have hoffset : db₂.chainoff = (L.append s).offset loc := by
    rw [hkeeps.chainoff]
    show db.chainoff = _
    rw [hchain]
    cases loc with
    | free => rfl
    | head k => rfl
    | slot i => exact absurd rfl (hslot i)
  have haddr : (L.append s).addr (some L.slots.length) = idxOff L.slots L.slots.length :=
    idxOff_append s (Nat.le_refl _)
  rw [hoff, hoffset]
  by_cases hle : (idxOff L.slots L.slots.length : Int) ≤ ptrMax
  · have hfit := hL.append_fits hlinks hle hs
    have hloc' : (L.append s).Has loc := by
      cases loc with
      | free => trivial
      | head k => exact hloc
      | slot i => exact absurd rfl (hslot i)
    rw [← haddr] at hle ⊢
    refine (dbWriteptr_wp hfit hloc' hon hle).bind fun _ w₃ hw₃ => ?_
    exact ⟨⟨hkeeps.chainoff, hkeeps.hashoff, hkeeps.nhash⟩, hle, hw₃⟩
  · rw [dbWriteptr, errQuitIf, if_pos (.inr (by omega))]
    exact hE (by omega) w₂ hon

end

end UnixSys.Db

import UnixSys.Db.Layout

/-!
# Files — a link or a record in the bytes of a layout

Around each place of the index file, and around each record of both files, the files are cut
into the part before it, the field, and the part behind it. The layout with another link or
record there has the same two parts.
-/

namespace UnixSys.Db

namespace Layout

variable {L : Layout}

/-! ## Widths -/

theorem Fits.le (h : L.Fits) (loc : Loc) : (L.addr (L.next loc) : Int) ≤ ptrMax := by
  cases hn : L.next loc with
  | none => exact (by decide : (0 : Int) ≤ ptrMax)
  | some i => exact (h.links loc i hn).2

/-- A chain pointer of seven digits has its width. -/
theorem length_ptr {p : Nat} (h : (p : Int) ≤ ptrMax) : (padded ptrSz p).length = ptrSz := by
  refine length_padded (by decide) ?_
  simp only [ptrMax, ptrSz] at h ⊢
  omega

theorem length_len {n : Nat} (h : n ≤ idxlenMax) : (padded idxlenSz n).length = idxlenSz := by
  refine length_padded (by decide) ?_
  simp only [idxlenMax, idxlenSz] at h ⊢
  omega

theorem next_of_mem_heads {p : Option Nat} (h : p ∈ L.heads) : ∃ loc, L.next loc = p := by
  obtain ⟨k, hk⟩ := List.mem_iff_getElem?.mp h
  exact ⟨.head k, by rw [next, hk]; rfl⟩

theorem next_slot {i : Nat} {s : Slot} (h : L.slots[i]? = some s) : L.next (.slot i) = s.next := by
  rw [next, h]
  rfl

theorem length_heads (h : L.Fits) {ps : List (Option Nat)} (hps : ∀ p ∈ ps, p ∈ L.heads) :
    (ps.flatMap fun p => padded ptrSz (L.addr p)).length = ps.length * ptrSz := by
  induction ps with
  | nil => rfl
  | cons p ps ih =>
      obtain ⟨loc, hloc⟩ := next_of_mem_heads (hps p List.mem_cons_self)
      have hp := length_ptr (h.le loc)
      rw [hloc] at hp
      rw [List.flatMap_cons, List.length_append, hp,
        ih fun q hq => hps q (List.mem_cons_of_mem p hq), List.length_cons]
      exact (Nat.succ_mul _ _).trans (Nat.add_comm _ _) |>.symm

/-- The free list pointer, the hash table and the newline. -/
def header (L : Layout) : Str :=
  padded ptrSz (L.addr L.free) ++ (L.heads.flatMap fun p => padded ptrSz (L.addr p)) ++ [newline]

theorem length_header (h : L.Fits) : L.header.length = headerSize := by
  have hfree : (padded ptrSz (L.addr L.free)).length = ptrSz := length_ptr (h.le .free)
  rw [header, List.length_append, List.length_append, hfree, length_heads h fun p hp => hp,
    L.heads_length]
  rfl

/-- The index records of the first slots. -/
theorem length_records_take (h : L.Fits) (n : Nat) :
    (records L.addr 0 (L.slots.take n)).length = span 0 (L.slots.take n) := by
  refine length_records (fun s hs => ?_) fun i s hs => ?_
  · obtain ⟨i, hi⟩ := List.mem_iff_getElem?.mp (List.mem_of_mem_take hs)
    rw [← next_slot hi]
    exact h.le _
  · obtain ⟨hi, hs'⟩ := List.getElem?_eq_some_iff.mp hs
    have hin : i < n := lt_of_lt_of_le hi (List.length_take_le n L.slots)
    rw [List.getElem?_take_of_lt hin] at hs
    rw [Nat.zero_add, List.take_take, Nat.min_eq_left (Nat.le_of_lt hin)]
    exact h.texts i s hs

theorem length_idx (h : L.Fits) : L.idx.length = idxOff L.slots L.slots.length := by
  have hrecords := length_records_take h L.slots.length
  rw [List.take_length] at hrecords
  rw [idx, ← header, List.length_append, length_header h, hrecords, idxOff, List.take_length]

/-! ## Records -/

section
variable {i : Nat} {s : Slot}

/-- A record of the index file. -/
theorem idx_record (hfit : L.Fits) (h : L.slots[i]? = some s) : ∃ a c,
    a.length = idxOff L.slots i ∧
    L.idx = a ++ s.record (L.addr s.next) (datOff L.slots i) ++ c ∧
    ∀ s' : Slot, s'.size = s.size → (L.write i s').idx =
      a ++ s'.record (L.addr s'.next) (datOff L.slots i) ++ c := by
  refine ⟨L.header ++ records L.addr 0 (L.slots.take i),
    records L.addr (datOff L.slots i + s.dat.length) (L.slots.drop (i + 1)), ?_, ?_, ?_⟩
  · rw [List.length_append, length_header hfit, length_records_take hfit, idxOff]
  · rw [idx, ← header]
    conv_lhs => rw [split_slots h]
    rw [records_append, records, Nat.zero_add]
    simp only [List.append_assoc]
    rfl
  · intro s' hs'
    have hdat : s'.dat.length = s.dat.length := by
      rw [length_dat, length_dat, show s'.data.length = s.data.length from congrArg Prod.snd hs']
    have haddr : (L.write i s').addr = L.addr := addr_congr (sizes_write h hs')
    have hheader : (L.write i s').header = L.header := by
      rw [header, header, haddr]
      rfl
    rw [idx, ← header, hheader, haddr, write_slots h, records_append, records, Nat.zero_add,
      hdat]
    simp only [List.append_assoc]
    rfl

/-- A record of the data file. -/
theorem dat_record (h : L.slots[i]? = some s) : ∃ a c,
    a.length = datOff L.slots i ∧ L.dat = a ++ s.dat ++ c ∧
    ∀ s' : Slot, (L.write i s').dat = a ++ s'.dat ++ c := by
  refine ⟨datBytes (L.slots.take i), datBytes (L.slots.drop (i + 1)), rfl, ?_, fun s' => ?_⟩
  · rw [dat]
    conv_lhs => rw [split_slots h]
    rw [datBytes_append, datBytes_cons, List.append_assoc]
  · rw [dat, write_slots h, datBytes_append, datBytes_cons, List.append_assoc]

end

/-! ## Links -/

/-- A chain pointer of the index file. -/
theorem idx_ptr (hfit : L.Fits) {loc : Loc} (h : L.Has loc) : ∃ a c,
    a.length = L.offset loc ∧ L.idx = a ++ padded ptrSz (L.addr (L.next loc)) ++ c ∧
    ∀ p, (L.link loc p).idx = a ++ padded ptrSz (L.addr p) ++ c := by
  cases loc with
  | free =>
      refine ⟨[], (L.heads.flatMap fun p => padded ptrSz (L.addr p)) ++
        [newline] ++ records L.addr 0 L.slots, rfl, ?_, fun p => ?_⟩
      · simp [idx, next]
      · rw [idx, addr_link]
        simp [link]
  | head k =>
      have hk : k < L.heads.length := L.heads_length ▸ h
      have hcut : L.heads = L.heads.take k ++ L.heads[k] :: L.heads.drop (k + 1) := by
        rw [← List.drop_eq_getElem_cons hk, List.take_append_drop]
      refine ⟨padded ptrSz (L.addr L.free) ++
          (L.heads.take k).flatMap fun p => padded ptrSz (L.addr p),
        ((L.heads.drop (k + 1)).flatMap fun p => padded ptrSz (L.addr p)) ++
          [newline] ++ records L.addr 0 L.slots, ?_, ?_, fun p => ?_⟩
      · have hfree : (padded ptrSz (L.addr L.free)).length = ptrSz := length_ptr (hfit.le .free)
        rw [List.length_append, hfree,
          length_heads hfit fun p hp => List.mem_of_mem_take hp, List.length_take_of_le (Nat.le_of_lt hk)]
        exact (Nat.add_comm _ _).trans (Nat.succ_mul _ _).symm
      · have hnext : L.next (.head k) = L.heads[k] := by
          rw [next, List.getElem?_eq_getElem hk]
          rfl
        have hheads := congrArg (List.flatMap fun p => padded ptrSz (L.addr p)) hcut
        rw [List.flatMap_append, List.flatMap_cons] at hheads
        rw [hnext, idx, hheads]
        simp only [List.append_assoc]
      · have hset : (L.link (.head k) p).heads = L.heads.take k ++ p :: L.heads.drop (k + 1) :=
          List.set_eq_take_append_cons_drop.trans (if_pos hk)
        rw [idx, addr_link, hset]
        simp [link]
  | slot i =>
      obtain ⟨s, hs⟩ : ∃ s, L.slots[i]? = some s := ⟨_, List.getElem?_eq_getElem h⟩
      obtain ⟨a, c, ha, hidx, hwrite⟩ := idx_record hfit hs
      refine ⟨a, padded idxlenSz (s.text (datOff L.slots i)).length ++
        s.text (datOff L.slots i) ++ c, ha, ?_, fun p => ?_⟩
      · rw [hidx, Slot.record, next_slot hs]
        simp
      · rw [link_slot hs, hwrite { s with next := p } rfl, Slot.record]
        simp only [List.append_assoc]
        rfl

/-! ## One more slot -/

section
variable (s : Slot)

theorem idxOff_append {slots : List Slot} {i : Nat} (h : i ≤ slots.length) :
    idxOff (slots ++ [s]) i = idxOff slots i := by
  rw [idxOff, idxOff, List.take_append_of_le_length h]

theorem addr_append {p : Option Nat} (h : ∀ i ∈ p, i ≤ L.slots.length) :
    (L.append s).addr p = L.addr p := by
  cases p with
  | none => rfl
  | some i => exact idxOff_append s (h i rfl)

theorem records_congr {addr addr' : Option Nat → Nat} {off : Nat} {slots : List Slot}
    (h : ∀ s ∈ slots, addr s.next = addr' s.next) :
    records addr off slots = records addr' off slots := by
  induction slots generalizing off with
  | nil => rfl
  | cons t slots ih =>
      rw [records, records, h t List.mem_cons_self,
        ih fun t' ht' => h t' (List.mem_cons_of_mem t ht')]

theorem idx_append (hfit : L.Fits) (hs : ∀ i ∈ s.next, i < L.slots.length) :
    (L.append s).idx = L.idx ++ s.record (L.addr s.next) L.dat.length := by
  have haddr : ∀ loc, (L.append s).addr (L.next loc) = L.addr (L.next loc) := fun loc =>
    addr_append s fun i hi => Nat.le_of_lt (hfit.links loc i hi).1
  have hheader : (L.append s).header = L.header := by
    have hheads : (L.heads.flatMap fun p => padded ptrSz ((L.append s).addr p)) =
        L.heads.flatMap fun p => padded ptrSz (L.addr p) := by
      refine List.flatMap_congr fun p hp => ?_
      obtain ⟨loc, rfl⟩ := next_of_mem_heads hp
      rw [haddr]
    have hfree := haddr .free
    rw [header, header, ← hheads]
    simp only [next] at hfree
    simp only [append] at hfree ⊢
    rw [hfree]
  have hrecords : records (L.append s).addr 0 L.slots = records L.addr 0 L.slots := by
    refine records_congr fun t ht => ?_
    obtain ⟨i, hi⟩ := List.mem_iff_getElem?.mp ht
    rw [← next_slot hi, haddr]
  rw [idx, ← header, hheader]
  show _ ++ records (L.append s).addr 0 (L.slots ++ [s]) = _
  rw [records_append, hrecords, records, records, List.append_nil,
    addr_append s fun i hi => Nat.le_of_lt (hs i hi), Nat.zero_add, idx, ← header, List.append_assoc]
  rfl

theorem dat_append : (L.append s).dat = L.dat ++ s.dat := by
  rw [dat, dat, append, datBytes_append]
  simp

end

end Layout

end UnixSys.Db

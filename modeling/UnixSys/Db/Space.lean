import UnixSys.Db.Session

/-!
# Space — when the files of a database grow

A store makes both files longer by one record, or leaves their lengths as they are. It grows
when there is no free record of the same lengths for a new key, and whenever the data of a
key changes its length: the search for a free record is left out there. A store that would
have to grow files which are too long already ends the process.
-/

namespace UnixSys.Db

open Layout

section
variable {L L' : Layout} {e e' : Option Errno} {w w' : World} {db db' : DB}
  {m : Str → Option Str} {key data : Str} {flag rc : Int} {locks locks' : List Lock}

/-- The length of the index file. -/
theorem Layout.On.length_idx (h : L.Ok) (hw : L.On locks e w) :
    (w.get .idx).bytes.length = idxOff L.slots L.slots.length := by
  rw [hw.idx, Layout.length_idx h.fits]

theorem Layout.On.length_dat (hw : L.On locks e w) :
    (w.get .dat).bytes.length = (datBytes L.slots).length := by
  rw [hw.dat, Layout.dat]

/-- Layouts with the same lengths of records have files of the same lengths. -/
theorem lengths_congr (h : L.Ok) (hw : L.On locks e w) (h' : L'.Ok) (hw' : L'.On locks' e' w')
    (hsizes : L'.slots.map Slot.size = L.slots.map Slot.size) (f : File) :
    (w'.get f).bytes.length = (w.get f).bytes.length := by
  have hslots := congrArg List.length hsizes
  rw [List.length_map, List.length_map] at hslots
  cases f with
  | idx => rw [hw.length_idx h, hw'.length_idx h', hslots, idxOff_congr hsizes]
  | dat => rw [hw.length_dat, hw'.length_dat, length_datBytes_congr hsizes]

/-- With one more record, both files are longer by that record. -/
theorem lengths_append (h : L.Ok) (hw : L.On locks e w) (h' : L'.Ok) (hw' : L'.On locks' e' w')
    (hsizes : L'.slots.map Slot.size = L.slots.map Slot.size ++ [(key.length, data.length)]) :
    (w'.get .dat).bytes.length = (w.get .dat).bytes.length + (data.length + 1) ∧
    (w'.get .idx).bytes.length = (w.get .idx).bytes.length +
      recordSize key data (w.get .dat).bytes.length := by
  have happend : L'.slots.map Slot.size = (L.slots ++ [Slot.mk none key data]).map Slot.size := by
    rw [hsizes, List.map_append]
    rfl
  constructor
  · rw [hw.length_dat, hw'.length_dat, length_datBytes_congr happend]
    simp
  · rw [hw.length_idx h, hw'.length_idx h', hw.length_dat, idxOff_grown hsizes]

/-- Whether a store adds a record: it is not refused, and finds no room. -/
def Layout.Adds (L : Layout) (m : Str → Option Str) (key data : Str) (flag : Int)
    (e : Option Errno) : Prop :=
  (storeSpec m key data flag e).1 = 0 ∧ L.Grows m key data

/-- A store that adds no record returns and leaves the lengths of the files as they are. One
that adds a record makes both files longer by it, or ends the process when the index file is
too long. -/
theorem dbStore_space (h : L.Models m) (hw : L.On [] e w) (hdb : db.Opened)
    (hok : Storable key data) :
    (¬ L.Adds m key data flag e → ∃ db' w',
      (dbStore db key data flag).exec w = (.ok ((storeSpec m key data flag e).1, db'), w') ∧
      ∀ f, (w'.get f).bytes.length = (w.get f).bytes.length) ∧
    (L.Adds m key data flag e → (w.get .idx).bytes.length ≤ ptrMax → ∃ db' w',
      (dbStore db key data flag).exec w = (.ok (0, db'), w') ∧
      (w'.get .dat).bytes.length = (w.get .dat).bytes.length + (data.length + 1) ∧
      (w'.get .idx).bytes.length = (w.get .idx).bytes.length +
        recordSize key data (w.get .dat).bytes.length) ∧
    (L.Adds m key data flag e → ptrMax < (w.get .idx).bytes.length → ∃ stop w',
      (dbStore db key data flag).exec w = (.stop stop, w')) := by
  have hwp := dbStore_wp (E := fun _ _ => L.Adds m key data flag e ∧ L.Full) flag h hw hdb hok
    fun hzero hgrows hfull _ _ _ => ⟨⟨hzero, hgrows⟩, hfull⟩
  obtain ⟨_, _, hwf, _⟩ := h
  have hfull : ptrMax < (w.get .idx).bytes.length ↔ L.Full := by
    rw [hw.length_idx hwf.toOk, Full]
  rw [hfull, ← Int.not_lt, hfull]
  rcases CallTree.wp_iff_run.mp hwp with
    ⟨⟨rc, db'⟩, w', hrun, -, rfl, L', ⟨_, _, hwf', _⟩, hgrown, hw'⟩ | ⟨stop, w', hrun, hadds, hL⟩
  · rcases hgrown with ⟨hgrows, hroom, hsizes⟩ | ⟨hgrows, hsizes⟩
    · refine ⟨fun hno => absurd hgrows hno, fun _ _ => ⟨db', w', ?_, ?_⟩,
        fun _ hL => absurd hL hroom⟩
      · exact hgrows.1 ▸ hrun
      · exact lengths_append hwf.toOk hw hwf'.toOk hw' hsizes
    · exact ⟨fun _ => ⟨db', w', hrun, lengths_congr hwf.toOk hw hwf'.toOk hw' hsizes⟩,
        fun hyes => absurd hyes hgrows, fun hyes => absurd hyes hgrows⟩
  · exact ⟨fun hno => absurd hadds hno, fun _ hroom => absurd hL hroom,
      fun _ _ => ⟨stop, w', hrun⟩⟩

theorem alpha_space : ∃ db' w',
    (dbStore dbAlloc "Alpha".toList "data1".toList Flag.dbInsert).exec Layout.empty.world =
      (.ok (0, db'), w') ∧
    (w'.get .dat).bytes.length = (Layout.empty.world.get .dat).bytes.length + 6 ∧
    (w'.get .idx).bytes.length = (Layout.empty.world.get .idx).bytes.length +
      recordSize "Alpha".toList "data1".toList (Layout.empty.world.get .dat).bytes.length := by
  have hadds : Layout.empty.Adds (fun _ => none) "Alpha".toList "data1".toList Flag.dbInsert
      none := by
    refine ⟨rfl, .inl ⟨rfl, ?_⟩⟩
    rintro ⟨i, s, -, hs, -⟩
    cases hs
  refine (dbStore_space .empty Layout.empty.on_world opened_dbAlloc (by decide)).2.1 hadds ?_
  obtain ⟨_, _, h, _⟩ := Layout.Models.empty
  rw [Layout.empty.on_world.length_idx h.toOk]
  decide

/-- A record that is deleted makes room for another of its lengths: neither file grows, and
the process is not ended. -/
theorem delete_store_wp {new old : Str} (h : L.Models m) (hw : L.On [] e w) (hdb : db.Opened)
    (hlen : key.length < 8000000) (hold : m key = some old) (hok : Storable new data)
    (hkey : new.length = key.length) (hdata : data.length = old.length)
    (hnew : m new = none ∨ new = key) (hflag : flag = Flag.dbInsert ∨ flag = Flag.dbStore) :
    (dbDelete db key >>= fun r => dbStore r.2 new data flag).wp Call.apply (fun _ _ => False)
      (fun r w' => r.1 = 0 ∧
        (⟨Function.update (Function.update m key none) new (some data), e⟩ : Content).On w' ∧
        ∀ f, (w'.get f).bytes.length = (w.get f).bytes.length) w := by
  refine (dbDelete_wp h hw hdb hlen).bind ?_
  rintro ⟨rc, db₁⟩ w₁ ⟨-, hopened, L₁, hmodels, hfree, hsizes, hw₁⟩
  have hnone : Function.update m key none new = none := by
    rw [Function.update_apply]
    split
    · rfl
    · next hne => exact hnew.resolve_right hne
  have hspec : storeSpec (Function.update m key none) new data flag e =
      (0, e, Function.update (Function.update m key none) new (some data)) := by
    rcases hflag with rfl | rfl <;> rw [storeSpec, if_neg (by decide), if_pos hnone, if_neg (by decide)]
  have hgrows : ¬ L₁.Grows (Function.update m key none) new data := by
    rintro (⟨-, hnofree⟩ | ⟨d, hd, -⟩)
    · rw [hkey, hdata] at hnofree
      exact hnofree (hfree old hold)
    · cases hnone.symm.trans hd
  refine (dbStore_wp flag hmodels hw₁ hopened hok fun _ hyes => absurd hyes hgrows).mono
    (fun _ _ h => h) ?_
  rintro ⟨rc', db₂⟩ w₂ ⟨-, hrc, L₂, hmodels₂, hgrown, hw₂⟩
  rw [hspec] at hrc hmodels₂ hw₂
  refine ⟨hrc, ⟨L₂, hmodels₂, hw₂⟩, ?_⟩
  obtain ⟨_, _, hwf₂, _⟩ := hmodels₂
  obtain ⟨_, _, hwf, _⟩ := h
  rcases hgrown with ⟨hyes, -⟩ | ⟨-, hsizes₂⟩
  · exact absurd hyes.2 hgrows
  · exact lengths_congr hwf.toOk hw hwf₂.toOk hw₂ (hsizes₂.trans hsizes)

/-- The run of a delete and a store. -/
theorem delete_store_space {new old : Str} (h : L.Models m) (hw : L.On [] e w) (hdb : db.Opened)
    (hlen : key.length < 8000000) (hold : m key = some old) (hok : Storable new data)
    (hkey : new.length = key.length) (hdata : data.length = old.length)
    (hnew : m new = none ∨ new = key) (hflag : flag = Flag.dbInsert ∨ flag = Flag.dbStore) :
    ∃ db' w', Io.exec (dbDelete db key >>= fun r => dbStore r.2 new data flag) w =
        (.ok (0, db'), w') ∧
      (⟨Function.update (Function.update m key none) new (some data), e⟩ : Content).On w' ∧
      ∀ f, (w'.get f).bytes.length = (w.get f).bytes.length := by
  have hwp := delete_store_wp h hw hdb hlen hold hok hkey hdata hnew hflag
  rcases CallTree.wp_iff_run.mp hwp with ⟨⟨rc, db'⟩, w', hrun, rfl, hc, hlens⟩ | ⟨_, _, _, hfalse⟩
  · exact ⟨db', w', hrun, hc, hlens⟩
  · exact hfalse.elim

/-- A database of one record. -/
def alpha : Layout :=
  Layout.empty.extend (hashOf "Alpha".toList) "Alpha".toList "data1".toList

theorem alpha_models :
    alpha.Models (Function.update (fun _ => none) "Alpha".toList (some "data1".toList)) := by
  obtain ⟨nodes, tbl, h, hc⟩ := Layout.Models.empty
  rw [← hc]
  refine Models.extend h (by decide) (h.contents_eq_none_iff.mp (by rw [hc])) ?_
  decide

theorem alpha_omega_space : ∃ db' w',
    Io.exec (dbDelete dbAlloc "Alpha".toList >>= fun r =>
      dbStore r.2 "Omega".toList "data2".toList Flag.dbInsert) alpha.world = (.ok (0, db'), w') ∧
    (⟨Function.update (Function.update
        (Function.update (fun _ => none) "Alpha".toList (some "data1".toList))
        "Alpha".toList none) "Omega".toList (some "data2".toList), none⟩ : Content).On w' ∧
    ∀ f, (w'.get f).bytes.length = (alpha.world.get f).bytes.length :=
  delete_store_space alpha_models alpha.on_world opened_dbAlloc (by decide)
    (Function.update_self _ _ _) (by decide) rfl rfl
    (.inl (Function.update_of_ne (by decide) _ _)) (.inl rfl)

end

end UnixSys.Db

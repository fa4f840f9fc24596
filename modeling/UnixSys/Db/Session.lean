import UnixSys.Db.Scan

/-!
# Session — a process and its database

A session opens a new database and then does operations, one after the other. What they
answer is what a map from keys would answer. The session ends early when a store needs an
offset of more than seven digits, and in no other way.
-/

namespace UnixSys.Db

open Layout

/-! ## db_open, db_close -/

/-- A database without records. -/
def Layout.empty : Layout where
  free := none
  heads := List.replicate nhashDef none
  slots := []
  heads_length := List.length_replicate

theorem Layout.next_empty (loc : Loc) : Layout.empty.next loc = none := by
  cases loc with
  | free => rfl
  | head k =>
      rw [next, empty, List.getElem?_replicate]
      split <;> rfl
  | slot i => rfl

theorem Layout.idx_empty : Layout.empty.idx = emptyIdx := by
  rw [emptyIdx, List.replicate_succ, List.flatten_cons, idx]
  have hheads : (empty.heads.flatMap fun p => padded ptrSz (empty.addr p)) =
      (List.replicate nhashDef (padded ptrSz 0)).flatten := by
    rw [empty, List.flatMap_def, List.map_replicate]
    rfl
  rw [hheads]
  simp [empty, records]

theorem Layout.Models.empty : Layout.empty.Models fun _ => none := by
  refine ⟨fun _ => [], fun _ => none, ⟨⟨?_, ?_, ?_⟩, ⟨?_, ?_, ?_⟩, ?_, ?_, ?_, ?_, ?_⟩, rfl⟩
  · intro loc i h
    rw [next_empty] at h
    cases h
  · exact fun i hi => absurd hi (Nat.not_lt_zero i)
  · exact fun s hs => absurd hs List.not_mem_nil
  · exact fun r => next_empty r.loc
  · exact fun _ => List.nodup_nil
  · exact fun _ _ i hi => absurd hi List.not_mem_nil
  · exact fun i hi => absurd hi (Nat.not_lt_zero i)
  · exact fun _ i _ hi => absurd hi List.not_mem_nil
  · exact fun _ i _ hi => absurd hi List.not_mem_nil
  · exact fun _ i hi => by cases hi
  · exact fun i _ hi => absurd hi List.not_mem_nil

section
variable {E : Stop → World → Prop} {L : Layout} {locks : List Lock} {e : Option Errno} {w : World}
  {db : DB} {m : Str → Option Str}

/-- The world with the files of a layout. -/
def Layout.world (L : Layout) : World := ⟨⟨true, L.idx, 0⟩, ⟨true, L.dat, 0⟩, [], none⟩

theorem Layout.on_world (L : Layout) : L.On [] none L.world :=
  ⟨rfl, rfl, fun f => by cases f <;> rfl, rfl, rfl⟩

theorem opened_dbAlloc : dbAlloc.Opened := ⟨rfl, rfl⟩

/-- The initialization of an index file that is empty. -/
theorem initIdx_wp (hidx : w.idx = ⟨true, [], 0⟩) (hdat : w.dat = ⟨true, [], 0⟩)
    (hlocks : w.locks = []) (he : w.errno = e) :
    initIdx.wp Call.apply E (fun _ w' => Layout.empty.On [] e w') w := by
  obtain ⟨idx, dat, locks, errno⟩ := w
  subst hidx hdat hlocks he
  have hempty := Layout.idx_empty
  rw [initIdx]
  generalize emptyIdx = bytes at hempty ⊢
  rw [wp_writewLock, wp_errDumpIf Bool.noConfusion, wp_fstat]
  dsimp only
  rw [wp_onlyIf_of (by rfl), CallTree.bind_assoc, wp_write, wp_errDumpIf (not_not.mpr rfl),
    wp_unLock, errDumpIf, if_neg Bool.noConfusion]
  refine ⟨?_, rfl, fun f => by cases f <;> rfl, rfl, rfl⟩
  rw [hempty]
  exact writeAt_length NUL [] bytes

/-- `db_open` with `O_CREAT` and `O_TRUNC` makes a database without records. -/
theorem dbOpen_new_wp (hlocks : w.locks = []) (he : w.errno = e) :
    (dbOpen true true).wp Call.apply E
      (fun r w' => ∃ db, r = some db ∧ db.Opened ∧ Layout.empty.On [] e w') w := by
  obtain ⟨w₁, hw₁⟩ : ∃ w₁, w₁ = (w.put .idx ⟨true, [], 0⟩).put .dat ⟨true, [], 0⟩ := ⟨_, rfl⟩
  have hidx : w₁.idx = ⟨true, [], 0⟩ := by rw [hw₁]; rfl
  have hdat : w₁.dat = ⟨true, [], 0⟩ := by rw [hw₁]; rfl
  have hlocks₁ : w₁.locks = [] := by rw [hw₁]; exact hlocks
  have he₁ : w₁.errno = e := by rw [hw₁]; exact he
  rw [dbOpen, wp_openFile (Bool.or_true _), wp_openFile (Bool.or_true _), if_pos rfl, if_pos rfl,
    ← hw₁, if_neg (by decide), wp_onlyIf_of ⟨rfl, rfl⟩]
  refine (initIdx_wp hidx hdat hlocks₁ he₁).bind fun _ w₂ hw₂ => ?_
  refine (dbRewind_wp hw₂ opened_dbAlloc).bind ?_
  rintro db w₃ ⟨hopened, hw₃, -⟩
  exact ⟨db, rfl, hopened, hw₃⟩

theorem Layout.On.reopen (hw : L.On locks e w) (f : File) :
    L.On locks e (w.put f ⟨true, (w.get f).bytes, 0⟩) := by
  cases f with
  | idx =>
      exact ⟨hw.idx, hw.dat, fun f => by cases f <;> first | rfl | exact hw.present .dat,
        hw.locks, hw.errno⟩
  | dat =>
      exact ⟨hw.idx, hw.dat, fun f => by cases f <;> first | rfl | exact hw.present .idx,
        hw.locks, hw.errno⟩

/-- Without these flags it opens the database that there is. -/
theorem dbOpen_old_wp (hw : L.On locks e w) :
    (dbOpen false false).wp Call.apply E
      (fun r w' => ∃ db, r = some db ∧ db.Opened ∧ L.On locks e w') w := by
  have hw₁ := hw.reopen .idx
  have hw₂ := hw₁.reopen .dat
  have hor : ∀ {b : Bool}, b = true → (b || false) = true := fun hb => by rw [hb]; rfl
  rw [dbOpen, wp_openFile (hor (hw.present .idx)), if_neg Bool.false_ne_true,
    wp_openFile (hor (hw₁.present .dat)), if_neg Bool.false_ne_true, if_neg (by decide),
    wp_onlyIf_of_not (by decide)]
  refine (dbRewind_wp hw₂ opened_dbAlloc).bind ?_
  rintro db w₃ ⟨hopened, hw₃, -⟩
  exact ⟨db, rfl, hopened, hw₃⟩

/-- The process has no lock that it could lose. -/
theorem dbClose_wp (hw : L.On [] e w) :
    dbClose.wp Call.apply E (fun _ w' => L.On [] e w') w := by
  have hclosed : ∀ {w : World} f, L.On [] e w → L.On [] e (w.closed f) := by
    intro w f hw
    refine ⟨hw.idx, hw.dat,
      fun g => by cases g <;> first | exact hw.present .idx | exact hw.present .dat,
      ?_, hw.errno⟩
    rw [World.closed, hw.locks]
    rfl
  exact hclosed .dat (hclosed .idx hw)

end

/-! ## Operations -/

/-- What a process does with its database. `scan` is a loop of `db_nextrec` from `db_rewind`
on, `reopen` is `db_close` and `db_open`. -/
inductive Op where
  | store (key data : Str) (flag : Int)
  | fetch (key : Str)
  | delete (key : Str)
  | scan
  | reopen

inductive Answer where
  | stored (rc : Int)
  | fetched (data : Option Str)
  | deleted (rc : Int)
  | scanned (entries : List (Str × Str))
  | reopened

def Op.perform : Op → DB → Io (Answer × DB)
  | .store key data flag, db => do
      let (rc, db) ← dbStore db key data flag
      pure (.stored rc, db)
  | .fetch key, db => do
      let (data, db) ← dbFetch db key
      pure (.fetched data, db)
  | .delete key, db => do
      let (rc, db) ← dbDelete db key
      pure (.deleted rc, db)
  | .scan, db => do
      let (entries, db) ← UnixSys.Db.scan db
      pure (.scanned entries, db)
  | .reopen, _ => do
      dbClose
      match ← dbOpen false false with
      | none => .stop (.sys "db_open error")
      | some db => pure (.reopened, db)

/-- Operations one after the other. -/
def session : List Op → DB → Io (List Answer × DB)
  | [], db => pure ([], db)
  | op :: ops, db => do
      let (answer, db) ← op.perform db
      let (answers, db) ← session ops db
      pure (answer :: answers, db)

/-- The operations of `t4.c`. -/
def t4 : List Op :=
  [.store "Alpha".toList "data1".toList Flag.dbInsert,
    .store "beta".toList "Data for beta".toList Flag.dbInsert,
    .store "gamma".toList "record3".toList Flag.dbInsert]

/-- What may be asked for: keys and data that can be stored, and keys whose hash is
defined. -/
def Op.Ok : Op → Prop
  | .store key data _ => Storable key data
  | .fetch key | .delete key => key.length < 8000000
  | .scan | .reopen => True

theorem t4_ok : ∀ op ∈ t4, op.Ok := by
  intro op hop
  simp only [t4, List.mem_cons, List.not_mem_nil, or_false] at hop
  rcases hop with rfl | rfl | rfl <;> rw [Op.Ok] <;> decide

/-! ## The same on a map -/

/-- The contents of a database, and `errno`. -/
structure Content where
  map : Str → Option Str
  errno : Option Errno

/-- What an operation answers, and what it does to the contents. -/
inductive Op.Spec : Op → Content → Answer → Content → Prop where
  | store (key data : Str) (flag : Int) (c : Content) :
      Op.Spec (.store key data flag) c (.stored (storeSpec c.map key data flag c.errno).1)
        ⟨(storeSpec c.map key data flag c.errno).2.2, (storeSpec c.map key data flag c.errno).2.1⟩
  | fetch (key : Str) (c : Content) : Op.Spec (.fetch key) c (.fetched (c.map key)) c
  | delete (key : Str) (c : Content) :
      Op.Spec (.delete key) c (.deleted (if c.map key = none then -1 else 0))
        { c with map := Function.update c.map key none }
  | scan (entries : List (Str × Str)) (c : Content) (hnodup : (entries.map Prod.fst).Nodup)
      (hmem : ∀ key data, (key, data) ∈ entries ↔
        c.map key = some data ∧ ¬ ∀ b ∈ key, b = space) :
      Op.Spec .scan c (.scanned entries) c
  | reopen (c : Content) : Op.Spec .reopen c .reopened c

/-- The answers to operations one after the other. -/
inductive Answers : List Op → Content → List Answer → Content → Prop where
  | nil (c : Content) : Answers [] c [] c
  | cons {op : Op} {ops : List Op} {c c' c'' : Content} {answer : Answer}
      {answers : List Answer} (hop : op.Spec c answer c') (hops : Answers ops c' answers c'') :
      Answers (op :: ops) c (answer :: answers) c''

/-- The database in the files of a world, without any lock. -/
def Content.On (c : Content) (w : World) : Prop :=
  ∃ L : Layout, L.Models c.map ∧ L.On [] c.errno w

/-- How a session may end early: a store has come to an offset that is too large. The
operations before it were answered, and the files have its record, in no chain. -/
def EndsAt (ops : List Op) (c : Content) (stop : Stop) (w : World) : Prop :=
  ∃ ops₁ key data flag ops₂ answers c', ops = ops₁ ++ Op.store key data flag :: ops₂ ∧
    Answers ops₁ c answers c' ∧
    Quits c'.map key data [chainLock .write (hashOf key)] c'.errno stop w

/-- The layout has the records of `L`, and one more at most: that of a store. -/
def Op.Extends (op : Op) (L L' : Layout) : Prop :=
  L'.slots.map Slot.size = L.slots.map Slot.size ∨
  ∃ key data flag, op = .store key data flag ∧
    L'.slots.map Slot.size = L.slots.map Slot.size ++ [(key.length, data.length)]

/-- The length of the index record of a key, with data at `off`. -/
def recordSize (key data : Str) (off : Nat) : Nat :=
  ptrSz + idxlenSz + (recordText key off (data.length + 1)).length

/-- The most that an operation adds to the index file: offsets of data have nine digits at
most. -/
def Op.room : Op → Nat
  | .store key _ _ => ptrSz + idxlenSz + (key.length + 16)
  | .fetch _ | .delete _ | .scan | .reopen => 0

section
variable {E : Stop → World → Prop} {L L' : Layout} {w : World} {db : DB} {c : Content} {op : Op}
  {ops : List Op} {key data : Str}

/-- The end of the index file, with one more record. -/
theorem idxOff_grown
    (hsizes : L'.slots.map Slot.size = L.slots.map Slot.size ++ [(key.length, data.length)]) :
    idxOff L'.slots L'.slots.length = idxOff L.slots L.slots.length +
      recordSize key data (datBytes L.slots).length := by
  have happend : L'.slots.map Slot.size = (L.slots ++ [Slot.mk none key data]).map Slot.size := by
    rw [hsizes, List.map_append]
    rfl
  have hslots := congrArg List.length happend
  rw [List.length_map, List.length_map] at hslots
  rw [hslots, idxOff_congr happend, idxOff, idxOff, List.take_length, List.take_length,
    span_append, span, span, Nat.zero_add, Nat.add_zero, recordSize, Slot.text,
    Nat.add_assoc headerSize]

/-- An operation adds its room at most. -/
theorem Op.Extends.end_le (h : L.Ok) (hop : op.Ok) (hext : op.Extends L L') :
    idxOff L'.slots L'.slots.length ≤ idxOff L.slots L.slots.length + op.room := by
  rcases hext with hsizes | ⟨key, data, flag, rfl, hsizes⟩
  · have hslots := congrArg List.length hsizes
    rw [List.length_map, List.length_map] at hslots
    rw [hslots, idxOff_congr hsizes]
    exact Nat.le_add_right _ _
  · have hoff := h.datOff_lt (Nat.le_refl _)
    rw [datOff, List.take_length] at hoff
    have hdata := hop.data_le
    simp only [datlenMax] at hdata
    have hd1 := length_decimal_lt (by decide : 0 < 9)
      (show (datBytes L.slots).length < 10 ^ 9 by omega)
    have hd2 := length_decimal_lt (by decide : 0 < 4) (show data.length + 1 < 10 ^ 4 by omega)
    have hlen := length_text ⟨none, key, data⟩ (datBytes L.slots).length
    simp only [Slot.text] at hlen
    rw [idxOff_grown hsizes, recordSize, hlen, Op.room]
    omega

/-- The step: one operation. -/
theorem perform_wp (hL : L.Models c.map) (hw : L.On [] c.errno w) (hdb : db.Opened)
    (hop : op.Ok)
    (hE : ∀ key data flag, op = .store key data flag → L.Full → ∀ stop w',
      Quits c.map key data [chainLock .write (hashOf key)] c.errno stop w' → E stop w') :
    (op.perform db).wp Call.apply E
      (fun r w' => ∃ c', op.Spec c r.1 c' ∧ r.2.Opened ∧ ∃ L' : Layout, L'.Models c'.map ∧
        L'.On [] c'.errno w' ∧ op.Extends L L') w := by
  cases op with
  | store key data flag =>
      refine (dbStore_wp flag hL hw hdb hop fun _ _ hfull => hE key data flag rfl hfull).bind ?_
      rintro ⟨rc, db₁⟩ w₁ ⟨hopened, rfl, L', hmodels, hgrown, hw₁⟩
      refine ⟨_, .store key data flag c, hopened, L', hmodels, hw₁, ?_⟩
      rcases hgrown with ⟨-, -, hsizes⟩ | ⟨-, hsizes⟩
      · exact .inr ⟨key, data, flag, rfl, hsizes⟩
      · exact .inl hsizes
  | fetch key =>
      refine (dbFetch_wp hL hw hdb hop).bind ?_
      rintro ⟨data, db₁⟩ w₁ ⟨rfl, hopened, hw₁⟩
      exact ⟨c, .fetch key c, hopened, L, hL, hw₁, .inl rfl⟩
  | delete key =>
      refine (dbDelete_wp hL hw hdb hop).bind ?_
      rintro ⟨rc, db₁⟩ w₁ ⟨rfl, hopened, L', hmodels, -, hsizes, hw₁⟩
      exact ⟨_, .delete key c, hopened, L', hmodels, hw₁, .inl hsizes⟩
  | scan =>
      obtain ⟨nodes, tbl, h, hcontents⟩ := hL
      refine (scan_wp h.toOk hw hdb).bind ?_
      rintro ⟨entries, db₁⟩ w₁ ⟨rfl, hopened, hw₁⟩
      refine ⟨c, .scan _ c h.nodup_entries fun key data => ?_, hopened, L,
        ⟨nodes, tbl, h, hcontents⟩, hw₁, .inl rfl⟩
      rw [h.mem_entries, hcontents]
  | reopen =>
      refine (dbClose_wp hw).bind fun _ w₁ hw₁ => ?_
      refine (dbOpen_old_wp hw₁).bind ?_
      rintro _ w₂ ⟨db₁, rfl, hopened, hw₂⟩
      exact ⟨c, .reopen c, hopened, L, hL, hw₂, .inl rfl⟩

/-- The run: the operations one after the other. It ends early only when the records of the
operations have no room in the index file. -/
theorem session_wp (hL : L.Models c.map) (hw : L.On [] c.errno w) (hdb : db.Opened)
    (hops : ∀ op ∈ ops, op.Ok) :
    (session ops db).wp Call.apply
      (fun stop w' => EndsAt ops c stop w' ∧
        ptrMax < (idxOff L.slots L.slots.length + (ops.map Op.room).sum : Int))
      (fun r w' => ∃ c', Answers ops c r.1 c' ∧ c'.On w') w := by
  induction ops generalizing L db c w with
  | nil => exact ⟨c, .nil c, L, hL, hw⟩
  | cons op ops ih =>
      have hok := hops op List.mem_cons_self
      rw [List.map_cons, List.sum_cons]
      refine (perform_wp hL hw hdb hok ?_).bind ?_
      · rintro key data flag rfl hfull stop w' hquits
        rw [Full] at hfull
        refine ⟨⟨[], key, data, flag, ops, [], c, rfl, .nil c, hquits⟩, ?_⟩
        omega
      rintro ⟨answer, db₁⟩ w₁ ⟨c₁, hspec, hopened, L₁, hL₁, hw₁, hext⟩
      obtain ⟨_, _, hwf, _⟩ := hL
      have hend := hext.end_le hwf.toOk hok
      have hrest := ih hL₁ hw₁ hopened fun op' hop' => hops op' (List.mem_cons_of_mem op hop')
      refine CallTree.wp.bind (hrest.mono ?_ fun _ _ h => h) ?_
      · rintro stop w' ⟨⟨ops₁, key, data, flag, ops₂, answers, c', rfl, hanswers, hquits⟩, hroom⟩
        refine ⟨⟨op :: ops₁, key, data, flag, ops₂, answer :: answers, c', rfl,
          .cons hspec hanswers, hquits⟩, ?_⟩
        omega
      · rintro ⟨answers, db₂⟩ w₂ ⟨c₂, hanswers, hc₂⟩
        exact ⟨c₂, .cons hspec hanswers, hc₂⟩

end

/-! ## A process -/

/-- `db_open`, the operations, and `db_close`. -/
def process (creat trunc : Bool) (ops : List Op) : Io (List Answer) := do
  match ← dbOpen creat trunc with
  | none => .stop (.sys "db_open error")
  | some db => do
      let (answers, _) ← session ops db
      dbClose
      pure answers

section
variable {ops : List Op} {w : World}

theorem process_wp (hops : ∀ op ∈ ops, op.Ok) (hlocks : w.locks = []) :
    (process true true ops).wp Call.apply
      (fun stop w' => EndsAt ops ⟨fun _ => none, w.errno⟩ stop w' ∧
        ptrMax < (headerSize + (ops.map Op.room).sum : Int))
      (fun answers w' => ∃ c, Answers ops ⟨fun _ => none, w.errno⟩ answers c ∧ c.On w') w := by
  refine (dbOpen_new_wp hlocks rfl).bind ?_
  rintro _ w₁ ⟨db, rfl, hopened, hw₁⟩
  refine (session_wp (c := ⟨fun _ => none, w.errno⟩) .empty hw₁ hopened hops).bind ?_
  rintro ⟨answers, db₁⟩ w₂ ⟨c, hanswers, L, hL, hw₂⟩
  refine (dbClose_wp hw₂).bind fun _ w₃ hw₃ => ?_
  exact ⟨c, hanswers, L, hL, hw₃⟩

/-- With a new database a process answers as a map does, and leaves the map in the files and no
lock; or a store ends it. -/
theorem process_answers {ops : List Op} (hops : ∀ op ∈ ops, op.Ok) {w : World}
    (hlocks : w.locks = []) :
    (∃ answers c w', (process true true ops).exec w = (.ok answers, w') ∧
      Answers ops ⟨fun _ => none, w.errno⟩ answers c ∧ c.On w') ∨
    ∃ stop w', (process true true ops).exec w = (.stop stop, w') ∧
      EndsAt ops ⟨fun _ => none, w.errno⟩ stop w' := by
  rcases CallTree.wp_iff_run.mp (process_wp hops hlocks) with
    ⟨answers, w', hrun, c, hanswers, hc⟩ | ⟨stop, w', hrun, hends, -⟩
  · exact .inl ⟨answers, c, w', hrun, hanswers, hc⟩
  · exact .inr ⟨stop, w', hrun, hends⟩

theorem t4_answers :
    (∃ answers c w', (process true true (t4 ++ [.scan])).exec Layout.empty.world = (.ok answers, w') ∧
      Answers (t4 ++ [.scan]) ⟨fun _ => none, none⟩ answers c ∧ c.On w') ∨
    ∃ stop w', (process true true (t4 ++ [.scan])).exec Layout.empty.world = (.stop stop, w') ∧
      EndsAt (t4 ++ [.scan]) ⟨fun _ => none, none⟩ stop w' := by
  refine process_answers (fun op hop => ?_) rfl
  rcases List.mem_append.mp hop with hop | hop
  · exact t4_ok op hop
  · rw [List.mem_singleton.mp hop]
    trivial

/-- A process whose records have room in a new index file returns, with the answers of a
map. -/
theorem process_returns (hops : ∀ op ∈ ops, op.Ok) (hlocks : w.locks = [])
    (hroom : (headerSize + (ops.map Op.room).sum : Int) ≤ ptrMax) :
    ∃ answers c' w', (process true true ops).exec w = (.ok answers, w') ∧
      Answers ops ⟨fun _ => none, w.errno⟩ answers c' ∧ c'.On w' := by
  rcases CallTree.wp_iff_run.mp (process_wp hops hlocks) with
    ⟨answers, w', hrun, c', hanswers, hc⟩ | ⟨_, _, _, -, hfull⟩
  · exact ⟨answers, c', w', hrun, hanswers, hc⟩
  · exact absurd hroom (Int.not_le.mpr hfull)

theorem t4_returns :
    ∃ answers c w', (process true true t4).exec Layout.empty.world = (.ok answers, w') ∧
      Answers t4 ⟨fun _ => none, none⟩ answers c ∧ c.On w' :=
  process_returns t4_ok rfl (by decide)

end

end UnixSys.Db

import UnixSys.Db.Session

/-!
# Separator — keys with a colon

`db_store` takes a key with a separator, and its record is one that cannot be read. From then on
the process that looks up a key in the same chain is ended, whatever the key is.
-/

namespace UnixSys.Db

open Layout

/-- What `_db_readidx` says of a record with a separator in its key. -/
def tooMany : Stop := .dump "_db_readidx: too many separators"

/-- The first record of the chain `k` has a separator in its key. -/
structure Layout.Spoilt (L : Layout) (k : Nat) : Prop where
  fits : L.Fits
  first : ∃ i s, L.next (.head k) = some i ∧ L.slots[i]? = some s ∧ sep ∈ s.key ∧ NUL ∉ s.key

section
variable {E : Stop → World → Prop} {L L' : Layout} {e : Option Errno} {w : World} {db : DB}
  {m : Str → Option Str} {key data : Str} {flag : Int} {nodes : Root → List Nat}
  {tbl : Str → Option Nat}

/-- A new record spoils its chain, when its key has a separator. -/
theorem Layout.Inserted.spoilt (h : L.Wf nodes tbl) (hsized : Sized key data) (hsep : sep ∈ key)
    (hnul : NUL ∉ key) (hinserted : L.Inserted nodes key data L') : L'.Spoilt (hashOf key) := by
  cases hinserted with
  | @reuse i s prev hat hkey hdata =>
      obtain ⟨t, ht⟩ : ∃ t : Slot, t = ⟨L.next (.head (hashOf key)), key, data⟩ := ⟨_, rfl⟩
      have hi : i < L.slots.length := (List.getElem?_eq_some_iff.mp hat.slot).1
      have hhas : L.Has prev := has_of_next (h.next_prev hat)
      have hsnext : L.next (.slot i) = s.next := next_slot hat.slot
      have hslot : (L.link prev s.next).slots[i]? = some s :=
        (getElem?_link_of_ne (h.prev_ne_slot hat) _).trans hat.slot
      have hi' : i < (L.link prev s.next).slots.length := by rwa [length_link]
      have htsize : t.size = s.size := by rw [ht, Slot.size, hkey, hdata, Slot.size]
      have hhead : ((L.link prev s.next).write i t).Has (.head (hashOf key)) := hashOf_lt key
      have hfits : ((L.link prev s.next).write i t).Fits := by
        refine (h.toOk.fits.link hhas fun j hj => ?_).write hslot htsize fun j hj => ?_
        · exact h.toOk.fits.links (.slot i) j (hsnext.trans hj)
        · rw [length_link, addr_link]
          rw [ht] at hj
          exact h.toOk.fits.links (.head (hashOf key)) j hj
      rw [Layout.reuse, ← ht]
      refine ⟨hfits.link hhead fun j hj => ?_, i, t, ?_, getElem?_write hi' t, ?_⟩
      · obtain rfl := Option.some.inj hj
        rw [length_write, addr_write hslot htsize, addr_link]
        exact ⟨hi', h.toOk.offsets i hi⟩
      · rw [next_link hhead, Function.update_self]
      · rw [ht]
        exact ⟨hsep, hnul⟩
  -- the record is the last of the file, and the head of its chain
  | extend hnofree hroom =>
      obtain ⟨t, ht⟩ : ∃ t : Slot, t = ⟨L.next (.head (hashOf key)), key, data⟩ := ⟨_, rfl⟩
      have hhead : (L.append t).Has (.head (hashOf key)) := hashOf_lt key
      have hlinks : ∀ j ∈ t.next, j < L.slots.length := by
        intro j hj
        rw [ht] at hj
        exact h.links (.head (hashOf key)) j hj
      have hfits : (L.append t).Fits := h.toOk.append_fits hlinks hroom (ht ▸ hsized)
      have hlast : (L.append t).slots[L.slots.length]? = some t := List.getElem?_concat_length
      rw [Layout.extend, ← ht]
      refine ⟨hfits.link hhead fun j hj => ?_, L.slots.length, t, ?_, hlast, ?_⟩
      · obtain rfl := Option.some.inj hj
        refine ⟨?_, ?_⟩
        · exact (List.getElem?_eq_some_iff.mp hlast).1
        · rwa [show (L.append t).addr (some L.slots.length) = idxOff L.slots L.slots.length from
            idxOff_append t (Nat.le_refl _)]
      · rw [next_link hhead, Function.update_self]
      · rw [ht]
        exact ⟨hsep, hnul⟩

/-- The look-up of a key in a chain that is spoilt. -/
theorem Layout.Spoilt.findAndLock (h : L.Spoilt (hashOf key)) (hw : L.On [] e w)
    (hdb : db.Opened) (hlen : key.length < 8000000) (writelock : Bool) :
    (dbFindAndLock db key writelock).wp Call.apply (fun stop _ => stop = tooMany)
      (fun _ _ => False) w := by
  obtain ⟨hfits, i, s, hnext, hs, hsep, hnul⟩ := h
  have hhas : L.Has (.head (hashOf key)) := hashOf_lt key
  have hlock : L.On [chainLock (lockKind writelock) (hashOf key)] e
      (w.lock (chainLock (lockKind writelock) (hashOf key))) := hw.lock _
  obtain ⟨fuel, hfuel⟩ := Nat.exists_eq_succ_of_ne_zero (show rounds ≠ 0 by decide)
  refine dbFindAndLock_locked L hdb hlen writelock ?_
  refine (dbReadptr_wp hfits hhas hlock).bind ?_
  rintro _ w₁ ⟨rfl, hw₁⟩
  rw [hnext, hfuel, findLoop, if_pos (addr_ne_zero i)]
  refine CallTree.wp.bind (Q := fun _ _ => False) ?_ fun _ _ hfalse => hfalse.elim
  refine CallTree.wp.bind (Q := fun _ _ => False) ?_ fun _ _ hfalse => hfalse.elim
  refine dbReadidx_split_wp hfits hs (List.ne_nil_of_mem hsep) hw₁ _ (.inl rfl) fun _ _ _ => ?_
  rw [splitRecord_sep hsep hnul]
  rfl

/-- The operations that look up a key in the chain `k`. -/
inductive Op.LooksUp (k : Nat) : Op → Prop where
  | fetch {key : Str} (hkey : hashOf key = k) (hlen : key.length < 8000000) :
      LooksUp k (.fetch key)
  | delete {key : Str} (hkey : hashOf key = k) (hlen : key.length < 8000000) :
      LooksUp k (.delete key)
  | store {key data : Str} {flag : Int} (hkey : hashOf key = k) (hlen : key.length < 8000000)
      (hpos : data ≠ []) (hdata : data.length + 1 ≤ datlenMax)
      (hflag : flag = Flag.dbInsert ∨ flag = Flag.dbReplace ∨ flag = Flag.dbStore) :
      LooksUp k (.store key data flag)

theorem Layout.Spoilt.perform {k : Nat} (h : L.Spoilt k) (hw : L.On [] e w) (hdb : db.Opened)
    {op : Op} (hop : op.LooksUp k) :
    (op.perform db).wp Call.apply (fun stop _ => stop = tooMany) (fun _ _ => False) w := by
  cases hop with
  | fetch hkey hlen =>
      subst hkey
      refine CallTree.wp.bind (Q := fun _ _ => False) ?_ fun _ _ hf => hf.elim
      exact (h.findAndLock hw hdb hlen false).bind fun _ _ hf => hf.elim
  | delete hkey hlen =>
      subst hkey
      refine CallTree.wp.bind (Q := fun _ _ => False) ?_ fun _ _ hf => hf.elim
      exact (h.findAndLock hw hdb hlen true).bind fun _ _ hf => hf.elim
  | @store key data flag hkey hlen hpos hdata hflag =>
      subst hkey
      have hpos := List.length_pos_iff.mpr hpos
      refine CallTree.wp.bind (Q := fun _ _ => False) ?_ fun _ _ hf => hf.elim
      rw [dbStore, if_neg (by tauto), wp_errDumpIf (by simp only [datlenMin, datlenMax] at *; omega)]
      exact (h.findAndLock hw hdb hlen true).bind fun _ _ hf => hf.elim

/-- `db_store` takes a key with a separator, and spoils its chain. -/
theorem dbStore_spoils_wp (h : L.Models m) (hw : L.On [] e w) (hdb : db.Opened)
    (hsized : Sized key data) (hsep : sep ∈ key) (hkeynul : NUL ∉ key) (hnul : NUL ∉ data)
    (hflag : flag = Flag.dbInsert ∨ flag = Flag.dbStore) (hroom : ¬ L.Full) :
    (dbStore db key data flag).wp Call.apply (fun _ _ => False)
      (fun r w' => r.1 = 0 ∧ r.2.Opened ∧
        ∃ L' : Layout, L'.Spoilt (hashOf key) ∧ L'.On [] e w') w := by
  have hkey := hsized.key_le
  have hdata := hsized.data_le
  have hpos := List.length_pos_iff.mpr hsized.data_ne
  have hreplace : flag ≠ Flag.dbReplace := by rcases hflag with rfl | rfl <;> decide
  obtain ⟨nodes, tbl, h, rfl⟩ := h
  rw [dbStore, if_neg (by tauto), wp_errDumpIf (by simp only [datlenMin, datlenMax] at *; omega)]
  refine (dbFindAndLock_wp h hw hdb (by omega) true).bind ?_
  rintro ⟨found, db₁⟩ w₁ ⟨hfinds, hopened, hchainoff, hw₁⟩
  dsimp only at hfinds hopened hchainoff ⊢
  rcases hfinds with ⟨-, i, s, prev, hat, rfl, -⟩ | ⟨rfl, -⟩
  · exact absurd hsep (h.toOk.slot hat.slot).key_sep
  rw [if_neg Bool.noConfusion]
  refine (storeNew_inserts h (onChains_chainLock _ _) hw₁ hsized hnul hchainoff hreplace
    fun _ hfull => absurd hfull hroom).bind ?_
  rintro ⟨rc, db₂⟩ w₂ ⟨rfl, hkeeps, L', hinserted, hw₂⟩
  dsimp only at hkeeps ⊢
  rw [hkeeps.chainoff, hchainoff, wp_unLock, wp_errDumpIf Bool.noConfusion]
  exact ⟨rfl, hkeeps.opened hopened, L', hinserted.spoilt h hsized hsep hkeynul, hw₂.unlock_last⟩

/-- A key with a separator is stored, and then no key of its chain can be looked up. -/
theorem dbStore_spoils (h : L.Models m) (hw : L.On [] e w) (hdb : db.Opened)
    (hsized : Sized key data) (hsep : sep ∈ key) (hkeynul : NUL ∉ key) (hnul : NUL ∉ data)
    (hflag : flag = Flag.dbInsert ∨ flag = Flag.dbStore) (hroom : ¬ L.Full) :
    ∃ db' w', (dbStore db key data flag).exec w = (.ok (0, db'), w') ∧
      ∀ op : Op, op.LooksUp (hashOf key) → ∃ w'', (op.perform db').exec w' =
        (.stop tooMany, w'') := by
  have hwp := dbStore_spoils_wp h hw hdb hsized hsep hkeynul hnul hflag hroom
  rcases CallTree.wp_iff_run.mp hwp with
    ⟨⟨rc, db'⟩, w', hrun, rfl, hopened, L', hspoilt, hw'⟩ | ⟨_, _, _, hfalse⟩
  · refine ⟨db', w', hrun, fun op hop => ?_⟩
    rcases CallTree.wp_iff_run.mp (hspoilt.perform hw' hopened hop) with
      ⟨_, _, _, hfalse⟩ | ⟨stop, w'', hstop, rfl⟩
    · exact hfalse.elim
    · exact ⟨w'', hstop⟩
  · exact hfalse.elim

theorem not_full_empty : ¬ Layout.empty.Full := by
  rw [Full]
  decide

theorem a_b_spoils : ∃ db w,
    (dbStore dbAlloc "a:b".toList "data1".toList Flag.dbInsert).exec Layout.empty.world =
      (.ok (0, db), w) ∧
    ∀ op : Op, op.LooksUp (hashOf "a:b".toList) → ∃ w', (op.perform db).exec w =
      (.stop tooMany, w') :=
  dbStore_spoils .empty Layout.empty.on_world opened_dbAlloc
    ⟨by decide, by decide, by decide, by decide⟩ (by decide) (by decide) (by decide) (.inl rfl)
    not_full_empty

/-- What is stored is what is fetched, exactly when the key has no separator. -/
theorem store_fetch_iff (h : L.Models m) (hw : L.On [] e w) (hdb : db.Opened)
    (hsized : Sized key data) (hkeynul : NUL ∉ key) (hnul : NUL ∉ data)
    (hflag : flag = Flag.dbInsert ∧ m key = none ∨ flag = Flag.dbStore) (hroom : ¬ L.Full) :
    (∃ db' w', Io.exec (dbStore db key data flag >>= fun r => dbFetch r.2 key) w =
      (.ok (some data, db'), w')) ↔ sep ∉ key := by
  have hkey := hsized.key_le
  constructor
  · rintro ⟨db', w', hrun⟩ hsep
    have hstore := dbStore_spoils_wp h hw hdb hsized hsep hkeynul hnul (hflag.imp_left And.left) hroom
    have hwp : (dbStore db key data flag >>= fun r => dbFetch r.2 key).wp Call.apply
        (fun stop _ => stop = tooMany) (fun _ _ => False) w := by
      refine CallTree.wp.bind (hstore.mono (fun _ _ hf => hf.elim) fun _ _ h => h) ?_
      rintro ⟨rc, db₁⟩ w₁ ⟨-, hopened, L', hspoilt, hw₁⟩
      exact (hspoilt.findAndLock hw₁ hopened (by omega) false).bind fun _ _ hf => hf.elim
    exact hwp.ok hrun
  · intro hsep
    have hok : Storable key data := ⟨hsized.key_ne, hkey, hsep, hkeynul, hsized.data_ne,
      hsized.data_le, hnul⟩
    have hspec : (storeSpec m key data flag e).2.2 = Function.update m key (some data) := by
      rcases hflag with ⟨rfl, hnone⟩ | rfl
      · rw [storeSpec, if_neg (by decide), if_pos hnone, if_neg (by decide)]
      · rw [storeSpec, if_neg (by decide)]
        split <;> rw [if_neg (by decide)]
    have hwp : (dbStore db key data flag >>= fun r => dbFetch r.2 key).wp Call.apply
        (fun _ _ => False) (fun r _ => r.1 = some data) w := by
      refine (dbStore_wp flag h hw hdb hok fun _ _ hfull => absurd hfull hroom).bind ?_
      rintro ⟨rc, db₁⟩ w₁ ⟨hopened, -, L', hmodels, -, hw₁⟩
      rw [hspec] at hmodels
      refine (dbFetch_wp hmodels hw₁ hopened (by omega)).mono (fun _ _ h => h) ?_
      rintro ⟨ptr, db₂⟩ w₂ ⟨hptr, -⟩
      exact hptr.trans (Function.update_self _ _ _)
    rcases CallTree.wp_iff_run.mp hwp with ⟨⟨ptr, db'⟩, w', hrun, rfl⟩ | ⟨_, _, _, hfalse⟩
    · exact ⟨db', w', hrun⟩
    · exact hfalse.elim

theorem a_b_not_fetched :
    (∃ db w, Io.exec (dbStore dbAlloc "a:b".toList "data1".toList Flag.dbInsert >>= fun r =>
      dbFetch r.2 "a:b".toList) Layout.empty.world = (.ok (some "data1".toList, db), w)) ↔
      sep ∉ "a:b".toList :=
  store_fetch_iff .empty Layout.empty.on_world opened_dbAlloc
    ⟨by decide, by decide, by decide, by decide⟩ (by decide) (by decide) (.inl ⟨rfl, rfl⟩)
    not_full_empty

end

end UnixSys.Db

import UnixSys.Db.Operations

/-!
# Contents — the operations on the contents of a database

`db_fetch`, `db_delete` and `db_store` are the operations of a map. A store that would need an
offset of more than seven digits ends the process, and the key is then in the database no
more.
-/

namespace UnixSys.Db

open Layout

/-- `db_store` on a map: what it returns, `errno`, and the map afterwards. -/
def storeSpec (m : Str → Option Str) (key data : Str) (flag : Int) (e : Option Errno) :
    Int × Option Errno × (Str → Option Str) :=
  if flag ≠ Flag.dbInsert ∧ flag ≠ Flag.dbReplace ∧ flag ≠ Flag.dbStore then
    (-1, some .einval, m)
  else if m key = none then
    if flag = Flag.dbReplace then (-1, some .enoent, m)
    else (0, e, Function.update m key (some data))
  else
    if flag = Flag.dbInsert then (1, e, m)
    else (0, e, Function.update m key (some data))

/-- The slots that the free list leads to. -/
def Layout.Free (L : Layout) (i : Nat) : Prop :=
  ∃ l, Chain Loc.slot L.next .free l ∧ i ∈ l

/-- A record of these lengths is free. -/
def Layout.FreeSize (L : Layout) (keylen datalen : Nat) : Prop :=
  ∃ i s, L.Free i ∧ L.slots[i]? = some s ∧ s.size = (keylen, datalen)

/-- Whether a store makes the files longer: there is no record of the key, and none of the
free list has the lengths; or the record of the key has data of another length. -/
def Layout.Grows (L : Layout) (m : Str → Option Str) (key data : Str) : Prop :=
  (m key = none ∧ ¬ L.FreeSize key.length data.length) ∨
  ∃ old, m key = some old ∧ old.length ≠ data.length

section
variable {E : Stop → World → Prop} {L : Layout} {locks : List Lock} {e : Option Errno} {w : World}
  {db : DB} {m : Str → Option Str} {key data : Str} {nodes : Root → List Nat}
  {tbl : Str → Option Nat}

namespace Layout

theorem Wf.contents_eq_none_iff (h : L.Wf nodes tbl) : L.contents tbl key = none ↔ tbl key = none := by
  constructor
  · intro hnone
    cases htbl : tbl key with
    | none => rfl
    | some i =>
        obtain ⟨hi, s, hs, rfl⟩ := h.stored key i htbl
        cases (h.contents_eq_some hi hs).symm.trans hnone
  · intro hnone
    rw [contents, hnone, Option.bind_none]

theorem Wf.free_iff (h : L.Wf nodes tbl) {i : Nat} : L.Free i ↔ i ∈ nodes .free := by
  constructor
  · rintro ⟨l, hl, hi⟩
    rwa [hl.unique (h.chains.chain .free)] at hi
  · exact fun hi => ⟨_, h.chains.chain .free, hi⟩

theorem Wf.free_of_next (h : L.Wf nodes tbl) {i : Nat} (hn : L.next .free = some i) :
    L.Free i := by
  have hchain := h.chains.chain .free
  refine ⟨_, hchain, ?_⟩
  cases hl : nodes .free with
  | nil =>
      rw [hl] at hchain
      cases hn.symm.trans hchain
  | cons j l =>
      rw [hl] at hchain
      rw [Option.some.inj (hn.symm.trans hchain.1)]
      exact List.mem_cons_self

/-- What the search for a key comes to, in terms of the contents. -/
theorem Finds.contents (h : L.Wf nodes tbl) {found : Bool}
    (hfinds : L.Finds nodes tbl key found db) :
    (found = true ∧ ∃ i s prev, L.At (Root.chain (hashOf key)).loc
      (nodes (.chain (hashOf key))) i s prev ∧ s.key = key ∧ db.ptroff = L.offset prev ∧
      db.Reads L i s ∧ L.contents tbl key = some s.data) ∨
    (found = false ∧ L.contents tbl key = none) := by
  rcases hfinds with ⟨rfl, i, s, prev, hat, hkey, hrest⟩ | ⟨rfl, hnone⟩
  · have hsome := h.contents_eq_some (Wf.mem_of_at hat) hat.slot
    rw [hkey] at hsome
    exact .inl ⟨rfl, i, s, prev, hat, hkey, hrest.1, hrest.2, hsome⟩
  · exact .inr ⟨rfl, h.contents_eq_none_iff.mpr hnone⟩

end Layout

/-! ## db_fetch, db_delete -/

/-- `db_fetch` returns what the database contains at the key. -/
theorem dbFetch_wp (h : L.Models m) (hw : L.On [] e w) (hdb : db.Opened)
    (hlen : key.length < 8000000) :
    (dbFetch db key).wp Call.apply E
      (fun r w' => r.1 = m key ∧ r.2.Opened ∧ L.On [] e w') w := by
  obtain ⟨nodes, tbl, h, rfl⟩ := h
  rw [dbFetch]
  refine (dbFindAndLock_wp h hw hdb hlen false).bind ?_
  rintro ⟨found, db₁⟩ w₁ ⟨hfinds, hopened, hchainoff, hw₁⟩
  dsimp only at hfinds hopened hchainoff ⊢
  rcases hfinds.contents h with ⟨rfl, i, s, prev, hat, hkey, -, hreads, hsome⟩ | ⟨rfl, hnone⟩
  · rw [if_pos rfl]
    refine (dbReaddat_wp (h.toOk.slot hat.slot) hat.slot hw₁ hreads).bind ?_
    rintro _ w₂ ⟨rfl, hw₂, -⟩
    rw [CallTree.pure_eq, CallTree.ret_bind]
    dsimp only
    rw [hchainoff, wp_unLock, wp_errDumpIf Bool.noConfusion]
    exact ⟨hsome.symm, ⟨hopened.hashoff, hopened.nhash⟩, hw₂.unlock_last⟩
  · rw [if_neg Bool.noConfusion, CallTree.pure_eq, CallTree.ret_bind]
    dsimp only
    rw [hchainoff, wp_unLock, wp_errDumpIf Bool.noConfusion]
    exact ⟨hnone.symm, ⟨hopened.hashoff, hopened.nhash⟩, hw₁.unlock_last⟩

theorem Layout.sizes_release {i : Nat} {s : Slot} (hs : L.slots[i]? = some s) (prev : Loc) :
    (L.release i s prev).slots.map Slot.size = L.slots.map Slot.size := by
  rw [release, sizes_link, sizes_link, sizes_write hs (s.size_blanked _)]

/-- The slot of a deleted record is free. -/
theorem Layout.free_release {i k : Nat} {s : Slot} {prev : Loc} (h : L.Wf nodes tbl)
    (hat : L.At (Root.chain k).loc (nodes (.chain k)) i s prev) : (L.release i s prev).Free i := by
  obtain ⟨nodes', tbl', h', -⟩ := Models.release h hat
  have hhas : ((L.write i (s.blanked L.free)).link .free (some i)).Has prev :=
    ((has_of_next (h.next_prev hat)).write i _).link .free _
  refine h'.free_of_next ?_
  rw [release, next_link hhas, Function.update_of_ne (Wf.prev_ne_free hat).symm]
  rfl

/-- `db_delete` takes the key out of what the database contains, and makes its record
free. -/
theorem dbDelete_wp (h : L.Models m) (hw : L.On [] e w) (hdb : db.Opened)
    (hlen : key.length < 8000000) :
    (dbDelete db key).wp Call.apply E
      (fun r w' => r.1 = (if m key = none then -1 else 0) ∧ r.2.Opened ∧
        ∃ L' : Layout, L'.Models (Function.update m key none) ∧
          (∀ old, m key = some old → L'.FreeSize key.length old.length) ∧
          L'.slots.map Slot.size = L.slots.map Slot.size ∧ L'.On [] e w') w := by
  obtain ⟨nodes, tbl, h, rfl⟩ := h
  rw [dbDelete]
  refine (dbFindAndLock_wp h hw hdb hlen true).bind ?_
  rintro ⟨found, db₁⟩ w₁ ⟨hfinds, hopened, hchainoff, hw₁⟩
  dsimp only at hfinds hopened hchainoff ⊢
  rcases hfinds.contents h with ⟨rfl, i, s, prev, hat, rfl, hptroff, hreads, hsome⟩ | ⟨rfl, hnone⟩
  · rw [if_pos rfl]
    refine (dbDodelete_wp h.toOk (onChains_chainLock _ _) hat.slot hw₁ hreads
      (has_of_next (h.next_prev hat)) hptroff).bind ?_
    rintro db₂ w₂ ⟨hkeeps, hw₂⟩
    rw [CallTree.pure_eq, CallTree.ret_bind]
    dsimp only
    rw [hkeeps.chainoff, hchainoff, wp_unLock, wp_errDumpIf Bool.noConfusion]
    -- the record is free, and it is as long as it was
    have hopened₂ := hkeeps.opened hopened
    refine ⟨?_, ⟨hopened₂.hashoff, hopened₂.nhash⟩, _, Models.release h hat, ?_,
      sizes_release hat.slot prev, hw₂.unlock_last⟩
    · rw [hsome, if_neg (Option.some_ne_none _)]
    · intro old hold
      obtain rfl := Option.some.inj (hsome.symm.trans hold)
      have hsame := congrArg (·[i]?) (sizes_release hat.slot prev)
      simp only [List.getElem?_map, hat.slot, Option.map_some] at hsame
      obtain ⟨t, ht, hsize⟩ := Option.map_eq_some_iff.mp hsame
      exact ⟨i, t, free_release h hat, ht, hsize⟩
  · rw [if_neg Bool.noConfusion, CallTree.pure_eq, CallTree.ret_bind]
    dsimp only
    rw [hchainoff, wp_unLock, wp_errDumpIf Bool.noConfusion]
    refine ⟨?_, ⟨hopened.hashoff, hopened.nhash⟩, L, ?_, ?_, rfl, hw₁.unlock_last⟩
    · rw [hnone, if_pos rfl]
    · rw [← hnone, Function.update_eq_self]
      exact ⟨nodes, tbl, h, rfl⟩
    · exact fun old hold => by cases hnone.symm.trans hold

/-! ## db_store -/

/-- The next index record would be at an offset that is too large. -/
def Layout.Full (L : Layout) : Prop := ptrMax < idxOff L.slots L.slots.length

/-- The layout has more slots than `L`: one of these lengths when `grows`, and none
otherwise. -/
def Layout.Grown (L L' : Layout) (key data : Str) (grows : Prop) : Prop :=
  (grows ∧ ¬ L.Full ∧ L'.slots.map Slot.size = L.slots.map Slot.size ++ [(key.length, data.length)]) ∨
  (¬ grows ∧ L'.slots.map Slot.size = L.slots.map Slot.size)

/-- A process that has quit as a record came to an offset that is too large. Its key is in no
chain. -/
def Layout.Quits (m : Str → Option Str) (key data : Str) (locks : List Lock) (e : Option Errno)
    (stop : Stop) (w : World) : Prop :=
  ∃ L' : Layout, ∃ p, L'.Models (Function.update m key none) ∧
    L'.Full ∧ (L'.append ⟨p, key, data⟩).On locks e w ∧
    stop = invalidPtr (idxOff L'.slots L'.slots.length)

/-- A record at the end, in front of the chain of its key. -/
theorem appendRecord_models (h : L.Wf nodes tbl) (hlocks : OnChains locks)
    (hw : L.On locks e w) (hok : Storable key data) (hnone : L.contents tbl key = none)
    (hchainoff : db.chainoff = L.offset (.head (hashOf key)))
    (hE : L.Full → ∀ stop w', Quits (L.contents tbl) key data locks e stop w' → E stop w') :
    (appendRecord db key data (L.addr (L.next (.head (hashOf key))))).wp Call.apply E
      (fun db' w' => db.Keeps db' ∧
        ∃ L' : Layout, L'.Models (Function.update (L.contents tbl) key (some data)) ∧
        ¬ L.Full ∧ L'.slots.map Slot.size = L.slots.map Slot.size ++ [(key.length, data.length)] ∧
        L'.On locks e w') w := by
  have hhas : L.Has (.head (hashOf key)) := hashOf_lt key
  refine (appendRecord_wp (s := ⟨L.next (.head (hashOf key)), key, data⟩) h.toOk hlocks hw hok.sized
    hhas rfl (h.toOk.datOff_lt (Nat.le_refl _)) hchainoff (fun _ => Loc.noConfusion) ?_).mono
    (fun _ _ h => h) ?_
  · intro hlt w' hw'
    refine hE hlt _ _ ⟨L, _, ⟨nodes, tbl, h, ?_⟩, hlt, hw', rfl⟩
    rw [← hnone, Function.update_eq_self]
  · rintro db' w' ⟨hkeeps, hle, hw'⟩
    refine ⟨hkeeps, _, Models.extend h hok (h.contents_eq_none_iff.mp hnone) hle,
      Int.not_lt.mpr hle, ?_, hw'⟩
    rw [extend, sizes_link, append, List.map_append]
    rfl

/-- A record in a slot of the free list, in front of the chain of its key. -/
theorem reuseRecord_wp {i : Nat} {s : Slot} {prev : Loc} (h : L.Wf nodes tbl)
    (hat : L.At Root.free.loc (nodes .free) i s prev) (hw : (L.link prev s.next).On locks e w)
    (hreads : db.Reads L i s) (hsized : Sized key data) (hnul : NUL ∉ data)
    (hkey : key.length = s.key.length) (hdata : data.length = s.data.length)
    (hchainoff : db.chainoff = L.offset (.head (hashOf key))) :
    (reuseRecord db key data (L.addr (L.next (.head (hashOf key))))).wp Call.apply E
      (fun db' w' => db.Keeps db' ∧
        (L.reuse i s prev (hashOf key) key data).On locks e w') w := by
  have hi : i < L.slots.length := (List.getElem?_eq_some_iff.mp hat.slot).1
  have hhas : L.Has prev := has_of_next (h.next_prev hat)
  have hsnext : L.next (.slot i) = s.next := next_slot hat.slot
  have hhead : (L.addr (L.next (.head (hashOf key))) : Int) ≤ ptrMax :=
    h.toOk.fits.le (.head (hashOf key))
  obtain ⟨L₁, hL₁_eq⟩ : ∃ L₁, L₁ = L.link prev s.next := ⟨_, rfl⟩
  rw [← hL₁_eq] at hw
  have hL₁ : L₁.Ok := hL₁_eq ▸ h.toOk.link hhas fun j hj =>
    h.links (.slot i) j (hsnext.trans hj)
  have haddr₁ : L₁.addr = L.addr := by rw [hL₁_eq, addr_link]
  have hlen₁ : L₁.slots.length = L.slots.length := by rw [hL₁_eq, length_link]
  have hslot : L₁.slots[i]? = some s := by
    rw [hL₁_eq]
    exact (getElem?_link_of_ne (h.prev_ne_slot hat) _).trans hat.slot
  have hdatoff : db.datoff = datOff L₁.slots i := by
    rw [hL₁_eq, datOff_congr (sizes_link prev s.next)]
    exact hreads.datoff
  -- the data is written, then the index record, and then the link to it
  have hsize : Slot.size { s with data := data } = s.size := by
    rw [Slot.size, hdata]
    rfl
  have hL₂ : (L₁.write i { s with data := data }).Ok := by
    have hs := hL₁.slot hslot
    refine hL₁.write hslot hsize ⟨hs.key_ne, hs.key_le, hs.key_sep, hs.key_nul, hsized.data_ne,
      hsized.data_le, hnul⟩ fun j hj => ?_
    rw [hlen₁]
    exact h.links (.slot i) j (hsnext.trans hj)
  have haddr₂ : (L₁.write i { s with data := data }).addr = L.addr := by
    rw [addr_write hslot hsize, haddr₁]
  obtain ⟨t, ht⟩ : ∃ t : Slot, t = ⟨L.next (.head (hashOf key)), key, data⟩ := ⟨_, rfl⟩
  have htsize : t.size = s.size := by rw [ht, Slot.size, hkey, hdata, Slot.size]
  have hL₃ : (L₁.write i t).Fits := by
    refine hL₁.fits.write hslot htsize fun j hj => ?_
    rw [ht] at hj
    rw [hlen₁, haddr₁]
    exact h.toOk.fits.links (.head (hashOf key)) j hj
  have haddr₃ : (L₁.write i t).addr = L.addr := by rw [addr_write hslot htsize, haddr₁]
  have hhas₃ : (L₁.write i t).Has (.head (hashOf key)) := hashOf_lt key
  rw [reuseRecord]
  refine (dbWritedat_set_wp hL₁.fits hslot hw hdata hdatoff).bind ?_
  rintro _ w₁ ⟨rfl, hw₁⟩
  rw [hreads.idxoff, ← haddr₂]
  refine (dbWriteidx_set_wp hL₂ (getElem?_write (hlen₁ ▸ hi) _) hw₁ hkey (haddr₂ ▸ hhead) ?_
    (congrArg (· + 1) hdata.symm)).bind ?_
  · rw [datOff_congr (sizes_write hslot hsize)]
    exact hdatoff
  rintro db₂ w₂ ⟨hoff, hkeeps, -, hw₂⟩
  have hw₂ : (L₁.write i t).On locks e w₂ := by
    rw [ht, ← write_write i { s with data := data }]
    exact hw₂
  have hchainoff₂ : db₂.chainoff = (L₁.write i t).offset (.head (hashOf key)) :=
    hkeeps.chainoff.trans hchainoff
  rw [hoff, hchainoff₂, haddr₂, ← haddr₃]
  refine (dbWriteptr_wp hL₃ hhas₃ hw₂ (p := some i) ?_).bind fun _ w₃ hw₃ => ?_
  · rw [haddr₃]
    exact h.toOk.offsets i hi
  rw [ht, hL₁_eq] at hw₃
  exact ⟨⟨hkeeps.chainoff, hkeeps.hashoff, hkeeps.nhash⟩, hw₃⟩

/-- The layout `L'` has a new record in front of the chain of its key: in a slot of the free
list, or in one more slot when none of the list has the lengths. -/
inductive Layout.Inserted (L : Layout) (nodes : Root → List Nat) (key data : Str) :
    Layout → Prop where
  | reuse {i : Nat} {s : Slot} {prev : Loc} (hat : L.At Root.free.loc (nodes .free) i s prev)
      (hkey : key.length = s.key.length) (hdata : data.length = s.data.length) :
      L.Inserted nodes key data (L.reuse i s prev (hashOf key) key data)
  | extend (hnofree : ∀ i ∈ nodes .free, ∀ s, L.slots[i]? = some s → s.size ≠ (key.length, data.length))
      (hroom : (idxOff L.slots L.slots.length : Int) ≤ ptrMax) :
      L.Inserted nodes key data (L.extend (hashOf key) key data)

/-- `db_store` of a key that has no record makes one, whatever bytes the key has. -/
theorem storeNew_inserts {flag : Int} (h : L.Wf nodes tbl) (hlocks : OnChains locks)
    (hw : L.On locks e w) (hsized : Sized key data) (hnul : NUL ∉ data)
    (hchainoff : db.chainoff = L.offset (.head (hashOf key))) (hflag : flag ≠ Flag.dbReplace)
    (hE : (∀ i ∈ nodes .free, ∀ s, L.slots[i]? = some s → s.size ≠ (key.length, data.length)) →
      L.Full → ∀ w', (L.append ⟨L.next (.head (hashOf key)), key, data⟩).On locks e w' →
      E (invalidPtr (idxOff L.slots L.slots.length)) w') :
    (storeNew db key data flag).wp Call.apply E
      (fun r w' => r.1 = 0 ∧ db.Keeps r.2 ∧
        ∃ L', L.Inserted nodes key data L' ∧ L'.On locks e w') w := by
  have hhas : L.Has (.head (hashOf key)) := hashOf_lt key
  rw [storeNew, if_neg hflag, hchainoff]
  refine (dbReadptr_wp h.toOk.fits hhas hw).bind ?_
  rintro _ w₁ ⟨rfl, hw₁⟩
  refine (dbFindfree_wp h hlocks hw₁ _ _).bind ?_
  rintro ⟨found, db₁⟩ w₂ ⟨hkeeps, L₁, hfinds, hw₂⟩
  dsimp only at hfinds hkeeps ⊢
  have hchainoff₁ := hkeeps.chainoff.trans hchainoff
  rcases hfinds with ⟨rfl, i, s, prev, hat, hkey, hlen, hreads, rfl⟩ | ⟨rfl, hnone, hsame⟩
  · have hdata : data.length = s.data.length := by omega
    rw [if_neg Bool.noConfusion]
    refine (reuseRecord_wp h hat hw₂ hreads hsized hnul hkey.symm hdata hchainoff₁).bind ?_
    rintro db₂ w₃ ⟨hkeeps₂, hw₃⟩
    have hkeeps' := hkeeps.trans hkeeps₂
    exact ⟨rfl, ⟨hkeeps'.chainoff, hkeeps'.hashoff, hkeeps'.nhash⟩, _,
      .reuse hat hkey.symm hdata, hw₃⟩
  · have hnofree : ∀ i ∈ nodes .free, ∀ s, L.slots[i]? = some s →
        s.size ≠ (key.length, data.length) := by
      intro i hi s hs hsize
      obtain ⟨hk, hd⟩ := Prod.ext_iff.mp hsize
      exact hnone i hi s hs ⟨hk, congrArg (· + 1) hd⟩
    rw [hsame] at hw₂
    rw [if_pos rfl]
    refine (appendRecord_wp (s := ⟨L.next (.head (hashOf key)), key, data⟩) h.toOk hlocks hw₂
      hsized hhas rfl (h.toOk.datOff_lt (Nat.le_refl _)) hchainoff₁ (fun _ => Loc.noConfusion)
      (hE hnofree)).bind ?_
    rintro db₂ w₃ ⟨hkeeps₂, hroom, hw₃⟩
    have hkeeps' := hkeeps.trans hkeeps₂
    exact ⟨rfl, ⟨hkeeps'.chainoff, hkeeps'.hashoff, hkeeps'.nhash⟩, _, .extend hnofree hroom, hw₃⟩

/-- `db_store` of a key that has no record. -/
theorem storeNew_wp {flag : Int} (h : L.Wf nodes tbl) (hlocks : OnChains locks)
    (hw : L.On locks e w) (hok : Storable key data) (hnone : L.contents tbl key = none)
    (hchainoff : db.chainoff = L.offset (.head (hashOf key))) (hflag : flag ≠ Flag.dbReplace)
    (hE : L.Grows (L.contents tbl) key data → L.Full →
      ∀ stop w', Quits (L.contents tbl) key data locks e stop w' → E stop w') :
    (storeNew db key data flag).wp Call.apply E
      (fun r w' => r.1 = 0 ∧ db.Keeps r.2 ∧
        ∃ L' : Layout, L'.Models (Function.update (L.contents tbl) key (some data)) ∧
          L.Grown L' key data (L.Grows (L.contents tbl) key data) ∧ L'.On locks e w') w := by
  have htbl := h.contents_eq_none_iff.mp hnone
  have hgrows : (∀ i ∈ nodes .free, ∀ s, L.slots[i]? = some s →
      s.size ≠ (key.length, data.length)) ↔ L.Grows (L.contents tbl) key data := by
    constructor
    · intro hnofree
      refine .inl ⟨hnone, ?_⟩
      rintro ⟨i, s, hfree, hs, hsize⟩
      exact hnofree i (h.free_iff.mp hfree) s hs hsize
    · rintro (⟨-, hnofree⟩ | ⟨old, hold, -⟩) i hi s hs hsize
      · exact hnofree ⟨i, s, h.free_iff.mpr hi, hs, hsize⟩
      · cases hnone.symm.trans hold
  refine (storeNew_inserts h hlocks hw hok.sized hok.data_nul hchainoff hflag ?_).mono
    (fun _ _ h => h) ?_
  · intro hnofree hfull w' hw'
    refine hE (hgrows.mp hnofree) hfull _ _ ⟨L, _, ⟨nodes, tbl, h, ?_⟩, hfull, hw', rfl⟩
    rw [← hnone, Function.update_eq_self]
  · rintro r w' ⟨hrc, hkeeps, L', hinserted, hw'⟩
    refine ⟨hrc, hkeeps, L', ?_⟩
    cases hinserted with
    | @reuse i s prev hat hkey hdata =>
        refine ⟨Models.reuse h hat hkey hdata hok htbl, .inr ⟨fun hyes => ?_, ?_⟩, hw'⟩
        · refine hgrows.mpr hyes i (Wf.mem_of_at hat) s hat.slot ?_
          rw [Slot.size, hkey, hdata]
        · have hslot : (L.link prev s.next).slots[i]? = some s :=
            (getElem?_link_of_ne (h.prev_ne_slot hat) _).trans hat.slot
          rw [Layout.reuse, sizes_link, sizes_write hslot (by rw [Slot.size, hkey, hdata, Slot.size]),
            sizes_link]
    | extend hnofree hroom =>
        refine ⟨Models.extend h hok htbl hroom,
          .inl ⟨hgrows.mp hnofree, Int.not_lt.mpr hroom, ?_⟩, hw'⟩
        rw [extend, sizes_link, append, List.map_append]
        rfl

/-- `db_store` of a key that has a record. -/
theorem storeOld_wp {flag : Int} {i : Nat} {s : Slot} {prev : Loc} (h : L.Wf nodes tbl)
    (hlocks : OnChains locks) (hw : L.On locks e w) (hok : Storable key data)
    (hat : L.At (Root.chain (hashOf key)).loc (nodes (.chain (hashOf key))) i s prev)
    (hkey : s.key = key) (hreads : db.Reads L i s) (hptroff : db.ptroff = L.offset prev)
    (hchainoff : db.chainoff = L.offset (.head (hashOf key))) (hflag : flag ≠ Flag.dbInsert)
    (hE : L.Grows (L.contents tbl) key data → L.Full →
      ∀ stop w', Quits (L.contents tbl) key data locks e stop w' → E stop w') :
    (storeOld db key data flag).wp Call.apply E
      (fun r w' => r.1 = 0 ∧ db.Keeps r.2 ∧
        ∃ L' : Layout, L'.Models (Function.update (L.contents tbl) key (some data)) ∧
          L.Grown L' key data (L.Grows (L.contents tbl) key data) ∧ L'.On locks e w') w := by
  have hmem : i ∈ nodes (.chain (hashOf key)) := Wf.mem_of_at hat
  have hsome : L.contents tbl key = some s.data := hkey ▸ h.contents_eq_some hmem hat.slot
  rw [storeOld, if_neg hflag, hreads.datlen]
  by_cases hlen : data.length = s.data.length
  -- data of the same length is written over the old
  · rw [if_neg (by omega)]
    refine (dbWritedat_set_wp h.toOk.fits hat.slot hw hlen hreads.datoff).bind ?_
    rintro _ w₁ ⟨rfl, hw₁⟩
    have hsize : Slot.size { s with data := data } = s.size := by
      rw [Slot.size, hlen]
      rfl
    refine ⟨rfl, ⟨rfl, rfl, rfl⟩, _, ?_, .inr ⟨?_, sizes_write hat.slot hsize⟩, hw₁⟩
    · rw [← hkey]
      exact Models.rewrite h hmem hat.slot hlen (hkey ▸ hok)
    · rintro (⟨hnone, -⟩ | ⟨old, hold, hne⟩)
      · cases hnone.symm.trans hsome
      · obtain rfl := Option.some.inj (hold.symm.trans hsome)
        exact hne hlen.symm
  -- other data: the record is deleted, and one is appended in its place
  · rw [if_pos (by omega)]
    refine (dbDodelete_wp h.toOk hlocks hat.slot hw hreads (has_of_next (h.next_prev hat))
      hptroff).bind ?_
    rintro db₁ w₁ ⟨hkeeps, hw₁⟩
    obtain ⟨nodes₁, tbl₁, h₁, hcontents⟩ := Models.release h hat
    rw [hkey] at hcontents
    have hchainoff₁ : db₁.chainoff = (L.release i s prev).offset (.head (hashOf key)) :=
      hkeeps.chainoff.trans hchainoff
    have hhas : (L.release i s prev).Has (.head (hashOf key)) := hashOf_lt key
    have hnone : (L.release i s prev).contents tbl₁ key = none := by
      rw [hcontents, Function.update_self]
    have hgrows : L.Grows (L.contents tbl) key data :=
      .inr ⟨s.data, hsome, fun heq => hlen heq.symm⟩
    have hfull : (L.release i s prev).Full ↔ L.Full := by
      have hslots := congrArg List.length (sizes_release hat.slot prev)
      rw [List.length_map, List.length_map] at hslots
      rw [Full, Full, hslots, idxOff_congr (sizes_release hat.slot prev)]
    rw [hchainoff₁]
    refine (dbReadptr_wp h₁.toOk.fits hhas hw₁).bind ?_
    rintro _ w₂ ⟨rfl, hw₂⟩
    refine (appendRecord_models h₁ hlocks hw₂ hok hnone hchainoff₁ ?_).bind ?_
    · rintro hfull₁ stop w' ⟨L', p, hmodels, hrest⟩
      rw [hcontents, Function.update_idem] at hmodels
      exact hE hgrows (hfull.mp hfull₁) stop w' ⟨L', p, hmodels, hrest⟩
    rintro db₂ w₃ ⟨hkeeps₂, L', hmodels, hroom, hsizes, hw₃⟩
    rw [hcontents, Function.update_idem] at hmodels
    rw [sizes_release hat.slot] at hsizes
    have hkeeps' := hkeeps.trans hkeeps₂
    exact ⟨rfl, ⟨hkeeps'.chainoff, hkeeps'.hashoff, hkeeps'.nhash⟩, L', hmodels,
      .inl ⟨hgrows, fun hfull' => hroom (hfull.mpr hfull'), hsizes⟩, hw₃⟩

theorem wp_setErrno {α : Type} {Q : α → World → Prop} {e' : Errno} {k : Unit → Io α} :
    (setErrno e' >>= k).wp Call.apply E Q w ↔
      (k ()).wp Call.apply E Q { w with errno := some e' } :=
  Iff.rfl

theorem Layout.On.setErrno (h : L.On locks e w) (e' : Errno) :
    L.On locks (some e') { w with errno := some e' } :=
  ⟨h.idx, h.dat, fun f => by cases f <;> first | exact h.present .idx | exact h.present .dat,
    h.locks, rfl⟩

/-- What a store of the key does to the layout: the answer and the contents are those of the
store of a map. -/
def Layout.Stored (L : Layout) (m : Str → Option Str) (key data : Str) (flag : Int)
    (locks : List Lock) (e : Option Errno) (rc : Int) (w : World) : Prop :=
  rc = (storeSpec m key data flag e).1 ∧
    ∃ L' : Layout, L'.Models (storeSpec m key data flag e).2.2 ∧
      L.Grown L' key data (rc = 0 ∧ L.Grows m key data) ∧
      L'.On locks (storeSpec m key data flag e).2.1 w

/-- A store that leaves the contents as they are. -/
theorem Layout.Stored.same {flag rc : Int} {e' : Option Errno} (h : L.Models m)
    (hspec : storeSpec m key data flag e = (rc, e', m)) (hrc : rc ≠ 0) (hw : L.On locks e' w) :
    L.Stored m key data flag locks e rc w := by
  rw [Layout.Stored, hspec]
  exact ⟨rfl, L, h, .inr ⟨fun hzero => hrc hzero.1, rfl⟩, hw⟩

/-- A store that changes them. -/
theorem Layout.Stored.new {flag : Int} {L' : Layout}
    (h : L'.Models (Function.update m key (some data)))
    (hspec : storeSpec m key data flag e = (0, e, Function.update m key (some data)))
    (hgrown : L.Grown L' key data (L.Grows m key data)) (hw : L'.On locks e w) :
    L.Stored m key data flag locks e 0 w := by
  rw [Layout.Stored, hspec]
  refine ⟨rfl, L', h, ?_, hw⟩
  rwa [eq_self, true_and]

/-- `db_store`, once the key has been looked up. -/
theorem storeFound_wp {flag : Int} {found : Bool} (h : L.Wf nodes tbl) (hlocks : OnChains locks)
    (hw : L.On locks e w) (hok : Storable key data) (hfinds : L.Finds nodes tbl key found db)
    (hchainoff : db.chainoff = L.offset (.head (hashOf key)))
    (hflag : ¬ (flag ≠ Flag.dbInsert ∧ flag ≠ Flag.dbReplace ∧ flag ≠ Flag.dbStore))
    (hE : (storeSpec (L.contents tbl) key data flag e).1 = 0 →
      L.Grows (L.contents tbl) key data → L.Full →
        ∀ stop w', Quits (L.contents tbl) key data locks e stop w' → E stop w') :
    (if found then storeOld db key data flag else storeNew db key data flag).wp Call.apply E
      (fun r w' => db.Keeps r.2 ∧ L.Stored (L.contents tbl) key data flag locks e r.1 w') w := by
  have hmodels : L.Models (L.contents tbl) := ⟨nodes, tbl, h, rfl⟩
  rcases hfinds.contents h with ⟨rfl, i, s, prev, hat, hskey, hptroff, hreads, hsome⟩ | ⟨rfl, hnone⟩
  · have hne : L.contents tbl key ≠ none := hsome ▸ Option.some_ne_none _
    rw [if_pos rfl]
    by_cases hinsert : flag = Flag.dbInsert
    · rw [storeOld, if_pos hinsert]
      refine ⟨⟨rfl, rfl, rfl⟩, .same hmodels ?_ Int.one_ne_zero hw⟩
      rw [storeSpec, if_neg hflag, if_neg hne, if_pos hinsert]
    · have hspec : storeSpec (L.contents tbl) key data flag e =
          (0, e, Function.update (L.contents tbl) key (some data)) := by
        rw [storeSpec, if_neg hflag, if_neg hne, if_neg hinsert]
      refine (storeOld_wp h hlocks hw hok hat hskey hreads hptroff hchainoff hinsert
        (hE (congrArg Prod.fst hspec))).mono (fun _ _ h => h) ?_
      rintro ⟨_, db₁⟩ w₁ ⟨rfl, hkeeps, L', hmodels', hgrown, hw₁⟩
      exact ⟨hkeeps, .new hmodels' hspec hgrown hw₁⟩
  · rw [if_neg Bool.noConfusion]
    by_cases hreplace : flag = Flag.dbReplace
    · rw [storeNew, if_pos hreplace, wp_setErrno]
      refine ⟨⟨rfl, rfl, rfl⟩, .same hmodels ?_ (Int.neg_ne_zero.mpr Int.one_ne_zero)
        (hw.setErrno .enoent)⟩
      rw [storeSpec, if_neg hflag, if_pos hnone, if_pos hreplace]
    · have hspec : storeSpec (L.contents tbl) key data flag e =
          (0, e, Function.update (L.contents tbl) key (some data)) := by
        rw [storeSpec, if_neg hflag, if_pos hnone, if_neg hreplace]
      refine (storeNew_wp h hlocks hw hok hnone hchainoff hreplace
        (hE (congrArg Prod.fst hspec))).mono (fun _ _ h => h) ?_
      rintro ⟨_, db₁⟩ w₁ ⟨rfl, hkeeps, L', hmodels', hgrown, hw₁⟩
      exact ⟨hkeeps, .new hmodels' hspec hgrown hw₁⟩

/-- `db_store` is the store of a map, with the answers and the `errno` of its flag. -/
theorem dbStore_wp (flag : Int) (h : L.Models m) (hw : L.On [] e w) (hdb : db.Opened)
    (hok : Storable key data)
    (hE : (storeSpec m key data flag e).1 = 0 → L.Grows m key data → L.Full →
      ∀ stop w', Quits m key data [chainLock .write (hashOf key)] e stop w' → E stop w') :
    (dbStore db key data flag).wp Call.apply E
      (fun r w' => r.2.Opened ∧ L.Stored m key data flag [] e r.1 w') w := by
  rw [dbStore]
  by_cases hflag : flag ≠ Flag.dbInsert ∧ flag ≠ Flag.dbReplace ∧ flag ≠ Flag.dbStore
  · rw [if_pos hflag, wp_setErrno]
    refine ⟨hdb, .same h ?_ (Int.neg_ne_zero.mpr Int.one_ne_zero) (hw.setErrno .einval)⟩
    rw [storeSpec, if_pos hflag]
  have hkey := hok.key_le
  have hdata := hok.data_le
  have hpos := List.length_pos_iff.mpr hok.data_ne
  rw [if_neg hflag, wp_errDumpIf (by simp only [datlenMin, datlenMax] at *; omega)]
  obtain ⟨nodes, tbl, h, rfl⟩ := h
  refine (dbFindAndLock_wp h hw hdb (by omega) true).bind ?_
  rintro ⟨found, db₁⟩ w₁ ⟨hfinds, hopened, hchainoff, hw₁⟩
  dsimp only at hfinds hopened hchainoff ⊢
  refine (storeFound_wp h (onChains_chainLock _ _) hw₁ hok hfinds hchainoff hflag hE).bind ?_
  rintro ⟨rc, db₂⟩ w₂ ⟨hkeeps, hrc, L', hmodels, hgrown, hw₂⟩
  dsimp only at hkeeps hrc hgrown ⊢
  rw [hkeeps.chainoff, hchainoff, wp_unLock, wp_errDumpIf Bool.noConfusion]
  exact ⟨hkeeps.opened hopened, hrc, L', hmodels, hgrown, hw₂.unlock_last⟩

end

end UnixSys.Db

import UnixSys.Db.Update
import UnixSys.Lib.Chains

/-!
# Find — along a hash chain, and along the free list

Both searches read one record after the other until one is as asked for or the chain ends.
They leave the offset of the link to it, which is what a deletion needs.
-/

namespace UnixSys.Db

/-! ## The hash of a key -/

/-- The hash chain of a key. -/
def hashOf (key : Str) : Nat := ((hashLoop key 1 0).getD 0).toNat % nhashDef

theorem hashOf_lt (key : Str) : hashOf key < nhashDef := Nat.mod_lt _ (by decide)

theorem schar_bounds (c : Byte) : -128 ≤ schar c ∧ schar c ≤ 127 := by
  have hlow : -(((256 : Nat) : Int) / 2) ≤ schar c := Int.le_bmod (by decide)
  have hhigh : schar c < (((256 : Nat) : Int) + 1) / 2 := Int.bmod_lt (by decide)
  omega

/-- The products of the hash loop stay far inside an `int`. -/
theorem schar_mul_bounds {c : Byte} {i : Int} (hi : 0 ≤ i) (hle : i ≤ 8000000) :
    -intMax - 1 ≤ schar c * i ∧ schar c * i ≤ intMax := by
  obtain ⟨hlow, hhigh⟩ := schar_bounds c
  have h₁ := Int.mul_le_mul_of_nonneg_right hlow hi
  have h₂ := Int.mul_le_mul_of_nonneg_right hhigh hi
  simp only [intMax]
  omega

theorem hashLoop_isSome {key : Str} {i : Int} {hval : DBHASH} (hi : 0 ≤ i)
    (hlen : i + key.length ≤ 8000000) : (hashLoop key i hval).isSome = true := by
  induction key generalizing i hval with
  | nil => rfl
  | cons c key ih =>
      rw [List.length_cons] at hlen
      obtain ⟨hlow, hhigh⟩ := schar_mul_bounds (c := c) hi (by omega)
      rw [hashLoop, if_pos ⟨hlow, hhigh, by simp only [intMax]; omega⟩]
      exact ih (by omega) (by omega)

/-- `_db_hash` is defined for keys of millions of bytes. -/
theorem dbHash_eq {db : DB} {key : Str} (hlen : key.length < 8000000)
    (hn : db.nhash = nhashDef) : dbHash db key = .ret (hashOf key) := by
  have hsome : (hashLoop key 1 0).isSome = true := hashLoop_isSome (by decide) (by omega)
  obtain ⟨hval, hval_eq⟩ := Option.isSome_iff_exists.mp hsome
  rw [dbHash, hashOf, hval_eq, hn]
  rfl

/-! ## A search along a chain -/

/-- Slot `i` is in the chain `l` from `loc`, and the link to it is at `prev`. -/
structure Layout.At (L : Layout) (loc : Loc) (l : List Nat) (i : Nat) (s : Slot) (prev : Loc) :
    Prop where
  split : ∃ l₁ l₂, l = l₁ ++ i :: l₂ ∧ prev = Chain.last Loc.slot loc l₁
  slot : L.slots[i]? = some s

/-- What a search along the chain `l` from `loc` comes to: a slot with `p`, whose offset is
`offset` and whose link is at `prevoff`, or the end of the chain. -/
def Layout.Search (L : Layout) (p : Slot → Prop) (loc : Loc) (l : List Nat)
    (offset prevoff : Int) (db : DB) : Prop :=
  (∃ i s prev, L.At loc l i s prev ∧ p s ∧ offset = L.addr (some i) ∧
    prevoff = L.offset prev ∧ db.Reads L i s) ∨
  (offset = 0 ∧ ∀ i ∈ l, ∀ s, L.slots[i]? = some s → ¬ p s)

namespace Layout

variable {L : Layout} {p : Slot → Prop} {loc : Loc} {l : List Nat} {i : Nat} {s : Slot}
  {offset prevoff : Int} {db : DB}

/-- A search goes on behind a slot that is not as asked for. -/
theorem Search.cons (h : L.Search p (.slot i) l offset prevoff db) (hs : L.slots[i]? = some s)
    (hp : ¬ p s) : L.Search p loc (i :: l) offset prevoff db := by
  rcases h with ⟨j, t, prev, hat, ht⟩ | ⟨hzero, hnone⟩
  · obtain ⟨l₁, l₂, hl, hprev⟩ := hat.split
    refine .inl ⟨j, t, prev, ⟨⟨i :: l₁, l₂, ?_, ?_⟩, hat.slot⟩, ht⟩
    · rw [hl, List.cons_append]
    · rw [Chain.last_cons, hprev]
  · refine .inr ⟨hzero, fun j hj t ht => ?_⟩
    rcases List.mem_cons.mp hj with rfl | hj
    · obtain rfl : s = t := Option.some.inj (hs.symm.trans ht)
      exact hp
    · exact hnone j hj t ht

theorem Search.here (hs : L.slots[i]? = some s) (hp : p s) (hoff : offset = L.addr (some i))
    (hprev : prevoff = L.offset loc) (hdb : db.Reads L i s) :
    L.Search p loc (i :: l) offset prevoff db :=
  .inl ⟨i, s, loc, ⟨⟨[], l, rfl, Chain.last_nil.symm⟩, hs⟩, hp, hoff, hprev, hdb⟩

/-- The slots that a chain leads through are there. -/
theorem Ok.slot_of_next (hL : L.Ok) (h : L.next loc = some i) : ∃ s, L.slots[i]? = some s :=
  ⟨_, List.getElem?_eq_getElem (hL.links loc i h)⟩

theorem addr_ne_zero (i : Nat) : (L.addr (some i) : Int) ≠ 0 := by
  have hpos : 0 < L.addr (some i) := Nat.lt_of_lt_of_le (by decide) (headerSize_le_addr i)
  omega

end Layout

open Layout

section
variable {E : Stop → World → Prop} {L : Layout} {locks : List Lock} {e : Option Errno} {w : World}
  {db : DB} {loc : Loc} {l : List Nat} {fuel : Nat}

/-- The loop of `_db_find_and_lock` is a search for a record of the key. -/
theorem findLoop_wp {key : Str} (hL : L.Ok) (hw : L.On locks e w)
    (hchain : Chain Loc.slot L.next loc l) (hfuel : l.length < fuel)
    (hptr : db.ptroff = L.offset loc) :
    (findLoop key fuel db (L.addr (L.next loc))).wp Call.apply E
      (fun r w' => L.Search (·.key = key) loc l r.1 r.2.ptroff r.2 ∧ db.Keeps r.2 ∧
        L.On locks e w') w := by
  induction l generalizing loc fuel db w with
  | nil =>
      obtain ⟨fuel, rfl⟩ := Nat.exists_eq_succ_of_ne_zero (Nat.ne_of_gt hfuel)
      have hnext : L.next loc = none := hchain
      rw [hnext, findLoop, if_neg (by simp)]
      exact ⟨.inr ⟨rfl, fun i hi => absurd hi List.not_mem_nil⟩, .refl db, hw⟩
  | cons i l ih =>
      obtain ⟨fuel, rfl⟩ := Nat.exists_eq_succ_of_ne_zero (Nat.ne_of_gt (Nat.zero_lt_of_lt hfuel))
      obtain ⟨hnext, hrest⟩ := hchain
      obtain ⟨s, hs⟩ := hL.slot_of_next hnext
      rw [hnext, findLoop, if_pos (addr_ne_zero i)]
      refine (dbReadidx_wp hL hs hw db (.inl rfl)).bind ?_
      rintro ⟨nextoffset, db₁⟩ w₁ ⟨hnextoffset, hreads, hkeeps, hptroff, hw₁, -⟩
      dsimp only at hnextoffset ⊢
      by_cases hkey : s.key = key
      · rw [if_pos (hreads.idxbuf.trans hkey)]
        exact ⟨.here hs hkey rfl (hptroff.trans hptr) hreads, hkeeps, hw₁⟩
      · have hstep := ih hw₁ hrest (Nat.lt_of_succ_lt_succ hfuel)
          (show { db₁ with ptroff := ((L.addr (some i) : Nat) : Int) }.ptroff = _ from rfl)
        rw [if_neg (fun h => hkey (hreads.idxbuf ▸ h)), hnextoffset, ← next_slot hs]
        refine hstep.mono (fun _ _ h => h) ?_
        rintro r w' ⟨hsearch, hkeeps', hw'⟩
        exact ⟨hsearch.cons hs hkey, hkeeps.trans ⟨hkeeps'.chainoff, hkeeps'.hashoff,
          hkeeps'.nhash⟩, hw'⟩

/-- The loop of `_db_findfree` is a search for a record with the lengths. -/
theorem freeLoop_wp {keylen datlen : Nat} (hL : L.Ok) (hw : L.On locks e w)
    (hchain : Chain Loc.slot L.next loc l) (hfuel : l.length < fuel) :
    (freeLoop keylen datlen fuel db (L.offset loc) (L.addr (L.next loc))).wp Call.apply E
      (fun r w' => L.Search (fun s => s.key.length = keylen ∧ s.data.length + 1 = datlen)
        loc l r.1 r.2.1 r.2.2 ∧ db.Keeps r.2.2 ∧ L.On locks e w') w := by
  induction l generalizing loc fuel db w with
  | nil =>
      obtain ⟨fuel, rfl⟩ := Nat.exists_eq_succ_of_ne_zero (Nat.ne_of_gt hfuel)
      have hnext : L.next loc = none := hchain
      rw [hnext, freeLoop, if_neg (by simp)]
      exact ⟨.inr ⟨rfl, fun i hi => absurd hi List.not_mem_nil⟩, .refl db, hw⟩
  | cons i l ih =>
      obtain ⟨fuel, rfl⟩ := Nat.exists_eq_succ_of_ne_zero (Nat.ne_of_gt (Nat.zero_lt_of_lt hfuel))
      obtain ⟨hnext, hrest⟩ := hchain
      obtain ⟨s, hs⟩ := hL.slot_of_next hnext
      rw [hnext, freeLoop, if_pos (addr_ne_zero i)]
      refine (dbReadidx_wp hL hs hw db (.inl rfl)).bind ?_
      rintro ⟨nextoffset, db₁⟩ w₁ ⟨hnextoffset, hreads, hkeeps, -, hw₁, -⟩
      dsimp only at hnextoffset ⊢
      by_cases hsize : s.key.length = keylen ∧ s.data.length + 1 = datlen
      · rw [if_pos (by rw [hreads.idxbuf, hreads.datlen]; exact hsize)]
        exact ⟨.here hs hsize rfl rfl hreads, hkeeps, hw₁⟩
      · rw [if_neg (by rw [hreads.idxbuf, hreads.datlen]; exact hsize), hnextoffset, ← next_slot hs]
        refine (ih hw₁ hrest (Nat.lt_of_succ_lt_succ hfuel)).mono (fun _ _ h => h) ?_
        rintro r w' ⟨hsearch, hkeeps', hw'⟩
        exact ⟨hsearch.cons hs hsize, hkeeps.trans hkeeps', hw'⟩

end

end UnixSys.Db

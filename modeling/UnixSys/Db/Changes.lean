import UnixSys.Db.Invariant

/-!
# Changes — deletion and insertion as changes of a layout

A deletion blanks a slot and moves it to the free list. A new record takes a slot of the free
list, or one more at the end. Each keeps the lists as they should be and changes the contents
at its key only.
-/

namespace UnixSys.Db

/-- A slot whose record is not in use, of the same lengths. -/
def Slot.blanked (s : Slot) (p : Option Nat) : Slot where
  next := p
  key := List.replicate s.key.length space
  data := List.replicate s.data.length space

theorem Slot.blanked_blank (s : Slot) (p : Option Nat) : (s.blanked p).blank :=
  fun _ hc => List.eq_of_mem_replicate hc

@[simp] theorem Slot.size_blanked (s : Slot) (p : Option Nat) : (s.blanked p).size = s.size := by
  simp [Slot.blanked, Slot.size]

theorem Slot.Ok.blanked {s : Slot} (h : s.Ok) (p : Option Nat) : (s.blanked p).Ok where
  key_ne := by simpa [Slot.blanked] using h.key_ne
  key_le := by simpa [Slot.blanked] using h.key_le
  key_sep hmem := absurd (List.eq_of_mem_replicate hmem) (by decide)
  key_nul hmem := absurd (List.eq_of_mem_replicate hmem) (by decide)
  data_ne := by simpa [Slot.blanked] using h.data_ne
  data_le := by simpa [Slot.blanked] using h.data_le
  data_nul hmem := absurd (List.eq_of_mem_replicate hmem) (by decide)

namespace Layout

/-- Slot `i` is blank and in front of the free list; the link to it at `prev` leads past it. -/
def release (L : Layout) (i : Nat) (s : Slot) (prev : Loc) : Layout :=
  ((L.write i (s.blanked L.free)).link .free (some i)).link prev s.next

/-- Slot `i` of the free list, where the link to it is at `prev`, has a record in front of
the chain `h`. -/
def reuse (L : Layout) (i : Nat) (s : Slot) (prev : Loc) (h : Nat) (key data : Str) : Layout :=
  ((L.link prev s.next).write i ⟨L.next (.head h), key, data⟩).link (.head h) (some i)

/-- One more slot has a record in front of the chain `h`. -/
def extend (L : Layout) (h : Nat) (key data : Str) : Layout :=
  (L.append ⟨L.next (.head h), key, data⟩).link (.head h) (some L.slots.length)

variable {L : Layout} {nodes : Root → List Nat} {tbl : Str → Option Nat} {i : Nat} {s : Slot}
  {prev : Loc} {r : Root} {key data : Str}

/-! ## The slots of a changed layout -/

theorem has_of_next {loc : Loc} (h : L.next loc = some i) : L.Has loc := by
  cases loc with
  | free => trivial
  | head k =>
      rw [next, Option.join_eq_some_iff] at h
      show k < nhashDef
      rw [← L.heads_length]
      exact (List.getElem?_eq_some_iff.mp h).1
  | slot j =>
      obtain ⟨t, ht, -⟩ := Option.bind_eq_some_iff.mp h
      exact (List.getElem?_eq_some_iff.mp ht).1

/-- A link changes what no slot holds. -/
theorem fields_link (loc : Loc) (p : Option Nat) (j : Nat) :
    (L.link loc p).slots[j]?.map Slot.fields = L.slots[j]?.map Slot.fields := by
  obtain ⟨f, hf, hsame⟩ := getElem?_link (L := L) (i := j) loc p
  rw [hf, Option.map_map]
  congr 1
  funext t
  exact Prod.ext (hsame t).1 (hsame t).2

theorem getElem?_write (h : i < L.slots.length) (s : Slot) :
    (L.write i s).slots[i]? = some s := by
  simp [Layout.write, h]

theorem getElem?_write_of_ne {j : Nat} (h : j ≠ i) (s : Slot) :
    (L.write i s).slots[j]? = L.slots[j]? := by
  simp [Layout.write, h.symm]

namespace Wf

theorem next_prev (h : L.Wf nodes tbl) (hat : L.At r.loc (nodes r) i s prev) :
    L.next prev = some i := by
  obtain ⟨l₁, l₂, hl, rfl⟩ := hat.split
  have hchain := h.chains.chain r
  rw [hl] at hchain
  exact hchain.drop.1

theorem mem_of_at (hat : L.At r.loc (nodes r) i s prev) : i ∈ nodes r := by
  obtain ⟨l₁, l₂, hl, -⟩ := hat.split
  rw [hl]
  exact List.mem_append_right l₁ List.mem_cons_self

/-- The link to a slot is not its own. -/
theorem prev_ne_slot (h : L.Wf nodes tbl) (hat : L.At r.loc (nodes r) i s prev) :
    prev ≠ .slot i := by
  obtain ⟨l₁, l₂, hl, rfl⟩ := hat.split
  refine Chains.last_ne loc_ne_slot (fun hmem => ?_) slot_injective
  exact (List.nodup_append.mp (hl ▸ h.chains.nodup r)).2.2 i hmem i List.mem_cons_self rfl

/-- The link to a slot of a chain is not that of the free list. -/
theorem prev_ne_free {k : Nat} (hat : L.At (Root.chain k).loc (nodes (.chain k)) i s prev) :
    prev ≠ .free := by
  obtain ⟨l₁, l₂, -, rfl⟩ := hat.split
  exact Chains.last_ne_root loc_ne_slot loc_injective (show Root.chain k ≠ .free from Root.noConfusion)

/-- A slot is that of no other key. -/
theorem only_of_slot (h : L.Wf nodes tbl) (hs : L.slots[i]? = some s) {key' : Str}
    (htbl : tbl key' = some i) : key' = s.key := by
  obtain ⟨-, t, ht, rfl⟩ := h.stored key' i htbl
  rw [Option.some.inj (hs.symm.trans ht)]

end Wf

/-! ## Deletion -/

theorem Models.release (h : L.Wf nodes tbl) {k : Nat}
    (hat : L.At (Root.chain k).loc (nodes (.chain k)) i s prev) :
    (L.release i s prev).Models (Function.update (L.contents tbl) s.key none) := by
  have hmem : i ∈ nodes (.chain k) := Wf.mem_of_at hat
  have hi := h.lt_of_mem hmem
  have hprev : L.next prev = some i := h.next_prev hat
  obtain ⟨l₁, l₂, hl, hlast⟩ := hat.split
  have hok : (L.write i (s.blanked L.free)).Ok :=
    h.toOk.write hat.slot (s.size_blanked _) ((h.toOk.slot hat.slot).blanked _)
      fun j hj => h.links .free j hj
  have hok' : ((L.write i (s.blanked L.free)).link .free (some i)).Ok := by
    refine hok.link trivial fun j hj => ?_
    obtain rfl := Option.some.inj hj
    rwa [length_write]
  have hhas : ((L.write i (s.blanked L.free)).link .free (some i)).Has prev :=
    ((has_of_next hprev).write i _).link .free _
  have hsnext : L.next (.slot i) = s.next := next_slot hat.slot
  have hok'' : (L.release i s prev).Ok := by
    refine hok'.link hhas fun j hj => ?_
    rw [length_link, length_write]
    exact h.links (.slot i) j (hsnext.trans hj)
  -- the record leaves its chain for the front of the free list
  have hnext : (L.release i s prev).next = Function.update (Function.update
      (Function.update L.next (.slot i) (L.next .free)) .free (some i)) prev
      (L.next (.slot i)) := by
    rw [Layout.release, next_link hhas, next_link (by trivial), next_write hi, hsnext]
    rfl
  have hchains := h.chains.move_last slot_injective loc_injective loc_ne_slot hl .free
    Root.noConfusion
  rw [← hlast] at hchains
  have hchange : Change L (L.release i s prev) nodes
      (Chains.moved nodes (.chain k) (l₁ ++ l₂) .free i) tbl (Function.update tbl s.key none)
      s.key i := {
    length := fun j hj _ => by rwa [Layout.release, length_link, length_link, length_write] at hj
    slots := fun j hj => by
      rw [Layout.release, fields_link, fields_link, getElem?_write_of_ne hj]
    lists := fun j hj r => Chains.mem_moved hl hj .free r
    tables := fun k hk => Function.update_of_ne hk _ _
    only := fun k hk => h.only_of_slot hat.slot hk
    old := fun j hj => Option.some.inj (hj.symm.trans (h.found k i s hmem hat.slot)) }
  refine hchange.freed h hok'' (hnext ▸ hchains) ?_ (Function.update_self _ _ _) ?_
  · rw [Chains.moved, Function.update_self]
    exact List.mem_cons_self
  · intro t ht
    have hfields : (L.release i s prev).slots[i]?.map Slot.fields =
        some (s.blanked L.free).fields := by
      rw [Layout.release, fields_link, fields_link, getElem?_write hi, Option.map_some]
    rw [ht, Option.map_some] at hfields
    have hkey : t.key = (s.blanked L.free).key :=
      congrArg Prod.fst (Option.some.inj hfields)
    rw [Slot.blank, hkey]
    exact s.blanked_blank _

/-! ## Insertion -/

/-- A slot of the free list is the slot of no key. -/
theorem Wf.not_of_free (h : L.Wf nodes tbl) (hi : i ∈ nodes .free) (k : Str) : tbl k ≠ some i := by
  intro hk
  obtain ⟨hmem, -⟩ := h.stored k i hk
  cases h.chains.disjoint _ _ i hi hmem

theorem Models.reuse (h : L.Wf nodes tbl) (hat : L.At Root.free.loc (nodes .free) i s prev)
    (hkey : key.length = s.key.length) (hdata : data.length = s.data.length)
    (hok : Storable key data) (hnone : tbl key = none) :
    (L.reuse i s prev (hashOf key) key data).Models
      (Function.update (L.contents tbl) key (some data)) := by
  have hmem : i ∈ nodes .free := Wf.mem_of_at hat
  have hi := h.lt_of_mem hmem
  have hprev : L.next prev = some i := h.next_prev hat
  have hhas : L.Has prev := has_of_next hprev
  obtain ⟨l₁, l₂, hl, hlast⟩ := hat.split
  have hsnext : L.next (.slot i) = s.next := next_slot hat.slot
  obtain ⟨t, ht⟩ : ∃ t : Slot, t = ⟨L.next (.head (hashOf key)), key, data⟩ := ⟨_, rfl⟩
  have hreuse : L.reuse i s prev (hashOf key) key data =
      ((L.link prev s.next).write i t).link (.head (hashOf key)) (some i) := by
    rw [Layout.reuse, ht]
  have hslot : (L.link prev s.next).slots[i]? = some s :=
    (getElem?_link_of_ne (h.prev_ne_slot hat) _).trans hat.slot
  have hi' : i < (L.link prev s.next).slots.length := by rwa [length_link]
  have hok₁ : (L.link prev s.next).Ok := by
    refine h.toOk.link hhas fun j hj => ?_
    exact h.links (.slot i) j (hsnext.trans hj)
  have hok₂ : ((L.link prev s.next).write i t).Ok := by
    refine hok₁.write hslot (by rw [ht, Slot.size, Slot.size, hkey, hdata]) (ht ▸ hok) ?_
    intro j hj
    rw [ht] at hj
    rw [length_link]
    exact h.links (.head (hashOf key)) j hj
  have hhead : ((L.link prev s.next).write i t).Has (.head (hashOf key)) := hashOf_lt key
  have hok₃ : (L.reuse i s prev (hashOf key) key data).Ok := by
    rw [hreuse]
    refine hok₂.link hhead fun j hj => ?_
    obtain rfl := Option.some.inj hj
    rwa [length_write]
  -- the record leaves the free list for the front of the chain of its new key
  have hnext : (L.reuse i s prev (hashOf key) key data).next = Function.update (Function.update
      (Function.update L.next prev (L.next (.slot i))) (.slot i) (L.next (.head (hashOf key))))
      (.head (hashOf key)) (some i) := by
    rw [hreuse, next_link hhead, next_write hi', next_link hhas, hsnext, ht]
  have hchains := h.chains.move slot_injective loc_injective loc_ne_slot hl
    (.chain (hashOf key)) Root.noConfusion
  rw [← hlast] at hchains
  have hchange : Change L (L.reuse i s prev (hashOf key) key data) nodes
      (Chains.moved nodes .free (l₁ ++ l₂) (.chain (hashOf key)) i) tbl
      (Function.update tbl key (some i)) key i := {
    length := fun j hj _ => by rwa [hreuse, length_link, length_write, length_link] at hj
    slots := fun j hj => by
      rw [hreuse, fields_link, getElem?_write_of_ne hj, fields_link]
    lists := fun j hj r => Chains.mem_moved hl hj _ r
    tables := fun k hk => Function.update_of_ne hk _ _
    only := fun k hk => absurd hk (h.not_of_free hmem k)
    old := fun j hj => by cases hnone.symm.trans hj }
  refine hchange.filled h hok₃ (hnext ▸ hchains) ?_ (Function.update_self _ _ _) ?_
  · rw [Chains.moved, Function.update_self]
    exact List.mem_cons_self
  · rw [hreuse, fields_link, getElem?_write hi', ht]
    rfl

theorem next_append (t : Slot) :
    (L.append t).next = Function.update L.next (.slot L.slots.length) t.next := by
  funext loc
  cases loc with
  | free => rfl
  | head k => rfl
  | slot j =>
      by_cases hj : j = L.slots.length
      · subst hj
        simp [Layout.append, next]
      · rw [Function.update_of_ne fun heq => hj (Loc.slot.inj heq)]
        simp only [Layout.append, next, List.getElem?_append, List.getElem?_singleton]
        split
        · rfl
        · rw [if_neg (by omega), List.getElem?_eq_none (by omega)]

theorem Models.extend (h : L.Wf nodes tbl) (hok : Storable key data) (hnone : tbl key = none)
    (hoff : (idxOff L.slots L.slots.length : Int) ≤ ptrMax) :
    (L.extend (hashOf key) key data).Models
      (Function.update (L.contents tbl) key (some data)) := by
  obtain ⟨n, hn⟩ : ∃ n, n = L.slots.length := ⟨_, rfl⟩
  obtain ⟨t, ht⟩ : ∃ t : Slot, t = ⟨L.next (.head (hashOf key)), key, data⟩ := ⟨_, rfl⟩
  have hextend : L.extend (hashOf key) key data =
      (L.append t).link (.head (hashOf key)) (some n) := by
    rw [Layout.extend, ht, hn]
  have hlen : (L.append t).slots.length = n + 1 := by
    rw [hn]
    exact List.length_append
  have hlast : (L.append t).slots[n]? = some t := by
    rw [hn]
    exact List.getElem?_concat_length
  have hnotin : ∀ r, n ∉ nodes r := by
    intro r hmem
    have hlt := h.lt_of_mem hmem
    omega
  have hok₁ : (L.append t).Ok := by
    refine h.toOk.append (fun j hj => ?_) hoff (ht ▸ hok)
    rw [ht] at hj
    exact h.links (.head (hashOf key)) j hj
  have hhead : (L.append t).Has (.head (hashOf key)) := hashOf_lt key
  have hok₂ : (L.extend (hashOf key) key data).Ok := by
    rw [hextend]
    refine hok₁.link hhead fun j hj => ?_
    obtain rfl := Option.some.inj hj
    omega
  -- the new record is pushed in front of its chain
  have hnext : (L.extend (hashOf key) key data).next = Function.update
      (Function.update L.next (.slot n) (L.next (.head (hashOf key))))
      (.head (hashOf key)) (some n) := by
    rw [hextend, next_link hhead, next_append, ← hn, ht]
  have hchains := h.chains.push slot_injective loc_injective loc_ne_slot hnotin
    (.chain (hashOf key))
  have hchange : Change L (L.extend (hashOf key) key data) nodes
      (Function.update nodes (.chain (hashOf key)) (n :: nodes (.chain (hashOf key)))) tbl
      (Function.update tbl key (some n)) key n := {
    length := fun j hj hjn => by
      rw [hextend, length_link, hlen] at hj
      omega
    slots := fun j hj => by
      rw [hextend, fields_link, Layout.append, List.getElem?_append]
      split
      · rfl
      · rw [List.getElem?_eq_none (by simp; omega), List.getElem?_eq_none (by omega)]
    lists := fun j hj r => by
      rw [Function.update_apply]
      split
      · next heq => simp [heq, hj]
      · rfl
    tables := fun k hk => Function.update_of_ne hk _ _
    only := fun k hk => absurd (h.stored k n hk).1 (hnotin _)
    old := fun j hj => by cases hnone.symm.trans hj }
  refine hchange.filled h hok₂ (hnext ▸ hchains) ?_ (Function.update_self _ _ _) ?_
  · rw [Function.update_self]
    exact List.mem_cons_self
  · rw [hextend, fields_link, hlast, ht]
    rfl

/-! ## Replacement in place -/

theorem Models.rewrite (h : L.Wf nodes tbl) {k : Nat} (hi : i ∈ nodes (.chain k))
    (hs : L.slots[i]? = some s) (hdata : data.length = s.data.length)
    (hok : Storable s.key data) :
    (L.write i { s with data := data }).Models
      (Function.update (L.contents tbl) s.key (some data)) := by
  have hlt := h.lt_of_mem hi
  have hsnext : L.next (.slot i) = s.next := next_slot hs
  have hok₁ : (L.write i { s with data := data }).Ok := by
    refine h.toOk.write hs (by rw [Slot.size, Slot.size, hdata]) hok fun j hj => ?_
    exact h.links (.slot i) j (hsnext.trans hj)
  have hnext : (L.write i { s with data := data }).next = L.next := by
    rw [next_write hlt, ← hsnext, Function.update_eq_self]
  have hchange : Change L (L.write i { s with data := data }) nodes nodes tbl tbl s.key i := {
    length := fun j hj _ => by rwa [length_write] at hj
    slots := fun j hj => by rw [getElem?_write_of_ne hj]
    lists := fun j _ r => Iff.rfl
    tables := fun k _ => rfl
    only := fun k hk => h.only_of_slot hs hk
    old := fun j hj => Option.some.inj (hj.symm.trans (h.found k i s hi hs)) }
  refine hchange.filled h hok₁ (hnext ▸ h.chains) ?_ (h.found k i s hi hs) ?_
  · rw [← h.hashed k i s hi hs]
    exact hi
  · rw [getElem?_write hlt]
    rfl

end Layout

end UnixSys.Db

import UnixSys.Db.Find
import Mathlib.Data.List.Perm.Subperm

/-!
# Invariant — what a layout contains

The free list and the hash chains have no slot in common and no slot is in none of them. A
table gives the slot of each key that is stored; the data there are the contents of the
layout, a map from keys. Every change of the library is to one slot, which enters a chain or
leaves it.
-/

namespace UnixSys.Db

/-- The lists of slots: the free list, and the chain of each hash. -/
inductive Root where
  | free
  | chain (h : Nat)
  deriving DecidableEq

/-- Where a list starts. -/
def Root.loc : Root → Loc
  | .free => .free
  | .chain h => .head h

theorem slot_injective : Function.Injective Loc.slot := fun _ _ h => Loc.slot.inj h

theorem loc_injective : Function.Injective Root.loc := by
  intro r r' h
  cases r <;> cases r' <;> cases h <;> rfl

theorem loc_ne_slot (r : Root) (i : Nat) : r.loc ≠ .slot i := by
  cases r <;> exact Loc.noConfusion

/-- What a slot holds, without its link. -/
def Slot.fields (s : Slot) : Str × Str := (s.key, s.data)

/-- A record that is not in use. -/
def Slot.blank (s : Slot) : Prop := ∀ c ∈ s.key, c = space

namespace Layout

/-- The lists of slots are `nodes`, and the slots of the keys `tbl`. -/
structure Wf (L : Layout) (nodes : Root → List Nat) (tbl : Str → Option Nat) : Prop
    extends L.Ok where
  chains : Chains Loc.slot L.next Root.loc nodes
  all : ∀ i < L.slots.length, ∃ r, i ∈ nodes r
  hashed : ∀ h i s, i ∈ nodes (.chain h) → L.slots[i]? = some s → h = hashOf s.key
  found : ∀ h i s, i ∈ nodes (.chain h) → L.slots[i]? = some s → tbl s.key = some i
  stored : ∀ key i, tbl key = some i → i ∈ nodes (.chain (hashOf key)) ∧
    ∃ s, L.slots[i]? = some s ∧ s.key = key
  blank : ∀ i s, i ∈ nodes .free → L.slots[i]? = some s → s.blank

/-- The data of the keys that are stored. -/
def contents (L : Layout) (tbl : Str → Option Nat) : Str → Option Str :=
  fun key => (tbl key).bind fun i => L.slots[i]?.map Slot.data

/-- The layout is well formed, and its contents are `m`. -/
def Models (L : Layout) (m : Str → Option Str) : Prop :=
  ∃ nodes tbl, L.Wf nodes tbl ∧ L.contents tbl = m

variable {L L' : Layout} {nodes nodes' : Root → List Nat} {tbl tbl' : Str → Option Nat}
  {i : Nat} {s : Slot} {key : Str} {r : Root}

/-- There are fewer slots than a loop can have rounds. -/
theorem Ok.length_lt (h : L.Ok) : L.slots.length < rounds := by
  cases hn : L.slots.length with
  | zero => decide
  | succ n =>
      have hoff := h.offsets n (by omega)
      have hspan : (L.slots.take n).length * 11 ≤ span 0 (L.slots.take n) := length_le_span
      rw [List.length_take_of_le (by omega)] at hspan
      simp only [idxOff, headerSize, nhashDef, ptrSz, ptrMax, rounds] at hoff ⊢
      omega

namespace Wf

theorem slot_of_mem (h : L.Wf nodes tbl) (hi : i ∈ nodes r) : ∃ s, L.slots[i]? = some s := by
  obtain ⟨l₁, l₂, hl⟩ := List.append_of_mem hi
  have hchain := h.chains.chain r
  rw [hl] at hchain
  exact h.toOk.slot_of_next hchain.drop.1

theorem lt_of_mem (h : L.Wf nodes tbl) (hi : i ∈ nodes r) : i < L.slots.length := by
  obtain ⟨s, hs⟩ := h.slot_of_mem hi
  exact (List.getElem?_eq_some_iff.mp hs).1

/-- A chain is shorter than the rounds of a loop along it. -/
theorem length_lt (h : L.Wf nodes tbl) (r : Root) : (nodes r).length < rounds := by
  have hle := ((h.chains.nodup r).subperm fun i hi =>
    List.mem_range.mpr (h.lt_of_mem hi)).length_le
  rw [List.length_range] at hle
  exact Nat.lt_of_le_of_lt hle h.toOk.length_lt

/-- A key is stored where the search along its chain finds it. -/
theorem contents_eq_some (h : L.Wf nodes tbl) (hi : i ∈ nodes (.chain r'))
    (hs : L.slots[i]? = some s) : L.contents tbl s.key = some s.data := by
  rw [contents, h.found r' i s hi hs, Option.bind_some, hs]
  rfl

theorem contents_eq_none (h : L.Wf nodes tbl)
    (hnone : ∀ i ∈ nodes (.chain (hashOf key)), ∀ s, L.slots[i]? = some s → s.key ≠ key) :
    tbl key = none := by
  cases htbl : tbl key with
  | none => rfl
  | some i =>
      obtain ⟨hi, s, hs, hkey⟩ := h.stored key i htbl
      exact absurd hkey (hnone i hi s hs)

end Wf

/-! ## Changes of one slot -/

/-- The layouts and their lists differ in slot `i` only, the tables at `key` only, and no
other key has had that slot. -/
structure Change (L L' : Layout) (nodes nodes' : Root → List Nat) (tbl tbl' : Str → Option Nat)
    (key : Str) (i : Nat) : Prop where
  length : ∀ j < L'.slots.length, j ≠ i → j < L.slots.length
  slots : ∀ j ≠ i, L'.slots[j]?.map Slot.fields = L.slots[j]?.map Slot.fields
  lists : ∀ j ≠ i, ∀ r, j ∈ nodes' r ↔ j ∈ nodes r
  tables : ∀ k ≠ key, tbl' k = tbl k
  only : ∀ k, tbl k = some i → k = key
  old : ∀ j, tbl key = some j → j = i

namespace Change

variable (c : Change L L' nodes nodes' tbl tbl' key i)
include c

theorem slot {j : Nat} (hj : j ≠ i) {s' : Slot} (hs : L'.slots[j]? = some s') :
    ∃ s, L.slots[j]? = some s ∧ s.key = s'.key ∧ s.data = s'.data := by
  have hsame := c.slots j hj
  rw [hs, Option.map_some] at hsame
  obtain ⟨s, hs, heq⟩ := Option.map_eq_some_iff.mp hsame.symm
  exact ⟨s, hs, congrArg Prod.fst heq, congrArg Prod.snd heq⟩

/-- A key elsewhere has the data that it had. -/
theorem contents_of_ne {k : Str} (hk : k ≠ key) : L'.contents tbl' k = L.contents tbl k := by
  rw [contents, contents, c.tables k hk]
  cases htbl : tbl k with
  | none => rfl
  | some j =>
      have hj : j ≠ i := fun hji => hk (c.only k (hji ▸ htbl))
      have hsame := congrArg (Option.map Prod.snd) (c.slots j hj)
      rwa [Option.map_map, Option.map_map] at hsame

/-- What is left to show is about the slot. -/
theorem wf (h : L.Wf nodes tbl) (hL' : L'.Ok) (hchains : Chains Loc.slot L'.next Root.loc nodes')
    (hi : i < L'.slots.length → ∃ r, i ∈ nodes' r)
    (hlive : ∀ k s, i ∈ nodes' (.chain k) → L'.slots[i]? = some s →
      k = hashOf key ∧ s.key = key ∧ tbl' key = some i)
    (hkey : ∀ j, tbl' key = some j →
      j = i ∧ i ∈ nodes' (.chain (hashOf key)) ∧ ∃ s, L'.slots[i]? = some s ∧ s.key = key)
    (hfree : ∀ s, i ∈ nodes' .free → L'.slots[i]? = some s → s.blank) :
    L'.Wf nodes' tbl' where
  toOk := hL'
  chains := hchains
  -- every other slot is as it was before the change
  all j hj := by
    by_cases hji : j = i
    · exact hji ▸ hi (hji ▸ hj)
    · obtain ⟨r, hr⟩ := h.all j (c.length j hj hji)
      exact ⟨r, (c.lists j hji r).mpr hr⟩
  hashed k j s hj hs := by
    by_cases hji : j = i
    · subst hji
      obtain ⟨rfl, hkey, -⟩ := hlive k s hj hs
      rw [hkey]
    · obtain ⟨t, ht, hkey, -⟩ := c.slot hji hs
      rw [← hkey]
      exact h.hashed k j t ((c.lists j hji _).mp hj) ht
  found k j s hj hs := by
    by_cases hji : j = i
    · subst hji
      obtain ⟨-, hkey, htbl⟩ := hlive k s hj hs
      rw [hkey, htbl]
    · obtain ⟨t, ht, hsame, -⟩ := c.slot hji hs
      have hfound := h.found k j t ((c.lists j hji _).mp hj) ht
      rw [hsame] at hfound
      rw [c.tables s.key fun heq => hji (c.old j (heq ▸ hfound)), hfound]
  stored k j htbl := by
    by_cases hk : k = key
    · subst hk
      obtain ⟨rfl, hmem, hs⟩ := hkey j htbl
      exact ⟨hmem, hs⟩
    · rw [c.tables k hk] at htbl
      have hji : j ≠ i := fun hji => hk (c.only k (hji ▸ htbl))
      obtain ⟨hmem, s, hs, hsk⟩ := h.stored k j htbl
      have hsame := c.slots j hji
      rw [hs, Option.map_some] at hsame
      obtain ⟨t, ht, heq⟩ := Option.map_eq_some_iff.mp hsame
      exact ⟨(c.lists j hji _).mpr hmem, t, ht, (congrArg Prod.fst heq).trans hsk⟩
  blank j s hj hs := by
    by_cases hji : j = i
    · subst hji
      exact hfree s hj hs
    · obtain ⟨t, ht, hkey, -⟩ := c.slot hji hs
      have hblank := h.blank j t ((c.lists j hji _).mp hj) ht
      rw [Slot.blank, hkey] at hblank
      exact hblank

theorem contents : L'.contents tbl' =
    Function.update (L.contents tbl) key (L'.contents tbl' key) := by
  funext k
  by_cases hk : k = key
  · rw [hk, Function.update_self]
  · rw [Function.update_of_ne hk, c.contents_of_ne hk]

section
variable (h : L.Wf nodes tbl) (hL' : L'.Ok) (hchains : Chains Loc.slot L'.next Root.loc nodes')
include h hL' hchains

/-- The slot has come to the free list. -/
theorem freed (hi : i ∈ nodes' .free) (htbl : tbl' key = none)
    (hblank : ∀ s, L'.slots[i]? = some s → s.blank) :
    L'.Models (Function.update (L.contents tbl) key none) := by
  have hnone : L'.contents tbl' key = none := by
    rw [Layout.contents, htbl, Option.bind_none]
  refine ⟨nodes', tbl', c.wf h hL' hchains (fun _ => ⟨.free, hi⟩) ?_ ?_ ?_, ?_⟩
  · intro k s hk
    cases hchains.disjoint _ _ i hi hk
  · intro j hj
    cases htbl.symm.trans hj
  · exact fun s _ hs => hblank s hs
  · rw [c.contents, hnone]

/-- The slot has come to the chain of the key. -/
theorem filled (hi : i ∈ nodes' (.chain (hashOf key))) (htbl : tbl' key = some i) {data : Str}
    (hfields : L'.slots[i]?.map Slot.fields = some (key, data)) :
    L'.Models (Function.update (L.contents tbl) key (some data)) := by
  obtain ⟨s, hs, heq⟩ := Option.map_eq_some_iff.mp hfields
  have hkey : s.key = key := congrArg Prod.fst heq
  have hdata : s.data = data := congrArg Prod.snd heq
  have hsome : L'.contents tbl' key = some data := by
    rw [Layout.contents, htbl, Option.bind_some, hs, Option.map_some, hdata]
  refine ⟨nodes', tbl', c.wf h hL' hchains (fun _ => ⟨_, hi⟩) ?_ ?_ ?_, ?_⟩
  · intro k t hk ht
    cases hchains.disjoint _ _ i hi hk
    obtain rfl := Option.some.inj (hs.symm.trans ht)
    exact ⟨rfl, hkey, htbl⟩
  · intro j hj
    exact ⟨Option.some.inj (hj.symm.trans htbl), hi, s, hs, hkey⟩
  · intro t hfree
    cases hchains.disjoint _ _ i hi hfree
  · rw [c.contents, hsome]

end

end Change

end Layout

end UnixSys.Db

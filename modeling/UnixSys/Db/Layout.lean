import UnixSys.Db.Source
import Mathlib.Logic.Function.Basic
import Mathlib.Data.List.Basic

/-!
# Layout — what the two files hold

The index file is the free list pointer, the hash table and a newline, and then the index
records; the data file is the data records, in the same order. A `Layout` is their contents
without addresses: its links are numbers of slots, and a slot is an index record with its
data record. `idx` and `dat` are the files of a layout. Every offset depends on the lengths
of keys and data only, so that a link, or a slot of the same lengths, can be written in
place.
-/

namespace UnixSys.Db

/-- The places of the index file where a chain pointer stands. -/
inductive Loc where
  | free
  | head (h : Nat)
  | slot (i : Nat)
  deriving DecidableEq

structure Slot where
  next : Option Nat
  key : Str
  data : Str

structure Layout where
  free : Option Nat
  heads : List (Option Nat)
  slots : List Slot
  heads_length : heads.length = nhashDef

/-! ## Records -/

/-- An index record without its chain pointer and length; `off` is where its data is. -/
def Slot.text (s : Slot) (off : Nat) : Str := recordText s.key off (s.data.length + 1)

/-- An index record; `p` is its chain pointer. -/
def Slot.record (s : Slot) (p off : Nat) : Str :=
  padded ptrSz p ++ (padded idxlenSz (s.text off).length ++ s.text off)

def Slot.dat (s : Slot) : Str := s.data ++ [newline]

/-- The data records of slots. -/
def datBytes (slots : List Slot) : Str := slots.flatMap Slot.dat

/-- The index records of slots whose data starts at `off`. -/
def records (addr : Option Nat → Nat) : Nat → List Slot → Str
  | _, [] => []
  | off, s :: slots => s.record (addr s.next) off ++ records addr (off + s.dat.length) slots

/-- The length of the index records of slots whose data starts at `off`. -/
def span : Nat → List Slot → Nat
  | _, [] => 0
  | off, s :: slots => ptrSz + idxlenSz + (s.text off).length + span (off + s.dat.length) slots

/-- The lengths of the key and of the data. -/
def Slot.size (s : Slot) : Nat × Nat := (s.key.length, s.data.length)

/-- Where the index records start. -/
def headerSize : Nat := (nhashDef + 1) * ptrSz + 1

@[simp] theorem datBytes_nil : datBytes [] = [] := rfl

@[simp] theorem datBytes_cons (s : Slot) (slots : List Slot) :
    datBytes (s :: slots) = s.dat ++ datBytes slots := rfl

@[simp] theorem datBytes_append (slots slots' : List Slot) :
    datBytes (slots ++ slots') = datBytes slots ++ datBytes slots' := by
  simp [datBytes]

@[simp] theorem length_dat (s : Slot) : s.dat.length = s.data.length + 1 := by
  simp [Slot.dat]

theorem length_text (s : Slot) (off : Nat) : (s.text off).length =
    s.key.length + (decimal off).length + (decimal (s.data.length + 1)).length + 3 := by
  simp [Slot.text, recordText, signed_natCast]
  omega

theorem records_append (addr : Option Nat → Nat) (off : Nat) (slots slots' : List Slot) :
    records addr off (slots ++ slots') =
      records addr off slots ++ records addr (off + (datBytes slots).length) slots' := by
  induction slots generalizing off with
  | nil => rfl
  | cons s slots ih =>
      rw [List.cons_append, records, ih, records, datBytes_cons, List.length_append,
        List.append_assoc, Nat.add_assoc]

theorem span_append (off : Nat) (slots slots' : List Slot) : span off (slots ++ slots') =
    span off slots + span (off + (datBytes slots).length) slots' := by
  induction slots generalizing off with
  | nil => simp [span]
  | cons s slots ih =>
      rw [List.cons_append, span, ih, span, datBytes_cons, List.length_append]
      simp only [Nat.add_assoc]

section
variable {slots slots' : List Slot} (h : slots.map Slot.size = slots'.map Slot.size)
include h

theorem length_datBytes_congr : (datBytes slots).length = (datBytes slots').length := by
  induction slots generalizing slots' with
  | nil =>
      cases slots' with
      | nil => rfl
      | cons _ _ => cases h
  | cons s slots ih =>
      cases slots' with
      | nil => cases h
      | cons s' slots' =>
          obtain ⟨hs, hslots⟩ := List.cons_eq_cons.mp h
          have hdata : s.data.length = s'.data.length := congrArg Prod.snd hs
          simp [ih hslots, hdata]

theorem span_congr (off : Nat) : span off slots = span off slots' := by
  induction slots generalizing slots' off with
  | nil =>
      cases slots' with
      | nil => rfl
      | cons _ _ => cases h
  | cons s slots ih =>
      cases slots' with
      | nil => cases h
      | cons s' slots' =>
          obtain ⟨hs, hslots⟩ := List.cons_eq_cons.mp h
          have hkey : s.key.length = s'.key.length := congrArg Prod.fst hs
          have hdata : s.data.length = s'.data.length := congrArg Prod.snd hs
          rw [span, span, length_text, length_text, length_dat, length_dat, hkey, hdata,
            ih hslots]

end

/-! ## The files of a layout -/

/-- Where the index record of slot `i` starts. -/
def idxOff (slots : List Slot) (i : Nat) : Nat := headerSize + span 0 (slots.take i)

/-- Where the data record of slot `i` starts. -/
def datOff (slots : List Slot) (i : Nat) : Nat := (datBytes (slots.take i)).length

namespace Layout

variable (L : Layout)

/-- The chain pointer of a link. -/
def addr : Option Nat → Nat
  | none => 0
  | some i => idxOff L.slots i

def idx : Str :=
  padded ptrSz (L.addr L.free) ++ (L.heads.flatMap fun p => padded ptrSz (L.addr p)) ++
    [newline] ++ records L.addr 0 L.slots

def dat : Str := datBytes L.slots

/-- The link at a place. -/
def next : Loc → Option Nat
  | .free => L.free
  | .head h => L.heads[h]?.join
  | .slot i => L.slots[i]?.bind Slot.next

/-- The offset of a place. -/
def offset : Loc → Nat
  | .free => 0
  | .head h => (h + 1) * ptrSz
  | .slot i => idxOff L.slots i

def Has : Loc → Prop
  | .free => True
  | .head h => h < nhashDef
  | .slot i => i < L.slots.length

/-- The layout with another link at a place. -/
def link (loc : Loc) (p : Option Nat) : Layout :=
  match loc with
  | .free => { L with free := p }
  | .head h => { L with
      heads := L.heads.set h p
      heads_length := by rw [List.length_set, L.heads_length] }
  | .slot i => { L with slots := L.slots.modify i fun s => { s with next := p } }

/-- The layout with another slot `i`. -/
def write (i : Nat) (s : Slot) : Layout := { L with slots := L.slots.set i s }

/-- The layout with one more slot. -/
def append (s : Slot) : Layout := { L with slots := L.slots ++ [s] }

/-- Links lead to slots, at offsets of seven digits, and the lengths of the index records
have four. -/
structure Fits : Prop where
  links : ∀ loc i, L.next loc = some i → i < L.slots.length ∧ (L.addr (some i) : Int) ≤ ptrMax
  texts : ∀ i (s : Slot), L.slots[i]? = some s → (s.text (datOff L.slots i)).length ≤ idxlenMax

variable {L}

theorem next_link {loc : Loc} (h : L.Has loc) (p : Option Nat) :
    (L.link loc p).next = Function.update L.next loc p := by
  funext loc'
  by_cases heq : loc' = loc
  · subst heq
    rw [Function.update_self]
    cases loc' with
    | free => rfl
    | head k =>
        have hlt : k < L.heads.length := L.heads_length ▸ h
        simp [link, next, hlt]
    | slot i =>
        have hlt : i < L.slots.length := h
        simp [link, next, hlt]
  · rw [Function.update_of_ne heq]
    cases loc with
    | free => cases loc' with
      | free => exact absurd rfl heq
      | head _ => rfl
      | slot _ => rfl
    | head k => cases loc' with
      | free => rfl
      | head k' =>
          have hne : k ≠ k' := fun he => heq (he ▸ rfl)
          simp [link, next, hne]
      | slot _ => rfl
    | slot i => cases loc' with
      | free => rfl
      | head _ => rfl
      | slot i' =>
          have hne : i ≠ i' := fun he => heq (he ▸ rfl)
          simp [link, next, hne]

/-! ## Offsets -/

section
variable {i : Nat} {s : Slot}

theorem split_slots (h : L.slots[i]? = some s) :
    L.slots = L.slots.take i ++ s :: L.slots.drop (i + 1) := by
  obtain ⟨hi, rfl⟩ := List.getElem?_eq_some_iff.mp h
  rw [← List.drop_eq_getElem_cons hi, List.take_append_drop]

theorem write_slots (h : L.slots[i]? = some s) (s' : Slot) :
    (L.write i s').slots = L.slots.take i ++ s' :: L.slots.drop (i + 1) := by
  obtain ⟨hi, -⟩ := List.getElem?_eq_some_iff.mp h
  exact List.set_eq_take_append_cons_drop.trans (if_pos hi)

theorem sizes_write (h : L.slots[i]? = some s) {s' : Slot} (hs : s'.size = s.size) :
    (L.write i s').slots.map Slot.size = L.slots.map Slot.size := by
  rw [write_slots h, List.map_append, List.map_cons, hs, ← List.map_cons, ← List.map_append,
    ← split_slots h]

theorem idxOff_congr {slots slots' : List Slot} (h : slots.map Slot.size = slots'.map Slot.size)
    (j : Nat) : idxOff slots j = idxOff slots' j := by
  have htake : (slots.take j).map Slot.size = (slots'.take j).map Slot.size := by
    rw [List.map_take, h, List.map_take]
  rw [idxOff, idxOff, span_congr htake]

theorem datOff_congr {slots slots' : List Slot} (h : slots.map Slot.size = slots'.map Slot.size)
    (j : Nat) : datOff slots j = datOff slots' j := by
  have htake : (slots.take j).map Slot.size = (slots'.take j).map Slot.size := by
    rw [List.map_take, h, List.map_take]
  exact length_datBytes_congr htake

theorem addr_congr {L' : Layout} (h : L'.slots.map Slot.size = L.slots.map Slot.size) :
    L'.addr = L.addr := by
  funext p
  cases p with
  | none => rfl
  | some j => exact idxOff_congr h j

/-- The next record starts where this one ends. -/
theorem idxOff_succ (h : L.slots[i]? = some s) : idxOff L.slots (i + 1) =
    idxOff L.slots i + (ptrSz + idxlenSz + (s.text (datOff L.slots i)).length) := by
  have htake : L.slots.take (i + 1) = L.slots.take i ++ [s] := by
    rw [List.take_add_one, h]
    rfl
  rw [idxOff, idxOff, htake, span_append, span, span, Nat.zero_add, Nat.add_zero]
  exact (Nat.add_assoc _ _ _).symm

/-- A link in a slot is the slot written anew. -/
theorem link_slot (h : L.slots[i]? = some s) (p : Option Nat) :
    L.link (.slot i) p = L.write i { s with next := p } := by
  obtain ⟨hi, rfl⟩ := List.getElem?_eq_some_iff.mp h
  have hmodify : L.slots.modify i (fun s => { s with next := p }) =
      L.slots.set i { L.slots[i] with next := p } := by
    rw [List.modify_eq_take_cons_drop hi, List.set_eq_take_append_cons_drop, if_pos hi]
  rw [link, write]
  congr 1

theorem sizes_link (loc : Loc) (p : Option Nat) :
    (L.link loc p).slots.map Slot.size = L.slots.map Slot.size := by
  cases loc with
  | free => rfl
  | head h => rfl
  | slot i =>
      cases h : L.slots[i]? with
      | none =>
          have hi := List.getElem?_eq_none_iff.mp h
          rw [link, List.modify_eq_self hi]
      | some s =>
          rw [link_slot h]
          exact sizes_write h rfl

@[simp] theorem addr_link (loc : Loc) (p : Option Nat) : (L.link loc p).addr = L.addr :=
  addr_congr (sizes_link loc p)

@[simp] theorem addr_none : L.addr none = 0 := rfl

theorem headerSize_le_addr (i : Nat) : headerSize ≤ L.addr (some i) := Nat.le_add_right _ _

/-- The length of the index records, when every part of them has the length it should. -/
theorem length_records {addr : Option Nat → Nat} {off : Nat} {slots : List Slot}
    (hptr : ∀ s ∈ slots, (addr s.next : Int) ≤ ptrMax)
    (htext : ∀ i (s : Slot), slots[i]? = some s →
      (s.text (off + (datBytes (slots.take i)).length)).length ≤ idxlenMax) :
    (records addr off slots).length = span off slots := by
  induction slots generalizing off with
  | nil => rfl
  | cons s slots ih =>
      have hp : (padded ptrSz (addr s.next)).length = ptrSz := by
        have := hptr s List.mem_cons_self
        refine length_padded (by decide) ?_
        simp only [ptrMax, ptrSz] at this ⊢
        omega
      have ht : (padded idxlenSz (s.text off).length).length = idxlenSz := by
        have := htext 0 s rfl
        refine length_padded (by decide) ?_
        simp only [List.take_zero, datBytes_nil, List.length_nil, Nat.add_zero, idxlenMax] at this
        simp only [idxlenSz]
        omega
      rw [records, span, List.length_append, Slot.record, List.length_append, List.length_append,
        hp, ht, ih (fun s' hs' => hptr s' (List.mem_cons_of_mem s hs'))]
      · omega
      · intro j s' hs'
        have := htext (j + 1) s' hs'
        rwa [List.take_succ_cons, datBytes_cons, List.length_append, ← Nat.add_assoc] at this

end

end Layout

end UnixSys.Db

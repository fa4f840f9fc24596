import Mathlib.Logic.Function.Basic
import Mathlib.Data.List.Basic
import Mathlib.Data.List.Nodup

/-!
# Chains — singly linked lists in a table of links

A place holds a link to a node or to none, and every node is a place for the next link.
`Chain next a l` says that the links lead from the place `a` through the nodes `l`. A chain
is changed at its front by two links, and a node is taken out of it by one. `Chains` are
chains from several places that have no node in common; a node moves from one to another by
three links.
-/

namespace UnixSys

/-- From `a` on the links are the nodes of `l`, and then none. -/
def Chain {α ν : Type} (node : ν → α) (next : α → Option ν) : α → List ν → Prop
  | a, [] => next a = none
  | a, i :: l => next a = some i ∧ Chain node next (node i) l

namespace Chain

variable {α ν : Type} {node : ν → α} {next next' : α → Option ν} {a b : α} {i : ν} {l l' : List ν}

/-- The nodes of a chain are determined by where it starts. -/
theorem unique (h : Chain node next a l) (h' : Chain node next a l') : l = l' := by
  induction l generalizing a l' with
  | nil =>
      cases l' with
      | nil => rfl
      | cons i l' => cases h.symm.trans h'.1
  | cons i l ih =>
      cases l' with
      | nil => cases h'.symm.trans h.1
      | cons j l' =>
          obtain rfl : i = j := Option.some.inj (h.1.symm.trans h'.1)
          rw [ih h.2 h'.2]

/-- Links that agree at the start and at every node of a chain. -/
theorem congr (h : Chain node next a l) (ha : next' a = next a)
    (hl : ∀ i ∈ l, next' (node i) = next (node i)) : Chain node next' a l := by
  induction l generalizing a with
  | nil => exact ha.trans h
  | cons i l ih =>
      refine ⟨ha.trans h.1, ih h.2 (hl i List.mem_cons_self) ?_⟩
      exact fun j hj => hl j (List.mem_cons_of_mem i hj)

/-- The place whose link leads past the nodes of `l`. -/
def last (node : ν → α) (a : α) (l : List ν) : α := (l.getLast?.map node).getD a

@[simp] theorem last_nil : last node a [] = a := rfl

theorem last_cons : last node a (i :: l) = last node (node i) l := by
  rw [last, last, List.getLast?_cons]
  cases l.getLast? <;> rfl

theorem last_mem : last node a l = a ∨ ∃ j ∈ l, last node a l = node j := by
  rw [last]
  cases hl : l.getLast? with
  | none => exact .inl rfl
  | some j => exact .inr ⟨j, List.mem_of_getLast? hl, rfl⟩

/-- A chain is the chain from the last of its first nodes. -/
theorem drop (h : Chain node next a (l ++ l')) : Chain node next (last node a l) l' := by
  induction l generalizing a with
  | nil => exact h
  | cons i l ih =>
      rw [last_cons]
      exact ih h.2

variable [DecidableEq α]

/-- A link at a place that the chain does not use. -/
theorem update (h : Chain node next a l) (ha : b ≠ a) (hl : ∀ i ∈ l, b ≠ node i)
    (p : Option ν) : Chain node (Function.update next b p) a l :=
  h.congr (Function.update_of_ne ha.symm p next) fun i hi =>
    Function.update_of_ne (hl i hi).symm p next

/-- A node in front of a chain: its link is that of the start, and then the start is linked
to it. -/
theorem push (h : Chain node next a l) (hia : node i ≠ a) (hl : ∀ j ∈ l, node i ≠ node j)
    (hal : ∀ j ∈ l, a ≠ node j) :
    Chain node (Function.update (Function.update next (node i) (next a)) a (some i)) a
      (i :: l) := by
  refine ⟨Function.update_self a _ _, ?_⟩
  cases l with
  | nil =>
      show Function.update (Function.update next (node i) (next a)) a (some i) (node i) = none
      rw [Function.update_of_ne hia, Function.update_self]
      exact h
  | cons j l =>
      refine ⟨?_, ?_⟩
      · rw [Function.update_of_ne hia, Function.update_self]
        exact h.1
      · have htail : Chain node (Function.update next (node i) (next a)) (node j) l :=
          h.2.update (hl j List.mem_cons_self)
            (fun k hk => hl k (List.mem_cons_of_mem j hk)) _
        exact htail.update (hal j List.mem_cons_self)
          (fun k hk => hal k (List.mem_cons_of_mem j hk)) _

/-- A node is taken out of a chain by the link that led to it. -/
theorem unlink (h : Chain node next a (l ++ i :: l'))
    (hnodup : ((l ++ i :: l').map node).Nodup) (ha : ∀ j ∈ l ++ i :: l', a ≠ node j) :
    Chain node (Function.update next (last node a l) (next (node i))) a (l ++ l') := by
  induction l generalizing a with
  | nil =>
      rw [last_nil]
      cases l' with
      | nil =>
          show Function.update next a (next (node i)) a = none
          rw [Function.update_self]
          exact h.2
      | cons j l' =>
          refine ⟨?_, ?_⟩
          · rw [Function.update_self]
            exact h.2.1
          · have hmem : ∀ k ∈ j :: l', a ≠ node k := fun k hk => ha k (by simp at hk ⊢; tauto)
            exact h.2.2.update (hmem j List.mem_cons_self)
              (fun k hk => hmem k (List.mem_cons_of_mem j hk)) _
  | cons j l ih =>
      rw [last_cons]
      rw [List.cons_append, List.map_cons, List.nodup_cons] at hnodup
      have hne : ∀ k ∈ l ++ i :: l', node j ≠ node k := by
        intro k hk heq
        exact hnodup.1 (heq ▸ List.mem_map_of_mem hk)
      refine ⟨?_, ih h.2 hnodup.2 hne⟩
      rw [Function.update_of_ne, h.1]
      -- the link that is changed is behind `a`
      have hlast : last node (node j) l = node j ∨ ∃ k ∈ l, last node (node j) l = node k :=
        last_mem
      rcases hlast with heq | ⟨k, hk, heq⟩
      · rw [heq]
        exact ha j List.mem_cons_self
      · rw [heq]
        exact ha k (List.mem_cons_of_mem j (List.mem_append_left _ hk))

end Chain

/-! ## Several chains -/

/-- The chains from the places `root r`, which have no node in common. -/
structure Chains {α ν ρ : Type} (node : ν → α) (next : α → Option ν) (root : ρ → α)
    (nodes : ρ → List ν) : Prop where
  chain : ∀ r, Chain node next (root r) (nodes r)
  nodup : ∀ r, (nodes r).Nodup
  disjoint : ∀ r r' i, i ∈ nodes r → i ∈ nodes r' → r = r'

namespace Chains

variable {α ν ρ : Type} {node : ν → α} {next : α → Option ν} {root : ρ → α} {nodes : ρ → List ν}
  {r r' : ρ} {i : ν} {l l' : List ν} (hnode : Function.Injective node)
  (hroot : Function.Injective root) (hne : ∀ r i, root r ≠ node i)

section
include hne

/-- The place of the link to a node is not that of a node outside of its chain. -/
theorem last_ne (hl : i ∉ l) (hnode : Function.Injective node) :
    Chain.last node (root r) l ≠ node i := by
  have hlast : Chain.last node (root r) l = root r ∨
      ∃ j ∈ l, Chain.last node (root r) l = node j := Chain.last_mem
  rcases hlast with heq | ⟨j, hj, heq⟩
  · rw [heq]
    exact hne r i
  · rw [heq]
    exact fun hji => hl (hnode hji ▸ hj)

/-- Nor is it the start of another chain. -/
theorem last_ne_root (hroot : Function.Injective root) (hr : r ≠ r') :
    Chain.last node (root r) l ≠ root r' := by
  have hlast : Chain.last node (root r) l = root r ∨
      ∃ j ∈ l, Chain.last node (root r) l = node j := Chain.last_mem
  rcases hlast with heq | ⟨j, -, heq⟩
  · rw [heq]
    exact fun he => hr (hroot he)
  · rw [heq]
    exact (hne r' j).symm

end

/-- The chains once `i` has moved from that of `r`, where `l` is left, to that of `r'`. -/
def moved [DecidableEq ρ] (nodes : ρ → List ν) (r : ρ) (l : List ν) (r' : ρ) (i : ν) :
    ρ → List ν :=
  Function.update (Function.update nodes r l) r' (i :: nodes r')

/-- The other nodes are in the chains that they were in. -/
theorem mem_moved [DecidableEq ρ] (hr : nodes r = l ++ i :: l') {j : ν} (hj : j ≠ i)
    (r' r'' : ρ) : j ∈ moved nodes r (l ++ l') r' i r'' ↔ j ∈ nodes r'' := by
  rw [moved, Function.update_apply]
  split
  · next heq => simp [heq, hj]
  · rw [Function.update_apply]
    split
    · next heq => simp [heq, hr, hj]
    · rfl

variable [DecidableEq α]

include hnode hne in
/-- A link in a node of no chain. -/
theorem update (h : Chains node next root nodes) (hi : ∀ r, i ∉ nodes r) (p : Option ν) :
    Chains node (Function.update next (node i) p) root nodes where
  chain r := (h.chain r).update (hne r i).symm
    (fun _ hj heq => hi r (hnode heq ▸ hj)) p
  nodup := h.nodup
  disjoint := h.disjoint

variable [DecidableEq ρ]
include hnode hroot hne

/-- A node of no chain in front of one of them. -/
theorem push (h : Chains node next root nodes) (hi : ∀ r, i ∉ nodes r) (r : ρ) :
    Chains node (Function.update (Function.update next (node i) (next (root r))) (root r) (some i))
      root (Function.update nodes r (i :: nodes r)) where
  chain r' := by
    by_cases heq : r' = r
    · subst heq
      rw [Function.update_self]
      exact (h.chain r').push (hne r' i).symm (fun j hj he => hi r' (hnode he ▸ hj))
        fun j _ => hne r' j
    · rw [Function.update_of_ne heq]
      have hother := (h.update hnode hne hi (next (root r))).chain r'
      exact hother.update (fun he => heq (hroot he).symm) (fun j _ => hne r j) _
  nodup r' := by
    by_cases heq : r' = r
    · subst heq
      rw [Function.update_self]
      exact List.nodup_cons.mpr ⟨hi r', h.nodup r'⟩
    · rw [Function.update_of_ne heq]
      exact h.nodup r'
  disjoint r₁ r₂ j h₁ h₂ := by
    rw [Function.update_apply] at h₁ h₂
    split at h₁ <;> split at h₂
    · simp_all
    · rcases List.mem_cons.mp h₁ with rfl | h₁
      · exact absurd h₂ (hi r₂)
      · simp_all [h.disjoint _ _ j h₁ h₂]
    · rcases List.mem_cons.mp h₂ with rfl | h₂
      · exact absurd h₁ (hi r₁)
      · simp_all [h.disjoint _ _ j h₁ h₂]
    · exact h.disjoint r₁ r₂ j h₁ h₂

/-- A node taken out of its chain. -/
theorem unlink (h : Chains node next root nodes) (hr : nodes r = l ++ i :: l') :
    Chains node (Function.update next (Chain.last node (root r) l) (next (node i))) root
      (Function.update nodes r (l ++ l')) where
  chain r' := by
    have hchain := h.chain r'
    by_cases heq : r' = r
    · subst heq
      have hnodup : ((l ++ i :: l').map node).Nodup :=
        List.Nodup.map hnode (hr ▸ h.nodup r')
      rw [hr] at hchain
      rw [Function.update_self]
      exact hchain.unlink hnodup fun j _ => hne r' j
    · rw [Function.update_of_ne heq]
      have hlast : Chain.last node (root r) l = root r ∨
          ∃ j ∈ l, Chain.last node (root r) l = node j := Chain.last_mem
      rcases hlast with hl | ⟨j, hj, hl⟩
      · rw [hl]
        exact hchain.update (fun he => heq (hroot he).symm) (fun k _ => hne r k) _
      · have hjr : j ∈ nodes r := hr ▸ List.mem_append_left _ hj
        rw [hl]
        exact hchain.update (hne r' j).symm
          (fun k hk he => heq (h.disjoint r' r j (hnode he ▸ hk) hjr)) _
  nodup r' := by
    by_cases heq : r' = r
    · subst heq
      rw [Function.update_self]
      have hnodup : (l ++ i :: l').Nodup := hr ▸ h.nodup r'
      exact hnodup.sublist ((List.sublist_cons_self i l').append_left l)
    · rw [Function.update_of_ne heq]
      exact h.nodup r'
  disjoint r₁ r₂ j h₁ h₂ := by
    have hsub : ∀ r', j ∈ Function.update nodes r (l ++ l') r' → j ∈ nodes r' := by
      intro r' hj
      rw [Function.update_apply] at hj
      split at hj
      · next heq =>
          rw [heq, hr]
          exact ((List.sublist_cons_self i l').append_left l).subset hj
      · exact hj
    exact h.disjoint r₁ r₂ j (hsub r₁ h₁) (hsub r₂ h₂)

/-- A node taken out of its chain, and then put in front of another. -/
theorem move (h : Chains node next root nodes) (hr : nodes r = l ++ i :: l') (r' : ρ)
    (hrr : r' ≠ r) :
    Chains node
      (Function.update (Function.update
        (Function.update next (Chain.last node (root r) l) (next (node i)))
        (node i) (next (root r'))) (root r') (some i))
      root (moved nodes r (l ++ l') r' i) := by
  have hunlink := h.unlink hnode hroot hne hr
  have hnodup : (l ++ i :: l').Nodup := hr ▸ h.nodup r
  have hnotin : ∀ r'', i ∉ Function.update nodes r (l ++ l') r'' := by
    intro r'' hi
    rw [Function.update_apply] at hi
    split at hi
    · exact (List.nodup_middle.mp hnodup).notMem hi
    · next hne =>
        exact hne (h.disjoint r'' r i hi (hr ▸ List.mem_append_right l List.mem_cons_self))
  have hpush := hunlink.push hnode hroot hne hnotin r'
  rwa [Function.update_of_ne hrr,
    Function.update_of_ne (last_ne_root hne hroot hrr.symm).symm] at hpush

/-- The same, with the link into the old chain made last. -/
theorem move_last (h : Chains node next root nodes) (hr : nodes r = l ++ i :: l') (r' : ρ)
    (hrr : r' ≠ r) :
    Chains node
      (Function.update (Function.update
        (Function.update next (node i) (next (root r'))) (root r') (some i))
        (Chain.last node (root r) l) (next (node i)))
      root (moved nodes r (l ++ l') r' i) := by
  have hmove := h.move hnode hroot hne hr r' hrr
  have hnodup : (l ++ i :: l').Nodup := hr ▸ h.nodup r
  have hl : i ∉ l := fun hi =>
    (List.disjoint_of_nodup_append hnodup) hi List.mem_cons_self
  rwa [Function.update_comm (last_ne hne hl hnode),
    Function.update_comm (last_ne_root hne hroot hrr.symm)] at hmove

end Chains

end UnixSys

import Mathlib.Data.List.DropRight

/-!
# Pieces — cutting a list at separators

`pieces p s` is the list of maximal runs of elements of `s` that are not
separators (`p`). It is Lean's `splitOnP` without the empty runs: what `strtok`
visits, and what splitting a line into words should give.
-/

namespace UnixSys

variable {α : Type} (p : α → Bool)

/-- The maximal non-empty runs of elements that do not satisfy `p`. -/
def pieces (s : List α) : List (List α) := (s.splitOnP p).filter (!·.isEmpty)

@[simp] theorem pieces_nil : pieces p ([] : List α) = [] := by
  simp [pieces, List.splitOnP_nil]

theorem pieces_cons_sep {c : α} (s : List α) (h : p c = true) :
    pieces p (c :: s) = pieces p s := by
  simp [pieces, List.splitOnP_cons_eq_if_modifyHead, h]

theorem pieces_of_forall {s : List α} (hs : s ≠ []) (h : ∀ c ∈ s, p c = false) :
    pieces p s = [s] := by
  simp [pieces, List.splitOnP_eq_singleton h, hs]

theorem pieces_append_sep {c : α} (s t : List α) (h : p c = true) :
    pieces p (s ++ c :: t) = pieces p s ++ pieces p t := by
  simp [pieces, List.splitOnP_append_cons _ _ h, List.filter_append]

theorem pieces_dropWhile (s : List α) : pieces p (s.dropWhile p) = pieces p s := by
  induction s with
  | nil => rfl
  | cons c s ih =>
      by_cases h : p c = true
      · rw [List.dropWhile_cons_of_pos h, ih, pieces_cons_sep p s h]
      · rw [List.dropWhile_cons_of_neg h]

theorem forall_mem_takeWhile_not (s : List α) :
    ∀ c ∈ s.takeWhile (!p ·), p c = false := by
  intro c hc
  simpa using List.mem_takeWhile_imp hc

/-- A list that starts with a non-separator: its first piece is the run up to
the next separator. -/
theorem pieces_cons_not_sep {c : α} (s : List α) (h : p c = false) :
    pieces p (c :: s) = (c :: s).takeWhile (!p ·) :: pieces p ((c :: s).dropWhile (!p ·)) := by
  have hne : (c :: s).takeWhile (!p ·) ≠ [] := by
    simp [h]
  have hall := forall_mem_takeWhile_not p (c :: s)
  have hsplit := List.takeWhile_append_dropWhile (p := (!p ·)) (l := c :: s)
  cases hrest : (c :: s).dropWhile (!p ·) with
  | nil =>
      rw [hrest, List.append_nil] at hsplit
      rw [hsplit] at hall hne ⊢
      simp [pieces_of_forall p hne hall]
  | cons d t =>
      have hd : p d = true := by
        have := List.head_dropWhile_not (p := (!p ·)) (l := c :: s) (by simp [hrest])
        simpa [hrest] using this
      calc pieces p (c :: s)
          = pieces p ((c :: s).takeWhile (!p ·) ++ d :: t) := by rw [← hrest, hsplit]
        _ = (c :: s).takeWhile (!p ·) :: pieces p (d :: t) := by
            rw [pieces_append_sep p _ _ hd, pieces_of_forall p hne hall,
              pieces_cons_sep p t hd, List.singleton_append]

theorem mem_pieces {s w : List α} (hw : w ∈ pieces p s) :
    w ≠ [] ∧ ∀ c ∈ w, p c = false := by
  refine ⟨by simpa using (List.mem_filter.mp hw).2, ?_⟩
  induction hn : s.length using Nat.strong_induction_on generalizing s with
  | _ n ih =>
      cases s with
      | nil => simp at hw
      | cons c s =>
          by_cases hc : p c = true
          · rw [pieces_cons_sep p s hc] at hw
            exact ih s.length (by simp [← hn]) hw rfl
          · rw [pieces_cons_not_sep p s (by simpa using hc)] at hw
            rcases List.mem_cons.mp hw with rfl | hw
            · exact forall_mem_takeWhile_not p _
            · refine ih _ ?_ hw rfl
              have := (List.dropWhile_suffix (!p ·) (l := s)).length_le
              simp [hc, ← hn]
              omega

theorem pieces_eq_nil_iff {s : List α} : pieces p s = [] ↔ ∀ c ∈ s, p c = true := by
  induction s with
  | nil => simp
  | cons c s ih =>
      by_cases hc : p c = true
      · simp [pieces_cons_sep p s hc, ih, hc]
      · rw [pieces_cons_not_sep p s (by simpa using hc)]
        simp [hc]

/-- Together the pieces are the elements that are no separators. -/
theorem flatten_pieces (s : List α) : (pieces p s).flatten = s.filter (!p ·) := by
  have hcut : ∀ s : List α, (s.splitOnP p).flatten = s.filter (!p ·) := by
    intro s
    induction s with
    | nil => rfl
    | cons c s ih =>
        rw [List.splitOnP_cons_eq_if_modifyHead]
        by_cases hc : p c = true
        · simp [hc, ih]
        · obtain ⟨t, ts, hts⟩ := List.exists_cons_of_ne_nil (List.splitOnP_ne_nil p s)
          rw [hts] at ih ⊢
          simp [hc, ← ih]
  rw [pieces, ← hcut]
  exact List.flatten_filter_not_isEmpty

/-- Separators at either end do not count. -/
theorem pieces_append_seps {s t u : List α} (hs : ∀ c ∈ s, p c = true)
    (hu : ∀ c ∈ u, p c = true) : pieces p (s ++ (t ++ u)) = pieces p t := by
  induction s with
  | nil =>
      cases u with
      | nil => rw [List.nil_append, List.append_nil]
      | cons c u =>
          have hnil : pieces p u = [] := (pieces_eq_nil_iff p).mpr fun d hd =>
            hu d (List.mem_cons_of_mem c hd)
          rw [List.nil_append, pieces_append_sep p t u (hu c List.mem_cons_self), hnil,
            List.append_nil]
  | cons c s ih =>
      rw [List.cons_append, pieces_cons_sep p _ (hs c List.mem_cons_self)]
      exact ih fun d hd => hs d (List.mem_cons_of_mem c hd)

theorem length_pieces_le (s : List α) : (pieces p s).length ≤ s.length := by
  have hcount : ∀ ws : List (List α), (∀ w ∈ ws, w ≠ []) → ws.length ≤ ws.flatten.length := by
    intro ws hws
    induction ws with
    | nil => exact Nat.zero_le _
    | cons w ws ih =>
        have hpos := List.length_pos_iff.mpr (hws w List.mem_cons_self)
        have := ih fun v hv => hws v (List.mem_cons_of_mem w hv)
        rw [List.flatten_cons, List.length_append, List.length_cons]
        omega
  calc (pieces p s).length
      ≤ (pieces p s).flatten.length := hcount _ fun w hw => (mem_pieces p hw).1
    _ = (s.filter (!p ·)).length := by rw [flatten_pieces]
    _ ≤ s.length := List.length_filter_le _ s

end UnixSys
